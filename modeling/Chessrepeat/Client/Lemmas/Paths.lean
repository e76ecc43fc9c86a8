import Chessrepeat.Client.Tree

/-!
# Paths and the trees they lead through

A path that leads somewhere in a tree with ids of two units has an even length, and there reading it id by id
is the same as reading it unit by unit.
-/

namespace Chessrepeat.Client

open Lib

variable {Card : Type}

/-! ## Reading a path -/

@[simp] theorem flatten_steps (path : JsString) : (steps path).flatten = path := by
  induction path using steps.induct with
  | case1 => rfl
  | case2 u => rfl
  | case3 u v path ih => simp [steps, ih]

theorem steps_injective {p q : JsString} (h : steps p = steps q) : p = q := by
  rw [← flatten_steps p, h, flatten_steps]

theorem steps_append {p : JsString} (hp : p.length % 2 = 0) (q : JsString) : steps (p ++ q) = steps p ++ steps q := by
  induction p using steps.induct with
  | case1 => rfl
  | case2 u => simp at hp
  | case3 u v p ih =>
      have hp' : p.length % 2 = 0 := by simp only [List.length_cons] at hp; omega
      simp [steps, ih hp']

theorem steps_id {id : JsString} (h : id.length = 2) : steps id = [id] := by
  match id, h with
  | [u, v], _ => rfl

theorem steps_append_id {p id : JsString} (hp : p.length % 2 = 0) (h : id.length = 2) :
    steps (p ++ id) = steps p ++ [id] := by
  rw [steps_append hp, steps_id h]

theorem steps_flatten {ks : List JsString} (h : ∀ k ∈ ks, k.length = 2) : steps ks.flatten = ks := by
  induction ks with
  | nil => rfl
  | cons k ks ih =>
      have hk := h k List.mem_cons_self
      rw [List.flatten_cons, steps_append (by omega), steps_id hk, ih fun j hj => h j (List.mem_cons_of_mem _ hj),
        List.singleton_append]

theorem length_flatten {ks : List JsString} (h : ∀ k ∈ ks, k.length = 2) : ks.flatten.length = 2 * ks.length := by
  induction ks with
  | nil => rfl
  | cons k ks ih =>
      have hk := h k List.mem_cons_self
      have := ih fun j hj => h j (List.mem_cons_of_mem _ hj)
      simp only [List.flatten_cons, List.length_append, List.length_cons]
      omega

theorem steps_prefix_iff {p q : JsString} (hp : p.length % 2 = 0) : steps p <+: steps q ↔ p <+: q := by
  constructor
  · rintro ⟨ks, hk⟩
    have := congrArg List.flatten hk
    rw [List.flatten_append, flatten_steps, flatten_steps] at this
    exact ⟨_, this⟩
  · rintro ⟨r, rfl⟩
    exact ⟨steps r, (steps_append hp r).symm⟩

@[simp] theorem contains_iff {p q : JsString} : contains p q = true ↔ q <+: p := List.isPrefixOf_iff_prefix

@[simp] theorem init_append_last (path : JsString) : init path ++ last path = path := List.take_append_drop _ _

theorem length_init (path : JsString) : (init path).length = path.length - 2 := by
  simp [init]

theorem steps_eq_concat {path : JsString} (h0 : path ≠ []) (h : path.length % 2 = 0) :
    steps path = steps (init path) ++ [last path] := by
  have hlen : 0 < path.length := List.length_pos_iff.mpr h0
  conv_lhs => rw [← init_append_last path]
  exact steps_append_id (by rw [length_init]; omega) (by simp only [last, List.length_drop]; omega)

/-! ## Trees whose ids have two units -/

/-- The ids below the root have two units. -/
def TwoUnits (root : TrainableNode Card) : Prop := ∀ n ∈ Rose.labelsList root.children, n.id.length = 2

instance (root : TrainableNode Card) : Decidable (TwoUnits root) := by delta TwoUnits; infer_instance

theorem TwoUnits.child {root c : TrainableNode Card} (h : TwoUnits root) (hc : c ∈ root.children) : TwoUnits c :=
  Rose.Below.child h hc

theorem TwoUnits.id_child {root c : TrainableNode Card} (h : TwoUnits root) (hc : c ∈ root.children) :
    c.label.id.length = 2 :=
  Rose.Below.label h hc

theorem TwoUnits.node {root n : TrainableNode Card} (h : TwoUnits root) (hn : n ∈ root.nodes) : TwoUnits n :=
  Rose.Below.node h hn

theorem TwoUnits.length_key {root n : TrainableNode Card} {ks : List JsString} (h : TwoUnits root)
    (hn : Rose.at? Object.id root ks = some n) : ∀ k ∈ ks, k.length = 2 :=
  @Rose.Below.keys _ _ Object.id _ (fun k => k.length = 2) _ _ _ h hn

theorem TwoUnits.even {root n : TrainableNode Card} {path : JsString} (h : TwoUnits root)
    (hn : nodeAtPathOrNull root path = some n) : path.length % 2 = 0 := by
  have := length_flatten (h.length_key hn)
  rw [flatten_steps] at this
  omega

theorem nodeAtPathOrNull_append {root : TrainableNode Card} {p id : JsString} (hp : p.length % 2 = 0)
    (hid : id.length = 2) :
    nodeAtPathOrNull root (p ++ id) = (nodeAtPathOrNull root p).bind fun n => childById n id := by
  rw [nodeAtPathOrNull, steps_append_id hp hid, Rose.at?_append]
  cases h : Rose.at? Object.id root (steps p) with
  | none => simp [nodeAtPathOrNull, h]
  | some n =>
      simp only [nodeAtPathOrNull, h, Option.bind_some, Rose.at?_cons, childById]
      cases Rose.child? Object.id n id <;> rfl

/-- The parent of a node that a path leads to. -/
theorem TwoUnits.parent {root n : TrainableNode Card} {path : JsString} (h : TwoUnits root) (h0 : path ≠ [])
    (hn : nodeAtPathOrNull root path = some n) :
    ∃ parent, nodeAtPathOrNull root (init path) = some parent ∧ childById parent (last path) = some n := by
  have he := h.even hn
  rw [nodeAtPathOrNull, steps_eq_concat h0 he, Rose.at?_append] at hn
  obtain ⟨parent, hp, hn⟩ := Option.bind_eq_some_iff.mp hn
  obtain ⟨c, hc, hn⟩ := Option.bind_eq_some_iff.mp hn
  cases hn
  exact ⟨parent, hp, hc⟩

/-- The lookups agree where the path leads to a node. -/
theorem nodeAtPath_of_found {root n : TrainableNode Card} {path : JsString}
    (h : nodeAtPathOrNull root path = some n) : nodeAtPath root path = n :=
  Rose.reach_of_at? h

theorem getLast?_getNodeList (root : TrainableNode Card) (path : JsString) :
    (getNodeList root path).getLast? = some (nodeAtPath root path) :=
  Rose.chain_getLast root (steps path)

theorem nodeAtPath_mem_nodes (root : TrainableNode Card) (path : JsString) : nodeAtPath root path ∈ root.nodes :=
  Rose.reach_mem_nodes root (steps path)

theorem nodeAtPathOrNull_mem_nodes {root n : TrainableNode Card} {path : JsString}
    (h : nodeAtPathOrNull root path = some n) : n ∈ root.nodes :=
  Rose.at?_mem_nodes h

@[simp] theorem nodeAtPathOrNull_nil (root : TrainableNode Card) : nodeAtPathOrNull root [] = some root := rfl

end Chessrepeat.Client
