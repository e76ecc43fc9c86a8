import Chessrepeat.Client.Lemmas.Missing
import Chessrepeat.Client.Lemmas.Selection
import Chessrepeat.Lib.Contents

/-!
# Edits seen from the paths

What a new leaf and a removed line do to the set of the paths that lead to a node.
-/

namespace Chessrepeat.Client

open Lib TrainerState

variable {Card : Type} {root n : TrainableNode Card} {path p q : JsString}

/-! ## Paths and addresses -/

theorem TwoUnits.length_address (h : TwoUnits root) {ks : List JsString} (hk : ks ∈ Rose.addresses Object.id root) :
    ∀ k ∈ ks, k.length = 2 :=
  @Rose.Below.addresses _ _ Object.id (fun k => k.length = 2) _ _ h hk

/-- The paths of the nodes are the paths that lead to a node. -/
theorem mem_paths (h : TwoUnits root) (hd : DistinctIds root) : p ∈ paths root ↔ (nodeAtPathOrNull root p).isSome := by
  rw [paths, List.mem_map, nodeAtPathOrNull]
  constructor
  · rintro ⟨ks, hks, rfl⟩
    rw [steps_flatten (h.length_address hks)]
    exact hd.mem_addresses_iff.mp hks
  · intro hp
    exact ⟨steps p, hd.mem_addresses_iff.mpr hp, flatten_steps p⟩

theorem nodup_paths (h : TwoUnits root) (hd : DistinctIds root) : (paths root).Nodup := by
  refine hd.nodup_addresses.map_on fun ks hks ls hls he => ?_
  rw [← steps_flatten (h.length_address hks), he, steps_flatten (h.length_address hls)]

/-- Where siblings have different ids, every node has a path. -/
theorem exists_path (h : TwoUnits root) (hd : DistinctIds root) (hn : n ∈ root.nodes) :
    ∃ p, nodeAtPathOrNull root p = some n := by
  have hat : ∃ ks, Rose.at? Object.id root ks = some n := Rose.Distinct.exists_at? hd hn
  obtain ⟨ks, hks⟩ := hat
  refine ⟨ks.flatten, ?_⟩
  rw [nodeAtPathOrNull, steps_flatten (h.length_key hks)]
  exact hks

theorem path_unique (hr : (root.labels.map Object.ref).Nodup) (hp : nodeAtPathOrNull root p = some n)
    (hq : nodeAtPathOrNull root q = some n) : p = q :=
  steps_injective (Rose.at?_inj hr hp hq rfl)

theorem nodeAtPathOrNull_of_prefix (hp : p.length % 2 = 0) (hpq : p <+: q) (h : (nodeAtPathOrNull root q).isSome) :
    (nodeAtPathOrNull root p).isSome := by
  obtain ⟨ks, hks⟩ := (steps_prefix_iff hp).mpr hpq
  rw [nodeAtPathOrNull, ← hks, Rose.at?_append] at h
  rw [nodeAtPathOrNull]
  cases hat : Rose.at? Object.id root (steps p) with
  | none => rw [hat] at h; cases h
  | some m => rfl

/-! ## A change of the node at a path -/

/-- The way to a node that is changed leads to the changed node, and any other way to where it led before. -/
theorem nodeAtPathOrNull_modify {f : TrainableNode Card → TrainableNode Card} (hf : ∀ m, (f m).label.id = m.label.id)
    (hd : (root.labels.map Object.ref).Nodup) (hn : nodeAtPathOrNull root path = some n) (q : JsString) :
    nodeAtPathOrNull (Rose.modify (fun m => m.ref = n.label.ref) f root) q =
      if steps path <+: steps q then Rose.at? Object.id (f n) ((steps q).drop (steps path).length)
      else (nodeAtPathOrNull root q).map (Rose.modify (fun m => m.ref = n.label.ref) f) :=
  Rose.at?_modify (p := fun m : Object Card => m.ref = n.label.ref) (fun m _ => hf m) hn (decide_eq_true rfl)
    (fun _ _ hm hp => Rose.at?_inj hd hm hn (of_decide_eq_true hp)) (steps q)

/-- The data of the nodes, at the paths that lead to them. -/
def dataAt (root : TrainableNode Card) : Contents UInt16 (TrainingData Card) :=
  fun p => (nodeAtPathOrNull root p).map TrainableNode.data

@[simp] theorem isSome_dataAt : (dataAt root p).isSome = (nodeAtPathOrNull root p).isSome := Option.isSome_map

theorem dataAt_of_found (h : nodeAtPathOrNull root p = some n) : dataAt root p = some n.data := by
  rw [dataAt, h, Option.map_some]

/-- Where the way goes on from the node, the node decides. -/
theorem dataAt_append {ks : List JsString} (hn : nodeAtPathOrNull root path = some n) (hq : steps path ++ ks = steps q) :
    dataAt root q = (Rose.at? Object.id n ks).map TrainableNode.data := by
  rw [dataAt, nodeAtPathOrNull, ← hq, Rose.at?_append, show Rose.at? Object.id root (steps path) = some n from hn]
  rfl

theorem dataAt_modify {f : TrainableNode Card → TrainableNode Card} (hf : ∀ m, (f m).label.id = m.label.id)
    (hd : (root.labels.map Object.ref).Nodup) (hn : nodeAtPathOrNull root path = some n) (q : JsString) :
    dataAt (Rose.modify (fun m => m.ref = n.label.ref) f root) q =
      if steps path <+: steps q then (Rose.at? Object.id (f n) ((steps q).drop (steps path).length)).map TrainableNode.data
      else dataAt root q := by
  rw [dataAt, nodeAtPathOrNull_modify hf hd hn]
  split
  · rfl
  · rename_i hno
    rw [dataAt, Option.map_map]
    refine Option.map_congr fun m hm => ?_
    -- another node than the changed one, which only its own path leads to
    have hne : decide (m.label.ref = n.label.ref) = false := decide_eq_false fun he =>
      hno (Rose.at?_inj hd hm hn he ▸ List.prefix_refl _)
    rw [Function.comp_apply, TrainableNode.data, Rose.modify_of_neg hne]
    rfl

/-- A new leaf puts its data at its path, if there is none yet. -/
theorem dataAt_push {l : Object Card} (h : TwoUnits root) (hd : (root.labels.map Object.ref).Nodup)
    (hn : nodeAtPathOrNull root path = some n) (hl : l.id.length = 2) (q : JsString) :
    dataAt (Rose.modify (fun m => m.ref = n.label.ref) (TrainableNode.push (.node l [])) root) q =
      (dataAt root q).or (if q = path ++ l.id then some l.data else none) := by
  have hpath : steps (path ++ l.id) = steps path ++ [l.id] := steps_append_id (h.even hn) hl
  rw [dataAt_modify (Keeps.push _).id hd hn]
  split
  · rename_i hpre
    obtain ⟨ks, hks⟩ := hpre
    have hq : q = path ++ l.id ↔ ks = [l.id] := by
      constructor
      · rintro rfl
        rw [hpath] at hks
        exact List.append_cancel_left hks
      · rintro rfl
        exact steps_injective (hks.symm.trans hpath.symm)
    rw [dataAt_append hn hks, ← hks, List.drop_left]
    cases ks with
    | nil =>
        rw [if_neg (mt hq.mp (List.cons_ne_nil _ _).symm)]
        rfl
    | cons k ks =>
        rw [Rose.at?_cons, Rose.at?_cons]
        have hchild : Rose.child? Object.id (TrainableNode.push (.node l []) n) k =
            (Rose.child? Object.id n k).or (if l.id = k then some (.node l []) else none) := by
          rw [Rose.child?, TrainableNode.push, Rose.children_node, List.find?_append, Rose.child?]
          by_cases hk : l.id = k <;> simp [hk]
        rw [hchild]
        cases hc : Rose.child? Object.id n k with
        | some d =>
            -- the child that was there is found first
            cases ks with
            | nil => rfl
            | cons j ks =>
                rw [if_neg (mt hq.mp (by simp)), Option.or_none]
                rfl
        | none =>
            by_cases hk : l.id = k
            · subst hk
              cases ks with
              | nil =>
                  rw [if_pos (hq.mpr rfl), if_pos rfl]
                  rfl
              | cons j ks => simp [Rose.at?_cons, Rose.child?, mt hq.mp]
            · simp [hk, mt hq.mp, Ne.symm hk]
  · rename_i hno
    rw [if_neg, Option.or_none]
    rintro rfl
    exact hno (hpath ▸ List.prefix_append _ _)

/-- A new leaf adds its path. -/
theorem isSome_push {l : Object Card} (h : TwoUnits root) (hd : (root.labels.map Object.ref).Nodup)
    (hn : nodeAtPathOrNull root path = some n) (hl : l.id.length = 2) (q : JsString) :
    (nodeAtPathOrNull (Rose.modify (fun m => m.ref = n.label.ref) (TrainableNode.push (.node l [])) root) q).isSome ↔
      (nodeAtPathOrNull root q).isSome ∨ q = path ++ l.id := by
  rw [← isSome_dataAt, dataAt_push h hd hn hl, Option.isSome_or, isSome_dataAt, Bool.or_eq_true]
  refine or_congr_right ?_
  split <;> simp [*]

/-- Its data is new, if none of its siblings has its id. -/
theorem dataAt_push_new {l : Object Card} (h : TwoUnits root) (hd : (root.labels.map Object.ref).Nodup)
    (hn : nodeAtPathOrNull root path = some n) (hl : l.id.length = 2) (hnew : childById n l.id = none) :
    dataAt (Rose.modify (fun m => m.ref = n.label.ref) (TrainableNode.push (.node l [])) root) =
      (dataAt root).put (path ++ l.id) l.data := by
  funext q
  rw [dataAt_push h hd hn hl]
  by_cases hq : q = path ++ l.id
  · have hnone : dataAt root (path ++ l.id) = none := by
      rw [dataAt, nodeAtPathOrNull_append (h.even hn) hl, hn, Option.bind_some, hnew]
      rfl
    rw [hq, hnone, Contents.put_self, if_pos rfl]
    rfl
  · rw [if_neg hq, Option.or_none, Contents.put_of_ne hq]

/-- A removed line takes the data of the paths that begin with its own. -/
theorem dataAt_removeChild (hd : (root.labels.map Object.ref).Nodup) (h0 : path ≠ []) (he : path.length % 2 = 0)
    (hn : nodeAtPathOrNull root (init path) = some n) :
    dataAt (Rose.modify (fun m => m.ref = n.label.ref) (removeChild (last path)) root) = (dataAt root).prune path := by
  have hpath : steps path = steps (init path) ++ [last path] := steps_eq_concat h0 he
  funext q
  have hiff := steps_prefix_iff (q := q) he
  rw [hpath] at hiff
  rw [dataAt_modify (Keeps.removeChild _).id hd hn, Contents.prune]
  simp only [← hiff]
  split
  · rename_i hpre
    obtain ⟨ks, hks⟩ := hpre
    rw [dataAt_append hn hks, ← hks, List.drop_left]
    simp only [List.prefix_append_right_inj]
    cases ks with
    | nil => simp [TrainableNode.data, removeChild]
    | cons k ks =>
        rw [Rose.at?_cons, Rose.at?_cons]
        by_cases hk : k = last path
        · subst hk
          have hnone : Rose.child? Object.id (removeChild (last path) n) (last path) = none := by
            rw [Rose.child?, List.find?_eq_none]
            intro c hc hid
            exact of_decide_eq_true (List.mem_filter.mp hc).2 (of_decide_eq_true hid)
          simp [hnone]
        · have hchild : Rose.child? Object.id (removeChild (last path) n) k = Rose.child? Object.id n k :=
            childById_removeChild hk
          rw [hchild]
          simp [Ne.symm hk]
  · rename_i hno
    rw [if_neg fun h => hno ((List.prefix_append _ _).trans h)]

/-- A removed line takes the paths that begin with its own. -/
theorem isSome_removeChild (hd : (root.labels.map Object.ref).Nodup) (h0 : path ≠ []) (he : path.length % 2 = 0)
    (hn : nodeAtPathOrNull root (init path) = some n) (q : JsString) :
    (nodeAtPathOrNull (Rose.modify (fun m => m.ref = n.label.ref) (removeChild (last path)) root) q).isSome ↔
      (nodeAtPathOrNull root q).isSome ∧ ¬path <+: q := by
  rw [← isSome_dataAt, dataAt_removeChild hd h0 he hn, Contents.prune]
  split <;> simp [*]

/-- New data for the node at a path. -/
theorem dataAt_setData {g : TrainingData Card → TrainingData Card} (hg : ∀ d, (g d).id = d.id)
    (hd : (root.labels.map Object.ref).Nodup) (hn : nodeAtPathOrNull root path = some n) :
    dataAt (Rose.modify (fun m => m.ref = n.label.ref) (fun n : TrainableNode Card => n.setData (g n.data)) root) =
      (dataAt root).put path (g n.data) := by
  funext q
  rw [dataAt_modify (Keeps.setData hg).id hd hn]
  split
  · rename_i hpre
    obtain ⟨ks, hks⟩ := hpre
    rw [← hks, List.drop_left]
    have hq : q = path ↔ ks = [] := by
      constructor
      · rintro rfl
        exact List.append_right_eq_self.mp hks
      · rintro rfl
        rw [List.append_nil] at hks
        exact (steps_injective hks).symm
    cases ks with
    | nil =>
        rw [hq.mpr rfl, Contents.put_self]
        rfl
    | cons k ks =>
        rw [Contents.put_of_ne (mt hq.mp (List.cons_ne_nil k ks)), dataAt_append hn hks]
        rfl
  · rename_i hno
    rw [Contents.put_of_ne]
    rintro rfl
    exact hno (List.prefix_refl _)

/-- Where the parent is missing and the node that is found instead has no child with the id, nothing is removed. -/
theorem removeChild_missing (hd : (root.labels.map Object.ref).Nodup)
    (hno : ∀ c ∈ (nodeAtPath root (init path)).children, c.label.data.id ≠ last path) :
    Rose.modify (fun m => m.ref = (nodeAtPath root (init path)).label.ref) (removeChild (last path)) root = root := by
  have hmem := nodeAtPath_mem_nodes root (init path)
  refine (Rose.modify_eq_self (n := nodeAtPath root (init path)) (fun m hm hp => ?_) hmem (decide_eq_true rfl)).mpr
    (removeChild_eq_self.mpr hno)
  have hinj := List.inj_on_of_nodup_map (by rwa [Rose.labels, List.map_map] at hd) hm hmem
  exact hinj (of_decide_eq_true hp)

/-- The parent of the node at the path is there, or the node found instead of it has no child with the id. -/
def Aimed (root : TrainableNode Card) (path : JsString) : Prop :=
  (nodeAtPathOrNull root (init path)).isSome ∨
    ∀ c ∈ (nodeAtPath root (init path)).children, c.label.data.id ≠ last path

instance (root : TrainableNode Card) (path : JsString) : Decidable (Aimed root path) := by delta Aimed; infer_instance

/-- `deleteNodeAt` takes the paths that begin with the one of a node, and no path for any other. -/
theorem isSome_deleteNodeAt (h : TwoUnits root) (hd : (root.labels.map Object.ref).Nodup) (ha : Aimed root path)
    (q : JsString) :
    (nodeAtPathOrNull (Rose.modify (fun m => m.ref = (nodeAtPath root (init path)).ref) (removeChild (last path)) root)
        q).isSome ↔
      (nodeAtPathOrNull root q).isSome ∧ ¬(path ≠ [] ∧ (nodeAtPathOrNull root path).isSome ∧ path <+: q) := by
  by_cases hno : ∀ c ∈ (nodeAtPath root (init path)).children, c.label.data.id ≠ last path
  · have hsame : Rose.modify (fun m => m.ref = (nodeAtPath root (init path)).ref) (removeChild (last path)) root = root :=
      removeChild_missing hd hno
    rw [hsame]
    refine (and_iff_left ?_).symm
    rintro ⟨h0, hfound, -⟩
    obtain ⟨n, hn⟩ := Option.isSome_iff_exists.mp hfound
    obtain ⟨parent, hparent, hchild⟩ := h.parent h0 hn
    obtain ⟨hmem, hid⟩ := Rose.child?_eq_some hchild
    rw [nodeAtPath_of_found hparent] at hno
    exact hno n hmem hid
  · obtain ⟨n, hn⟩ := Option.isSome_iff_exists.mp (ha.resolve_right hno)
    -- a child with the last id of the path gives the path its length
    have hlast : (last path).length = 2 := by
      simp only [ne_eq, not_forall, not_not] at hno
      obtain ⟨c, hc, hid⟩ := hno
      rw [← hid]
      exact (h.node (nodeAtPath_mem_nodes _ _)).id_child hc
    have hlen : path.length = (init path).length + 2 := by
      rw [← hlast, ← List.length_append, init_append_last]
    have he : path.length % 2 = 0 := by
      have := h.even hn
      omega
    have h0 : path ≠ [] := by
      rintro rfl
      simp at hlen
    rw [nodeAtPath_of_found hn]
    refine (isSome_removeChild hd h0 he hn q).trans (and_congr_right fun hq => not_congr ?_)
    exact ⟨fun hpre => ⟨h0, nodeAtPathOrNull_of_prefix he hpre hq, hpre⟩, fun hpre => hpre.2.2⟩

/-! ## Distinct ids -/

theorem DistinctIds.push {l : Object Card} (h : DistinctIds root) (hd : (root.labels.map Object.ref).Nodup)
    (hn : n ∈ root.nodes) (hnew : childById n l.id = none) :
    DistinctIds (Rose.modify (fun m => m.ref = n.label.ref) (TrainableNode.push (.node l [])) root) := by
  refine Rose.Distinct.modify (fun m _ => (Keeps.push _).id m) (fun n' hn' hp hdist m hm => ?_) h
  have hnn : n' = n := by
    have hinj := List.inj_on_of_nodup_map (by rwa [Rose.labels, List.map_map] at hd) hn' hn
    exact hinj (of_decide_eq_true hp)
  subst hnn
  have hchildren : (TrainableNode.push (.node l []) n').children = n'.children ++ [.node l []] := rfl
  rcases Rose.mem_nodes.mp hm with rfl | ⟨c, hc, hm⟩
  · rw [hchildren, List.map_append, List.nodup_append]
    refine ⟨hdist n' (Rose.self_mem_nodes n'), List.nodup_singleton _, ?_⟩
    rintro a ha b hb rfl
    obtain ⟨d, hd', rfl⟩ := List.mem_map.mp ha
    have he : d.label.id = l.id := List.mem_singleton.mp hb
    exact List.find?_eq_none.mp hnew d hd' (decide_eq_true he)
  · rw [hchildren] at hc
    rcases List.mem_append.mp hc with hc | hc
    · exact hdist m (Rose.nodes_trans hm (Rose.child_mem_nodes hc))
    · rw [List.mem_singleton.mp hc] at hm
      rcases Rose.mem_nodes.mp hm with rfl | ⟨d, hd', -⟩
      · exact List.nodup_nil
      · cases hd'

theorem DistinctIds.setData {p : Object Card → Bool} {g : TrainingData Card → TrainingData Card} (h : DistinctIds root)
    (hg : ∀ d, (g d).id = d.id) :
    DistinctIds (Rose.modify p (fun n : TrainableNode Card => n.setData (g n.data)) root) := by
  refine Rose.Distinct.modify (fun n _ => (Keeps.setData hg).id n) (fun n _ _ hd m hm => ?_) h
  rcases Rose.mem_nodes.mp hm with rfl | ⟨c, hc, hm⟩
  · exact hd n (Rose.self_mem_nodes n)
  · exact hd m (Rose.mem_nodes.mpr (Or.inr ⟨c, hc, hm⟩))

/-! ## Ids without surrogates -/

/-- Every code unit of an id below the root is a character. -/
def PlainIds (root : TrainableNode Card) : Prop := Rose.Below (fun n : Object Card => Utf16.Plain n.id) root

instance (root : TrainableNode Card) : Decidable (PlainIds root) := by
  delta PlainIds Rose.Below; infer_instance

theorem PlainIds.plain (h : PlainIds root) (hp : (nodeAtPathOrNull root p).isSome) : Utf16.Plain p := by
  obtain ⟨n, hn⟩ := Option.isSome_iff_exists.mp hp
  have hkeys : ∀ k ∈ steps p, Utf16.Plain k := @Rose.Below.keys _ _ Object.id _ Utf16.Plain _ _ _ h hn
  intro u hu
  rw [← flatten_steps p] at hu
  obtain ⟨k, hk, hu⟩ := List.mem_flatten.mp hu
  exact hkeys k hk u hu

theorem PlainIds.push {r : Nat} {l : Object Card} (h : PlainIds root) (hl : Utf16.Plain l.id) :
    PlainIds (Rose.modify (fun m => m.ref = r) (TrainableNode.push (.node l [])) root) := by
  refine Rose.Below.modify (fun _ _ hn => hn) (fun n hn => below_push hn fun m hm => ?_) h
  simp only [Rose.labels_node, Rose.labelsList_nil, List.mem_singleton] at hm
  exact hm ▸ hl

theorem PlainIds.setData {r : Nat} {g : TrainingData Card → TrainingData Card} (h : PlainIds root) (hg : ∀ d, (g d).id = d.id) :
    PlainIds (Rose.modify (fun m => m.ref = r) (fun n : TrainableNode Card => n.setData (g n.data)) root) :=
  Rose.Below.modify (fun n _ hn => by rwa [(Keeps.setData hg).id n]) (fun _ hn => hn) h

theorem PlainIds.removeChild {r : Nat} (h : PlainIds root) (id : JsString) :
    PlainIds (Rose.modify (fun m => m.ref = r) (Client.removeChild id) root) :=
  Rose.Below.modify (fun _ _ hn => hn) (fun _ hn => below_removeChild hn) h

end Chessrepeat.Client
