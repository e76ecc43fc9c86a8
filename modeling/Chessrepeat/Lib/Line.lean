import Chessrepeat.Lib.Rose

/-!
# Lines of descent

A line is what lies below a node on the way to one of its descendants. The lookups of `Rose` follow an address along the
longest line that it names.
-/

namespace Chessrepeat.Lib.Rose

variable {α κ : Type*}

/-- Every node is a child of the one before it, the first of them of `t`. -/
def Line : Rose α → List (Rose α) → Prop
  | _, [] => True
  | t, c :: cs => c ∈ t.children ∧ Line c cs

variable {key : α → κ} [DecidableEq κ] {t : Rose α} {cs : List (Rose α)} {ks : List κ}

theorem chain_eq_cons (t : Rose α) (ks : List κ) : chain key t ks = t :: (chain key t ks).tail := by
  cases ks <;> rfl

theorem tail_chain_cons (t : Rose α) (k : κ) (ks : List κ) : (chain key t (k :: ks)).tail =
    match child? key t k with
      | none => []
      | some c => c :: (chain key c ks).tail := by
  cases hc : child? key t k with
  | none => simp only [chain, hc, List.tail_cons]
  | some c => simp only [chain, hc, List.tail_cons]; exact chain_eq_cons c ks

/-- The chain is a line whose keys are the first ones of the address. -/
theorem line_chain (key : α → κ) (t : Rose α) (ks : List κ) :
    Line t (chain key t ks).tail ∧ ((chain key t ks).tail.map fun n => key n.label) <+: ks := by
  induction ks generalizing t with
  | nil => exact ⟨trivial, List.prefix_refl []⟩
  | cons k ks ih =>
      rw [tail_chain_cons]
      cases hc : child? key t k with
      | none => exact ⟨trivial, List.nil_prefix⟩
      | some c =>
          obtain ⟨hmem, rfl⟩ := child?_eq_some hc
          obtain ⟨hline, hkeys⟩ := ih c
          exact ⟨⟨hmem, hline⟩, List.cons_prefix_cons.mpr ⟨rfl, hkeys⟩⟩

/-- With distinct keys no line along the address is longer. -/
theorem Distinct.line_prefix_chain (h : Distinct key t) (hl : Line t cs) (hk : (cs.map fun n => key n.label) <+: ks) :
    cs <+: (chain key t ks).tail := by
  induction cs generalizing t ks with
  | nil => exact List.nil_prefix
  | cons c cs ih =>
      obtain ⟨hmem, hrest⟩ := hl
      cases ks with
      | nil => cases List.prefix_nil.mp hk
      | cons k ks =>
          obtain ⟨rfl, hks⟩ := List.cons_prefix_cons.mp hk
          rw [tail_chain_cons, h.child?_key hmem]
          exact List.cons_prefix_cons.mpr ⟨rfl, ih (h.sub (child_mem_nodes hmem)) hrest hks⟩

/-- Every node is the child that its own key finds. -/
def Found (key : α → κ) : Rose α → List (Rose α) → Prop
  | _, [] => True
  | t, c :: cs => child? key t (key c.label) = some c ∧ Found key c cs

theorem Found.line (h : Found key t cs) : Line t cs := by
  induction cs generalizing t with
  | nil => trivial
  | cons c cs ih => exact ⟨(child?_eq_some h.1).1, ih h.2⟩

theorem Found.take (h : Found key t cs) (k : Nat) : Found key t (cs.take k) := by
  induction cs generalizing t k with
  | nil => rw [List.take_nil]; trivial
  | cons c cs ih =>
      cases k with
      | zero => trivial
      | succ k => exact ⟨h.1, ih h.2 k⟩

/-- The keys of such a line lead along it. -/
theorem Found.chain (h : Found key t cs) : chain key t (cs.map fun n => key n.label) = t :: cs := by
  induction cs generalizing t with
  | nil => rfl
  | cons c cs ih =>
      rw [List.map_cons, chain_eq_cons, tail_chain_cons, h.1]
      exact congrArg (t :: ·) ((chain_eq_cons c _).symm.trans (ih h.2))

/-- With distinct keys every line is one. -/
theorem Distinct.found (h : Distinct key t) (hl : Line t cs) : Found key t cs := by
  induction cs generalizing t with
  | nil => trivial
  | cons c cs ih => exact ⟨h.child?_key hl.1, ih (h.sub (child_mem_nodes hl.1)) hl.2⟩

/-- An address leads to a node if the chain has all its keys. -/
theorem at?_eq_reach (t : Rose α) (ks : List κ) : at? key t ks =
    if ((chain key t ks).tail.map fun n => key n.label) = ks then some (reach key t ks) else none := by
  induction ks generalizing t with
  | nil => rfl
  | cons k ks ih =>
      rw [tail_chain_cons, at?_cons]
      cases hc : child? key t k with
      | none => rfl
      | some c =>
          obtain ⟨-, rfl⟩ := child?_eq_some hc
          simp only [Option.bind_some, ih c, reach, hc, List.map_cons, List.cons.injEq, true_and]

end Chessrepeat.Lib.Rose
