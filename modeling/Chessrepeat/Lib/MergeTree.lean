import Mathlib.Algebra.BigOperators.Group.List.Basic

/-!
# Merging in any order and grouping

Operands of a merge operation, fed to it one way or another: what is merged may be the outcome of other merges. `ν` is
what else may differ from one merge to the next.
-/

namespace Chessrepeat.Lib

variable {ν α M : Type*}

inductive MergeTree (ν α : Type*) where
  | operand (a : α)
  | merge (n : ν) (current value : MergeTree ν α)

namespace MergeTree

def operands : MergeTree ν α → List α
  | .operand a => [a]
  | .merge _ current value => current.operands ++ value.operands

/-- The outcome, `none` when some merge fails. -/
def eval (op : ν → α → α → Option α) : MergeTree ν α → Option α
  | .operand a => some a
  | .merge n current value => (current.eval op).bind fun a => (value.eval op).bind (op n a)

/-- Where each merge adds what the operands count for, the outcome counts for their sum. -/
theorem exists_eval [AddCommMonoid M] {op : ν → α → α → Option α} {good : α → Prop} {count : α → M}
    (h : ∀ n a b, good a → good b → ∃ c, op n a b = some c ∧ good c ∧ count c = count a + count b) (t : MergeTree ν α)
    (ht : ∀ a ∈ t.operands, good a) :
    ∃ c, t.eval op = some c ∧ good c ∧ count c = (t.operands.map count).sum := by
  induction t with
  | operand a =>
      refine ⟨a, rfl, ht a (List.mem_singleton_self a), ?_⟩
      rw [operands, List.map_singleton, List.sum_singleton]
  | merge n current value ihc ihv =>
      obtain ⟨a, ha, hga, hca⟩ := ihc fun x hx => ht x (List.mem_append_left _ hx)
      obtain ⟨b, hb, hgb, hcb⟩ := ihv fun x hx => ht x (List.mem_append_right _ hx)
      obtain ⟨c, hc, hgc, hcc⟩ := h n a b hga hgb
      refine ⟨c, ?_, hgc, ?_⟩
      · rw [eval, ha, Option.bind_some, hb, Option.bind_some, hc]
      · rw [operands, List.map_append, List.sum_append, hcc, hca, hcb]

/-- The order and the grouping make no difference. -/
theorem exists_eval_of_perm [AddCommMonoid M] {op : ν → α → α → Option α} {good : α → Prop} {count : α → M}
    (h : ∀ n a b, good a → good b → ∃ c, op n a b = some c ∧ good c ∧ count c = count a + count b) {t : MergeTree ν α}
    {as : List α} (hp : t.operands.Perm as) (has : ∀ a ∈ as, good a) :
    ∃ c, t.eval op = some c ∧ good c ∧ count c = (as.map count).sum := by
  obtain ⟨c, hc, hgood, hcount⟩ := exists_eval h t fun a ha => has a (hp.mem_iff.mp ha)
  exact ⟨c, hc, hgood, hcount.trans (hp.map count).sum_eq⟩

end MergeTree

end Chessrepeat.Lib
