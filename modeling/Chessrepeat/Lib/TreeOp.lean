import Mathlib.Data.Set.Basic
import Chessrepeat.Lib.Replication

/-!
# Edits of a set of paths

A tree, as far as the paths of its nodes go. A node is added below another one, or a node is deleted with everything
below it; an edit aimed at a node that is not there does nothing. The root is never deleted.
-/

namespace Chessrepeat.Lib

inductive TreeOp (α : Type*) where
  | add (parent id : List α)
  | delete (path : List α)
  deriving DecidableEq

namespace TreeOp

variable {α : Type*}

def apply : TreeOp α → Set (List α) → Set (List α)
  | .add parent id, paths => {q | q ∈ paths ∨ parent ∈ paths ∧ q = parent ++ id}
  | .delete path, paths => {q | q ∈ paths ∧ ¬(path ≠ [] ∧ path ∈ paths ∧ path <+: q)}

@[simp] theorem mem_add {parent id q : List α} {paths : Set (List α)} :
    q ∈ apply (.add parent id) paths ↔ q ∈ paths ∨ parent ∈ paths ∧ q = parent ++ id := Iff.rfl

@[simp] theorem mem_delete {path q : List α} {paths : Set (List α)} :
    q ∈ apply (.delete path) paths ↔ q ∈ paths ∧ ¬(path ≠ [] ∧ path ∈ paths ∧ path <+: q) := Iff.rfl

/-- Neither edit adds the node that the other one adds to or deletes. -/
def Independent : TreeOp α → TreeOp α → Prop
  | .add p i, .add q j => p ≠ q ++ j ∧ q ≠ p ++ i
  | .add p i, .delete path => path <+: p ++ i → path <+: p
  | .delete path, .add p i => path <+: p ++ i → path <+: p
  | .delete _, .delete _ => True

instance [DecidableEq α] (a b : TreeOp α) : Decidable (Independent a b) := by
  cases a <;> cases b <;> (delta Independent; infer_instance)

theorem commute_add {p i q j : List α} (h : p ≠ q ++ j ∧ q ≠ p ++ i) :
    Replication.Commute apply (.add p i) (.add q j) := by
  intro paths
  ext x
  simp only [mem_add, h.1, h.2, and_false, or_false]
  tauto

theorem commute_add_delete {p i path : List α} (h : path <+: p ++ i → path <+: p) :
    Replication.Commute apply (.add p i) (.delete path) := by
  intro paths
  ext x
  have hpre : path <+: p → path <+: p ++ i := fun hp => hp.trans (List.prefix_append p i)
  -- a deletion of the new path is one of its parent
  have hnew : path = p ++ i → path = p := fun he => by
    have hle := (h (he ▸ List.prefix_refl _)).length_le
    have hi : i = [] := List.eq_nil_of_length_eq_zero (by rw [he, List.length_append] at hle; omega)
    rw [he, hi, List.append_nil]
  simp only [mem_add, mem_delete]
  constructor
  · rintro (⟨hx, hno⟩ | ⟨⟨hp, hno⟩, rfl⟩)
    · refine ⟨Or.inl hx, fun ⟨h0, hmem, hpx⟩ => ?_⟩
      rcases hmem with hmem | ⟨hp, he⟩
      · exact hno ⟨h0, hmem, hpx⟩
      · exact hno ⟨h0, hnew he ▸ hp, hpx⟩
    · refine ⟨Or.inr ⟨hp, rfl⟩, fun ⟨h0, hmem, hpx⟩ => ?_⟩
      rcases hmem with hmem | ⟨-, he⟩
      · exact hno ⟨h0, hmem, h hpx⟩
      · exact hno ⟨h0, hnew he ▸ hp, h hpx⟩
  · rintro ⟨hx | ⟨hp, rfl⟩, hno⟩
    · exact Or.inl ⟨hx, fun ⟨h0, hmem, hpx⟩ => hno ⟨h0, Or.inl hmem, hpx⟩⟩
    · exact Or.inr ⟨⟨hp, fun ⟨h0, hmem, hpp⟩ => hno ⟨h0, Or.inl hmem, hpre hpp⟩⟩, rfl⟩

theorem commute_delete (p q : List α) : Replication.Commute apply (.delete p) (.delete q) := by
  have key : ∀ (p q x : List α) (paths : Set (List α)), x ∈ apply (.delete p) (apply (.delete q) paths) →
      x ∈ apply (.delete q) (apply (.delete p) paths) := by
    rintro p q x paths ⟨⟨hx, hq⟩, hp⟩
    refine ⟨⟨hx, fun ⟨h0, hmem, hpx⟩ => hp ⟨h0, ⟨hmem, ?_⟩, hpx⟩⟩, fun ⟨h0, hmem, hqx⟩ => hq ⟨h0, hmem.1, hqx⟩⟩
    rintro ⟨hq0, hqmem, hqp⟩
    exact hq ⟨hq0, hqmem, hqp.trans hpx⟩
  intro paths
  ext x
  exact ⟨key p q x paths, key q p x paths⟩

theorem Independent.commute {a b : TreeOp α} (h : Independent a b) : Replication.Commute apply a b := by
  cases a with
  | add p i =>
      cases b with
      | add q j => exact commute_add h
      | delete path => exact commute_add_delete h
  | delete path =>
      cases b with
      | add p i => exact (commute_add_delete h).symm
      | delete q => exact commute_delete path q

end TreeOp

end Chessrepeat.Lib
