import Mathlib.Data.List.Basic

/-!
# Data at paths

What lies at the paths of a tree, or in the rows of a table whose keys are paths, as a partial function.
-/

namespace Chessrepeat.Lib

abbrev Contents (α δ : Type*) := List α → Option δ

namespace Contents

variable {α β δ ε : Type*} [DecidableEq α] [DecidableEq β]

def put (p : List α) (d : δ) (m : Contents α δ) : Contents α δ := fun q => if q = p then some d else m q

/-- Nothing is left at the path and below. -/
def prune (p : List α) (m : Contents α δ) : Contents α δ := fun q => if p <+: q then none else m q

/-- The same data, written in another way, at the paths that stand for theirs. -/
def pull (e : List β → List α) (f : δ → ε) (m : Contents α δ) : Contents β ε := fun q => (m (e q)).map f

variable {e : List β → List α} {f : δ → ε} {m : Contents α δ} {p q : List α} {p' : List β} {d : δ}

@[simp] theorem put_self : m.put p d p = some d := if_pos rfl

theorem put_of_ne (h : q ≠ p) : m.put p d q = m q := if_neg h

theorem pull_put (h : ∀ q, e q = p ↔ q = p') : pull e f (m.put p d) = (pull e f m).put p' (f d) := by
  funext q
  simp only [pull, put, h]
  split <;> rfl

theorem pull_prune (h : ∀ q, p <+: e q ↔ p' <+: q) : pull e f (m.prune p) = (pull e f m).prune p' := by
  funext q
  simp only [pull, prune, h]
  split <;> rfl

end Contents

end Chessrepeat.Lib
