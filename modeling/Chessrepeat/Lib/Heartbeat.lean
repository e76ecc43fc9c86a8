import Mathlib.Data.List.Basic

/-!
# Heartbeats

A sender beats again within some time, and a beat is on its way for some time at most. The receiver knows when the
last beat came, and some are still to come.
-/

namespace Chessrepeat.Lib

/-- From `last` on, each of the times comes at most `gap` after the one before, and so does `next`. -/
def Paced (gap : Nat) : (last : Nat) → List Nat → (next : Nat) → Prop
  | last, [], next => next ≤ last + gap
  | last, t :: ts, next => t ≤ last + gap ∧ Paced gap t ts next

variable {gap last next next' now delay t : Nat} {ts : List Nat}

/-- The oldest beat arrives, at a time after it was sent. -/
theorem Paced.arrive (h : Paced gap last (t :: ts) next) (ht : t ≤ now) : Paced gap now ts next := by
  have hle : t + gap ≤ now + gap := Nat.add_le_add_right ht gap
  cases ts with
  | nil => exact Nat.le_trans h.2 hle
  | cons u us => exact ⟨Nat.le_trans h.2.1 hle, h.2.2⟩

/-- Something else has arrived. -/
theorem Paced.later {last' : Nat} (h : Paced gap last ts next) (hl : last ≤ last') : Paced gap last' ts next := by
  have hle : last + gap ≤ last' + gap := Nat.add_le_add_right hl gap
  cases ts with
  | nil => exact Nat.le_trans h hle
  | cons u us => exact ⟨Nat.le_trans h.1 hle, h.2⟩

/-- The sender beats, in time. -/
theorem Paced.beat (h : Paced gap last ts next) (ht : t ≤ next) (hn : next' ≤ t + gap) :
    Paced gap last (ts ++ [t]) next' := by
  induction ts generalizing last with
  | nil => exact ⟨Nat.le_trans ht h, hn⟩
  | cons u us ih => exact ⟨h.1, ih h.2⟩

/-- The last beat is not older than a gap and a delay. -/
theorem Paced.recent (h : Paced gap last ts next) (hn : now ≤ next) (hd : ∀ t ∈ ts, now ≤ t + delay) :
    now ≤ last + gap + delay := by
  cases ts with
  | nil => exact Nat.le_trans hn (Nat.le_trans h (Nat.le_add_right _ delay))
  | cons t ts => exact Nat.le_trans (hd t List.mem_cons_self) (Nat.add_le_add_right h.1 delay)

end Chessrepeat.Lib
