import Mathlib.Data.Finset.Card

/-!
# Check, then write

A caller looks at how many keys are stored, is admitted, and stores its key later. Between the two others do the
same, so more keys can be stored than the cap allows: as many more as there are callers admitted at one time.
-/

namespace Chessrepeat.Lib.Admission

variable {κ : Type*} [DecidableEq κ]

structure State (κ : Type*) where
  stored : Finset κ
  admitted : Finset κ

variable {s s' : State κ} {cap n k : Nat}

/-- The keys that are stored or may still be. -/
def State.claimed (s : State κ) : Finset κ := s.stored ∪ s.admitted

inductive Step (cap : Nat) : State κ → State κ → Prop
  /-- Keys are removed, an admitted key is stored, a key that is stored is admitted, or a caller gives up. -/
  | within {s s' : State κ} (h : s'.claimed ⊆ s.claimed) : Step cap s s'
  /-- A caller is admitted because there is room. -/
  | grant {s s' : State κ} (stored : s'.stored ⊆ s.stored) (room : s.stored.card < cap) : Step cap s s'

theorem card_claimed_le (s : State κ) : s.claimed.card ≤ s.stored.card + s.admitted.card :=
  Finset.card_union_le _ _

theorem Step.card_claimed_le (h : Step cap s s') (hn : s'.admitted.card ≤ n + 1) (hs : s.claimed.card ≤ cap + n) :
    s'.claimed.card ≤ cap + n := by
  cases h with
  | within hsub => exact (Finset.card_le_card hsub).trans hs
  | grant hstored room =>
      have := Admission.card_claimed_le s'
      have := Finset.card_le_card hstored
      omega

theorem card_stored_le (s : State κ) : s.stored.card ≤ s.claimed.card := Finset.card_le_card Finset.subset_union_left

/-- An admitted key is stored. -/
theorem Step.store {p : κ} (hp : p ∈ s.admitted) (hs : s'.stored ⊆ insert p s.stored) (ha : s'.admitted ⊆ s.admitted) :
    Step cap s s' := by
  refine .within fun q hq => ?_
  rcases Finset.mem_union.mp hq with hq | hq
  · rcases Finset.mem_insert.mp (hs hq) with rfl | hq
    · exact Finset.mem_union_right _ hp
    · exact Finset.mem_union_left _ hq
  · exact Finset.mem_union_right _ (ha hq)

/-- Keys are removed and callers give up. -/
theorem Step.drop (hs : s'.stored ⊆ s.stored) (ha : s'.admitted ⊆ s.admitted) : Step cap s s' :=
  .within (Finset.union_subset_union hs ha)

/-- A caller whose key is stored is admitted. -/
theorem Step.again {p : κ} (hp : p ∈ s.stored) (hs : s'.stored ⊆ s.stored) (ha : s'.admitted ⊆ insert p s.admitted) :
    Step cap s s' := by
  refine .within fun q hq => ?_
  rcases Finset.mem_union.mp hq with hq | hq
  · exact Finset.mem_union_left _ (hs hq)
  · rcases Finset.mem_insert.mp (ha hq) with rfl | hq
    · exact Finset.mem_union_left _ hp
    · exact Finset.mem_union_right _ hq

end Chessrepeat.Lib.Admission
