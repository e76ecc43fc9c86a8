import Chessrepeat.Lib.Run
import Mathlib.Data.List.Basic

/-!
# Calls in flight on one shared state

A call is a process that makes its accesses to the shared state one at a time. What an assertion says of a process
has to survive its own accesses and those of all the others.
-/

namespace Chessrepeat.Lib

variable {σ π ρ : Type*}

structure Flight (σ π : Type*) where
  shared : σ
  procs : List π

inductive Turn (ρ : Type*) where
  | call (r : ρ)
  /-- The process `i` makes its next access. -/
  | exec (i : Nat)
  /-- The next access of the process `i` fails. -/
  | fail (i : Nat)

/-- How a call begins, what its accesses do, and what it makes of one that fails. -/
structure Protocol (σ π ρ : Type*) where
  start : ρ → π
  exec : σ → π → π × σ
  fail : π → π

namespace Protocol

variable (sys : Protocol σ π ρ)

def step (w : Flight σ π) : Turn ρ → Flight σ π
  | .call r => { w with procs := w.procs ++ [sys.start r] }
  | .exec i => match w.procs[i]? with
    | none => w
    | some p => ⟨(sys.exec w.shared p).2, w.procs.set i (sys.exec w.shared p).1⟩
  | .fail i => { w with procs := w.procs.modify i sys.fail }

/-- The process that makes an access meets `c` in the shared state before it. -/
def OnTurn (c : σ → π → Prop) (w : Flight σ π) : Turn ρ → Prop
  | .call _ => True
  | .exec i => match w.procs[i]? with
    | none => True
    | some p => c w.shared p
  | .fail _ => True

instance (c : σ → π → Prop) [∀ s p, Decidable (c s p)] (w : Flight σ π) (t : Turn ρ) : Decidable (OnTurn c w t) :=
  match t with
  | .call _ => inferInstanceAs (Decidable True)
  | .exec i => match h : w.procs[i]? with
    | none => isTrue (by simp [OnTurn, h])
    | some p => decidable_of_iff (c w.shared p) (by simp [OnTurn, h])
  | .fail _ => inferInstanceAs (Decidable True)

/-- The assertion `A` survives every access that meets `c`. -/
structure Stable (c A : σ → π → Prop) : Prop where
  start : ∀ s r, A s (sys.start r)
  exec : ∀ s p, A s p → c s p → A (sys.exec s p).2 (sys.exec s p).1
  others : ∀ s p q, A s p → c s p → A s q → A (sys.exec s p).2 q
  fail : ∀ s p, A s p → A s (sys.fail p)

/-- Every process meets `A`. -/
def Asserts (A : σ → π → Prop) (w : Flight σ π) : Prop := ∀ p ∈ w.procs, A w.shared p

variable {sys} {c A : σ → π → Prop} {I : σ → Prop}

theorem asserts_nil (s : σ) : Asserts A (⟨s, []⟩ : Flight σ π) := fun _ hp => by cases hp

theorem Stable.step (h : sys.Stable c A) {w : Flight σ π} {t : Turn ρ} (hw : Asserts A w) (hc : OnTurn c w t) :
    Asserts A (sys.step w t) := by
  cases t with
  | call r =>
      intro p hp
      rcases List.mem_append.mp hp with hp | hp
      · exact hw p hp
      · rw [List.mem_singleton.mp hp]
        exact h.start w.shared r
  | exec i =>
      cases hi : w.procs[i]? with
      | none => simpa only [Protocol.step, hi] using hw
      | some q =>
          have hq : A w.shared q := hw q (List.mem_of_getElem? hi)
          have hcq : c w.shared q := by simpa only [OnTurn, hi] using hc
          simp only [Protocol.step, hi]
          intro p hp
          rcases List.mem_or_eq_of_mem_set hp with hp | rfl
          · exact h.others w.shared q p hq hcq (hw p hp)
          · exact h.exec w.shared q hq hcq
  | fail i =>
      intro p hp
      obtain ⟨j, hj⟩ := List.mem_iff_getElem?.mp hp
      simp only [Protocol.step, List.getElem?_modify] at hj
      obtain ⟨q, hq, rfl⟩ := Option.map_eq_some_iff.mp hj
      split
      · exact h.fail w.shared q (hw q (List.mem_of_getElem? hq))
      · exact hw q (List.mem_of_getElem? hq)

/-- What every access keeps, given the assertion, is kept by a turn. -/
theorem shared_step (hI : ∀ s p, I s → A s p → c s p → I (sys.exec s p).2) {w : Flight σ π} {t : Turn ρ}
    (hs : I w.shared) (hw : Asserts A w) (hc : OnTurn c w t) : I (sys.step w t).shared := by
  cases t with
  | call r => exact hs
  | fail i => exact hs
  | exec i =>
      cases hi : w.procs[i]? with
      | none => simpa only [Protocol.step, hi] using hs
      | some q =>
          simp only [Protocol.step, hi]
          exact hI w.shared q hs (hw q (List.mem_of_getElem? hi)) (by simpa only [OnTurn, hi] using hc)

/-- In a run whose accesses meet `c` the processes meet `A` at the end. -/
theorem Stable.asserts (h : sys.Stable c A) {w : Flight σ π} {ts : List (Turn ρ)} (hw : Asserts A w)
    (hc : Meets sys.step (OnTurn c) w ts) : Asserts A (run sys.step w ts) :=
  hc.invariant (fun _ _ => h.step) hw

/-- And the shared state meets throughout what every access keeps. -/
theorem Stable.always (h : sys.Stable c A) (hI : ∀ s p, I s → A s p → c s p → I (sys.exec s p).2) {w : Flight σ π}
    {ts : List (Turn ρ)} (hs : I w.shared) (hw : Asserts A w) (hc : Meets sys.step (OnTurn c) w ts) :
    Always sys.step (fun w => I w.shared) w ts := by
  have hstep : ∀ (w : Flight σ π) (t : Turn ρ), I w.shared ∧ Asserts A w → OnTurn c w t →
      I (sys.step w t).shared ∧ Asserts A (sys.step w t) :=
    fun _ _ hw hc => ⟨shared_step hI hw.1 hw.2 hc, h.step hw.2 hc⟩
  exact (hc.always hstep ⟨hs, hw⟩).mono fun _ hw => hw.1

end Protocol

end Chessrepeat.Lib
