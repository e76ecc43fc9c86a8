import Mathlib.Data.List.Basic

/-!
# The latest request

Requests that are made one at a time: making one aborts the one before it. Each keeps what it is for and how far it has
got, so an answer that comes late finds out that it is no longer wanted.
-/

namespace Chessrepeat.Lib

/-- A request: what it is for, how far it has got, and its abort signal. -/
structure Ticket (κ β : Type*) where
  key : κ
  stage : β
  aborted : Bool
  deriving DecidableEq, Repr

/-- All requests that were made, and the one that would be aborted next. -/
structure Latest (κ β : Type*) where
  tickets : List (Ticket κ β)
  held : Option Nat
  deriving DecidableEq, Repr

namespace Latest

variable {κ β : Type*} (l : Latest κ β)

def empty : Latest κ β := ⟨[], none⟩

/-- Aborting twice does nothing. -/
def abort : Latest κ β :=
  match l.held with
  | none => l
  | some i => ⟨l.tickets.modify i fun t => { t with aborted := true }, none⟩

def issue (key : κ) (stage : β) : Latest κ β :=
  ⟨l.abort.tickets ++ [⟨key, stage, false⟩], some l.abort.tickets.length⟩

/-- A request gets on. -/
def advance (i : Nat) (f : β → β) : Latest κ β :=
  { l with tickets := l.tickets.modify i fun t => { t with stage := f t.stage } }

/-- The request that is still wanted. -/
def current : Option (Ticket κ β) := l.held.bind fun i => l.tickets[i]?

/-- The requests that are not aborted are the one that is held. -/
structure Sound : Prop where
  alive : ∀ (i : Nat) t, l.tickets[i]? = some t → (t.aborted = false ↔ l.held = some i)
  inBounds : ∀ i, l.held = some i → i < l.tickets.length

variable {l} {i : Nat} {key : κ} {stage : β} {t : Ticket κ β} {f : β → β}

theorem sound_empty : (empty : Latest κ β).Sound := ⟨nofun, nofun⟩

/-- A request that was not aborted is the current one. -/
theorem Sound.current_of_alive (h : l.Sound) (ht : l.tickets[i]? = some t) (ha : t.aborted = false) :
    l.current = some t := by
  rw [current, (h.alive i t ht).mp ha, Option.bind_some, ht]

theorem Sound.aborted_current (h : l.Sound) (ht : l.current = some t) : t.aborted = false := by
  obtain ⟨i, hi, ht⟩ := Option.bind_eq_some_iff.mp ht
  exact (h.alive i t ht).mpr hi

theorem Sound.current_of_mem (h : l.Sound) (ht : t ∈ l.tickets) (ha : t.aborted = false) : l.current = some t := by
  obtain ⟨i, hi⟩ := List.getElem?_of_mem ht
  exact h.current_of_alive hi ha

/-- While none is wanted, all are aborted. -/
theorem Sound.aborted_of_idle (h : l.Sound) (hidle : l.current = none) (ht : t ∈ l.tickets) : t.aborted = true := by
  by_contra ha
  have hcur := h.current_of_mem ht (by simpa using ha)
  rw [hidle] at hcur
  cases hcur

/-! ## Aborting -/

@[simp] theorem held_abort : l.abort.held = none := by
  rw [abort]
  split
  · assumption
  · rfl

@[simp] theorem current_abort : l.abort.current = none := by rw [current, held_abort, Option.bind_none]

/-- No request is left that is not aborted. -/
theorem Sound.aborted_abort (h : l.Sound) (ht : l.abort.tickets[i]? = some t) : t.aborted = true := by
  rw [abort] at ht
  split at ht
  · rename_i hheld
    have hnot := mt (h.alive i t ht).mp (by rw [hheld]; nofun)
    exact Bool.not_eq_false _ ▸ hnot
  · rename_i j hheld
    rw [List.getElem?_modify] at ht
    obtain ⟨u, hu, rfl⟩ := Option.map_eq_some_iff.mp ht
    by_cases hij : j = i
    · rw [if_pos hij]
    · rw [if_neg hij]
      have hnot := mt (h.alive i u hu).mp (by rw [hheld]; exact fun he => hij (Option.some.inj he))
      simpa using hnot

theorem Sound.abort (h : l.Sound) : l.abort.Sound where
  alive := by
    intro i t ht
    rw [h.aborted_abort ht, held_abort]
    exact ⟨nofun, nofun⟩
  inBounds := by
    intro i hi
    rw [held_abort] at hi
    cases hi

/-! ## Making a request -/

@[simp] theorem current_issue : (l.issue key stage).current = some ⟨key, stage, false⟩ := by simp [current, issue]

theorem Sound.issue (h : l.Sound) : (l.issue key stage).Sound where
  alive := by
    intro i t ht
    rw [Latest.issue, List.getElem?_append] at ht
    split at ht
    · rename_i hi
      rw [h.aborted_abort ht, Latest.issue]
      exact ⟨nofun, fun he => absurd (Option.some.inj he) (by omega)⟩
    · rename_i hi
      obtain ⟨hlt, rfl⟩ := List.getElem?_eq_some_iff.mp ht
      rw [List.length_singleton] at hlt
      rw [List.getElem_singleton, Latest.issue]
      exact ⟨fun _ => congrArg some (by omega), fun _ => rfl⟩
  inBounds := by
    intro i hi
    simp only [Latest.issue, Option.some.injEq, List.length_append, List.length_singleton] at hi ⊢
    omega

/-! ## Getting on -/

@[simp] theorem held_advance : (l.advance i f).held = l.held := rfl

theorem Sound.advance (h : l.Sound) : (l.advance i f).Sound where
  alive := by
    intro j t ht
    rw [Latest.advance, List.getElem?_modify] at ht
    obtain ⟨u, hu, rfl⟩ := Option.map_eq_some_iff.mp ht
    have halive := h.alive j u hu
    by_cases hij : i = j
    · rw [if_pos hij]
      exact halive
    · rw [if_neg hij]
      exact halive
  inBounds := by
    intro j hj
    rw [Latest.advance, List.length_modify]
    exact h.inBounds j hj

theorem Sound.current_advance_of_alive (h : l.Sound) (ht : l.tickets[i]? = some t) (ha : t.aborted = false) :
    (l.advance i f).current = some { t with stage := f t.stage } := by
  have hheld := (h.alive i t ht).mp ha
  simp [current, Latest.advance, hheld, List.getElem?_modify, ht]

/-- An aborted request gets on alone. -/
theorem Sound.current_advance_of_aborted (h : l.Sound) (ht : l.tickets[i]? = some t) (ha : t.aborted = true) :
    (l.advance i f).current = l.current := by
  rw [current, current, held_advance]
  cases hl : l.held with
  | none => rfl
  | some j =>
      have hij : ¬ i = j := by
        rintro rfl
        have halive := (h.alive i t ht).mpr hl
        rw [ha] at halive
        cases halive
      simp [Latest.advance, List.getElem?_modify, hij]

end Latest

end Chessrepeat.Lib
