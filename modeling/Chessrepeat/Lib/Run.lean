import Mathlib.Data.List.Basic

/-!
# Runs of a step function

A system is a total step function on states. The order in which its parts take their steps is the
list of actions, so a statement about every list of actions is a statement about every interleaving.
-/

namespace Chessrepeat.Lib

variable {σ α : Type*} (step : σ → α → σ)

/-- The state after the actions, taken from left to right. -/
def run (s : σ) (as : List α) : σ := as.foldl step s

/-- Every action of the run meets `c` in the state before it. -/
def Meets (c : σ → α → Prop) : σ → List α → Prop
  | _, [] => True
  | s, a :: as => c s a ∧ Meets c (step s a) as

/-- Every state the run visits satisfies `p`, the first and the last included. -/
def Always (p : σ → Prop) : σ → List α → Prop
  | s, [] => p s
  | s, a :: as => p s ∧ Always p (step s a) as

instance Meets.decidable (c : σ → α → Prop) [∀ s a, Decidable (c s a)] :
    (s : σ) → (as : List α) → Decidable (Meets step c s as)
  | _, [] => inferInstanceAs (Decidable True)
  | s, a :: as => @instDecidableAnd _ _ _ (Meets.decidable c (step s a) as)

instance Always.decidable (p : σ → Prop) [DecidablePred p] :
    (s : σ) → (as : List α) → Decidable (Always step p s as)
  | s, [] => inferInstanceAs (Decidable (p s))
  | s, a :: as => @instDecidableAnd _ _ _ (Always.decidable p (step s a) as)

variable {step}

@[simp] theorem run_nil (s : σ) : run step s ([] : List α) = s := rfl

@[simp] theorem run_cons (s : σ) (a : α) (as : List α) : run step s (a :: as) = run step (step s a) as := rfl

theorem run_append (s : σ) (as bs : List α) : run step s (as ++ bs) = run step (run step s as) bs := by
  simp only [run, List.foldl_append]

theorem meets_append {c : σ → α → Prop} {s : σ} {as bs : List α} :
    Meets step c s (as ++ bs) ↔ Meets step c s as ∧ Meets step c (run step s as) bs := by
  induction as generalizing s with
  | nil => exact (and_iff_right trivial).symm
  | cons a as ih => rw [List.cons_append, Meets, Meets, ih, run_cons, and_assoc]

/-- The last state of a run is one of the states it visits. -/
theorem Always.last {p : σ → Prop} {s : σ} {as : List α} (h : Always step p s as) : p (run step s as) := by
  induction as generalizing s with
  | nil => exact h
  | cons a as ih => exact ih h.2

theorem Always.mono {p q : σ → Prop} (hpq : ∀ s, p s → q s) {s : σ} {as : List α}
    (h : Always step p s as) : Always step q s as := by
  induction as generalizing s with
  | nil => exact hpq s h
  | cons a as ih => exact ⟨hpq s h.1, ih h.2⟩

/-- An invariant kept by every step that meets `c` holds in every state of a run whose steps meet `c`. -/
theorem Meets.always {inv : σ → Prop} {c : σ → α → Prop}
    (hstep : ∀ s a, inv s → c s a → inv (step s a)) {s : σ} {as : List α}
    (h0 : inv s) (h : Meets step c s as) : Always step inv s as := by
  induction as generalizing s with
  | nil => exact h0
  | cons a as ih => exact ⟨h0, ih (hstep s a h0 h.1) h.2⟩

/-- The same for the state the run ends in. -/
theorem Meets.invariant {inv : σ → Prop} {c : σ → α → Prop}
    (hstep : ∀ s a, inv s → c s a → inv (step s a)) {s : σ} {as : List α}
    (h0 : inv s) (h : Meets step c s as) : inv (run step s as) :=
  (h.always hstep h0).last

theorem Meets.mono {c d : σ → α → Prop} (hcd : ∀ s a, c s a → d s a) {s : σ} {as : List α} (h : Meets step c s as) :
    Meets step d s as := by
  induction as generalizing s with
  | nil => trivial
  | cons a as ih => exact ⟨hcd s a h.1, ih h.2⟩

theorem Meets.and {c d : σ → α → Prop} {s : σ} {as : List α} (hc : Meets step c s as) (hd : Meets step d s as) :
    Meets step (fun s a => c s a ∧ d s a) s as := by
  induction as generalizing s with
  | nil => trivial
  | cons a as ih => exact ⟨⟨hc.1, hd.1⟩, ih hc.2 hd.2⟩

theorem meets_of_forall {c : α → Prop} {s : σ} {as : List α} (h : ∀ a ∈ as, c a) : Meets step (fun _ a => c a) s as := by
  induction as generalizing s with
  | nil => trivial
  | cons a as ih => exact ⟨h a List.mem_cons_self, ih fun b hb => h b (List.mem_cons_of_mem a hb)⟩

/-- What holds of every state holds before and after every action. -/
theorem Always.meets {p : σ → Prop} {s : σ} {as : List α} (h : Always step p s as) :
    Meets step (fun s a => p s ∧ p (step s a)) s as := by
  induction as generalizing s with
  | nil => trivial
  | cons a as ih =>
      refine ⟨⟨h.1, ?_⟩, ih h.2⟩
      cases as with
      | nil => exact h.2
      | cons b as => exact h.2.1

/-- An invariant every step keeps holds in every state of every run. -/
theorem always_of_step {inv : σ → Prop} (hstep : ∀ s a, inv s → inv (step s a)) {s : σ} (h0 : inv s)
    (as : List α) : Always step inv s as := by
  induction as generalizing s with
  | nil => exact h0
  | cons a as ih => exact ⟨h0, ih (hstep s a h0)⟩

/-- When a step keeps `inv` exactly if it meets `c`, a run keeps it throughout exactly if all its steps meet
`c`. `J` is what every step keeps anyway. -/
theorem always_iff_meets {J inv : σ → Prop} {c : σ → α → Prop} (hJ : ∀ s a, J s → J (step s a))
    (hstep : ∀ s a, J s → inv s → (inv (step s a) ↔ c s a)) {s : σ} (hJ0 : J s) (h0 : inv s) (as : List α) :
    Always step inv s as ↔ Meets step c s as := by
  induction as generalizing s with
  | nil => exact iff_of_true h0 trivial
  | cons a as ih =>
      constructor
      · intro h
        have hs' : inv (step s a) := by
          cases as with
          | nil => exact h.2
          | cons b as => exact h.2.1
        exact ⟨(hstep s a hJ0 h0).mp hs', (ih (hJ s a hJ0) hs').mp h.2⟩
      · intro h
        exact ⟨h0, (ih (hJ s a hJ0) ((hstep s a hJ0 h0).mpr h.1)).mpr h.2⟩

end Chessrepeat.Lib
