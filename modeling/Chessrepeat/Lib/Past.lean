import Chessrepeat.Lib.Interleave
import Mathlib.Data.List.Induction

/-!
# What has happened before

Assertions about histories, the actions a run has taken so far. A fact about a state that one kind of action
sets and another kind takes back is read off the history, and a process in flight remembers the moments it has
passed.
-/

namespace Chessrepeat.Lib

section Histories

variable {σ α : Type*} {step : σ → α → σ} {s : σ} {P P' Q : List α → Prop} {as bs : List α} {a : α}

/-- `P` held at some moment of the history, its end included. -/
def Once (P : List α → Prop) (as : List α) : Prop := ∃ bs, bs <+: as ∧ P bs

/-- `P` held at some moment, and at every later one `Q` did. -/
def Since (P Q : List α → Prop) (as : List α) : Prop :=
  ∃ bs, bs <+: as ∧ P bs ∧ ∀ cs, bs <+: cs → cs ≠ bs → cs <+: as → Q cs

/-- The last action of the history met `c` in the state before it. -/
def Just (step : σ → α → σ) (s : σ) (c : σ → α → Prop) (as : List α) : Prop :=
  ∃ bs a, as = bs ++ [a] ∧ c (run step s bs) a

theorem Once.now (h : P as) : Once P as := ⟨as, List.prefix_rfl, h⟩

theorem Once.later (hab : as <+: bs) (h : Once P as) : Once P bs := by
  obtain ⟨cs, hcs, hP⟩ := h
  exact ⟨cs, hcs.trans hab, hP⟩

theorem Once.concat (h : Once P as) : Once P (as ++ [a]) := h.later (List.prefix_append as [a])

theorem Once.mono (hP : ∀ bs, P bs → P' bs) (h : Once P as) : Once P' as := by
  obtain ⟨bs, hbs, h⟩ := h
  exact ⟨bs, hbs, hP bs h⟩

theorem Since.once (h : Since P Q as) : Once P as := by
  obtain ⟨bs, hbs, hP, -⟩ := h
  exact ⟨bs, hbs, hP⟩

theorem Since.now (h : P as) : Since P Q as :=
  ⟨as, List.prefix_rfl, h, fun _ hcs hne has => absurd (has.eq_of_length_le hcs.length_le) hne⟩

theorem prefix_concat : bs <+: as ++ [a] ↔ bs <+: as ∨ bs = as ++ [a] := by
  rw [List.prefix_concat_iff, or_comm]

@[simp] theorem since_nil : Since P Q [] ↔ P [] := by
  constructor
  · rintro ⟨bs, hbs, hP, -⟩
    rwa [List.prefix_nil.mp hbs] at hP
  · intro hP
    exact ⟨[], List.prefix_rfl, hP, fun cs _ hne hcs => absurd (List.prefix_nil.mp hcs) hne⟩

/-- The fixed point `Since` is of. -/
theorem since_concat : Since P Q (as ++ [a]) ↔ P (as ++ [a]) ∨ Since P Q as ∧ Q (as ++ [a]) := by
  have hlast : ∀ {bs : List α}, bs <+: as → as ++ [a] ≠ bs := by
    rintro bs h rfl
    exact absurd h.length_le (by simp)
  constructor
  · rintro ⟨bs, hbs, hP, hQ⟩
    rcases prefix_concat.mp hbs with hbs | rfl
    · refine Or.inr ⟨⟨bs, hbs, hP, fun cs hcs hne has => hQ cs hcs hne (prefix_concat.mpr (Or.inl has))⟩, ?_⟩
      exact hQ _ (hbs.trans (List.prefix_append as [a])) (hlast hbs) List.prefix_rfl
    · exact Or.inl hP
  · rintro (hP | ⟨⟨bs, hbs, hP, hQ⟩, hlate⟩)
    · exact .now hP
    · refine ⟨bs, prefix_concat.mpr (Or.inl hbs), hP, fun cs hcs hne has => ?_⟩
      rcases prefix_concat.mp has with has | rfl
      · exact hQ cs hcs hne has
      · exact hlate

theorem just_concat {c : σ → α → Prop} : Just step s c (as ++ [a]) ↔ c (run step s as) a := by
  constructor
  · rintro ⟨bs, b, he, hc⟩
    obtain ⟨rfl, rfl⟩ := List.append_singleton_inj.mp he
    exact hc
  · exact fun hc => ⟨as, a, rfl, hc⟩

theorem not_just_nil {c : σ → α → Prop} : ¬ Just step s c [] := by
  rintro ⟨bs, a, he, -⟩
  exact List.append_ne_nil_of_right_ne_nil bs (List.cons_ne_nil a []) he.symm

@[simp] theorem run_append_singleton : run step s (as ++ [a]) = step (run step s as) a := run_append s as [a]

/-- What `p` sets and `q` takes back, and nothing else changes where the invariant holds, holds when `p` has happened
and no `q` since. -/
theorem iff_since_of_inv {I R : σ → Prop} {p q : σ → α → Prop} (hinv : ∀ s a, I s → I (step s a))
    (hstep : ∀ s a, I s → (R (step s a) ↔ p s a ∨ R s ∧ ¬ q s a)) (hs : I s) (h0 : ¬ R s) (as : List α) :
    R (run step s as) ↔ Since (Just step s p) (fun bs => ¬ Just step s q bs) as := by
  induction as using List.reverseRecOn with
  | nil => exact iff_of_false h0 fun h => not_just_nil (since_nil.mp h)
  | append_singleton as a ih =>
      have hrun : I (run step s as) := (always_of_step hinv hs as).last
      rw [run_append_singleton, hstep _ _ hrun, ih, since_concat, just_concat, just_concat]

end Histories

/-! ## Processes and their past -/

namespace Protocol

variable {σ π ρ : Type*} {sys : Protocol σ π ρ} {w : Flight σ π} {c : σ → π → Prop}

/-- Some process makes an access, and meets `c` in the shared state before it. -/
def Does (c : σ → π → Prop) (w : Flight σ π) : Turn ρ → Prop
  | .exec i => ∃ p ∈ w.procs[i]?, c w.shared p
  | .call _ | .fail _ => False

/-- What a turn does to the shared state is what the process that makes an access does to it. -/
theorem shared_turn (R : σ → Prop) {p q : σ → π → Prop} (w : Flight σ π) (t : Turn ρ)
    (h : ∀ r ∈ w.procs, R (sys.exec w.shared r).2 ↔ p w.shared r ∨ R w.shared ∧ ¬ q w.shared r) :
    R (sys.step w t).shared ↔ Does p w t ∨ R w.shared ∧ ¬ Does q w t := by
  cases t with
  | call r => simp [Protocol.step, Does]
  | fail i => simp [Protocol.step, Does]
  | exec i =>
      cases hi : w.procs[i]? with
      | none => simp [Protocol.step, Does, hi]
      | some r => simpa [Protocol.step, Does, hi] using h r (List.mem_of_getElem? hi)

/-- The process that is at `i` after a turn was there before, or has begun, made its access or failed in it. -/
theorem getElem?_step {t : Turn ρ} {i : Nat} {q : π} (h : (sys.step w t).procs[i]? = some q) :
    w.procs[i]? = some q ∨ (∃ r, t = .call r ∧ q = sys.start r) ∨
      ∃ p, w.procs[i]? = some p ∧ (t = .exec i ∧ q = (sys.exec w.shared p).1 ∨ t = .fail i ∧ q = sys.fail p) := by
  cases t with
  | call r =>
      rw [Protocol.step, List.getElem?_append] at h
      split at h
      · exact Or.inl h
      · rw [List.getElem?_singleton] at h
        split at h
        · exact Or.inr (Or.inl ⟨r, rfl, (Option.some.inj h).symm⟩)
        · cases h
  | exec j =>
      cases hj : w.procs[j]? with
      | none =>
          simp only [Protocol.step, hj] at h
          exact Or.inl h
      | some p =>
          simp only [Protocol.step, hj, List.getElem?_set] at h
          split at h
          · rename_i hij
            split at h
            · exact Or.inr (Or.inr ⟨p, hij ▸ hj, Or.inl ⟨hij ▸ rfl, (Option.some.inj h).symm⟩⟩)
            · cases h
          · exact Or.inl h
  | fail j =>
      simp only [Protocol.step, List.getElem?_modify] at h
      obtain ⟨p, hp, rfl⟩ := Option.map_eq_some_iff.mp h
      split
      · rename_i hji
        exact Or.inr (Or.inr ⟨p, hp, Or.inr ⟨hji ▸ rfl, rfl⟩⟩)
      · exact Or.inl hp

theorem getElem?_exec {i : Nat} {p : π} (h : w.procs[i]? = some p) :
    (sys.step w (.exec i)).procs[i]? = some (sys.exec w.shared p).1 := by
  simp only [Protocol.step, h, List.getElem?_set_self (List.getElem?_eq_some_iff.mp h).1]

/-- An assertion that the process at each place meets about the history. It survives what the others do, and its own
accesses keep it. -/
structure Remembers (sys : Protocol σ π ρ) (w : Flight σ π) (A : Nat → List (Turn ρ) → π → Prop) : Prop where
  start : ∀ ts r i, A i (ts ++ [.call r]) (sys.start r)
  later : ∀ ts t i p, (run sys.step w (ts ++ [t])).procs[i]? = some p → A i ts p → A i (ts ++ [t]) p
  exec : ∀ ts i p, (run sys.step w ts).procs[i]? = some p → A i ts p →
    A i (ts ++ [.exec i]) (sys.exec (run sys.step w ts).shared p).1
  fail : ∀ ts i p, A i ts p → A i ts (sys.fail p)

theorem Remembers.holds {A : Nat → List (Turn ρ) → π → Prop} (h : sys.Remembers w A) (hw : w.procs = [])
    (ts : List (Turn ρ)) : ∀ i p, (run sys.step w ts).procs[i]? = some p → A i ts p := by
  induction ts using List.reverseRecOn with
  | nil =>
      intro i p hp
      rw [run_nil, hw] at hp
      cases hp
  | append_singleton ts t ih =>
      intro i q hq
      have hlast := hq
      rw [run_append_singleton] at hq
      rcases getElem?_step hq with hold | ⟨r, rfl, rfl⟩ | ⟨p, hp, ⟨rfl, rfl⟩ | ⟨rfl, rfl⟩⟩
      · exact h.later ts t i q hlast (ih i q hold)
      · exact h.start ts r i
      · exact h.exec ts i p hp (ih i p hp)
      · exact h.later ts _ i _ hlast (h.fail ts i p (ih i p hp))

/-- An assertion that the accesses keep where the shared state meets `I`, which they keep in turn. -/
theorem Stable.inv_step {I : σ → Prop} {A : σ → π → Prop} (h : sys.Stable (fun s _ => I s) A)
    (hI : ∀ s p, I s → A s p → I (sys.exec s p).2) (w : Flight σ π) (t : Turn ρ) (hw : I w.shared ∧ Asserts A w) :
    I (sys.step w t).shared ∧ Asserts A (sys.step w t) := by
  have hturn : OnTurn (fun s _ => I s) w t := by
    cases t with
    | call | fail => trivial
    | exec i =>
        rw [OnTurn]
        cases w.procs[i]? with
        | none => trivial
        | some p => exact hw.1
  exact ⟨shared_step (fun s p hs hp _ => hI s p hs hp) hw.1 hw.2 hturn, h.step hw.2 hturn⟩

end Protocol

end Chessrepeat.Lib
