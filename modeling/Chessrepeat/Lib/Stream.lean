import Mathlib.Data.List.Basic

/-!
# Reading a stream piece by piece

A stream is cut before the elements that begin a piece, and a loop over the pieces may stop early.
-/

namespace Chessrepeat.Lib

variable {α σ ε : Type*}

/-! ## Cutting -/

section Cut

variable (p : α → Bool)

/-- The pieces of a list, where `piece` has been read of the first one. -/
def cutFrom : List α → List α → List (List α)
  | piece, [] => [piece]
  | piece, a :: l => if p a then piece :: cutFrom [a] l else cutFrom (piece ++ [a]) l

/-- The pieces that begin at the elements with `p`, after what comes before the first of these. -/
def cutBefore (l : List α) : List (List α) := cutFrom p [] l

theorem flatten_cutFrom (piece l : List α) : (cutFrom p piece l).flatten = piece ++ l := by
  induction l generalizing piece with
  | nil => simp [cutFrom]
  | cons a l ih =>
      rw [cutFrom]
      split
      · rw [List.flatten_cons, ih [a], List.singleton_append]
      · rw [ih, List.append_assoc, List.singleton_append]

theorem flatten_cutBefore (l : List α) : (cutBefore p l).flatten = l := flatten_cutFrom p [] l

theorem not_tail_append {piece : List α} {a : α} (h : ∀ b ∈ piece.tail, p b = false) (ha : p a = false) :
    ∀ b ∈ (piece ++ [a]).tail, p b = false := by
  cases piece with
  | nil => nofun
  | cons c piece =>
      intro b hb
      rcases List.mem_append.mp hb with hb | hb
      · exact h b hb
      · exact List.mem_singleton.mp hb ▸ ha

theorem not_tail_cutFrom {piece l : List α} (h : ∀ b ∈ piece.tail, p b = false) :
    ∀ q ∈ cutFrom p piece l, ∀ b ∈ q.tail, p b = false := by
  induction l generalizing piece with
  | nil =>
      intro q hq
      rw [List.mem_singleton.mp hq]
      exact h
  | cons a l ih =>
      intro q hq
      rw [cutFrom] at hq
      split at hq
      · rcases List.mem_cons.mp hq with rfl | hq
        · exact h
        · exact ih (fun _ hb => absurd hb List.not_mem_nil) q hq
      · rename_i ha
        exact ih (not_tail_append p h (Bool.not_eq_true _ ▸ ha)) q hq

/-- Inside a piece none begins. -/
theorem not_tail_cutBefore (l : List α) : ∀ q ∈ cutBefore p l, ∀ b ∈ q.tail, p b = false :=
  not_tail_cutFrom p fun _ hb => absurd hb List.not_mem_nil

end Cut

/-! ## Loops that may stop -/

/-- What each turn keeps holds at the end of the loop, and where a turn stops it, its exit holds of what has been read. -/
theorem foldlM_invariant {f : σ → α → Except ε σ} {inv : List α → σ → Prop} {exit : List α → ε → Prop}
    (hok : ∀ read s a s', inv read s → f s a = .ok s' → inv (read ++ [a]) s')
    (herr : ∀ read s a e, inv read s → f s a = .error e → exit (read ++ [a]) e) {read as : List α} {s : σ} (h : inv read s) :
    (∀ s', as.foldlM f s = .ok s' → inv (read ++ as) s') ∧
      ∀ e, as.foldlM f s = .error e → ∃ upTo, upTo <+: read ++ as ∧ exit upTo e := by
  induction as generalizing read s with
  | nil =>
      refine ⟨fun s' hs => ?_, fun e he => nomatch he⟩
      cases hs
      rwa [List.append_nil]
  | cons a as ih =>
      rw [List.foldlM_cons]
      cases hf : f s a with
      | ok s₁ =>
          have hrest := ih (hok read s a s₁ h hf)
          rwa [List.append_assoc, List.singleton_append] at hrest
      | error e =>
          refine ⟨fun s' hs => (nomatch hs), fun e' he => ?_⟩
          cases he
          exact ⟨read ++ [a], by simp, herr read s a _ h hf⟩

end Chessrepeat.Lib
