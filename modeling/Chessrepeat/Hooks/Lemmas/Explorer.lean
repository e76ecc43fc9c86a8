import Chessrepeat.Hooks.Explorer

/-!
# The opening explorer of the page

A request that is not aborted is the one for the position on the board, so what it brings is shown there.
-/

namespace Chessrepeat.Hooks

open Lib Client

theorem sortMoves_perm (moves : List ExplorerMove) : (sortMoves moves).Perm moves := List.mergeSort_perm _ _

theorem sortMoves_pairwise (moves : List ExplorerMove) :
    (sortMoves moves).Pairwise fun a b => moveTotal b ≤ moveTotal a := by
  have htrans : ∀ a b c : ExplorerMove, decide (moveTotal b ≤ moveTotal a) = true →
      decide (moveTotal c ≤ moveTotal b) = true → decide (moveTotal c ≤ moveTotal a) = true := by
    simp only [decide_eq_true_eq]
    omega
  have htotal : ∀ a b : ExplorerMove,
      (decide (moveTotal b ≤ moveTotal a) || decide (moveTotal a ≤ moveTotal b)) = true := by
    simp only [Bool.or_eq_true, decide_eq_true_eq]
    omega
  exact (List.pairwise_mergeSort htrans htotal moves).imp of_decide_eq_true

namespace UseExplorer

variable {lib : ChessLib} {s : UseExplorer} {Q : JsString → ExplorerReply → Prop} {E : JsString → CloudReply → Prop}

/-- Where there is no board to ask about, and where the request fails, the eval is null. -/
theorem isEval_fetchCloudEval {fen san : JsString} {reply : CloudReply}
    (h : ∀ board, fenAfter lib fen san = some board → E board reply) :
    IsEval lib E fen san (fetchCloudEval lib fen san reply) := by
  rw [fetchCloudEval]
  cases hb : (fenAfter lib fen san).filter (· ≠ []) with
  | none => exact Or.inl rfl
  | some board =>
      have hboard : fenAfter lib fen san = some board := (Option.filter_eq_some_iff.mp hb).1
      exact Or.inr ⟨board, reply, hboard, h board hboard, rfl⟩

/-- What is shown is right, and only the last request may still change it. -/
structure Inv (lib : ChessLib) (Q : JsString → ExplorerReply → Prop) (E : JsString → CloudReply → Prop)
    (s : UseExplorer) : Prop where
  sound : s.queries.Sound
  active : ∀ fen, s.deps = some (fen, true) → ∃ t, s.queries.current = some t ∧ t.key = fen ∧
    Shown lib Q E (fullFen lib fen) t.stage s.result
  idle : (∀ fen, s.deps ≠ some (fen, true)) → s.queries.current = none

theorem Inv.current (h : Inv lib Q E s) : Current lib Q E s where
  alive _ ht ha := h.sound.current_of_mem ht ha
  active fen hfen := by
    obtain ⟨t, ht, hkey, hshown⟩ := h.active fen hfen
    exact ⟨t, ht, h.sound.aborted_current ht, hkey, hshown⟩
  idle hidle := ⟨h.idle hidle, fun _ ht => h.sound.aborted_of_idle (h.idle hidle) ht⟩

theorem inv_mounting : Inv lib Q E mounting where
  sound := Latest.sound_empty
  active := nofun
  idle _ := rfl

/-- A request that is not aborted is for the position on the board, and what is shown is what it has brought. -/
theorem Inv.alive (h : Inv lib Q E s) {i : Nat} {t : Ticket JsString Progress} (ht : s.queries.tickets[i]? = some t)
    (ha : t.aborted = false) :
    s.deps = some (t.key, true) ∧ Shown lib Q E (fullFen lib t.key) t.stage s.result := by
  have hcur := h.sound.current_of_alive ht ha
  by_cases hdeps : ∃ fen, s.deps = some (fen, true)
  · obtain ⟨fen, hfen⟩ := hdeps
    obtain ⟨u, hu, rfl, hshown⟩ := h.active fen hfen
    obtain rfl := Option.some.inj (hu.symm.trans hcur)
    exact ⟨hfen, hshown⟩
  · have hnone := h.idle fun fen hfen => hdeps ⟨fen, hfen⟩
    rw [hcur] at hnone
    cases hnone

/-- An aborted request gets on, and nothing else changes. -/
theorem Inv.late (h : Inv lib Q E s) {i : Nat} {t : Ticket JsString Progress} (ht : s.queries.tickets[i]? = some t)
    (ha : t.aborted = true) (f : Progress → Progress) : Inv lib Q E { s with queries := s.queries.advance i f } := by
  have hcur : (s.queries.advance i f).current = s.queries.current := h.sound.current_advance_of_aborted ht ha
  refine ⟨h.sound.advance, fun fen hfen => ?_, fun hidle => ?_⟩
  · rw [hcur]
    exact h.active fen hfen
  · rw [hcur]
    exact h.idle hidle

/-- The current request gets on, and what it brings is shown. -/
theorem Inv.onTime (h : Inv lib Q E s) {i : Nat} {t : Ticket JsString Progress} (ht : s.queries.tickets[i]? = some t)
    (ha : t.aborted = false) {f : Progress → Progress} {result : ExplorerResult}
    (hshown : Shown lib Q E (fullFen lib t.key) (f t.stage) result) :
    Inv lib Q E { s with queries := s.queries.advance i f, result := result } := by
  obtain ⟨hdeps, -⟩ := h.alive ht ha
  refine ⟨h.sound.advance, fun fen hfen => ?_, fun hidle => absurd hdeps (hidle t.key)⟩
  have hkey : t.key = fen := (Prod.mk.inj (Option.some.inj (hdeps.symm.trans hfen))).1
  exact ⟨{ t with stage := f t.stage }, h.sound.current_advance_of_alive ht ha, hkey, hkey ▸ hshown⟩

theorem Inv.render (h : Inv lib Q E s) (fen : JsString) (active : Bool) : Inv lib Q E (s.render fen active) := by
  rw [UseExplorer.render]
  split
  · exact h
  · cases active with
    | true =>
        refine ⟨h.sound.issue, fun fen' hfen => ?_, fun hidle => absurd rfl (hidle fen)⟩
        have hkey : fen = fen' := (Prod.mk.inj (Option.some.inj hfen)).1
        exact ⟨⟨fen, ⟨true, []⟩, false⟩, Latest.current_issue, hkey, .loading⟩
    | false =>
        refine ⟨h.sound.abort, fun fen' hfen => ?_, fun _ => Latest.current_abort⟩
        cases (Prod.mk.inj (Option.some.inj hfen)).2

theorem Inv.unmount (h : Inv lib Q E s) : Inv lib Q E s.unmount :=
  ⟨h.sound.abort, nofun, fun _ => Latest.current_abort⟩

theorem Inv.answered (h : Inv lib Q E s) {i : Nat} {reply : ExplorerReply}
    (hreply : ∀ t, s.queries.tickets[i]? = some t → Q (fullFen lib t.key) reply) : Inv lib Q E (s.answered i reply) := by
  rw [UseExplorer.answered]
  cases ht : s.queries.tickets[i]? with
  | none => exact h
  | some t =>
      cases hfetching : t.stage.fetching with
      | false => simpa [hfetching] using h
      | true =>
          cases ha : t.aborted with
          | true => simpa [hfetching, ha] using h.late ht ha _
          | false =>
              obtain ⟨-, hshown⟩ := h.alive ht ha
              have hloading : t.stage = ⟨true, []⟩ ∧ s.result = .loading := by
                cases hstage : t.stage
                cases hresult : s.result
                rw [hstage, hresult] at hshown
                rw [hstage] at hfetching
                cases hfetching
                cases hshown
                exact ⟨rfl, rfl⟩
              cases hresults : reply.results with
              | none =>
                  have hrejected : reply = .rejected := by
                    cases reply with
                    | rejected => rfl
                    | refused => cases hresults
                    | body data => cases hresults
                  have hfailed : Shown lib Q E (fullFen lib t.key) { t.stage with fetching := false }
                      { s.result with error := true } := by
                    rw [hloading.1, hloading.2]
                    exact .failed (hrejected ▸ hreply t ht)
                  simpa [hfetching, ha, hresults] using h.onTime ht ha (f := fun p => { p with fetching := false }) hfailed
              | some m =>
                  have hloaded : Shown lib Q E (fullFen lib t.key) ⟨false, m.map ExplorerMove.san⟩
                      { s.result with moves := some (sortMoves m) } := by
                    rw [hloading.2]
                    refine .loaded (hreply t ht) hresults (sortMoves_perm m) (sortMoves_pairwise m) (fun x hx => ?_)
                      (fun san hsan => ?_) nofun
                    · exact Or.inl (List.mem_map_of_mem ((sortMoves_perm m).mem_iff.mp hx))
                    · obtain ⟨x, hx, rfl⟩ := List.mem_map.mp hsan
                      exact ⟨x, (sortMoves_perm m).mem_iff.mpr hx, rfl⟩
                  simpa [hfetching, ha, hresults] using
                    h.onTime ht ha (f := fun _ => ⟨false, m.map ExplorerMove.san⟩) hloaded

/-- One eval more is shown, and one less is waited for. -/
theorem Shown.evaluated {fen san : JsString} {p : Progress} {result : ExplorerResult} {e : Option CloudEval}
    (h : Shown lib Q E fen p result) (hsan : san ∈ p.evals) (he : IsEval lib E fen san e) :
    Shown lib Q E fen { p with evals := p.evals.erase san }
      { result with evals := Function.update result.evals san (some e) } := by
  cases h with
  | loading => cases hsan
  | failed => cases hsan
  | loaded asked replied perm sorted waits asks shown =>
      refine .loaded asked replied perm sorted (fun m hm => ?_) (fun san' hsan' => asks san' (List.mem_of_mem_erase hsan'))
        fun san' e' he' => ?_
      · by_cases hne : m.san = san
        · exact Or.inr (by simp [hne])
        · rw [Function.update_of_ne hne]
          exact (waits m hm).imp_left (List.mem_erase_of_ne hne).mpr
      · by_cases hne : san' = san
        · subst hne
          rw [Function.update_self] at he'
          exact ⟨asks san' hsan, Option.some.inj he' ▸ he⟩
        · rw [Function.update_of_ne hne] at he'
          exact shown san' e' he'

theorem Inv.evaluated (h : Inv lib Q E s) {i : Nat} {san : JsString} {reply : CloudReply}
    (hreply : ∀ t, s.queries.tickets[i]? = some t →
      ∀ board, fenAfter lib (fullFen lib t.key) san = some board → E board reply) :
    Inv lib Q E (s.evaluated lib i san reply) := by
  rw [UseExplorer.evaluated]
  cases ht : s.queries.tickets[i]? with
  | none => exact h
  | some t =>
      by_cases hsan : san ∈ t.stage.evals
      · cases ha : t.aborted with
        | true => simpa [hsan, ha] using h.late ht ha _
        | false =>
            obtain ⟨-, hshown⟩ := h.alive ht ha
            have hnext := hshown.evaluated hsan (isEval_fetchCloudEval (hreply t ht))
            simpa [hsan, ha] using h.onTime ht ha (f := fun p => { p with evals := p.evals.erase san }) hnext
      · simpa [hsan] using h

theorem Inv.step (h : Inv lib Q E s) {a : Action} (ha : Honest lib Q E s a) : Inv lib Q E (s.step lib a) := by
  cases a with
  | render fen editing => exact h.render (fen.getD lib.initialFen) editing
  | unmount => exact h.unmount
  | answered i reply => exact h.answered ha
  | evaluated i san reply => exact h.evaluated ha

end UseExplorer

end Chessrepeat.Hooks
