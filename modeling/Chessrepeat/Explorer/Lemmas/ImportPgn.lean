import Chessrepeat.Explorer.ImportPgn
import Chessrepeat.Lib.Stream

/-!
# The texts of the games, and the batches they are sent in
-/

namespace Chessrepeat.Explorer

open Lib Domain

variable {σ ε : Type}

/-! ## Lines -/

/-- Each line ended by a line feed. -/
def unlines (lines : List Bytes) : Bytes := lines.flatMap (· ++ [newline])

theorem unlines_append (lines : List Bytes) (line : Bytes) : unlines (lines ++ [line]) = unlines lines ++ line ++ [newline] := by
  simp [unlines]

theorem flatten_map_unlines (pieces : List (List Bytes)) : (pieces.map unlines).flatten = unlines pieces.flatten := by
  induction pieces with
  | nil => rfl
  | cons piece pieces ih => rw [List.map_cons, List.flatten_cons, List.flatten_cons, ih, unlines, unlines, unlines, List.flatMap_append]

theorem newline_not_mem_rawLines (r : Bytes) : ∀ line ∈ rawLines r, newline ∉ line := by
  induction r with
  | nil => nofun
  | cons b r ih =>
      intro line hline
      rw [rawLines] at hline
      split at hline
      · rcases List.mem_cons.mp hline with rfl | hline
        · exact List.not_mem_nil
        · exact ih line hline
      · rename_i hb
        cases hr : rawLines r with
        | nil =>
            rw [hr] at hline
            rw [List.mem_singleton.mp hline]
            exact fun h => hb (List.mem_singleton.mp h).symm
        | cons line' lines =>
            rw [hr] at hline ih
            rcases List.mem_cons.mp hline with rfl | hline
            · intro h
              rcases List.mem_cons.mp h with h | h
              · exact hb h.symm
              · exact ih line' List.mem_cons_self h
            · exact ih line (List.mem_cons_of_mem _ hline)

theorem rawLines_append {line : Bytes} (h : newline ∉ line) (r : Bytes) :
    rawLines (line ++ newline :: r) = line :: rawLines r := by
  induction line with
  | nil => rw [List.nil_append, rawLines, if_pos rfl]
  | cons b line ih =>
      rw [List.mem_cons, not_or] at h
      rw [List.cons_append, rawLines, if_neg (Ne.symm h.1), ih h.2]

theorem rawLines_unlines {lines : List Bytes} (h : ∀ line ∈ lines, newline ∉ line) : rawLines (unlines lines) = lines := by
  induction lines with
  | nil => rfl
  | cons line lines ih =>
      have hrest := ih fun l hl => h l (List.mem_cons_of_mem _ hl)
      rw [unlines, List.flatMap_cons, List.append_assoc, List.singleton_append, rawLines_append (h line List.mem_cons_self)]
      exact congrArg _ hrest

theorem dropCR_isPrefix (line : Bytes) : dropCR line <+: line := by
  rw [dropCR]
  split
  · exact List.dropLast_prefix line
  · exact List.prefix_refl line

/-- The lines of a stream, without their line ends. -/
def lines (r : Bytes) : List Bytes := (rawLines r).map dropCR

theorem newline_not_mem_lines (r : Bytes) : ∀ line ∈ lines r, newline ∉ line := by
  intro line hline
  obtain ⟨raw, hraw, rfl⟩ := List.mem_map.mp hline
  exact fun h => newline_not_mem_rawLines r raw hraw ((dropCR_isPrefix raw).subset h)

theorem scanLines_eq {r : Bytes} (h : ∀ line ∈ rawLines r, line.length < maxTokenSize) : scanLines r = (lines r, none) := by
  have hall : (rawLines r).takeWhile (fun line => line.length < maxTokenSize) = rawLines r :=
    List.takeWhile_eq_self_iff.mpr fun line hline => decide_eq_true (h line hline)
  rw [scanLines]
  simp only [hall, if_true]
  rfl

/-! ## eachGame -/

/-- What is cut before the `[Event ` lines and is no white space. -/
def texts (lines : List Bytes) : List Bytes := ((cutBefore startsGame lines).map unlines).filter fun text => !isBlank text

theorem startsGame_dropCR {line : Bytes} (h : startsGame line = false) : startsGame (dropCR line) = false := by
  rw [← Bool.not_eq_true, startsGame, List.isPrefixOf_iff_prefix] at h ⊢
  exact fun hp => h (hp.trans (dropCR_isPrefix line))

/-- In a text only the first line may begin a game. -/
theorem startsGame_tail_texts {ls : List Bytes} (h : ∀ line ∈ ls, newline ∉ line) :
    ∀ text ∈ texts ls, ∀ line ∈ (lines text).tail, startsGame line = false := by
  intro text htext
  obtain ⟨piece, hpiece, rfl⟩ := List.mem_map.mp (List.mem_of_mem_filter htext)
  have hlines : rawLines (unlines piece) = piece := rawLines_unlines fun line hline =>
    h line (flatten_cutBefore startsGame ls ▸ List.mem_flatten.mpr ⟨piece, hpiece, hline⟩)
  intro line hline
  rw [lines, hlines, ← List.map_tail] at hline
  obtain ⟨raw, hraw, rfl⟩ := List.mem_map.mp hline
  exact startsGame_dropCR (not_tail_cutBefore startsGame ls piece hpiece raw hraw)

theorem foldlM_flush (fn : σ → Bytes → Except ε σ) (s : σ) (game : Bytes) (rest : List Bytes) :
    ((game :: rest).filter fun text => !isBlank text).foldlM fn s =
      (flush fn s game).bind fun s' => (rest.filter fun text => !isBlank text).foldlM fn s' := by
  rw [flush]
  cases hb : isBlank game with
  | true => simp only [List.filter_cons, hb, Bool.not_true, Bool.false_eq_true, if_false, if_true, Except.bind]
  | false =>
      simp only [List.filter_cons, hb, Bool.not_false, if_true, Bool.false_eq_true, if_false, List.foldlM_cons]
      rfl

theorem eachLine_flush (fn : σ → Bytes → Except ε σ) (s : σ) (piece lines : List Bytes) :
    (eachLine fn s (unlines piece) lines).bind (fun read => flush fn read.1 read.2) =
      (((cutFrom startsGame piece lines).map unlines).filter fun text => !isBlank text).foldlM fn s := by
  induction lines generalizing s piece with
  | nil =>
      rw [cutFrom, List.map_singleton, foldlM_flush, eachLine]
      change flush fn s (unlines piece) = _
      cases flush fn s (unlines piece) with
      | error e => rfl
      | ok s' => rfl
  | cons line lines ih =>
      rw [eachLine, cutFrom]
      split
      · rw [List.map_cons, foldlM_flush]
        cases flush fn s (unlines piece) with
        | error e => rfl
        | ok s' =>
            have hline : unlines [line] = line ++ [newline] := List.append_nil _
            exact hline ▸ ih s' [line]
      · rw [← unlines_append]
        exact ih s (piece ++ [line])

theorem eachGame_eq (fn : σ → Bytes → Except ε σ) (s : σ) (r : Bytes) :
    eachGame fn s r = ((texts (scanLines r).1).foldlM fn s).map fun s' => (s', (scanLines r).2) := by
  rw [texts, cutBefore, ← eachLine_flush fn s [] (scanLines r).1, eachGame]
  have hnil : unlines [] = [] := rfl
  rw [hnil]
  cases eachLine fn s [] (scanLines r).1 with
  | error e => rfl
  | ok read => rfl

/-- A callback that keeps what it is given. -/
def collect (kept : List Bytes) (text : Bytes) : Except ε (List Bytes) := .ok (kept ++ [text])

theorem foldlM_collect (kept given : List Bytes) : given.foldlM (@collect ε) kept = .ok (kept ++ given) := by
  induction given generalizing kept with
  | nil => rw [List.append_nil]; rfl
  | cons text given ih => exact (ih (kept ++ [text])).trans (by rw [List.append_assoc, List.singleton_append])

/-! ## main -/

section Main

variable {Game Position Move : Type} (lib : PgnReader Game Position Move)
variable {respond : List (List Payload) → Option ImportResult} {st st' : Importing} {read : List Bytes} {text : Bytes}
variable {batch : List Payload}

/-- The games of the texts that the library accepts. -/
def accepted (read : List Bytes) : List Payload := read.filterMap fun text => (lib.pgn text).map (payload lib)

def FitBatches (st : Importing) : Prop := ∀ batch ∈ st.puts, 1 ≤ batch.length ∧ batch.length ≤ batchSize

/-- Every game of the texts read so far has been sent once or waits in the batch, which is not full. -/
structure Sent (read : List Bytes) (st : Importing) : Prop where
  games : st.puts.flatten ++ st.batch = accepted lib read
  counted : (accepted lib read).length + st.unparsed = read.length
  fit : FitBatches st
  room : st.batch.length < batchSize

/-- The command has stopped at a PUT that was not answered with a result. -/
structure Stopped (respond : List (List Payload) → Option ImportResult) (read : List Bytes) (st : Importing) : Prop where
  games : st.puts.flatten = accepted lib read
  fit : FitBatches st
  failed : respond st.puts = none

theorem send_ok (h : send respond st batch = .ok st') :
    st'.puts = st.puts ++ [batch] ∧ st'.batch = st.batch ∧ st'.unparsed = st.unparsed := by
  rw [send] at h
  split at h
  · cases h
  · cases h
    exact ⟨rfl, rfl, rfl⟩

theorem send_error (h : send respond st batch = .error st') :
    st'.puts = st.puts ++ [batch] ∧ respond (st.puts ++ [batch]) = none := by
  rw [send] at h
  split at h
  · rename_i hnone
    cases h
    exact ⟨rfl, hnone⟩
  · cases h

theorem FitBatches.append (h : FitBatches st) (hb : 1 ≤ batch.length ∧ batch.length ≤ batchSize) (hp : st'.puts = st.puts ++ [batch]) :
    FitBatches st' := by
  intro b hmem
  rw [hp, List.mem_append, List.mem_singleton] at hmem
  rcases hmem with hmem | rfl
  · exact h b hmem
  · exact hb

theorem accepted_none (h : lib.pgn text = none) : accepted lib (read ++ [text]) = accepted lib read := by
  simp [accepted, h]

theorem accepted_some {game : Game} (h : lib.pgn text = some game) :
    accepted lib (read ++ [text]) = accepted lib read ++ [payload lib game] := by
  simp [accepted, h]

/-- A text is unparseable, fills the batch, or leaves room in it. -/
theorem onGame_ok (h : onGame lib respond st text = .ok st') :
    (lib.pgn text = none ∧ st' = { st with unparsed := st.unparsed + 1 }) ∨
    (∃ game, lib.pgn text = some game ∧ (st.batch ++ [payload lib game]).length = batchSize ∧
      st'.puts = st.puts ++ [st.batch ++ [payload lib game]] ∧ st'.batch = [] ∧ st'.unparsed = st.unparsed) ∨
    ∃ game, lib.pgn text = some game ∧ (st.batch ++ [payload lib game]).length ≠ batchSize ∧
      st' = { st with batch := st.batch ++ [payload lib game] } := by
  rw [onGame] at h
  split at h
  · rename_i hnone
    exact .inl ⟨hnone, (Except.ok.inj h).symm⟩
  · rename_i game hsome
    dsimp only at h
    split at h
    · rename_i hfull
      cases hsent : send respond { st with batch := st.batch ++ [payload lib game] } (st.batch ++ [payload lib game]) with
      | error e => rw [hsent] at h; cases h
      | ok sent =>
          rw [hsent] at h
          cases h
          obtain ⟨hputs, -, hunparsed⟩ := send_ok hsent
          exact .inr (.inl ⟨game, hsome, hfull, hputs, rfl, hunparsed⟩)
    · rename_i hroom
      exact .inr (.inr ⟨game, hsome, hroom, (Except.ok.inj h).symm⟩)

theorem onGame_error (h : onGame lib respond st text = .error st') :
    ∃ game, lib.pgn text = some game ∧ (st.batch ++ [payload lib game]).length = batchSize ∧
      st'.puts = st.puts ++ [st.batch ++ [payload lib game]] ∧ respond st'.puts = none := by
  rw [onGame] at h
  split at h
  · cases h
  · rename_i game hsome
    dsimp only at h
    split at h
    · rename_i hfull
      cases hsent : send respond { st with batch := st.batch ++ [payload lib game] } (st.batch ++ [payload lib game]) with
      | ok sent => rw [hsent] at h; cases h
      | error st₁ =>
          rw [hsent] at h
          cases h
          obtain ⟨hputs, hnone⟩ := send_error hsent
          exact ⟨game, hsome, hfull, hputs, hputs ▸ hnone⟩
    · cases h

theorem Sent.init : Sent lib [] .init :=
  { games := rfl, counted := rfl, fit := nofun, room := by decide }

/-- One text more. -/
theorem Sent.onGame_ok (h : Sent lib read st) (hs : onGame lib respond st text = .ok st') : Sent lib (read ++ [text]) st' := by
  have hlen : (read ++ [text]).length = read.length + 1 := by rw [List.length_append, List.length_singleton]
  have hcounted := h.counted
  rcases Explorer.onGame_ok lib hs with ⟨hnone, rfl⟩ | ⟨game, hsome, hfull, hputs, hbatch, hunparsed⟩ | ⟨game, hsome, hroom, rfl⟩
  · have hread := @accepted_none _ _ _ lib read text hnone
    exact { games := hread ▸ h.games, counted := by rw [hread, hlen, ← hcounted]; rfl, fit := h.fit, room := h.room }
  · have hread := @accepted_some _ _ _ lib read text game hsome
    refine { games := ?_, counted := ?_, fit := h.fit.append ?_ hputs, room := ?_ }
    · rw [hputs, hbatch, List.append_nil, List.flatten_append, List.flatten_singleton, ← List.append_assoc, h.games, hread]
    · rw [hread, hunparsed, hlen, List.length_append, List.length_singleton]; omega
    · rw [hfull]; decide
    · rw [hbatch]; decide
  · have hread := @accepted_some _ _ _ lib read text game hsome
    have hbefore := h.room
    refine { games := ?_, counted := ?_, fit := h.fit, room := ?_ }
    · rw [hread, ← h.games, List.append_assoc]
    · rw [hread, hlen, List.length_append, List.length_singleton, ← hcounted]; exact Nat.add_right_comm _ 1 st.unparsed
    · rw [List.length_append, List.length_singleton] at hroom ⊢
      omega

/-- A full batch fails. -/
theorem Sent.onGame_error (h : Sent lib read st) (hs : onGame lib respond st text = .error st') :
    Stopped lib respond (read ++ [text]) st' := by
  obtain ⟨game, hsome, hfull, hputs, hnone⟩ := Explorer.onGame_error lib hs
  refine { games := ?_, fit := h.fit.append ?_ hputs, failed := hnone }
  · rw [hputs, List.flatten_append, List.flatten_singleton, ← List.append_assoc, h.games, accepted_some lib hsome]
  · rw [hfull]; decide

/-- What is left of the last batch is sent. -/
theorem Sent.send_ok (h : Sent lib read st) (hb : 0 < st.batch.length) (hs : send respond st st.batch = .ok st') :
    st'.puts.flatten = accepted lib read ∧ (accepted lib read).length + st'.unparsed = read.length ∧ FitBatches st' := by
  obtain ⟨hputs, -, hunparsed⟩ := Explorer.send_ok hs
  refine ⟨?_, hunparsed ▸ h.counted, h.fit.append ⟨hb, Nat.le_of_lt h.room⟩ hputs⟩
  rw [hputs, List.flatten_append, List.flatten_singleton, h.games]

theorem Sent.send_error (h : Sent lib read st) (hb : 0 < st.batch.length) (hs : send respond st st.batch = .error st') :
    Stopped lib respond read st' := by
  obtain ⟨hputs, hnone⟩ := Explorer.send_error hs
  refine { games := ?_, fit := h.fit.append ⟨hb, Nat.le_of_lt h.room⟩ hputs, failed := hputs ▸ hnone }
  rw [hputs, List.flatten_append, List.flatten_singleton, h.games]

theorem importPgn_eq {r : Bytes} (hlimit : ∀ line ∈ rawLines r, line.length < maxTokenSize) :
    importPgn lib respond r = ((texts (lines r)).foldlM (onGame lib respond) .init).bind fun st =>
      if 0 < st.batch.length then send respond st st.batch else .ok st := by
  rw [importPgn, eachGame_eq, scanLines_eq hlimit]
  cases (texts (lines r)).foldlM (onGame lib respond) .init with
  | error e => rfl
  | ok st => rfl

theorem foldlM_onGame (given : List Bytes) :
    (∀ st, given.foldlM (onGame lib respond) .init = .ok st → Sent lib given st) ∧
      ∀ st, given.foldlM (onGame lib respond) .init = .error st → ∃ upTo, upTo <+: given ∧ Stopped lib respond upTo st :=
  @foldlM_invariant _ _ _ (onGame lib respond) (Sent lib) (Stopped lib respond) (fun _ _ _ _ => Sent.onGame_ok lib)
    (fun _ _ _ _ => Sent.onGame_error lib) [] given .init (Sent.init lib)

theorem importPgn_ok {r : Bytes} (hlimit : ∀ line ∈ rawLines r, line.length < maxTokenSize)
    (h : importPgn lib respond r = .ok st) :
    st.puts.flatten = accepted lib (texts (lines r)) ∧
      (accepted lib (texts (lines r))).length + st.unparsed = (texts (lines r)).length ∧ FitBatches st := by
  rw [importPgn_eq lib hlimit] at h
  cases hfold : (texts (lines r)).foldlM (onGame lib respond) .init with
  | error e => rw [hfold] at h; cases h
  | ok read =>
      rw [hfold] at h
      have hsent := (foldlM_onGame lib (texts (lines r))).1 read hfold
      change (if 0 < read.batch.length then send respond read read.batch else .ok read) = .ok st at h
      split at h
      · rename_i hb
        exact hsent.send_ok lib hb h
      · rename_i hb
        obtain rfl : st = read := (Except.ok.inj h).symm
        have hnil : st.batch = [] := List.eq_nil_of_length_eq_zero (by omega)
        exact ⟨by rw [← hsent.games, hnil, List.append_nil], hsent.counted, hsent.fit⟩

theorem importPgn_error {r : Bytes} (hlimit : ∀ line ∈ rawLines r, line.length < maxTokenSize)
    (h : importPgn lib respond r = .error st) :
    ∃ upTo, upTo <+: texts (lines r) ∧ Stopped lib respond upTo st := by
  rw [importPgn_eq lib hlimit] at h
  cases hfold : (texts (lines r)).foldlM (onGame lib respond) .init with
  | error e =>
      rw [hfold] at h
      cases h
      exact (foldlM_onGame lib (texts (lines r))).2 _ hfold
  | ok read =>
      rw [hfold] at h
      have hsent := (foldlM_onGame lib (texts (lines r))).1 read hfold
      change (if 0 < read.batch.length then send respond read read.batch else .ok read) = .error st at h
      split at h
      · rename_i hb
        exact ⟨_, List.prefix_refl _, hsent.send_error lib hb h⟩
      · cases h

end Main

end Chessrepeat.Explorer
