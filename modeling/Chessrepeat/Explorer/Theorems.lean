import Chessrepeat.Explorer.Lemmas.Import
import Chessrepeat.Explorer.Lemmas.ImportPgn

/-!
# What holds of the explorer
-/

namespace Chessrepeat.Explorer

open Lib Domain

variable {Position Move Raw : Type} {json : Json Raw}

theorem counts_of_mem {v : PebbleValue} (hd : (v.results.map ResultSummary.san).Nodup) {r : ResultSummary} (hr : r ∈ v.results) :
    v.counts r.san = r.counts := by
  have hone := Table.filter_key (⟨v.results, hd⟩ : SanMap) r.san
  rw [Table.find?_eq_some.mpr ⟨hr, rfl⟩] at hone
  rw [PebbleValue.counts, hone]
  exact add_zero _

theorem counts_of_not_mem {v : PebbleValue} {san : Text} (h : san ∉ v.results.map ResultSummary.san) : v.counts san = 0 := by
  have hnone : v.results.filter (fun s => s.san = san) = [] := List.filter_eq_nil_iff.mpr fun s hs he =>
    h (of_decide_eq_true he ▸ List.mem_map_of_mem hs)
  rw [PebbleValue.counts, hnone]
  rfl

/-- However pebble feeds the operands of a position to the mergers, its statistics list each move once, with the number of
the plies of legal games that are this move there, by winner; and a batch reports each of its games once. -/
theorem stats_exact (chess : Chess Position Move) (hjson : json.RoundTrips) (batches : List (Ranges × List Payload)) :
    (∀ b ∈ batches, (importBatch chess json b.1 b.2).2.imported + (importBatch chess json b.1 b.2).2.skipped = b.2.length) ∧
    ∀ key, (operandsAt chess json batches key = [] → getPositionStats json none = some none ∧
        ∀ san, playedCounts chess key san (batches.flatMap Prod.snd) = 0) ∧
      ∀ fed : MergeTree (Side × MapOrder ResultSummary) Raw, fed.operands.Perm (operandsAt chess json batches key) →
        ∃ v, getPositionStats json (some fed) = some (some v) ∧ (v.results.map ResultSummary.san).Nodup ∧
          (∀ r ∈ v.results,
            r.whiteWins = played chess key r.san (· = .white) (batches.flatMap Prod.snd) ∧
            r.blackWins = played chess key r.san (· = .black) (batches.flatMap Prod.snd) ∧
            r.draws = played chess key r.san (fun c => c ≠ .white ∧ c ≠ .black) (batches.flatMap Prod.snd)) ∧
          ∀ san, san ∉ v.results.map ResultSummary.san → playedCounts chess key san (batches.flatMap Prod.snd) = 0 := by
  refine ⟨fun b _ => ?_, fun key => ⟨fun hnone => ⟨rfl, fun san => ?_⟩, fun fed hfed => ?_⟩⟩
  · exact (result_foldl_importGame b.2 _).trans (Nat.zero_add _)
  · rw [← (operandsAt_counts chess hjson batches key).2 san, hnone]
    rfl
  · obtain ⟨hwritten, hsum⟩ := operandsAt_counts chess hjson batches key
    obtain ⟨raw, heval, ⟨v, rfl, hd⟩, hcount⟩ :=
      MergeTree.exists_eval_of_perm (fun call a b ha hb => hjson.mergeSide call ha hb) hfed hwritten
    have hcounts : ∀ san, v.counts san = playedCounts chess key san (batches.flatMap Prod.snd) := fun san => by
      rw [← hsum, ← hcount, hjson.counts_marshal]
    refine ⟨v, ?_, hd, fun r hr => ?_, fun san hsan => ?_⟩
    · rw [getPositionStats, heval, Option.bind_some, hjson.unmarshal_marshal]
      rfl
    · have hr' := (counts_of_mem hd hr).symm.trans (hcounts r.san)
      exact ⟨congrArg Prod.fst hr', congrArg (fun c => c.2.1) hr', congrArg (fun c => c.2.2) hr'⟩
    · rw [← hcounts, counts_of_not_mem hsan]

/-- The first two positions of a game that begins with `e4`, and no legal move but this one. -/
def opening : Chess Nat Unit where
  startingPosition := 0
  decode pos san := if pos = 0 ∧ san = ['e', '4'] then some () else none
  update pos _ := pos + 1
  string pos := if pos = 0 then "rnbqkbnr/pppppppp/8/8/8/8/PPPPPPPP/RNBQKBNR w KQkq - 0 1".toList
    else "rnbqkbnr/pppppppp/8/8/4P3/8/PPPP1PPP/RNBQKBNR b KQkq e3 0 1".toList

/-- The encoding that keeps a value as it is. -/
def plainJson : Json PebbleValue := ⟨id, some, fun _ => 1⟩

theorem plainJson_roundTrips : plainJson.RoundTrips := ⟨fun _ => rfl, fun _ => Nat.one_ne_zero⟩

def inOrder (α : Type) : MapOrder α := ⟨id, fun _ => List.Perm.refl _⟩

def ranges : Ranges := ⟨inOrder _, fun _ => inOrder _⟩

/-- Two batches; a game of the second one has an illegal move after `e4`. -/
def twoBatches : List (Ranges × List Payload) :=
  [(ranges, [⟨.white, [['e', '4']]⟩]), (ranges, [⟨.other 0, [['e', '4']]⟩, ⟨.black, [['e', '4'], ['e', '4']]⟩])]

def startKey : Text := positionKey opening 0

theorem twoBatches_counted : ∃ v,
    getPositionStats plainJson (some (.merge (.older, inOrder _) (.operand ⟨[⟨['e', '4'], 0, 0, 1⟩]⟩)
      (.operand ⟨[⟨['e', '4'], 1, 0, 0⟩]⟩))) = some (some v) ∧
    ∀ r ∈ v.results, r.whiteWins = played opening startKey r.san (· = .white) (twoBatches.flatMap Prod.snd) := by
  have hoperands : operandsAt opening plainJson twoBatches startKey =
      [⟨[⟨['e', '4'], 1, 0, 0⟩]⟩, ⟨[⟨['e', '4'], 0, 0, 1⟩]⟩] := by decide
  obtain ⟨v, hv, -, hcounts, -⟩ := ((stats_exact opening plainJson_roundTrips twoBatches).2 startKey).2
    (.merge (.older, inOrder _) (.operand ⟨[⟨['e', '4'], 0, 0, 1⟩]⟩) (.operand ⟨[⟨['e', '4'], 1, 0, 0⟩]⟩))
    (by rw [hoperands]; exact List.Perm.swap _ _ [])
  exact ⟨v, hv, fun r hr => (hcounts r hr).1⟩

/-! ## import-pgn -/

/-- A database is cut into texts without a loss, none but the first line of a text begins a game, and the texts that the
library accepts are sent in order, each once, in batches that are not empty and not too large. The command stops before the
end only where a PUT fails. -/
theorem importPgn_exactly_once {Game : Type} (lib : PgnReader Game Position Move)
    (respond : List (List Payload) → Option ImportResult) {r : Bytes} (hlimit : ∀ line ∈ rawLines r, line.length < maxTokenSize) :
    ∃ segments passed : List Bytes, segments.flatten = unlines (lines r) ∧
      passed = segments.filter (fun text => !isBlank text) ∧
      eachGame (@collect Importing) [] r = .ok (passed, none) ∧
      (∀ text ∈ passed, ∀ line ∈ (lines text).tail, startsGame line = false) ∧
      (∀ st, importPgn lib respond r = .ok st →
        st.puts.flatten = accepted lib passed ∧ FitBatches st ∧ st.puts.flatten.length + st.unparsed = passed.length) ∧
      ∀ st, importPgn lib respond r = .error st →
        st.puts.flatten <+: accepted lib passed ∧ FitBatches st ∧ respond st.puts = none := by
  refine ⟨(cutBefore startsGame (lines r)).map unlines, texts (lines r), ?_, rfl, ?_, ?_, fun st h => ?_, fun st h => ?_⟩
  · rw [flatten_map_unlines, flatten_cutBefore]
  · rw [eachGame_eq, scanLines_eq hlimit, foldlM_collect]
    rfl
  · exact startsGame_tail_texts (newline_not_mem_lines r)
  · obtain ⟨hgames, hcounted, hfit⟩ := importPgn_ok lib hlimit h
    exact ⟨hgames, hfit, by rw [hgames, hcounted]⟩
  · obtain ⟨upTo, hprefix, hstopped⟩ := importPgn_error lib hlimit h
    exact ⟨hstopped.games ▸ hprefix.filterMap _, hstopped.fit, hstopped.failed⟩

/-- Two texts, of which only the first one has a move. -/
def twoTexts : Bytes :=
  eventTag ++ [0x61, 0x5D, newline, 0x65, 0x34, newline] ++ eventTag ++ [0x62, 0x5D, carriageReturn, newline]

/-- A reader that takes a text with a `4` for the game `e4`. -/
def readsE4 : PgnReader Unit Unit Unit where
  pgn text := if 0x34 ∈ text then some () else none
  moves _ := [()]
  positions _ := [(), ()]
  length_positions _ := rfl
  outcome _ := .whiteWon
  encode _ _ := ['e', '4']

theorem twoTexts_sent : ∃ passed, eachGame (@collect Importing) [] twoTexts = .ok (passed, none) ∧
    ∀ st, importPgn readsE4 (fun _ => some ⟨1, 0⟩) twoTexts = .ok st →
      st.puts.flatten = accepted readsE4 passed ∧ st.puts.flatten.length + st.unparsed = passed.length := by
  obtain ⟨_, passed, -, -, hpassed, -, hok, -⟩ :=
    importPgn_exactly_once readsE4 (fun _ => some ⟨1, 0⟩) (r := twoTexts) (by decide)
  exact ⟨passed, hpassed, fun st h => ⟨(hok st h).1, (hok st h).2.2⟩⟩

example : importPgn readsE4 (fun _ => some ⟨1, 0⟩) twoTexts =
    .ok { batch := [⟨.white, [['e', '4']]⟩], unparsed := 1, total := ⟨1, 0⟩, puts := [[⟨.white, [['e', '4']]⟩]] } := by
  rfl

end Chessrepeat.Explorer
