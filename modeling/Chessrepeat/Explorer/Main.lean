import Chessrepeat.Lib.MergeTree
import Chessrepeat.Lib.Strings
import Chessrepeat.Lib.Table
import Chessrepeat.Store.Domain

/-!
# explorer/main.go and explorer/merge.go

The opening explorer: games are imported in batches into pebble, which merges what is written under one key. A batch
whose body does not decode or that pebble does not commit writes nothing and is left out.
-/

namespace Chessrepeat.Explorer

open Lib Domain

/-- `chess.Color`, with `NoColor` among the others. -/
inductive Color where
  | white
  | black
  | other (v : Int)
  deriving DecidableEq, Repr

structure Payload where
  winner : Color
  moves : List Text
  deriving DecidableEq, Repr

structure ResultSummary where
  san : Text
  whiteWins : Int
  blackWins : Int
  draws : Int
  deriving DecidableEq, Repr

structure PebbleValue where
  results : List ResultSummary
  deriving DecidableEq, Repr

structure ImportResult where
  imported : Nat
  skipped : Nat
  deriving DecidableEq, Repr

/-- What the chess library does: `AlgebraicNotation.Decode` fails on a text that is no legal move of the position. -/
structure Chess (Position Move : Type) where
  startingPosition : Position
  decode : Position → Text → Option Move
  update : Position → Move → Position
  string : Position → Text

/-- `json.Marshal` and `json.Unmarshal` on a `PebbleValue`, and the length of a slice of bytes. -/
structure Json (Raw : Type) where
  marshal : PebbleValue → Raw
  unmarshal : Raw → Option PebbleValue
  len : Raw → Nat

/-- The order in which a `range` over a map hands out its entries. -/
structure MapOrder (α : Type) where
  entries : List α → List α
  perm : ∀ l, (entries l).Perm l

/-! ## Positions -/

section Games

variable {Position Move Raw : Type} (chess : Chess Position Move)

def positionKey (pos : Position) : Text :=
  match fields (chess.string pos) with
  | placement :: side :: _ => placement ++ ' ' :: side
  | _ => chess.string pos

/-- The loop of `gameKeys`; `none` is a game with an illegal move. -/
def gameKeysFrom : Position → List Text → Option (List Text)
  | _, [] => some []
  | pos, san :: rest => match chess.decode pos san with
    | none => none
    | some m => (gameKeysFrom (chess.update pos m) rest).map (positionKey chess pos :: ·)

def gameKeys (moves : List Text) : Option (List Text) := gameKeysFrom chess chess.startingPosition moves

/-! ## importHandler -/

/-- The inner map of the aggregation, by move text. -/
abbrev SanMap := Table ResultSummary.san

/-- The outer map, by position key. -/
abbrev Agg := Table (Prod.fst : Text × SanMap → Text)

/-- The switch over the winner. -/
def ResultSummary.record (winner : Color) (s : ResultSummary) : ResultSummary :=
  match winner with
  | .white => { s with whiteWins := s.whiteWins + 1 }
  | .black => { s with blackWins := s.blackWins + 1 }
  | .other _ => { s with draws := s.draws + 1 }

/-- One turn of the inner loop. -/
def Agg.add (winner : Color) (agg : Agg) (ply : Text × Text) : Agg :=
  let moves := match agg.find? ply.1 with
    | none => Table.empty
    | some e => e.2
  let summary : ResultSummary := match moves.find? ply.2 with
    | none => ⟨ply.2, 0, 0, 0⟩
    | some s => s
  agg.upsert (ply.1, moves.upsert (summary.record winner))

/-- One turn of the outer loop. -/
def importGame (out : Agg × ImportResult) (rawGame : Payload) : Agg × ImportResult :=
  match gameKeys chess rawGame.moves with
  | none => (out.1, { out.2 with skipped := out.2.skipped + 1 })
  | some keys =>
      ((keys.zip rawGame.moves).foldl (Agg.add rawGame.winner) out.1, { out.2 with imported := out.2.imported + 1 })

/-- The orders of the two `range` loops of a request. -/
structure Ranges where
  keys : MapOrder (Text × SanMap)
  moves : Text → MapOrder ResultSummary

/-- The operands the batch hands to pebble, by key, and the answer. -/
def importBatch (json : Json Raw) (ranges : Ranges) (p : List Payload) : List (Text × Raw) × ImportResult :=
  let out := p.foldl (importGame chess) (Table.empty, ⟨0, 0⟩)
  ((ranges.keys.entries out.1.rows).map fun e => (e.1, json.marshal ⟨(ranges.moves e.1).entries e.2.rows⟩), out.2)

/-- The operands of a key from all committed batches. -/
def operandsAt (json : Json Raw) (batches : List (Ranges × List Payload)) (key : Text) : List Raw :=
  ((batches.flatMap fun b => (importBatch chess json b.1 b.2).1).filter (fun e => e.1 = key)).map Prod.snd

end Games

/-! ## mergeResultSummaries -/

section Merge

variable {Raw : Type} (json : Json Raw)

/-- Add or increment. -/
def mergeResult (mergedMap : SanMap) (newRes : ResultSummary) : SanMap :=
  match mergedMap.find? newRes.san with
  | none => mergedMap.upsert newRes
  | some existing => mergedMap.upsert ⟨newRes.san, existing.whiteWins + newRes.whiteWins,
      existing.blackWins + newRes.blackWins, existing.draws + newRes.draws⟩

def mergedMap (oldVal newVal : PebbleValue) : SanMap :=
  newVal.results.foldl mergeResult (oldVal.results.foldl (fun m res => m.upsert res) Table.empty)

/-- `none` is an error of `json.Unmarshal`. -/
def mergeResultSummaries (order : MapOrder ResultSummary) (oldBuf newBuf : Raw) : Option Raw :=
  (json.unmarshal newBuf).bind fun newVal =>
    if json.len oldBuf = 0 then some newBuf
    else (json.unmarshal oldBuf).map fun oldVal => json.marshal ⟨order.entries (mergedMap oldVal newVal).rows⟩

/-! ## statsMerger -/

/-- Whether pebble calls `MergeNewer` or `MergeOlder`. -/
inductive Side where
  | newer
  | older

def mergeNewer (order : MapOrder ResultSummary) (current value : Raw) : Option Raw :=
  mergeResultSummaries json order current value

/-- Identical to `MergeNewer`. -/
def mergeOlder (order : MapOrder ResultSummary) (current value : Raw) : Option Raw :=
  mergeResultSummaries json order current value

def mergeSide (call : Side × MapOrder ResultSummary) : Raw → Raw → Option Raw :=
  match call.1 with
  | .newer => mergeNewer json call.2
  | .older => mergeOlder json call.2

/-- What pebble holds under a key: how it has fed the operands to mergers, `none` when there are none. -/
abbrev Stored (Raw : Type) := Option (MergeTree (Side × MapOrder ResultSummary) Raw)

/-- `none` is an error, `some none` the nil pointer for a position without games. -/
def getPositionStats : Stored Raw → Option (Option PebbleValue)
  | none => some none
  | some fed => ((fed.eval (mergeSide json)).bind json.unmarshal).map some

end Merge

end Chessrepeat.Explorer
