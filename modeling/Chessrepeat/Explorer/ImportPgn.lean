import Chessrepeat.Explorer.Main

/-!
# explorer/cmd/import-pgn/main.go

The command that reads a PGN database and sends its games to the explorer. A file is its bytes. `os.Exit` ends the
command in the state that it has reached.
-/

namespace Chessrepeat.Explorer

open Lib Domain

abbrev Bytes : Type := List UInt8

/-! ## bufio.Scanner -/

def newline : UInt8 := 0x0A

def carriageReturn : UInt8 := 0x0D

/-- The lines without their line feeds; the last one may lack it, unless it is empty. -/
def rawLines : Bytes → List Bytes
  | [] => []
  | b :: r =>
      if b = newline then [] :: rawLines r
      else match rawLines r with
        | [] => [[b]]
        | line :: lines => (b :: line) :: lines

/-- `dropCR`. -/
def dropCR (line : Bytes) : Bytes := if line.getLast? = some carriageReturn then line.dropLast else line

/-- The limit given to `Scanner.Buffer`. -/
def maxTokenSize : Nat := 16 * 2 ^ 20

/-- A line that does not fit into the buffer ends the scan. -/
inductive ScanError where
  | tooLong
  deriving DecidableEq, Repr

/-- The tokens that `ScanLines` hands out, and the error of the scanner. -/
def scanLines (r : Bytes) : List Bytes × Option ScanError :=
  let fitting := (rawLines r).takeWhile fun line => line.length < maxTokenSize
  (fitting.map dropCR, if fitting.length = (rawLines r).length then none else some .tooLong)

/-! ## eachGame -/

/-- `[Event `, which begins the tags of a game. -/
def eventTag : Bytes := [0x5B, 0x45, 0x76, 0x65, 0x6E, 0x74, 0x20]

def startsGame (line : Bytes) : Bool := eventTag.isPrefixOf line

section EachGame

variable {σ ε : Type} (fn : σ → Bytes → Except ε σ)

def flush (s : σ) (game : Bytes) : Except ε σ := if isBlank game then .ok s else fn s game

/-- The loop over the lines, with what the builder holds. -/
def eachLine : σ → Bytes → List Bytes → Except ε (σ × Bytes)
  | s, game, [] => .ok (s, game)
  | s, game, line :: lines =>
      if startsGame line then (flush fn s game).bind fun s' => eachLine s' (line ++ [newline]) lines
      else eachLine s (game ++ line ++ [newline]) lines

def eachGame (s : σ) (r : Bytes) : Except ε (σ × Option ScanError) :=
  (eachLine fn s [] (scanLines r).1).bind fun read =>
    (flush fn read.1 read.2).map fun s' => (s', (scanLines r).2)

end EachGame

/-! ## main -/

inductive Outcome where
  | whiteWon
  | blackWon
  | draw
  | noOutcome
  deriving DecidableEq, Repr

def winner : Outcome → Color
  | .whiteWon => .white
  | .blackWon => .black
  | _ => .other 0

/-- What the chess library does with the text of a game, `none` where `chess.PGN` reports an error. -/
structure PgnReader (Game Position Move : Type) where
  pgn : Bytes → Option Game
  moves : Game → List Move
  positions : Game → List Position
  length_positions : ∀ game, (positions game).length = (moves game).length + 1
  outcome : Game → Outcome
  encode : Position → Move → Text

def batchSize : Nat := 1000

/-- The variables of the command, and the bodies of the PUTs that it has made. -/
structure Importing where
  batch : List Payload
  unparsed : Nat
  total : ImportResult
  puts : List (List Payload)
  deriving DecidableEq, Repr

def Importing.init : Importing := { batch := [], unparsed := 0, total := ⟨0, 0⟩, puts := [] }

section Main

variable {Game Position Move : Type} (lib : PgnReader Game Position Move)
variable (respond : List (List Payload) → Option ImportResult)

def payload (game : Game) : Payload :=
  { winner := winner (lib.outcome game), moves := List.zipWith lib.encode (lib.positions game) (lib.moves game) }

/-- `respond` says how the last of the PUTs is answered, `none` for anything but an `ImportResult`. -/
def send (st : Importing) (batch : List Payload) : Except Importing Importing :=
  let st' := { st with puts := st.puts ++ [batch] }
  match respond st'.puts with
  | none => .error st'
  | some res => .ok { st' with total := ⟨st.total.imported + res.imported, st.total.skipped + res.skipped⟩ }

/-- What `main` does with the text of a game. -/
def onGame (st : Importing) (text : Bytes) : Except Importing Importing :=
  match lib.pgn text with
  | none => .ok { st with unparsed := st.unparsed + 1 }
  | some game =>
      let st' := { st with batch := st.batch ++ [payload lib game] }
      if st'.batch.length = batchSize then
        (send respond st' st'.batch).map fun sent => { sent with batch := [] }
      else .ok st'

def importPgn (f : Bytes) : Except Importing Importing :=
  match eachGame (onGame lib respond) .init f with
  | .error st => .error st
  | .ok (st, some _) => .error st
  | .ok (st, none) => if 0 < st.batch.length then send respond st st.batch else .ok st

end Main

end Chessrepeat.Explorer
