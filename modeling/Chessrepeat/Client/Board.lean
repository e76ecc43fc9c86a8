import Chessrepeat.Client.State

/-!
# util/chess.ts and guess

What is played on the board, from the FEN of a node.
-/

namespace Chessrepeat.Client

open Lib

variable {Card : Type}

/-- The functions of chessops that `util/chess.ts` and `util/io.ts` call. `fromSetup` is that of `Chess`. -/
structure ChessLib where
  Position : Type
  Move : Type
  Setup : Type
  initialFen : JsString
  initialBoardFen : JsString
  defaultPosition : Position
  parseFen : JsString → Option Setup
  makeFen : Setup → JsString
  fromSetup : Setup → Option Position
  toSetup : Position → Setup
  play : Position → Move → Position
  parseSan : Position → JsString → Option Move
  makeSanAndPlay : Position → Move → JsString × Position
  parseUci : JsString → Option Move
  scalachessCharPair : Move → JsString
  length_scalachessCharPair : ∀ m, (scalachessCharPair m).length = 2

/-- White space and line terminators. -/
def isTrimmed (u : UInt16) : Bool :=
  u.toNat ∈ [9, 10, 11, 12, 13, 32, 0xa0, 0x1680, 0x2028, 0x2029, 0x202f, 0x205f, 0x3000, 0xfeff] ||
    (0x2000 ≤ u.toNat && u.toNat ≤ 0x200a)

/-- `String.prototype.trim`. -/
def trim (s : JsString) : JsString := ((s.dropWhile isTrimmed).reverse.dropWhile isTrimmed).reverse

inductive PromoRole where
  | queen
  | rook
  | bishop
  | knight
  deriving DecidableEq, Repr

def promoLetter : Option PromoRole → JsString
  | some .queen => Utf16.encode ['q']
  | some .rook => Utf16.encode ['r']
  | some .bishop => Utf16.encode ['b']
  | some .knight => Utf16.encode ['n']
  | none => []

namespace ChessLib

variable (lib : ChessLib)

/-- `Chess.fromSetup(parseFen(fen))`. -/
def setUp (fen : JsString) : Option lib.Position := (lib.parseFen fen).bind lib.fromSetup

/-- The root of a chapter stores a board without the other fields. -/
def positionFromFen (fen : JsString) : Option lib.Position :=
  lib.setUp (if trim fen = lib.initialBoardFen then lib.initialFen else fen)

/-- What a node stores of a position. -/
def fen (pos : lib.Position) : JsString := lib.makeFen (lib.toSetup pos)

/-- The SAN of a move as chessops writes it. -/
def makeSan (pos : lib.Position) (move : lib.Move) : JsString := (lib.makeSanAndPlay pos move).1

/-- The source's own functions, and those it only calls. -/
abbrev chessops : Chessops where
  Position := lib.Position
  Move := lib.Move
  positionFromFen := lib.positionFromFen
  parseSan := lib.parseSan
  scalachessCharPair := lib.scalachessCharPair
  makeSanAndPlay := lib.makeSanAndPlay
  makeFen := lib.fen
  length_scalachessCharPair := lib.length_scalachessCharPair

def uci (src dest : JsString) (promoteTo : Option PromoRole) : JsString := src ++ dest ++ promoLetter promoteTo

/-- `none` is an exception. -/
def chessgroundToSan (fen src dest : JsString) (promoteTo : Option PromoRole) : Option JsString :=
  (lib.setUp fen).bind fun pos => (lib.parseUci (uci src dest promoteTo)).map (lib.makeSan pos)

/-! ## What chessops is documented to do -/

/-- The positions after legal moves from the initial one. -/
inductive Reached : lib.Position → Prop where
  | start : Reached lib.defaultPosition
  | play {pos : lib.Position} {san : JsString} {move : lib.Move} (reached : Reached pos)
      (legal : lib.parseSan pos san = some move) : Reached (lib.play pos move)

/-- A FEN says all that matters of a position, and a position that was printed can be read again. The SAN of a first
move is the same without castling rights. Every legal move has a UCI. -/
structure Lawful : Prop where
  initial : ∃ pos, lib.setUp lib.initialFen = some pos ∧ lib.fen pos = lib.fen lib.defaultPosition
  board : ∃ pos, lib.setUp lib.initialBoardFen = some pos ∧ ∀ san move, lib.parseSan lib.defaultPosition san = some move →
    lib.makeSan pos move = lib.makeSan lib.defaultPosition move
  trimmed : trim lib.initialBoardFen = lib.initialBoardFen
  printed : ∀ {pos}, lib.Reached pos → ∃ pos', lib.setUp (lib.fen pos) = some pos' ∧ lib.fen pos' = lib.fen pos
  whole : ∀ {pos}, lib.Reached pos → trim (lib.fen pos) ≠ lib.initialBoardFen
  parseSan : ∀ {pos pos'}, lib.Reached pos → lib.fen pos' = lib.fen pos → lib.parseSan pos' = lib.parseSan pos
  makeSan : ∀ {pos pos' san move}, lib.Reached pos → lib.fen pos' = lib.fen pos → lib.parseSan pos san = some move →
    lib.makeSan pos' move = lib.makeSan pos move
  played : ∀ {pos pos' san move}, lib.Reached pos → lib.fen pos' = lib.fen pos → lib.parseSan pos san = some move →
    lib.fen (lib.makeSanAndPlay pos' move).2 = lib.fen (lib.play pos move)
  uci : ∀ {pos san move}, lib.Reached pos → lib.parseSan pos san = some move →
    ∃ src dest promoteTo, lib.parseUci (ChessLib.uci src dest promoteTo) = some move
  plain : ∀ move, Utf16.Plain (lib.scalachessCharPair move)

/-- Moves that are legal in one position have different pairs of characters. -/
def PairsInjective : Prop :=
  ∀ {pos san san' move move'}, lib.Reached pos → lib.parseSan pos san = some move → lib.parseSan pos san' = some move' →
    lib.scalachessCharPair move = lib.scalachessCharPair move' → move = move'

end ChessLib

/-! ## Guesses -/

inductive TrainingOutcome where
  | success
  | alternate
  | failure
  deriving DecidableEq, Repr

/-- `guess` returns nothing where there is nothing to guess. `lastGuess` is left out. -/
def TrainerState.guess (s : TrainerState Card) (san : JsString) : Option TrainingOutcome :=
  match s.selectedChapter, s.trainableContext with
  | some chapter, some context =>
      if s.trainingMethod = some .learn then none
      else match (getNodeList chapter.root context.startingPath).getLast?, s.deref context.targetMove with
        | some node, some target =>
            some (if node.children.any fun c : TrainableNode Card => c.data.san = san then
                if target.label.data.san = san then .success else .alternate
              else .failure)
        | _, _ => none
  | _, _ => none

end Chessrepeat.Client
