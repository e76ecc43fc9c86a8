import Chessrepeat.Client.Board
import Chessrepeat.Client.Import
import Chessrepeat.Lib.Thread

/-!
# chessops/pgn

What `chapterFromPgn` and `pgnFromChapter` use of it. `transform` walks over a tree with a context that it clones for all
but the last child, so that siblings start from the context their parent has left.
-/

namespace Chessrepeat.Client

open Lib

variable {Card : Type}

/-- A node of a game. -/
structure GameNodeData extends PgnNodeData where
  startingComments : Option (List JsString)
  nags : Option (List Int)

structure Game where
  headers : List (JsString × JsString)
  comments : Option (List JsString)
  moves : List (Rose GameNodeData)

/-- `transform` throws what its callback throws, and is given the counter that its callback changes. `w` is what a call
that returns a node adds to it. -/
structure PgnLibrary where
  parsePgn : JsString → Option (List Game)
  makePgn : Game → JsString
  transform : {α β γ : Type} → List (Rose α) → γ → (γ → α → Int → Option (β × γ × Int)) → Int → Option (List (Rose β) × Int)
  transform_called : ∀ {α β γ : Type} (ts : List (Rose α)) (c : γ) (f : γ → α → Int → Option (β × γ × Int)) (n m : Int)
    (ts' : List (Rose β)), transform ts c f n = some (ts', m) → ∃ bs, Called f n bs m ∧ (Rose.labelsList ts').Perm bs
  transform_thread : ∀ {α β γ : Type} (ts : List (Rose α)) (c : γ) (g : γ → α → Option (β × γ)) (w : β → Int) (n : Int),
    transform ts c (fun c a n => (g c a).map fun out => (out.1, out.2, n + w out.1)) n =
      (Rose.threadList g c ts).map fun ts' => (ts', n + ((Rose.labelsList ts').map w).sum)

namespace PgnLibrary

variable (lib : ChessLib) (pgn : PgnLibrary)

/-- What `chapterFromPgn` uses. -/
def toPgn : Pgn lib.chessops where
  Game := Game
  initialBoardFen := lib.initialBoardFen
  defaultPosition := lib.defaultPosition
  parsePgn := pgn.parsePgn
  play := lib.play
  transform game context f n := pgn.transform game.moves context (fun c d n => f c d.toPgnNodeData n) n
  transform_called game context f n m moves h := by
    obtain ⟨bs, hbs, hperm⟩ := pgn.transform_called game.moves context _ n m moves h
    refine ⟨bs, ?_, hperm⟩
    clear hperm h
    induction hbs with
    | nil n => exact .nil n
    | cons call _ ih => exact .cons call ih

/-- The imported node with the other fields that `...data` gives it. -/
abbrev ImportedData (Card : Type) := TrainingData Card × GameNodeData

/-- The callback of `chapterFromPgn` with all that it returns. -/
def annotateAll (context : TrainingContext lib.chessops) (data : GameNodeData) (enabledCount : Int) :
    Option (ImportedData Card × TrainingContext lib.chessops × Int) :=
  (annotate (pgn.toPgn lib) context data.toPgnNodeData enabledCount).map fun out => ((out.1, data), out.2)

/-- The moves of the chapter `chapterFromPgn` returns. -/
def importMoves (rawPgn asColor : JsString) : Option (List (Rose (ImportedData Card))) :=
  match pgn.parsePgn rawPgn with
  | none | some [] => none
  | some (game :: _) =>
      (pgn.transform game.moves (trainingContext (pgn.toPgn lib) (if asColor = [] then white else asColor))
        (annotateAll lib pgn) 0).map Prod.fst

/-- `newNode.comments` takes the place of the comments that were imported. -/
def exportNode (node : ImportedData Card) : GameNodeData :=
  { node.2 with
    san := node.1.san
    comments := if node.1.comment = [] then none else some [node.1.comment] }

def chapterNameHeader : JsString :=
  Utf16.encode
    ['C', 'h', 'e', 's', 's', 'r', 'e', 'p', 'e', 'a', 't', 'C', 'h', 'a', 'p', 't', 'e', 'r', 'N', 'a', 'm', 'e']

/-- `pgnFromChapter` of a chapter with this name and these moves below its root. -/
def pgnFromChapter (name : JsString) (moves : List (Rose (ImportedData Card))) : Option JsString :=
  (pgn.transform moves lib.defaultPosition (fun pos node n => some (exportNode node, pos, n)) 0).map fun out =>
    pgn.makePgn ⟨[(chapterNameHeader, name)], none, out.1⟩

end PgnLibrary

/-! ## Legal games -/

/-- One move of a game. -/
def ChessLib.playSan (lib : ChessLib) (pos : lib.Position) (data : GameNodeData) : Option lib.Position :=
  (lib.parseSan pos data.san).map (lib.play pos)

/-- The moves that are played in each position of the game. -/
def Game.siblings (lib : ChessLib) (game : Game) : List (lib.Position × List GameNodeData) :=
  (lib.defaultPosition, game.moves.map Rose.label) :: Rose.familiesList lib.playSan lib.defaultPosition game.moves

def Game.Legal (lib : ChessLib) (game : Game) : Prop :=
  ∀ f ∈ game.siblings lib, ∀ data ∈ f.2, (lib.parseSan f.1 data.san).isSome

/-- No two variations begin with the same move. -/
def Game.Unrepeated (lib : ChessLib) (game : Game) : Prop :=
  ∀ f ∈ game.siblings lib, (f.2.map fun data => lib.parseSan f.1 data.san).Nodup

/-- `}` ends a comment. -/
def brace : UInt16 := 125

/-- No comment of the game has a closing brace in it. -/
structure Game.Unbraced (game : Game) : Prop where
  before : ∀ text ∈ game.comments.getD [], brace ∉ text
  starting : ∀ data ∈ Rose.labelsList game.moves, ∀ text ∈ data.startingComments.getD [], brace ∉ text
  after : ∀ data ∈ Rose.labelsList game.moves, ∀ text ∈ data.comments.getD [], brace ∉ text

/-! ## Import and export -/

/-- A node where no list and an empty one are the same. -/
def GameNodeData.plain (data : GameNodeData) : JsString × List JsString × List JsString × List Int :=
  (data.san, data.startingComments.getD [], data.comments.getD [], data.nags.getD [])

/-- `parsePgn` reads what `makePgn` has written of a legal game. -/
def PgnLibrary.Inverse (lib : ChessLib) (pgn : PgnLibrary) (game : Game) : Prop :=
  game.Legal lib → game.Unbraced → ∃ game', pgn.parsePgn (pgn.makePgn game) = some [game'] ∧
    game'.comments.getD [] = game.comments.getD [] ∧
      Rose.mapList GameNodeData.plain game'.moves = Rose.mapList GameNodeData.plain game.moves

/-- A text is part of a comment. -/
def Appears (text : JsString) (comments : List JsString) : Prop := text = [] ∨ ∃ comment ∈ comments, text <:+: comment

/-- The same moves in the same order, with all texts in their places. -/
structure Game.KeptBy (game game' : Game) : Prop where
  moves : Rose.mapList (fun data : GameNodeData => data.san) game'.moves =
    Rose.mapList (fun data : GameNodeData => data.san) game.moves
  before : ∀ text ∈ game.comments.getD [], Appears text (game'.comments.getD [])
  nodes : List.Forall₂ (fun data data' : GameNodeData =>
      (∀ text ∈ data.startingComments.getD [], Appears text (data'.startingComments.getD [])) ∧
        ∀ text ∈ data.comments.getD [], Appears text (data'.comments.getD []))
    (Rose.labelsList game.moves) (Rose.labelsList game'.moves)

/-- What `pgnFromChapter` gives to `makePgn`. -/
def PgnLibrary.exported (name : JsString) (moves : List (Rose (PgnLibrary.ImportedData Card))) : Game :=
  ⟨[(PgnLibrary.chapterNameHeader, name)], none, Rose.mapList PgnLibrary.exportNode moves⟩

/-- The chapter of a PGN is exported, and the PGN of the chapter is parsed. -/
def PgnLibrary.Reparsed (Card : Type) (lib : ChessLib) (pgn : PgnLibrary) (next : Nat)
    (rawPgn asColor name uuid : JsString) (game' : Game) : Prop :=
  ∃ (c : Chapter Card) (next' : Nat) (moves : List (Rose (PgnLibrary.ImportedData Card))) (text : JsString),
    chapterFromPgn (pgn.toPgn lib) next rawPgn asColor name uuid = some (c, next') ∧
      pgn.importMoves lib rawPgn asColor = some moves ∧
        c.root.children.map (Rose.map Object.data) = Rose.mapList Prod.fst moves ∧
          pgn.pgnFromChapter lib c.name moves = some text ∧ pgn.parsePgn text = some [game']

end Chessrepeat.Client
