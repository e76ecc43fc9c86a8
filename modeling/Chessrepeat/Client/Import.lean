import Chessrepeat.Client.State

/-!
# util/io.ts

A PGN becomes a chapter in one walk over its moves, which counts the enabled ones on the way.
-/

namespace Chessrepeat.Client

open Lib

variable {Card : Type}

/-- A move of a PGN, as far as it is read. -/
structure PgnNodeData where
  san : JsString
  comments : Option (List JsString)

structure TrainingContext (chess : Chessops) where
  trainable : Bool
  ply : Int
  pos : chess.Position

/-- A callback with a counter was called on and on, from the count `n` up to the count `m`, and returned `bs`. -/
inductive Called {γ α β : Type} (f : γ → α → Int → Option (β × γ × Int)) : Int → List β → Int → Prop where
  | nil (n : Int) : Called f n [] n
  | cons {c c' : γ} {a : α} {b : β} {n k m : Int} {bs : List β} (call : f c a n = some (b, c', k))
      (rest : Called f k bs m) : Called f n (b :: bs) m

/-- The functions of chessops that `chapterFromPgn` calls beside those of `makeMove`. `none` is an exception;
`transform` is given the counter that its callback changes, and makes one node from each call. -/
structure Pgn (chess : Chessops) where
  Game : Type
  initialBoardFen : JsString
  defaultPosition : chess.Position
  parsePgn : JsString → Option (List Game)
  play : chess.Position → chess.Move → chess.Position
  transform : {β : Type} → Game → TrainingContext chess →
    (TrainingContext chess → PgnNodeData → Int → Option (β × TrainingContext chess × Int)) → Int →
    Option (List (Rose β) × Int)
  transform_called : ∀ {β : Type} (game : Game) (context : TrainingContext chess)
    (f : TrainingContext chess → PgnNodeData → Int → Option (β × TrainingContext chess × Int)) (n m : Int)
    (moves : List (Rose β)), transform game context f n = some (moves, m) →
      ∃ bs, Called f n bs m ∧ (Rose.labelsList moves).Perm bs

variable {chess : Chessops} (pgn : Pgn chess)

def trainingContext (color : JsString) : TrainingContext chess := ⟨color = white, 0, pgn.defaultPosition⟩

/-- `comments?.join('|') || ''`. -/
def joinComments (comments : Option (List JsString)) : JsString :=
  List.intercalate (Utf16.encode ['|']) (comments.getD [])

/-- The callback of `chapterFromPgn`. -/
def annotate (context : TrainingContext chess) (data : PgnNodeData) (enabledCount : Int) :
    Option (TrainingData Card × TrainingContext chess × Int) :=
  (chess.parseSan context.pos data.san).map fun move =>
    let context : TrainingContext chess := ⟨!context.trainable, context.ply + 1, pgn.play context.pos move⟩
    ({ id := chess.scalachessCharPair move
       fen := chess.makeFen context.pos
       ply := context.ply
       san := data.san
       comment := joinComments data.comments
       enabled := !context.trainable
       training := some [] },
      context, if !context.trainable then enabledCount + 1 else enabledCount)

/-- The uuid is a new one. Where there is no game or a move is illegal, there is no chapter. -/
def chapterFromPgn (next : Nat) (rawPgn asColor name uuid : JsString) : Option (Chapter Card × Nat) :=
  match pgn.parsePgn rawPgn with
  | none | some [] => none
  | some (game :: _) =>
      (pgn.transform game (trainingContext pgn (if asColor = [] then white else asColor)) (annotate pgn) 0).map
        fun (moves, enabledCount) =>
          let root : TrainingData Card := ⟨[], pgn.initialBoardFen, 0, [], [], false, some []⟩
          let out := allocate next (.node root moves)
          (⟨uuid, name, asColor, out.1, enabledCount, enabledCount, 0⟩, out.2)

end Chessrepeat.Client
