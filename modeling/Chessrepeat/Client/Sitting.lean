import Chessrepeat.Client.Board

/-!
# Chessrepeat.tsx, UserTip.tsx, TrainingControls.tsx, TreeControls.tsx and util/navigation.ts

What the player does on the page while he trains: moves on the board, the buttons of the tip and those under the moves.
-/

namespace Chessrepeat.Client

open Lib

variable {Card : Type}

/-! ## Stepping through the moves -/

/-- The first children, from the node on. -/
def mainline : TrainableNode Card → List (TrainableNode Card)
  | .node a [] => [.node a []]
  | .node a (c :: cs) => .node a (c :: cs) :: mainline c

namespace TrainerState

variable (s : TrainerState Card)

/-- `trainableContext?.startingPath || ''`. -/
def pathToTrain : JsString := (s.trainableContext.map TrainableContext.startingPath).getD []

def firstMove : TrainerState Card := s.jump []

def prevMove : TrainerState Card := s.jump (init s.selectedPath)

def nextMove : TrainerState Card :=
  if s.trainingMethod = some .edit then
    match (s.selectedNode.bind s.deref).bind fun n => n.children.head? with
    | none => s
    | some child => s.jump (s.selectedPath ++ child.label.data.id)
  else if s.selectedPath.length < s.pathToTrain.length then
    s.jump (s.selectedPath ++ (s.pathToTrain.drop s.selectedPath.length).take 2)
  else s

def lastMove : TrainerState Card :=
  if s.trainingMethod = some .edit then
    match s.selectedChapter with
    | none => s
    | some chapter => s.jump (fromNodeList (mainline chapter.root).tail)
  else s.jump s.pathToTrain

/-- `atLast`: the board shows the position to train. -/
def atLast : Bool := s.trainableContext.any fun context => s.selectedPath = context.startingPath

/-- `setTrainingMethod`, with which the buttons begin. -/
def setTrainingMethod (method : TrainingMethod) : TrainerState Card := { s with trainingMethod := some method }

end TrainerState

/-! ## The player's moves -/

/-- What the tip says of the last guess; it hides the tip of the store's own actions. -/
inductive Verdict where
  | alternate
  | fail
  deriving DecidableEq, Repr

/-- `trained` is a history variable: the moves whose cards have been written, in this order. -/
structure Sitting (Card : Type) where
  store : TrainerState Card
  verdict : Option Verdict
  lastGuess : JsString
  trained : List Nat

namespace Sitting

variable (s : Sitting Card)

def empty : Bool := s.store.userTip = .empty && s.verdict = none

def onStore (f : TrainerState Card → TrainerState Card) : Sitting Card := { s with store := f s.store }

/-- It sets the tip, unless it returns early. -/
def setNextTrainablePosition (env : Env Card) : Sitting Card :=
  let searches := s.store.trainingMethod ≠ none ∧ s.store.trainingMethod ≠ some .edit ∧ s.store.selectedChapter.isSome
  { s with
    store := s.store.setNextTrainablePosition env
    verdict := if searches then none else s.verdict }

def learn (env : Env Card) : Sitting Card :=
  { s with
    store := s.store.learn env
    trained := s.trained ++ ((s.store.trainingTarget env).map fun t => t.2.1.ref).toList }

/-- `train` returns early where the move has no card. -/
def train (env : Env Card) (correct : Bool) : Sitting Card :=
  { s with
    store := s.store.train env correct
    trained := s.trained ++ ((s.store.trainingTarget env).bind fun t =>
      (ownCard env t.2.1.data).map fun _ => t.2.1.ref).toList }

/-- `finishMove`. The tip and the method are those of the last render. -/
def finishMove (chess : Chessops) (env : Env Card) (san : JsString) : Sitting Card :=
  if s.store.trainingMethod = some .edit then s.onStore (·.makeMove chess env san)
  else if s.store.atLast then
    let s := s.onStore (·.updateDueCounts env)
    match s.store.trainingMethod with
    | some .learn => (s.learn env).setNextTrainablePosition env
    | some .recall =>
        if s.verdict = some .fail then (s.train env false).setNextTrainablePosition env
        else
          let s := { s with lastGuess := san }
          match s.store.guess san with
          | some .success => (s.train env true).setNextTrainablePosition env
          | some .alternate => { s with verdict := some .alternate }
          | some .failure => { s with verdict := some .fail }
          | none => s
    | _ => s
  else s

/-- `onAfterMove`, or the choice of a promotion. -/
def onAfterMove (chess : Chessops) (env : Env Card) (san : JsString) : Sitting Card :=
  (s.finishMove chess env san).onStore (·.updateDueCounts env)

/-- `setUserTip('recall')`. -/
def resetTip : Sitting Card := { s with store := { s.store with userTip := .method .recall }, verdict := none }

/-- The tip with its three buttons is shown. -/
def failed : Bool :=
  s.verdict = some .fail && s.store.trainingMethod ≠ none && s.store.trainingMethod ≠ some .edit &&
    s.store.selectedChapter.isSome

/-- The Learn and the Recall button of TrainingControls.tsx, and their hotkeys. -/
def startTraining (env : Env Card) (method : TrainingMethod) : Sitting Card :=
  ((s.onStore (·.setTrainingMethod method)).setNextTrainablePosition env).onStore (·.updateDueCounts env)

end Sitting

/-- What may happen while a chapter is trained. -/
inductive Input where
  | board (san : JsString)
  | onContinue
  | onUndo
  | onAdd
  | firstMove
  | prevMove
  | nextMove
  | lastMove
  | jump (path : JsString)
  | render
  | runEffect

/-- What the page does with an input. `makeMove` is not awaited. -/
def Sitting.input (chess : Chessops) (s : Sitting Card) (env : Env Card) : Input → Sitting Card
  | .board san => s.onAfterMove chess env san
  | .onContinue => if s.failed then (s.train env false).setNextTrainablePosition env else s
  | .onUndo => if s.failed then s.resetTip else s
  | .onAdd => if s.failed then (s.onStore (·.makeMove chess env s.lastGuess)).resetTip else s
  | .firstMove => s.onStore (·.firstMove)
  | .prevMove => s.onStore (·.prevMove)
  | .nextMove => s.onStore (·.nextMove)
  | .lastMove => s.onStore (·.lastMove)
  | .jump path => s.onStore (·.jump path)
  | .render => s.onStore (·.render)
  | .runEffect => s.onStore (·.runEffect)

/-- Each input has an environment of its own. -/
def Sitting.step (chess : Chessops) (s : Sitting Card) (p : Env Card × Input) : Sitting Card := s.input chess p.1 p.2

end Chessrepeat.Client
