import Chessrepeat.Client.State

/-!
# Events from other clients

What an event on a chapter that is not selected may change of the store, and what it may not.
-/

namespace Chessrepeat.Client

open Lib TrainerState

variable {Card : Type}

inductive RemoteEvent (Card : Type) where
  | addMove (chapterId path : JsString) (node : Rose (TrainingData Card))
  | deleteNodeRemote (chapterId path : JsString)
  | setCommentRemote (chapterId path comment : JsString)
  | updateTrainingRemote (chapterId path username : JsString) (card : Card)
  | deleteChapterRemote (chapterId : JsString)

namespace RemoteEvent

def chapterId : RemoteEvent Card → JsString
  | addMove chapterId _ _ | deleteNodeRemote chapterId _ | setCommentRemote chapterId _ _
  | updateTrainingRemote chapterId _ _ _ | deleteChapterRemote chapterId => chapterId

def path? : RemoteEvent Card → Option JsString
  | addMove _ path _ | deleteNodeRemote _ path | setCommentRemote _ path _ | updateTrainingRemote _ path _ _ => some path
  | deleteChapterRemote _ => none

end RemoteEvent

/-- The handler of the event. -/
def TrainerState.remote (env : Env Card) (s : TrainerState Card) : RemoteEvent Card → TrainerState Card
  | .addMove chapterId path node => s.addMove env chapterId path node
  | .deleteNodeRemote chapterId path => s.deleteNodeRemote env chapterId path
  | .setCommentRemote chapterId path comment => s.setCommentRemote chapterId path comment
  | .updateTrainingRemote chapterId path username card => s.updateTrainingRemote chapterId path username card
  | .deleteChapterRemote chapterId => s.deleteChapterRemote chapterId

/-- The event names a chapter of the repertoire that is not the selected one and, in it, a path that exists. -/
structure Background (s : TrainerState Card) (e : RemoteEvent Card) (chapter : Chapter Card) : Prop where
  found : s.chapter e.chapterId = some chapter
  unselected : s.selectedChapterId ≠ some e.chapterId
  path : ∀ path ∈ e.path?, (nodeAtPathOrNull chapter.root path).isSome

/-! ## What is seen -/

structure View where
  selectedChapterId : Option JsString
  selectedPath : JsString
  selectedNode : Option Nat
  trainableContext : Option TrainableContext
  userTip : UserTip
  deriving DecidableEq, Repr

def TrainerState.view (s : TrainerState Card) : View :=
  ⟨s.selectedChapterId, s.selectedPath, s.selectedNode, s.trainableContext, s.userTip⟩

/-- The trees and the counts of the other chapters. -/
def TrainerState.others (s : TrainerState Card) (uuid : JsString) :
    List (JsString × TrainableNode Card × Int × Int) :=
  (s.repertoire.filter fun c => c.uuid ≠ uuid).map fun c => (c.uuid, c.root, c.enabledCount, c.unseenCount)

structure Invisible (s s' : TrainerState Card) (uuid : JsString) : Prop where
  view : s'.view = s.view
  others : s'.others uuid = s.others uuid

/-- Where `setNextTrainablePosition` takes the view on a chapter with this root. -/
def TrainerState.nextView (s : TrainerState Card) (env : Env Card) (root : TrainableNode Card) (method : TrainingMethod) :
    View :=
  match computeNextTrainableNode env root method s.searchConfig with
  | none => ⟨s.selectedChapterId, [], none, none, .empty⟩
  | some context =>
      ⟨s.selectedChapterId, context.startingPath, (getNodeList root context.startingPath).getLast?.map TrainableNode.ref,
        some context, .method method⟩

/-- The selected path does not run through the deleted one, whichever chapter that is in; or no chapter is selected; or
the view is already where the handler takes it on the selected chapter: to its next move to train, or to the root when
nothing is trained and the root is what is deleted. -/
def Undisturbed (env : Env Card) (s : TrainerState Card) : RemoteEvent Card → Prop
  | .deleteNodeRemote _ path => contains s.selectedPath path = true → ∀ chapter, s.selectedChapter = some chapter →
      match s.trainingMethod with
      | none | some .edit => path = [] ∧ s.selectedPath = [] ∧ s.selectedNode = some chapter.root.ref
      | some method => s.view = s.nextView env chapter.root method
  | _ => True

end Chessrepeat.Client
