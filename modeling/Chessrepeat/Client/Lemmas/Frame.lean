import Chessrepeat.Client.Lemmas.Objects

/-!
# What the actions leave alone

`rest` is everything but the trees and what is derived from them. An action that edits the trees keeps it, and
its effect on the roots is that of one `mutate`.
-/

namespace Chessrepeat.Client

open Lib TrainerState

variable {Card : Type} {s s' : TrainerState Card} {uuid : JsString}

/-- The store without its trees. -/
def TrainerState.rest (s : TrainerState Card) : TrainerState Card :=
  { s with repertoire := [], detached := [], dueTimes := [] }

theorem selectedPath_of_rest (h : s'.rest = s.rest) : s'.selectedPath = s.selectedPath :=
  (congrArg selectedPath h : _)

theorem selectedNode_of_rest (h : s'.rest = s.rest) : s'.selectedNode = s.selectedNode :=
  (congrArg selectedNode h : _)

theorem selectedChapterId_of_rest (h : s'.rest = s.rest) : s'.selectedChapterId = s.selectedChapterId :=
  (congrArg selectedChapterId h : _)

theorem nextRef_of_rest (h : s'.rest = s.rest) : s'.nextRef = s.nextRef :=
  (congrArg nextRef h : _)

theorem trainingMethod_of_rest (h : s'.rest = s.rest) : s'.trainingMethod = s.trainingMethod :=
  (congrArg trainingMethod h : _)

theorem sent_of_rest (h : s'.rest = s.rest) : s'.sent = s.sent := (congrArg sent h : _)

theorem resyncs_of_rest (h : s'.rest = s.rest) : s'.resyncs = s.resyncs := (congrArg resyncs h : _)

/-! ## Due counts -/

theorem rest_updateDueCounts (env : Env Card) : (s.updateDueCounts env).rest = s.rest := by
  rw [updateDueCounts]
  split
  · rfl
  · split <;> rfl

theorem roots_updateDueCounts (env : Env Card) : (s.updateDueCounts env).roots = s.roots := by
  rw [updateDueCounts]
  split
  · rfl
  · split
    · rfl
    · exact roots_onChapter (Counts.setLastDueCount _)

theorem rootOf_updateDueCounts (env : Env Card) (v : JsString) : (s.updateDueCounts env).rootOf v = s.rootOf v := by
  rw [updateDueCounts]
  split
  · rfl
  · split
    · rfl
    · exact rootOf_onChapter (Counts.setLastDueCount _) v

/-! ## Removing a line -/

variable {chapter : Chapter Card} {path : JsString} {env : Env Card}

theorem rest_removeLine : (s.removeLine env chapter path).rest = s.rest := by
  rw [removeLine, rest_updateDueCounts]; rfl

theorem roots_removeLine : (s.removeLine env chapter path).roots =
    s.roots.map (Rose.modify (fun n => n.ref = (nodeAtPath chapter.root (init path)).ref) (removeChild (last path))) := by
  rw [removeLine, roots_updateDueCounts, roots_onChapter (Counts.addCounts _ _), ← roots_mutate]; rfl

theorem rootOf_removeLine (v : JsString) : (s.removeLine env chapter path).rootOf v = (s.rootOf v).map
    (Rose.modify (fun n => n.ref = (nodeAtPath chapter.root (init path)).ref) (removeChild (last path))) := by
  rw [removeLine, rootOf_updateDueCounts, rootOf_onChapter (Counts.addCounts _ _), ← rootOf_mutate]; rfl

theorem selectedRoot_removeLine : (s.removeLine env chapter path).selectedRoot = s.selectedRoot.map
    (Rose.modify (fun n => n.ref = (nodeAtPath chapter.root (init path)).ref) (removeChild (last path))) := by
  rw [selectedRoot_eq, selectedRoot_eq, selectedChapterId_of_rest rest_removeLine, Option.map_bind]
  exact congrArg _ (funext rootOf_removeLine)

theorem Sound.removeLine (h : Sound s) : Sound (s.removeLine env chapter path) := by
  have hm : Sound (s.mutate (nodeAtPath chapter.root (init path)).ref (Client.removeChild (last path))) :=
    h.removeChild _
  apply hm.congr
  · rw [roots_removeLine, roots_mutate]
  · rw [nextRef_of_rest rest_removeLine]; exact Nat.le_refl _

/-! ## Actions that leave the trees alone -/

theorem send_eq (msg : Outgoing Card) : s.send env msg = { s with sent := (s.send env msg).sent } := by
  rw [send]; split <;> rfl

theorem repertoire_send (msg : Outgoing Card) : (s.send env msg).repertoire = s.repertoire := by
  rw [send_eq]

theorem repertoire_jump (path : JsString) : (s.jump path).repertoire = s.repertoire := by
  rw [jump]; split <;> rfl

theorem nextRef_jump (path : JsString) : (s.jump path).nextRef = s.nextRef := by
  rw [jump]; split <;> rfl

/-! ## Waiting for IndexedDB -/

theorem deleteLine_signedIn (henv : env.isAuthenticated = true) (hc : s.selectedChapter = some chapter) :
    s.deleteLine env path = ((s.removeLine env chapter path).send env (.nodeDeleted chapter.uuid path)).jump
      (if contains s.selectedPath path then init path else path) := by
  simp only [deleteLine, hc, henv, if_true]
  rfl

theorem deleteLine_guest (henv : env.isAuthenticated = false) (hc : s.selectedChapter = some chapter) :
    s.deleteLine env path = (s.removeLine env chapter path).await
      (.jump (.nodeDeleted chapter.uuid path) (if contains s.selectedPath path then init path else path)) := by
  simp only [deleteLine, hc, henv, Bool.false_eq_true, if_false]
  rfl

theorem setCommentAt_signedIn {comment : JsString} (henv : env.isAuthenticated = true)
    (hc : s.selectedChapter = some chapter) : s.setCommentAt env comment path =
      (s.startSetCommentAt chapter comment path).1.send env (s.startSetCommentAt chapter comment path).2 := by
  simp only [setCommentAt, hc, henv, if_true]

theorem setCommentAt_guest {comment : JsString} (henv : env.isAuthenticated = false)
    (hc : s.selectedChapter = some chapter) : s.setCommentAt env comment path =
      (s.startSetCommentAt chapter comment path).1.await
        (.setRepertoire s.repertoire (s.startSetCommentAt chapter comment path).2) := by
  simp only [setCommentAt, hc, henv, Bool.false_eq_true, if_false]

theorem finishDeleteLine_cases (s : TrainerState Card) (env : Env Card) (i : Nat) :
    s.finishDeleteLine env i = s ∨ ∃ msg path, s.awaits[i]? = some (.jump msg path) ∧
      s.finishDeleteLine env i = (send { s with awaits := s.awaits.eraseIdx i } env msg).jump path := by
  rw [finishDeleteLine]
  split
  · exact .inr ⟨_, _, ‹_›, rfl⟩
  · exact .inl rfl

theorem setNextTrainablePosition_cases (s : TrainerState Card) (env : Env Card) :
    ((s.selectedChapter = none ∨ ∀ method, s.trainingMethod = some method → method = .edit) ∧
      s.setNextTrainablePosition env = s) ∨
    (∃ chapter method, s.selectedChapter = some chapter ∧ s.trainingMethod = some method ∧ method ≠ .edit ∧
      computeNextTrainableNode env chapter.root method s.searchConfig = none ∧
      s.setNextTrainablePosition env =
        { s with userTip := .empty, selectedPath := [], selectedNode := none, trainableContext := none }) ∨
    (∃ chapter method context, s.selectedChapter = some chapter ∧ s.trainingMethod = some method ∧ method ≠ .edit ∧
      computeNextTrainableNode env chapter.root method s.searchConfig = some context ∧
      s.setNextTrainablePosition env =
        { s with
          selectedPath := context.startingPath
          selectedNode := (getNodeList chapter.root context.startingPath).getLast?.map TrainableNode.ref
          trainableContext := some context
          userTip := .method method }) := by
  rw [setNextTrainablePosition]
  split
  · rename_i hm
    exact Or.inl ⟨Or.inr fun _ he => (by rw [hm] at he; cases he), rfl⟩
  · rename_i hm
    exact Or.inl ⟨Or.inr fun _ he => (by rw [hm] at he; cases he; rfl), rfl⟩
  · rename_i method hedit hm
    have hne : method ≠ .edit := fun he => hedit (by rw [← he])
    split
    · exact Or.inl ⟨Or.inl ‹_›, rfl⟩
    · rename_i chapter hc
      split
      · exact Or.inr (Or.inl ⟨chapter, method, hc, hm, hne, ‹_›, rfl⟩)
      · exact Or.inr (Or.inr ⟨chapter, method, _, hc, hm, hne, ‹_›, rfl⟩)

theorem repertoire_setNextTrainablePosition : (s.setNextTrainablePosition env).repertoire = s.repertoire := by
  rcases setNextTrainablePosition_cases s env with ⟨-, h⟩ | ⟨c, m, -, -, -, -, h⟩ | ⟨c, m, x, -, -, -, -, h⟩ <;> rw [h]

theorem nextRef_setNextTrainablePosition : (s.setNextTrainablePosition env).nextRef = s.nextRef := by
  rcases setNextTrainablePosition_cases s env with ⟨-, h⟩ | ⟨c, m, -, -, -, -, h⟩ | ⟨c, m, x, -, -, -, -, h⟩ <;> rw [h]

theorem sent_setNextTrainablePosition : (s.setNextTrainablePosition env).sent = s.sent := by
  rcases setNextTrainablePosition_cases s env with ⟨-, h⟩ | ⟨c, m, -, -, -, -, h⟩ | ⟨c, m, x, -, -, -, -, h⟩ <;> rw [h]

theorem resyncs_setNextTrainablePosition : (s.setNextTrainablePosition env).resyncs = s.resyncs := by
  rcases setNextTrainablePosition_cases s env with ⟨-, h⟩ | ⟨c, m, -, -, -, -, h⟩ | ⟨c, m, x, -, -, -, -, h⟩ <;> rw [h]

theorem resyncs_send (msg : Outgoing Card) : (s.send env msg).resyncs = s.resyncs := by
  rw [send_eq]

theorem resyncs_jump (path : JsString) : (s.jump path).resyncs = s.resyncs := by
  rw [jump]; split <;> rfl

theorem sent_jump (path : JsString) : (s.jump path).sent = s.sent := by
  rw [jump]; split <;> rfl

/-- `deleteNodeRemote` changes the repertoire as `removeLine` does. -/
theorem deleteNodeRemote_eq {chapterId : JsString} (env : Env Card) (path : JsString)
    (hc : s.chapter chapterId = some chapter) :
    (s.deleteNodeRemote env chapterId path).repertoire = (s.removeLine env chapter path).repertoire ∧
      (s.deleteNodeRemote env chapterId path).sent = s.sent ∧
      (s.deleteNodeRemote env chapterId path).resyncs = s.resyncs := by
  simp only [deleteNodeRemote, hc]
  split
  · rw [repertoire_setNextTrainablePosition, repertoire_jump, sent_setNextTrainablePosition, sent_jump,
      resyncs_setNextTrainablePosition, resyncs_jump, sent_of_rest rest_removeLine, resyncs_of_rest rest_removeLine]
    exact ⟨rfl, rfl, rfl⟩
  · exact ⟨rfl, sent_of_rest rest_removeLine, resyncs_of_rest rest_removeLine⟩

theorem Sound.of_repertoire (h : Sound s) (hr : s'.repertoire = s.repertoire) (hn : s'.nextRef = s.nextRef) : Sound s' :=
  h.congr (by rw [roots, hr]; rfl) (Nat.le_of_eq hn.symm)

end Chessrepeat.Client
