import Chessrepeat.Client.Lemmas.PathSets

/-!
# What the actions do to one chapter and to the network

Each action is described by the root of a chapter after it, by what it sends and by the resyncs it starts.
-/

namespace Chessrepeat.Client

open Lib TrainerState

variable {Card : Type} {s s' : TrainerState Card} {env : Env Card} {chess : Chessops} {uuid path : JsString}
  {root : TrainableNode Card}

/-- The trees and the network are left alone. -/
structure SameTrees (s s' : TrainerState Card) : Prop where
  repertoire : s'.repertoire = s.repertoire
  nextRef : s'.nextRef = s.nextRef
  sent : s'.sent = s.sent
  resyncs : s'.resyncs = s.resyncs

theorem SameTrees.refl (s : TrainerState Card) : SameTrees s s := ⟨rfl, rfl, rfl, rfl⟩

theorem SameTrees.trans {s'' : TrainerState Card} (h : SameTrees s s') (h' : SameTrees s' s'') : SameTrees s s'' :=
  ⟨h'.repertoire.trans h.repertoire, h'.nextRef.trans h.nextRef, h'.sent.trans h.sent, h'.resyncs.trans h.resyncs⟩

theorem SameTrees.rootOf (h : SameTrees s s') (uuid : JsString) : s'.rootOf uuid = s.rootOf uuid := by
  rw [TrainerState.rootOf, chapter, h.repertoire]
  rfl

theorem SameTrees.sound (h : SameTrees s s') (hs : Sound s) : Sound s' := hs.of_repertoire h.repertoire h.nextRef

/-- The actions that only move about in the repertoire. -/
def isNavigation : Action Card → Bool
  | .selectChapter _ | .setTrainingMethod _ | .setSearchConfig _ | .jump _ | .setNextTrainablePosition | .render
  | .runEffect => true
  | _ => false

theorem SameTrees.jump (s : TrainerState Card) (path : JsString) : SameTrees s (s.jump path) :=
  ⟨repertoire_jump path, nextRef_jump path, sent_jump path, resyncs_jump path⟩

theorem SameTrees.setNextTrainablePosition (s : TrainerState Card) : SameTrees s (s.setNextTrainablePosition env) :=
  ⟨repertoire_setNextTrainablePosition, nextRef_setNextTrainablePosition, sent_setNextTrainablePosition,
    resyncs_setNextTrainablePosition⟩

theorem SameTrees.navigation {a : Action Card} (h : isNavigation a = true) : SameTrees s (step chess s env a) := by
  cases a with
  | selectChapter | setTrainingMethod | setSearchConfig => exact ⟨rfl, rfl, rfl, rfl⟩
  | jump path => exact SameTrees.jump s path
  | setNextTrainablePosition => exact SameTrees.setNextTrainablePosition s
  | render =>
      simp only [step, render]
      split
      · exact SameTrees.refl s
      · split <;> exact ⟨rfl, rfl, rfl, rfl⟩
  | runEffect =>
      simp only [step, runEffect]
      split <;> exact ⟨rfl, rfl, rfl, rfl⟩
  | _ => cases h

/-- The chapter has another root, the messages are new, and no resync starts. -/
structure Edited (uuid : JsString) (root : TrainableNode Card) (msgs : List (Outgoing Card)) (s s' : TrainerState Card) :
    Prop where
  rootOf : s'.rootOf uuid = some root
  sent : s'.sent = s.sent ++ msgs
  resyncs : s'.resyncs = s.resyncs

theorem Edited.of_mutate {r : Nat} {f : TrainableNode Card → TrainableNode Card} {msgs : List (Outgoing Card)}
    (h : s.rootOf uuid = some root) (hroot : s'.rootOf uuid = (s.mutate r f).rootOf uuid) (hsent : s'.sent = s.sent ++ msgs)
    (hres : s'.resyncs = s.resyncs) : Edited uuid (Rose.modify (fun n => n.ref = r) f root) msgs s s' := by
  refine ⟨?_, hsent, hres⟩
  rw [hroot, rootOf_mutate, h]
  rfl

/-! ## Actions of the user -/

/-- A user who is signed in and has an open socket. -/
def Online (env : Env Card) : Prop := (env.isAuthenticated && env.socketOpen) = true

instance (env : Env Card) : Decidable (Online env) := by delta Online; infer_instance

theorem Online.signedIn (h : Online env) : env.isAuthenticated = true := (Bool.and_eq_true_iff.mp h).1

theorem send_of_online (h : Online env) (msg : Outgoing Card) : s.send env msg = { s with sent := s.sent ++ [msg] } := by
  exact if_pos h

/-- The selected chapter is the one with that uuid, if one is selected. -/
def Selects (uuid : JsString) (s : TrainerState Card) : Prop := ∀ chapter, s.selectedChapter = some chapter → chapter.uuid = uuid

theorem Selects.rootOf {chapter : Chapter Card} (h : Selects uuid s) (hc : s.selectedChapter = some chapter) :
    s.rootOf uuid = some chapter.root ∧ chapter.uuid = uuid := by
  obtain ⟨id, -, hid⟩ := Option.bind_eq_some_iff.mp hc
  have hu := h chapter hc
  obtain ⟨-, rfl⟩ := chapter_mem hid
  exact ⟨hu ▸ chapter_root hid, hu⟩

/-- Where `makeMove(san)` adds a move, and the move. -/
def nextMove (chess : Chessops) (s : TrainerState Card) (san : JsString) : Option (TrainableNode Card × TrainingData Card) :=
  match s.selectedChapter, s.selectedNode.bind s.deref with
  | some chapter, some node =>
      if node.children.any (fun c : TrainableNode Card => c.data.san = san) then none
      else (newMove chess chapter.trainAs node.data san).map fun d => (node, d)
  | _, _ => none

theorem SameTrees.follow (r : Nat) (san : JsString) : SameTrees s (s.follow r san) := by
  rw [follow_eq]
  exact ⟨rfl, rfl, rfl, rfl⟩

/-- Without a next move, `makeMove` leaves the trees alone. -/
theorem SameTrees.makeMove {san : JsString} (h : nextMove chess s san = none) : SameTrees s (s.makeMove chess env san) := by
  cases hc : s.selectedChapter with
  | none => simpa only [TrainerState.makeMove, hc] using SameTrees.refl s
  | some chapter =>
      cases hnode : s.selectedNode.bind s.deref with
      | none => simpa only [TrainerState.makeMove, hc, hnode] using SameTrees.refl s
      | some node =>
          simp only [nextMove, hc, hnode] at h
          simp only [TrainerState.makeMove, hc, hnode, extend]
          split at h
          · rw [if_pos ‹_›]
            exact SameTrees.follow _ _
          · rw [if_neg ‹_›, Option.map_eq_none_iff.mp h]
            exact SameTrees.refl s

/-- `makeMove` adds the next move at the selected path and sends it. -/
theorem makeMove_edited {san : JsString} {n : TrainableNode Card} {d : TrainingData Card} (hs : Sound s)
    (hsel : SelectionConsistent s) (hu : Selects uuid s) (henv : Online env) (h : nextMove chess s san = some (n, d)) :
    ∃ root, s.rootOf uuid = some root ∧ nodeAtPathOrNull root s.selectedPath = some n ∧
      (∃ trainAs, newMove chess trainAs n.data san = some d) ∧
      Edited uuid (Rose.modify (fun m => m.ref = n.label.ref) (TrainableNode.push (.node ⟨s.nextRef, d⟩ [])) root)
        [.moveCreated uuid s.selectedPath d] s (s.makeMove chess env san) := by
  cases hc : s.selectedChapter with
  | none => simp only [nextMove, hc] at h; cases h
  | some chapter =>
      cases hnode : s.selectedNode.bind s.deref with
      | none => simp only [nextMove, hc, hnode] at h; cases h
      | some node =>
          simp only [nextMove, hc, hnode] at h
          split at h
          · cases h
          · rename_i hany
            obtain ⟨d', hmove, he⟩ := Option.map_eq_some_iff.mp h
            cases he
            obtain ⟨hroot, rfl⟩ := hu.rootOf hc
            obtain ⟨r, hr, hderef⟩ := Option.bind_eq_some_iff.mp hnode
            obtain ⟨root, m, hsel, hn, rfl⟩ := hsel r hr
            obtain rfl : root = chapter.root := Option.some.inj (hsel.symm.trans (selectedChapter_root hc))
            obtain rfl : m = n :=
              Option.some.inj (hs.deref (selectedRoot_mem hsel) (nodeAtPathOrNull_mem_nodes hn) ▸ hderef)
            refine ⟨chapter.root, hroot, hn, ⟨_, hmove⟩, ?_⟩
            simp only [makeMove, hc, hnode, extend]
            rw [if_neg hany, hmove]
            simp only [Option.map_some]
            generalize (if d.enabled then (1 : Int) else 0) = k
            have hcounts : (s.onChapter chapter.uuid (Chapter.addCounts k k)).rootOf chapter.uuid = s.rootOf chapter.uuid :=
              rootOf_onChapter (Counts.addCounts k k) _
            refine Edited.of_mutate hroot ?_ ?_ ?_
            · rw [(SameTrees.follow _ _).rootOf, send_of_online henv]
              change (TrainerState.mutate _ _ _).rootOf _ = _
              rw [rootOf_mutate, rootOf_mutate]
              exact congrArg _ hcounts
            · rw [(SameTrees.follow _ _).sent, send_of_online henv]
              rfl
            · rw [(SameTrees.follow _ _).resyncs, send_of_online henv]
              rfl

/-- `deleteLine` removes the line from the selected chapter and sends that. -/
theorem deleteLine_cases (hu : Selects uuid s) (henv : Online env) (path : JsString) :
    s.selectedChapter = none ∧ s.deleteLine env path = s ∨
    ∃ root, s.selectedRoot = some root ∧ s.rootOf uuid = some root ∧
      Edited uuid (Rose.modify (fun m => m.ref = (nodeAtPath root (init path)).ref) (removeChild (last path)) root)
        [.nodeDeleted uuid path] s (s.deleteLine env path) := by
  cases hc : s.selectedChapter with
  | none => exact Or.inl ⟨rfl, by simp only [deleteLine, hc]⟩
  | some chapter =>
      obtain ⟨hroot, rfl⟩ := hu.rootOf hc
      refine Or.inr ⟨chapter.root, selectedChapter_root hc, hroot, ?_⟩
      rw [deleteLine_signedIn henv.signedIn hc, send_of_online henv]
      refine Edited.of_mutate hroot ?_ ?_ ?_
      · rw [TrainerState.rootOf, TrainerState.chapter, repertoire_jump, rootOf_mutate, ← rootOf_removeLine]
        rfl
      · rw [sent_jump, sent_of_rest rest_removeLine]
      · rw [resyncs_jump]
        change (s.removeLine env chapter path).resyncs = s.resyncs
        exact resyncs_of_rest rest_removeLine

/-- What is left of a comment. -/
def cutComment (comment : JsString) : JsString :=
  if comment.length > maxCommentChars then comment.take maxCommentChars else comment

theorem cutComment_eq (comment : JsString) : cutComment comment = comment.take maxCommentChars := by
  rw [cutComment]
  split
  · rfl
  · exact (List.take_of_length_le (by omega)).symm

theorem length_cutComment (comment : JsString) : (cutComment comment).length ≤ maxCommentChars := by
  rw [cutComment_eq]
  exact List.length_take_le _ _

def withComment (comment : JsString) (n : TrainableNode Card) : TrainableNode Card := n.setData (n.data.setComment comment)

theorem setCommentAt_cases (hu : Selects uuid s) (henv : Online env) (comment path : JsString) :
    s.selectedChapter = none ∧ s.setCommentAt env comment path = s ∨
    ∃ root, s.rootOf uuid = some root ∧
      Edited uuid (Rose.modify (fun m => m.ref = (nodeAtPath root path).ref)
          (withComment (cutComment comment)) root)
        [.setComment uuid path (cutComment comment)] s (s.setCommentAt env comment path) := by
  cases hc : s.selectedChapter with
  | none => exact Or.inl ⟨rfl, by simp only [setCommentAt, hc]⟩
  | some chapter =>
      obtain ⟨hroot, rfl⟩ := hu.rootOf hc
      refine Or.inr ⟨chapter.root, hroot, ?_⟩
      rw [setCommentAt_signedIn henv.signedIn hc, send_of_online henv]
      exact Edited.of_mutate hroot rfl rfl rfl

/-! ## Events from peers -/

theorem addMove_cases (env : Env Card) (path : JsString) (d : TrainingData Card) (hroot : s.rootOf uuid = some root) :
    nodeAtPathOrNull root path = none ∧ s.addMove env uuid path (.node d []) = s.resyncAndRestore ∨
    ∃ n, nodeAtPathOrNull root path = some n ∧
      Edited uuid (Rose.modify (fun m => m.ref = n.label.ref) (TrainableNode.push (.node ⟨s.nextRef, d⟩ [])) root) [] s
        (s.addMove env uuid path (.node d [])) := by
  obtain ⟨chapter, hc, rfl⟩ := Option.map_eq_some_iff.mp hroot
  cases hn : nodeAtPathOrNull chapter.root path with
  | none => exact Or.inl ⟨rfl, by simp only [addMove, hc, hn]⟩
  | some n =>
      refine Or.inr ⟨n, rfl, ?_⟩
      simp only [addMove, hc, hn]
      refine Edited.of_mutate hroot ?_ (List.append_nil _).symm rfl
      rw [rootOf_onChapter (Counts.addCounts _ _), rootOf_mutate, rootOf_mutate]
      rfl

theorem deleteNodeRemote_edited (env : Env Card) (path : JsString) (hroot : s.rootOf uuid = some root) :
    Edited uuid (Rose.modify (fun m => m.ref = (nodeAtPath root (init path)).ref) (removeChild (last path)) root) [] s
      (s.deleteNodeRemote env uuid path) := by
  obtain ⟨chapter, hc, rfl⟩ := Option.map_eq_some_iff.mp hroot
  obtain ⟨hrep, hsent, hres⟩ := deleteNodeRemote_eq env path hc
  refine Edited.of_mutate hroot ?_ (hsent.trans (List.append_nil _).symm) hres
  rw [rootOf_mutate, ← rootOf_removeLine, TrainerState.rootOf, TrainerState.chapter, hrep]
  rfl

theorem setCommentRemote_edited {comment : JsString} (hroot : s.rootOf uuid = some root) :
    Edited uuid (Rose.modify (fun m => m.ref = (nodeAtPath root path).ref)
        (withComment comment) root) [] s (s.setCommentRemote uuid path comment) := by
  obtain ⟨chapter, hc, rfl⟩ := Option.map_eq_some_iff.mp hroot
  simp only [setCommentRemote, hc]
  exact Edited.of_mutate hroot rfl (List.append_nil _).symm rfl

def withCard (username : JsString) (card : Card) (n : TrainableNode Card) : TrainableNode Card :=
  n.setData (n.data.setCard username card)

theorem find?_parseChapters (env : Env Card) (next : Nat) (raw : List (RawChapter Card)) (uuid : JsString) :
    ((parseChapters env next raw).1.find? fun c => c.uuid = uuid).map (fun c => c.root.map Object.data) =
      (raw.find? fun c => c.uuid = uuid).map RawChapter.root := by
  induction raw generalizing next with
  | nil => rfl
  | cons c cs ih =>
      obtain ⟨-, -, hdata⟩ := allocate_spec next c.root
      by_cases hc : c.uuid = uuid
      · simp [parseChapters, parseChapter, hc, hdata]
      · simp [parseChapters, parseChapter, hc, ih]

/-- The chapter as it was fetched. -/
theorem rootOf_setRepertoire {raw : List (RawChapter Card)} {c : RawChapter Card}
    (h : (raw.find? fun c => c.uuid = uuid) = some c) :
    ∃ root, (s.setRepertoire env raw).rootOf uuid = some root ∧ root.map Object.data = c.root := by
  have hparse := find?_parseChapters env s.nextRef raw uuid
  rw [h] at hparse
  obtain ⟨chapter, hc, hdata⟩ := Option.map_eq_some_iff.mp hparse
  refine ⟨chapter.root, ?_, hdata⟩
  rw [TrainerState.rootOf, TrainerState.chapter, show (s.setRepertoire env raw).repertoire.find? _ = _ from hc]
  rfl

theorem SameTrees.restore (s : TrainerState Card) (savedPath : JsString) (fetched : Option (List (RawChapter Card))) :
    SameTrees (s.fetchRepertoire env fetched) (s.restore env savedPath fetched) := by
  refine SameTrees.trans ?_ (SameTrees.setNextTrainablePosition _)
  rcases recoverPath_cases (s.fetchRepertoire env fetched) savedPath with ⟨_, _, _, _, hr⟩ | hr <;> rw [hr]
  · exact SameTrees.jump _ savedPath
  · exact ⟨rfl, rfl, rfl, rfl⟩

/-- What the `i`-th resync does when its response arrives. -/
theorem finishResync_edited (env : Env Card) {i : Nat} {raw : List (RawChapter Card)} {c : RawChapter Card} (hi : i < s.resyncs.length)
    (h2 : RawTwoUnits raw) (hc : (raw.find? fun c => c.uuid = uuid) = some c) :
    Sound (s.finishResync env i (some raw)) ∧ (s.finishResync env i (some raw)).sent = s.sent ∧
      (s.finishResync env i (some raw)).resyncs = s.resyncs.eraseIdx i ∧
        ∃ root, (s.finishResync env i (some raw)).rootOf uuid = some root ∧ root.map Object.data = c.root := by
  have hsame : SameTrees (TrainerState.setRepertoire { s with resyncs := s.resyncs.eraseIdx i } env raw)
      (s.finishResync env i (some raw)) := by
    simp only [finishResync, List.getElem?_eq_getElem hi]
    exact SameTrees.restore _ _ (some raw)
  obtain ⟨root, hroot, hdata⟩ := rootOf_setRepertoire hc
  exact ⟨hsame.sound (Sound.setRepertoire h2), hsame.sent, hsame.resyncs, root, (hsame.rootOf uuid).trans hroot, hdata⟩

/-! ## Comments -/

/-- The comment of a node after it has been set. -/
theorem nodeAtPathOrNull_setComment {n : TrainableNode Card} (comment : JsString) (hd : (root.labels.map Object.ref).Nodup)
    (hn : nodeAtPathOrNull root path = some n) :
    nodeAtPathOrNull (Rose.modify (fun m => m.ref = (nodeAtPath root path).ref)
      (withComment comment) root) path = some (withComment comment n) := by
  rw [nodeAtPath_of_found hn]
  refine (nodeAtPathOrNull_modify (f := withComment comment) (fun _ => rfl) hd hn path).trans ?_
  rw [if_pos (List.prefix_refl _), List.drop_length]
  rfl

end Chessrepeat.Client
