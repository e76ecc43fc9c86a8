import Chessrepeat.Client.Lemmas.Edits
import Chessrepeat.Room.Lemmas.Handling
import Chessrepeat.Room.Transport
import Chessrepeat.Store.Lemmas.Subtree

/-!
# Where a comment is cut

The client cuts a comment before the server can, so what the database and the peers get is what the server reads of
what the client keeps.
-/

namespace Chessrepeat.Room

open Lib Client Ws

variable {Card : Type} {cards : CardCodec Card} {env : Env Card} {s : TrainerState Card} {db : Store.Db} {sub : Session}
  {chapter : Chapter Card} {node : TrainableNode Card} {c q : Domain.Text} {comment : JsString}

/-- The selected chapter and the messages after a comment is set. -/
theorem setCommentAt_online (comment : JsString) (hs : Sound s) (henv : Online env) (hc : s.selectedChapter = some chapter) {path : JsString}
    (hn : nodeAtPathOrNull chapter.root path = some node) :
    (s.setCommentAt env comment path).sent = s.sent ++ [.setComment chapter.uuid path (cutComment comment)] ∧
      ((s.setCommentAt env comment path).selectedRoot.bind fun root => nodeAtPathOrNull root path) =
        some (withComment (cutComment comment) node) := by
  have hroot := selectedChapter_root hc
  have hd : (chapter.root.labels.map Object.ref).Nodup := hs.root_nodup (selectedRoot_mem hroot)
  rw [setCommentAt_signedIn henv.signedIn hc, send_of_online henv]
  refine ⟨rfl, ?_⟩
  change ((s.mutate _ _).selectedRoot.bind _) = _
  rw [selectedRoot_mutate, hroot, Option.map_some, Option.bind_some]
  exact nodeAtPathOrNull_setComment (cutComment comment) hd hn

/-- The copies of a comment: what the server cannot read is lost on the way, and a text that PostgreSQL refuses gets
nowhere. -/
theorem commentCopies_eq (hs : Sound s) (henv : Online env) (hc : s.selectedChapter = some chapter)
    (huuid : chapter.uuid = Utf16.encode c) (hn : nodeAtPathOrNull chapter.root (Utf16.encode q) = some node)
    (hperm : Domain.canEdit (db.effectivePermissionOnChapter c sub.userID) = true) {row : Store.MoveRow}
    (hrow : db.moves.find? (c, q) = some row) :
    commentCopies cards env s db sub comment (Utf16.encode q) =
      if Char.ofNat 0 ∈ Utf16.decode (cutComment comment) then ⟨some (cutComment comment), some row.comment, none⟩
      else ⟨some (cutComment comment), some (Utf16.decode (cutComment comment)),
        some (Utf16.encode (Utf16.decode (cutComment comment)))⟩ := by
  have hlen := length_cutComment comment
  obtain ⟨hsent, hkept⟩ := setCommentAt_online comment hs henv hc hn
  have hkept' : ((s.setCommentAt env comment (Utf16.encode q)).selectedChapter.bind fun c =>
      (nodeAtPathOrNull c.root (Utf16.encode q)).map fun n => n.data.comment) = some (cutComment comment) := by
    have hmap := congrArg (Option.map fun n : TrainableNode Card => n.data.comment) hkept
    rw [TrainerState.selectedRoot, Option.bind_map, Option.map_bind] at hmap
    exact hmap
  have hhas : db.moves.has (c, q) = true := by rw [Table.has, hrow]; rfl
  simp only [commentCopies, hkept', hsent, List.getLast?_concat, huuid, Utf16.decode_encode, truncateComment_read hlen,
    dispatch_setComment_read hperm (rfl : (textFaults _).authz = false) hhas hlen]
  by_cases hnul : Char.ofNat 0 ∈ Utf16.decode (cutComment comment)
  · simp only [textFaults, hnul, decide_true, if_true, hrow, Option.map_some, broadcastComment]
  · have hstored : ((db.updateComment c q (Utf16.decode (cutComment comment))).moves.find? (c, q)).map
        Store.MoveRow.comment = some (Utf16.decode (cutComment comment)) := by
      rw [Store.Db.find?_updateComment, if_pos rfl, hrow]
      rfl
    simp only [textFaults, hnul, decide_false, Bool.false_eq_true, if_false, hstored, broadcastComment]

end Chessrepeat.Room
