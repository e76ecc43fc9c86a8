import Chessrepeat.Room.System

/-!
# What becomes of a comment

The text a client keeps, the text the database gets and the text the peers get.
-/

namespace Chessrepeat.Room

open Lib Client Ws

variable {Card : Type}

structure CommentCopies where
  kept : Option JsString
  stored : Option Domain.Text
  received : Option JsString
  deriving DecidableEq

def broadcastComment : Reaction (Wire Card) → Option JsString
  | .broadcast (.msg (.setComment _ _ t)) => some t
  | _ => none

/-- The copies after `setCommentAt(comment, path)`, once the server has dealt with the message. -/
def commentCopies (cards : CardCodec Card) (env : Env Card) (s : TrainerState Card) (db : Store.Db) (sub : Session)
    (comment path : JsString) : CommentCopies :=
  let s := s.setCommentAt env comment path
  let kept := s.selectedChapter.bind fun c => (nodeAtPathOrNull c.root path).map fun n => n.data.comment
  match s.sent.getLast? with
  | some (.setComment chapterId path t) =>
      let event := truncateComment ⟨Utf16.decode chapterId, Utf16.decode path, Utf16.decode t⟩
      let out := dispatch (codec cards) (textFaults event.comment) db sub (.msg (.setComment chapterId path t))
      ⟨kept, (out.1.moves.find? (event.chapterID, event.path)).map Store.MoveRow.comment, broadcastComment out.2⟩
  | _ => ⟨kept, none, none⟩

/-- They are one text. -/
def CommentCopies.OneText (copies : CommentCopies) : Prop :=
  ∃ text, copies = ⟨some (Utf16.encode text), some text, some (Utf16.encode text)⟩

end Chessrepeat.Room
