import Chessrepeat.Api.Chapter
import Chessrepeat.Lib.Run
import Chessrepeat.Ws.Dispatch

/-!
# The requests that write, one after the other
-/

namespace Chessrepeat.Api

open Lib Domain Store Ws

variable {Raw : Type}

inductive Request (Raw : Type) where
  | message (faults : Faults) (sub : Session) (raw : Raw)
  | postChapter (faults : Faults) (req : ChapterRequest)

/-- `panicked` records that some request has panicked. -/
structure Backend where
  db : Db
  panicked : Bool

def Backend.step (json : Codec Raw) (w : Backend) : Request Raw → Backend
  | .message faults sub raw => { w with db := (dispatch json faults w.db sub raw).1 }
  | .postChapter faults req => match postChapter faults w.db req with
    | none => { w with panicked := true }
    | some (db', _) => { w with db := db' }

/-- Nothing has panicked, and the chapters of every owner and every single chapter can be rebuilt. -/
def NoPanic (order : PathOrder) (w : Backend) : Prop :=
  w.panicked = false ∧ (∀ ownerID, (w.db.fetchChaptersByOwner order ownerID).isSome) ∧
    ∀ id, (w.db.readChapterAsTree order id).isSome

/-- Users and grants, and no chapters yet. -/
def Backend.fresh (users : Users) (collaborators : Table CollaboratorRow.key) : Backend :=
  ⟨⟨users, collaborators, Table.empty, Table.empty, Table.empty⟩, false⟩

end Chessrepeat.Api
