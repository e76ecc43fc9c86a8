import Chessrepeat.Store.Chapters
import Chessrepeat.Store.Collaborators

/-!
# api/chapter.go

`POST /chapter`. Its body is what `encoding/json` decodes, `none` when it does not.
-/

namespace Chessrepeat.Api

open Lib Domain Store

/-- `owner` is the query parameter, empty when there is none. -/
structure ChapterRequest where
  userID : Text
  owner : Text
  body : Option ChapterEvent

/-- The status, and the owner whose room is told to fetch the repertoire again. -/
structure Response where
  status : Nat
  notify : Option Text
  deriving DecidableEq, Repr

/-- The repertoire the request is for: the one named in the query, else the caller's own. -/
def ChapterRequest.resolveOwner (db : Db) (req : ChapterRequest) : Option User :=
  if req.owner ≠ [] then db.fetchUserByUsername req.owner else db.fetchUser req.userID

/-- The answer to what `CreateChapter` has returned. -/
def created (faults : Faults) (db : Db) (ownerID : Text) : Except StoreError Db → Db × Response
  | .ok db' => if faults.store then (db, ⟨500, none⟩) else (db', ⟨201, some ownerID⟩)
  | .error .chapterMoveLimit => (db, ⟨413, none⟩)
  | .error .chapterLimit => (db, ⟨409, none⟩)
  | .error _ => (db, ⟨500, none⟩)

/-- `none` is a panic, which ends the request and leaves the database as it was. -/
def postChapter (faults : Faults) (db : Db) (req : ChapterRequest) : Option (Db × Response) :=
  if faults.lookup then some (db, ⟨500, none⟩)
  else match req.resolveOwner db with
    | none => some (db, ⟨404, none⟩)
    | some owner =>
        if faults.authz then some (db, ⟨500, none⟩)
        else if !canEdit (db.effectivePermissionOnRepertoire owner.tokenID req.userID) then some (db, ⟨403, none⟩)
        else match req.body with
          | none => some (db, ⟨400, none⟩)
          | some event =>
              (db.createChapter { event with ownerID := owner.tokenID }).map (created faults db owner.tokenID)

/-- The database after the request, whether or not it panicked. -/
def servePost (faults : Faults) (db : Db) (req : ChapterRequest) : Db :=
  match postChapter faults db req with
  | none => db
  | some (db', _) => db'

end Chessrepeat.Api
