import Chessrepeat.Room.Backup

/-!
# A new chapter

`addNewChapter` of someone who is signed in, with all that may become of its request.
-/

namespace Chessrepeat.Room

open Lib Client Store

variable {Card : Type}

/-- `CanViewRepertoire`. -/
def canViewRepertoire (db : Db) (ownerID viewerID : Domain.Text) : Bool :=
  (db.effectivePermissionOnRepertoire ownerID viewerID).isSome

/-- `GET /repertoire`; `none` is any failure. -/
def getRepertoire (cards : CardCodec Card) (db : Db) (order : PathOrder) (userID owner : Domain.Text) :
    Option (List (RawChapter Card)) :=
  match Api.ChapterRequest.resolveOwner db ⟨userID, owner, none⟩ with
  | none => none
  | some user => if canViewRepertoire db user.tokenID userID then fetch cards db order user.tokenID else none

/-! ## One request -/

/-- What comes back to the client: the answer of the handler, or something else in its place, where `none` is a network
failure. -/
inductive Reply where
  | own
  | other (status : Option Nat)

def Reply.status (answer : Option Nat) : Reply → Option Nat
  | .own => answer
  | .other status => status

/-- `handler` is `none` if the request does not get to the handler. -/
structure Exchange where
  handler : Option Faults
  reply : Reply

/-- The database after the request, and the status that the client sees. A panic closes the connection. -/
def Exchange.send (x : Exchange) (db : Db) (req : Api.ChapterRequest) : Db × Option Nat :=
  match x.handler.bind fun faults => Api.postChapter faults db req with
  | none => (db, x.reply.status none)
  | some (db', r) => (db', x.reply.status (some r.status))

/-! ## The client -/

/-- An account with the repertoire it is at. All names come from the server. -/
structure Visit (Card : Type) extends Account Card where
  repertoireAuthor : Option Domain.Text

namespace Visit

variable (cards : CardCodec Card) (bodyBytes : RawChapter Card → Nat) (v : Visit Card) (x : Exchange) (env : Env Card)
  (order : PathOrder) (c : Chapter Card)

def setDb (db : Db) : Visit Card := { v with db }

/-- `fetchRepertoire` at an author. -/
def fetchRepertoire : Visit Card :=
  { v with store := v.store.fetchRepertoire env (getRepertoire cards v.db order v.userID (v.repertoireAuthor.getD [])) }

/-- There is no request without a username and an author. -/
def request : Option Api.ChapterRequest :=
  match v.repertoireAuthor with
  | none => none
  | some author =>
      if v.username = [] ∨ author = [] then none
      else some ⟨v.userID, author, if bodyBytes c.stored ≤ maxChapterBody then some (chapterEvent cards c.stored) else none⟩

/-- `postChapter` up to its response. -/
def send : Visit Card × Option Nat :=
  match v.request cards bodyBytes c with
  | none => (v, none)
  | some req => (v.setDb (x.send v.db req).1, (x.send v.db req).2)

/-- Any other status is only logged. -/
def postChapter : Visit Card :=
  match v.send cards bodyBytes x c with
  | (v, some 413) | (v, some 409) => v.fetchRepertoire cards env order
  | (v, _) => v

/-- The chapter is in the store before the request is sent. -/
def insert : Visit Card := { v with store := v.store.addNewChapterLocally c }

def addNewChapter : Visit Card := (v.insert c).postChapter cards bodyBytes x env order c

/-- The `fetchRepertoire` of `postChapter`, if there is one, succeeds. -/
def Fetched : Prop :=
  let out := v.send cards bodyBytes x c
  out.2 = some 413 ∨ out.2 = some 409 →
    (getRepertoire cards out.1.db order v.userID (v.repertoireAuthor.getD [])).isSome

end Visit

/-! ## The rollback -/

/-- The client has the chapter if and only if the server has it. -/
def Visit.Settled (v : Visit Card) (id : Domain.Text) : Prop :=
  (∃ d ∈ v.store.repertoire, d.uuid = Utf16.encode id) ↔ v.db.chapters.has id = true

/-- The handler gets to `CreateChapter`. -/
structure Admitted (faults : Faults) (db : Db) (req : Api.ChapterRequest) (owner : User) (event : Domain.ChapterEvent) : Prop where
  lookup : faults.lookup = false
  authz : faults.authz = false
  resolved : req.resolveOwner db = some owner
  canEdit : Domain.canEdit (db.effectivePermissionOnRepertoire owner.tokenID req.userID) = true
  body : req.body = some event

/-- The chapter is within both caps. -/
def Uncapped (db : Db) (ownerID : Domain.Text) (root : Domain.ChapterTreeNode) : Prop :=
  db.chapterCountByOwner ownerID < maxChaptersPerUser * db.ownerLimitMultiplier ownerID ∧
    ∀ moves ∈ flattenTree root, moves.moveCount ≤ maxMovesPerChapter * db.ownerLimitMultiplier ownerID

/-- A chapter within the caps gets to a handler that lets it through. -/
def Exchange.Accepted (x : Exchange) (db : Db) (req : Api.ChapterRequest) : Prop :=
  ∃ faults owner event, x.handler = some faults ∧ Admitted faults db req owner event ∧ Uncapped db owner.tokenID event.root ∧
    faults.store = false

/-- The client is told that the chapter exceeds a cap, by the handler or by someone else. -/
def Exchange.Capped (x : Exchange) (db : Db) (req : Api.ChapterRequest) : Prop :=
  match x.reply with
  | .own => ∃ faults owner event, x.handler = some faults ∧ Admitted faults db req owner event ∧
      ¬Uncapped db owner.tokenID event.root
  | .other status => status = some 413 ∨ status = some 409

end Chessrepeat.Room
