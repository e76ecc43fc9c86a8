import Chessrepeat.Lib.Past
import Chessrepeat.Site.Handlers

/-!
# On whose authority

What the history of a run says of the sessions and grants that are in force, and what a request that has got somewhere
must have met on its way.
-/

namespace Chessrepeat.Site

open Lib Domain Store Api Ws

variable {Raw : Type}

/-! ## Accesses -/

/-- The access makes this session. -/
def SignsIn (sess : SessionRow) (w : World) : Stage Raw → Prop
  | .login minted (.createSession user) _ => minted = some sess.sessionId ∧ user.tokenID = sess.userId ∧
      sess.createdAt = w.now ∧ sess.expiresAt = w.now + sessionLifetime ∧ w.sessions.find? sess.sessionId = none
  | _ => False

/-- The access ends the session with this id, if there is one. -/
def SignsOut (sessionID : Text) (_ : World) : Stage Raw → Prop
  | .deleteSession cookie => cookie = sessionID
  | _ => False

/-- The access gives the user this permission on the owner's repertoire. -/
def Gives (ownerID userID : Text) (permission : Grant) (_ : World) : Stage Raw → Prop
  | .addCollaborator sess target perm => sess.userId = ownerID ∧ target.tokenID = userID ∧ perm = permission
  | _ => False

/-- The access sets or withdraws the permission the user has on the owner's repertoire. -/
def Decides (ownerID userID : Text) (_ : World) : Stage Raw → Prop
  | .addCollaborator sess target _ | .removeCollaborator sess target => sess.userId = ownerID ∧ target.tokenID = userID
  | _ => False

/-- The session a stage acts for; of a login, the one it has made. -/
def Stage.session? : Stage Raw → Option SessionRow
  | .login _ _ set => set
  | .fetchOwner sess .. | .fetchPermission sess .. | .fetchChapters sess _ | .loadMoves sess .. | .loadCards sess ..
  | .createChapter sess .. | .fetchOutgoing sess | .fetchIncoming sess | .fetchTarget sess .. | .addCollaborator sess ..
  | .removeCollaborator sess _ | .fetchSubscriber sess .. | .fetchRoomPermission sess .. | .connected sess ..
  | .writing sess .. => some sess
  | .answered sess _ => sess
  | .checkUsername _ | .deleteSession _ | .requireSession .. | .fetchRoomOwner .. | .fetchSession .. | .elapse _ => none

/-! ## Histories -/

section Histories

variable (json : Codec Raw) (parse : Text → Option Url) (order : PathOrder) (now : Int)

/-- All requests after these turns, from an empty database on. -/
def after (ts : List (Turn (Request Raw))) : Flight World (Stage Raw) :=
  run (requests json parse order).step ⟨World.fresh now, []⟩ ts

/-- The last turn is an access that meets `c`. -/
def Did (c : World → Stage Raw → Prop) (ts : List (Turn (Request Raw))) : Prop :=
  Just (requests json parse order).step ⟨World.fresh now, []⟩ (Protocol.Does c) ts

/-- A login has made the session, no logout has come with its id since, and its time has not run out. -/
def Live (sess : SessionRow) (ts : List (Turn (Request Raw))) : Prop :=
  Since (Did json parse order now (SignsIn sess)) (fun us => ¬ Did json parse order now (SignsOut sess.sessionId) us) ts ∧
    (after json parse order now ts).shared.now ≤ sess.expiresAt

/-- The owner has given the user this permission, and has neither changed nor withdrawn it since. -/
def Granted (ownerID userID : Text) (permission : Grant) (ts : List (Turn (Request Raw))) : Prop :=
  Since (Did json parse order now (Gives ownerID userID permission))
    (fun us => ¬ Did json parse order now (Decides ownerID userID) us) ts

def MayView (ownerID userID : Text) (ts : List (Turn (Request Raw))) : Prop :=
  ownerID = userID ∨ ∃ permission, Granted json parse order now ownerID userID permission ts

def MayEdit (ownerID userID : Text) (ts : List (Turn (Request Raw))) : Prop :=
  ownerID = userID ∨ Granted json parse order now ownerID userID .edit ts

/-- At some moment the session was in force, and at a later one its user was allowed to see the repertoire. -/
def AdmittedToView (sess : SessionRow) (ownerID : Text) : List (Turn (Request Raw)) → Prop :=
  Once fun us => Once (Live json parse order now sess) us ∧ MayView json parse order now ownerID sess.userId us

/-- The same, with the permission to edit it. -/
def AdmittedToEdit (sess : SessionRow) (ownerID : Text) : List (Turn (Request Raw)) → Prop :=
  Once fun us => Once (Live json parse order now sess) us ∧ MayEdit json parse order now ownerID sess.userId us

/-- The chapters are put together from what was there at three moments, the first of them after the session was
admitted. -/
structure Shown (sess : SessionRow) (ownerID : Text) (chapters : List ChapterTreeResponse)
    (rows moves cards ts : List (Turn (Request Raw))) : Prop where
  admitted : AdmittedToView json parse order now sess ownerID rows
  rowsFirst : rows <+: moves
  cardsLast : moves <+: cards
  before : cards <+: ts
  found : (after json parse order now cards).shared.db.withCards order ((after json parse order now moves).shared.db.withMoves
    ((after json parse order now rows).shared.db.chaptersByOwner ownerID)) = some chapters

/-- The next turn of `i` is the gate of a message about the chapter. -/
def Takes (i : Nat) (sess : SessionRow) (chapterID : Text) (ts : List (Turn (Request Raw))) : Prop :=
  ∃ owner sub raw msgs m, (after json parse order now ts).procs[i]? = some (.connected sess owner sub (raw :: msgs)) ∧
    mutation json sub raw = some m ∧ m.chapterID = chapterID

/-- `i` is past the gate of a message. -/
def Working (i : Nat) (ts : List (Turn (Request Raw))) : Prop :=
  ∃ sess owner sub msgs stmt, (after json parse order now ts).procs[i]? = some (.writing sess owner sub msgs stmt)

/-- When `i` took up the message it is at work on, the session had been in force, the chapter was there, and the session's
user was allowed to do with its repertoire what `may` says. -/
def Cleared (may : Text → Text → List (Turn (Request Raw)) → Prop) (i : Nat) (sess : SessionRow) (chapterID : Text) :
    List (Turn (Request Raw)) → Prop :=
  Since (fun us => Takes json parse order now i sess chapterID us ∧ Once (Live json parse order now sess) us ∧
    ∃ c, (after json parse order now us).shared.db.chapters.find? chapterID = some c ∧ may c.ownerId sess.userId us)
    (Working json parse order now i)

/-- The last turn is an access for a session cleared to edit the chapter, or admitted to edit the repertoire in which the
access has put it. -/
def EditedBy (ts : List (Turn (Request Raw))) (t : Turn (Request Raw)) (chapterID : Text) : Prop :=
  ∃ i p sess, t = .exec i ∧ (after json parse order now ts).procs[i]? = some p ∧ p.session? = some sess ∧
    (Cleared json parse order now (MayEdit json parse order now) i sess chapterID ts ∨
      ∃ c, (after json parse order now ts).shared.db.chapters.find? chapterID = none ∧
        (after json parse order now (ts ++ [t])).shared.db.chapters.find? chapterID = some c ∧
        AdmittedToEdit json parse order now sess c.ownerId ts)

/-- The last turn is an access for a session cleared to view the chapter, and the name is one its user has had. -/
def TrainedBy (ts : List (Turn (Request Raw))) (t : Turn (Request Raw)) (chapterID username : Text) : Prop :=
  ∃ i p sess, t = .exec i ∧ (after json parse order now ts).procs[i]? = some p ∧ p.session? = some sess ∧
    Cleared json parse order now (MayView json parse order now) i sess chapterID ts ∧
    Once (fun us => ∃ user, (after json parse order now us).shared.db.fetchUser sess.userId = some user ∧
      user.username = username) ts

end Histories

/-- Somebody has come with a verified identity token of the user. -/
def Verified (uid : Text) (ts : List (Turn (Request Raw))) : Prop :=
  ∃ req minted claims, .call (.login req minted) ∈ ts ∧ req.claims = some claims ∧ claims.uid = uid

end Chessrepeat.Site
