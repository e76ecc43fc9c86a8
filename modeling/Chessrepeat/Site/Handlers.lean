import Chessrepeat.Api.Chapter
import Chessrepeat.Api.Login
import Chessrepeat.Store.Creating
import Chessrepeat.Store.Reading
import Chessrepeat.Store.Sessions
import Chessrepeat.Ws.Statements

/-!
# The handlers

Every request of the backend one SQL statement at a time, from the cookie it comes with to its answer, so that the
requests of any number of clients run on one database in any order of their statements. Only what a login reads of the
chapters is read at once (`Chessrepeat.Api.Login`). What the rate limiters and the muxer turn away does not get here; who
hears of a write is the business of the rooms (`Chessrepeat.Ws.Server`).
-/

namespace Chessrepeat.Site

open Lib Domain Store Api Ws

variable {Raw : Type}

/-- The database with its sessions, and the wall clock. -/
structure World where
  db : Db
  sessions : Sessions
  now : Int

/-- What schema.sql leaves. -/
def World.fresh (now : Int) : World := ⟨Db.empty, Table.empty, now⟩

structure CollaboratorBody where
  username : Text
  permission : Text
  deriving DecidableEq, Repr

/-- What a request that needs a session is for. A body is `none` when it does not decode. -/
inductive Handler where
  | getRepertoire (owner : Text)
  | postChapter (owner : Text) (body : Option ChapterEvent)
  | getOutgoingCollaborators
  | getIncomingCollaborators
  | addCollaborator (body : Option CollaboratorBody)
  | removeCollaborator (username : Text)

/-- `minted` is what `NewSessionID` would return, `msgs` what a subscriber sends. -/
inductive Request (Raw : Type) where
  | login (req : LoginRequest) (minted : Option Text)
  | checkUsername (username : Text)
  | logout (method : Text) (cookie : Option Text)
  | handle (cookie : Option Text) (h : Handler)
  | subscribe (cookie : Option Text) (username : Text) (msgs : List Raw)
  /-- Nobody's request: the clock is read later, or set. -/
  | elapse (d : Int)

inductive Reply where
  | error (status : Nat) (message : String)
  | available (available : Bool) (reason : String)
  | loggedOut
  | repertoire (owner : User) (chapters : List ChapterTreeResponse)
  | posted (resp : Response)
  | collaborators (views : List CollaboratorView)
  | collaboratorAdded (view : CollaboratorView)
  | collaboratorRemoved
  | closed
  | panicked

inductive RepertoireOp where
  | get
  | post (body : Option ChapterEvent)

/-- The statement a request makes next, with what it remembers of the earlier ones, or what it has answered and for which
session. The cookies a login has `set` are sent whatever happens afterwards. -/
inductive Stage (Raw : Type) where
  | login (minted : Option Text) (stage : Login) (set : Option SessionRow)
  | checkUsername (candidate : Text)
  | deleteSession (cookie : Text)
  | requireSession (cookie : Text) (h : Handler)
  | fetchOwner (sess : SessionRow) (owner : Text) (op : RepertoireOp)
  | fetchPermission (sess : SessionRow) (owner : User) (op : RepertoireOp)
  | fetchChapters (sess : SessionRow) (owner : User)
  | loadMoves (sess : SessionRow) (owner : User) (rows : List ChapterRow)
  | loadCards (sess : SessionRow) (owner : User) (read : List (ChapterRow × PathMap))
  | createChapter (sess : SessionRow) (owner : User) (event : ChapterEvent) (proc : CreateProc)
  | fetchOutgoing (sess : SessionRow)
  | fetchIncoming (sess : SessionRow)
  | fetchTarget (sess : SessionRow) (username : Text) (change : Option Grant)
  | addCollaborator (sess : SessionRow) (target : User) (permission : Grant)
  | removeCollaborator (sess : SessionRow) (target : User)
  | fetchRoomOwner (cookie : Option Text) (username : Text) (msgs : List Raw)
  | fetchSession (cookie : Text) (owner : User) (msgs : List Raw)
  | fetchSubscriber (sess : SessionRow) (owner : User) (msgs : List Raw)
  | fetchRoomPermission (sess : SessionRow) (owner user : User) (msgs : List Raw)
  | connected (sess : SessionRow) (owner : User) (sub : Session) (msgs : List Raw)
  | writing (sess : SessionRow) (owner : User) (sub : Session) (msgs : List Raw) (stmt : Statement)
  | elapse (d : Int)
  | answered (sess : Option SessionRow) (reply : Reply)

def Request.start : Request Raw → Stage Raw
  | .login req minted => .login minted (Login.start req) none
  | .checkUsername username =>
      if isValidUsername (toLower (trimSpace username)) then .checkUsername (toLower (trimSpace username))
      else .answered none (.available false "invalid")
  | .logout method cookie =>
      if method ≠ "POST".toList then .answered none (.error 405 "")
      else match cookie with
        | none => .answered none .loggedOut
        | some cookie => .deleteSession cookie
  | .handle none _ => .answered none (.error 401 "")
  | .handle (some cookie) h => .requireSession cookie h
  | .subscribe cookie username msgs =>
      if username = [] then .answered none (.error 400 "missing username") else .fetchRoomOwner cookie username msgs
  | .elapse d => .elapse d

/-- The two permissions a body may ask for. -/
def parseGrant (permission : Text) : Option Grant :=
  if permission = "edit".toList then some .edit
  else if permission = "train".toList then some .train
  else none

/-- What a handler does once `RequireSession` has returned the session. -/
def Handler.proceed (sess : SessionRow) : Handler → Stage Raw
  | .getRepertoire owner => .fetchOwner sess owner .get
  | .postChapter owner body => .fetchOwner sess owner (.post body)
  | .getOutgoingCollaborators => .fetchOutgoing sess
  | .getIncomingCollaborators => .fetchIncoming sess
  | .addCollaborator none => .answered (some sess) (.error 400 "missing username")
  | .addCollaborator (some body) =>
      if body.username = [] then .answered (some sess) (.error 400 "missing username")
      else match parseGrant body.permission with
        | none => .answered (some sess) (.error 400 "permission must be 'edit' or 'train'")
        | some permission => .fetchTarget sess body.username (some permission)
  | .removeCollaborator username =>
      if username = [] then .answered (some sess) (.error 400 "") else .fetchTarget sess username none

/-- Reading is for everyone with a permission, creating a chapter for those who may edit. -/
def RepertoireOp.proceed (sess : SessionRow) (owner : User) (perm : Option Permission) : RepertoireOp → Stage Raw
  | .get => if perm.isSome then .fetchChapters sess owner else .answered (some sess) (.error 403 "")
  | .post body =>
      if canEdit perm then match body with
        | none => .answered (some sess) (.error 400 "invalid chapter payload")
        | some event => .createChapter sess owner { event with ownerID := owner.tokenID } .ownerMultiplier
      else .answered (some sess) (.error 403 "")

/-- What follows a statement of `CreateChapter`. -/
def Stage.posted (sess : SessionRow) (owner : User) (event : ChapterEvent) (db : Db) : CreateProc → Stage Raw
  | .panicked => .answered (some sess) .panicked
  | .returned r => .answered (some sess) (.posted (created Faults.none db owner.tokenID (r.map fun _ => db)).2)
  | proc => .createChapter sess owner event proc

/-- The reader takes the next message when the method of the store has returned. -/
def Stage.written (sess : SessionRow) (owner : User) (sub : Session) (msgs : List Raw) (stmt : Statement) : Stage Raw :=
  if stmt.over then .connected sess owner sub msgs else .writing sess owner sub msgs stmt

/-- A call of the store on behalf of a login; the session is the one call that is not about the user's row. -/
def execLogin (parse : Text → Option Url) (order : PathOrder) (w : World) (minted : Option Text) (stage : Login)
    (set : Option SessionRow) : Stage Raw × World :=
  match stage with
  | .createSession user => match minted.bind fun id => w.sessions.createSession w.db w.now id user.tokenID with
    | none => (.login minted (.answered (.error 500 "")) set, w)
    | some (sess, sessions) => (.login minted (.fetchChaptersByOwner user) (some sess), { w with sessions := sessions })
  | stage => (.login minted (stage.exec parse order w.db).1 set, { w with db := (stage.exec parse order w.db).2 })

def Stage.exec (json : Codec Raw) (parse : Text → Option Url) (order : PathOrder) (w : World) :
    Stage Raw → Stage Raw × World
  | .login minted stage set => execLogin parse order w minted stage set
  | .checkUsername candidate =>
      (.answered none (if (w.db.fetchUserByUsername candidate).isNone then .available true "" else .available false "taken"), w)
  | .deleteSession cookie => (.answered none .loggedOut, { w with sessions := w.sessions.deleteSession cookie })
  | .requireSession cookie h => match w.sessions.fetchSession w.now cookie with
    | none => (.answered none (.error 401 ""), w)
    | some sess => (h.proceed sess, w)
  | .fetchOwner sess owner op =>
      match if owner ≠ [] then w.db.fetchUserByUsername owner else w.db.fetchUser sess.userId with
      | none => (.answered (some sess) (.error 404 ""), w)
      | some owner => (.fetchPermission sess owner op, w)
  | .fetchPermission sess owner op =>
      (op.proceed sess owner (w.db.effectivePermissionOnRepertoire owner.tokenID sess.userId), w)
  | .fetchChapters sess owner =>
      (if w.db.chaptersByOwner owner.tokenID = [] then .answered (some sess) (.repertoire owner [])
        else .loadMoves sess owner (w.db.chaptersByOwner owner.tokenID), w)
  | .loadMoves sess owner rows => (.loadCards sess owner (w.db.withMoves rows), w)
  | .loadCards sess owner read => match w.db.withCards order read with
    | none => (.answered (some sess) .panicked, w)
    | some chapters => (.answered (some sess) (.repertoire owner chapters), w)
  | .createChapter sess owner event proc =>
      (Stage.posted sess owner event w.db (proc.exec event w.db).1, { w with db := (proc.exec event w.db).2 })
  | .fetchOutgoing sess => (.answered (some sess) (.collaborators (w.db.fetchOutgoingCollaborators sess.userId)), w)
  | .fetchIncoming sess => (.answered (some sess) (.collaborators (w.db.fetchIncomingCollaborators sess.userId)), w)
  | .fetchTarget sess username change => match w.db.fetchUserByUsername username with
    | none => (.answered (some sess) (.error 404 (if change.isSome then "user not found" else "")), w)
    | some target => match change with
      | none => (.removeCollaborator sess target, w)
      | some permission =>
          if target.tokenID = sess.userId then (.answered (some sess) (.error 400 "cannot add yourself"), w)
          else (.addCollaborator sess target permission, w)
  | .addCollaborator sess target permission =>
      match w.db.addCollaborator sess.userId target.tokenID permission with
      | none => (.answered (some sess) (.error 500 ""), w)
      | some db =>
          (.answered (some sess) (.collaboratorAdded ⟨target.username, target.picture, permission⟩), { w with db := db })
  | .removeCollaborator sess target =>
      (.answered (some sess) .collaboratorRemoved, { w with db := w.db.removeCollaborator sess.userId target.tokenID })
  | .fetchRoomOwner cookie username msgs => match w.db.fetchUserByUsername username with
    | none => (.answered none (.error 404 "user not found"), w)
    | some owner => match cookie with
      | none => (.answered none (.error 401 "missing session"), w)
      | some cookie => (.fetchSession cookie owner msgs, w)
  | .fetchSession cookie owner msgs => match w.sessions.fetchSession w.now cookie with
    | none => (.answered none (.error 401 "invalid or expired session"), w)
    | some sess => (.fetchSubscriber sess owner msgs, w)
  | .fetchSubscriber sess owner msgs => match w.db.fetchUser sess.userId with
    | none => (.answered (some sess) (.error 401 "user not found"), w)
    | some user => (.fetchRoomPermission sess owner user msgs, w)
  | .fetchRoomPermission sess owner user msgs =>
      match w.db.effectivePermissionOnRepertoire owner.tokenID sess.userId with
      | none => (.answered (some sess) (.error 403 "forbidden"), w)
      | some perm => (.connected sess owner ⟨sess.userId, user.username, user.picture, perm⟩ msgs, w)
  | .connected sess _ _ [] => (.answered (some sess) .closed, w)
  | .connected sess owner sub (raw :: msgs) => match mutation json sub raw with
    | none => (.connected sess owner sub msgs, w)
    | some m =>
        (if authorizeChapter Faults.none w.db sub m.chapterID m.requireEdit then .writing sess owner sub msgs m.start
          else .connected sess owner sub msgs, w)
  | .writing sess owner sub msgs stmt =>
      (Stage.written sess owner sub msgs (stmt.exec w.db).1, { w with db := (stmt.exec w.db).2 })
  | .elapse d => (.answered none .closed, { w with now := w.now + d })
  | .answered sess reply => (.answered sess reply, w)

/-- A statement that fails. A logout only logs it, and a subscriber's message is dropped. -/
def Stage.fail : Stage Raw → Stage Raw
  | .login minted stage set => .login minted stage.fail set
  | .checkUsername _ => .answered none (.error 500 "")
  | .deleteSession _ => .answered none .loggedOut
  | .requireSession .. => .answered none (.error 401 "")
  | .fetchOwner sess .. | .fetchPermission sess .. | .fetchChapters sess _ | .loadMoves sess .. | .loadCards sess ..
  | .createChapter sess .. | .fetchOutgoing sess | .fetchIncoming sess | .fetchTarget sess .. | .addCollaborator sess ..
  | .removeCollaborator sess _ => .answered (some sess) (.error 500 "")
  | .fetchRoomOwner .. => .answered none (.error 500 "user lookup failed")
  | .fetchSession .. => .answered none (.error 500 "session lookup failed")
  | .fetchSubscriber sess .. => .answered (some sess) (.error 500 "user lookup failed")
  | .fetchRoomPermission sess .. => .answered (some sess) (.error 500 "view auth check failed")
  | .connected sess owner sub msgs => .connected sess owner sub msgs.tail
  | .writing sess owner sub msgs _ => .connected sess owner sub msgs
  | .elapse d => .elapse d
  | .answered sess reply => .answered sess reply

/-- Any number of requests on one database. -/
def requests (json : Codec Raw) (parse : Text → Option Url) (order : PathOrder) : Protocol World (Stage Raw) (Request Raw) :=
  ⟨Request.start, Stage.exec json parse order, Stage.fail⟩

end Chessrepeat.Site
