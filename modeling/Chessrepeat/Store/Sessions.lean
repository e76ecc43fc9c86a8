import Chessrepeat.Auth.Certs
import Chessrepeat.Store.Collaborators

/-!
# store/sessions.go and the grants of store/collaborators.go

Who is signed in, and what the owners of repertoires let others do. A reading of the clock is a number of
nanoseconds.
-/

namespace Chessrepeat.Store

open Lib Domain

structure SessionRow where
  sessionId : Text
  userId : Text
  createdAt : Int
  expiresAt : Int
  deriving DecidableEq, Repr

abbrev Sessions := Table SessionRow.sessionId

def sessionLifetime : Int := 30 * 24 * Auth.hour

/-- `none` when the id is taken or there is no such user. -/
def Sessions.createSession (sessions : Sessions) (db : Db) (now : Int) (id userID : Text) : Option (SessionRow × Sessions) :=
  let sess : SessionRow := ⟨id, userID, now, now + sessionLifetime⟩
  if db.users.table.has userID then (sessions.insert? sess).map fun sessions' => (sess, sessions') else none

/-- A session that has expired reads as one that does not exist. -/
def Sessions.fetchSession (sessions : Sessions) (now : Int) (sessionID : Text) : Option SessionRow :=
  (sessions.find? sessionID).filter fun sess => !(sess.expiresAt < now)

def Sessions.deleteSession (sessions : Sessions) (sessionID : Text) : Sessions :=
  sessions.deleteWhere fun sess => sess.sessionId = sessionID

/-! ## Grants -/

structure CollaboratorView where
  username : Text
  picture : Text
  permission : Grant
  deriving DecidableEq, Repr

/-- `none` when one of the two is not a user. -/
def Db.addCollaborator (db : Db) (ownerID collaboratorID : Text) (permission : Grant) : Option Db :=
  if db.users.table.has ownerID && db.users.table.has collaboratorID then
    some { db with collaborators := db.collaborators.upsert ⟨ownerID, collaboratorID, permission⟩ }
  else none

def Db.removeCollaborator (db : Db) (ownerID collaboratorID : Text) : Db :=
  { db with collaborators := db.collaborators.deleteWhere fun c => c.ownerId = ownerID ∧ c.collaboratorId = collaboratorID }

/-- The join with the users who have a name. -/
def Db.collaboratorView (db : Db) (userID : Text) (permission : Grant) : Option CollaboratorView :=
  (db.users.table.find? userID).bind fun u => u.username.map fun username => ⟨username, u.picture, permission⟩

def Db.fetchOutgoingCollaborators (db : Db) (ownerID : Text) : List CollaboratorView :=
  (db.collaborators.rows.filter fun c => c.ownerId = ownerID).filterMap fun c =>
    db.collaboratorView c.collaboratorId c.permission

def Db.fetchIncomingCollaborators (db : Db) (userID : Text) : List CollaboratorView :=
  (db.collaborators.rows.filter fun c => c.collaboratorId = userID).filterMap fun c =>
    db.collaboratorView c.ownerId c.permission

def Db.canViewRepertoire (db : Db) (ownerID viewerID : Text) : Bool :=
  (db.effectivePermissionOnRepertoire ownerID viewerID).isSome

/-! ## Reading them back -/

variable {sessions sessions' : Sessions} {db db' : Db} {now : Int} {id userID ownerID collaboratorID : Text}
  {sess row : SessionRow} {permission : Grant}

theorem Sessions.fetchSession_eq_some :
    sessions.fetchSession now id = some sess ↔ sessions.find? id = some sess ∧ now ≤ sess.expiresAt := by
  simp [Sessions.fetchSession, Option.filter_eq_some_iff]

theorem Sessions.createSession_eq_some :
    sessions.createSession db now id userID = some (sess, sessions') ↔
      db.users.table.has userID ∧ sess = ⟨id, userID, now, now + sessionLifetime⟩ ∧ sessions.find? id = none ∧
        sessions' = sessions.upsert sess := by
  unfold Sessions.createSession
  dsimp only
  by_cases hu : db.users.table.has userID
  · rw [if_pos hu, Option.map_eq_some_iff]
    constructor
    · rintro ⟨u, hins, he⟩
      obtain ⟨rfl, rfl⟩ := Prod.mk.inj he
      exact ⟨hu, rfl, Table.insert?_eq_some.mp hins⟩
    · rintro ⟨-, rfl, hnone, rfl⟩
      exact ⟨_, Table.insert?_eq_some.mpr ⟨hnone, rfl⟩, rfl⟩
  · rw [if_neg hu]
    exact iff_of_false nofun fun h => hu h.1

theorem Sessions.find?_deleteSession (id' : Text) :
    (sessions.deleteSession id).find? id' = if id = id' then none else sessions.find? id' :=
  Table.find?_deleteKey (fun _ => decide_eq_true_iff) id'

theorem Db.find?_addCollaborator (h : db.addCollaborator ownerID collaboratorID permission = some db') (k : Text × Text) :
    db'.collaborators.find? k =
      if (ownerID, collaboratorID) = k then some ⟨ownerID, collaboratorID, permission⟩ else db.collaborators.find? k := by
  unfold Db.addCollaborator at h
  split at h
  · obtain rfl := Option.some.inj h
    exact Table.find?_upsert
  · cases h

theorem Db.find?_removeCollaborator (k : Text × Text) :
    (db.removeCollaborator ownerID collaboratorID).collaborators.find? k =
      if (ownerID, collaboratorID) = k then none else db.collaborators.find? k :=
  Table.find?_deleteKey (fun _ => by rw [decide_eq_true_iff, CollaboratorRow.key, Prod.mk.injEq]) k

theorem Db.collaboratorView_eq_some {v : CollaboratorView} : db.collaboratorView userID permission = some v ↔
    ∃ u ∈ db.users.table.rows, u.tokenId = userID ∧ u.username = some v.username ∧ u.picture = v.picture ∧
      permission = v.permission := by
  simp only [Db.collaboratorView, Option.bind_eq_some_iff, Option.map_eq_some_iff, Table.find?_eq_some]
  constructor
  · rintro ⟨u, ⟨hu, hid⟩, name, hname, rfl⟩
    exact ⟨u, hu, hid, hname, rfl, rfl⟩
  · rintro ⟨u, hu, hid, hname, hpic, hperm⟩
    exact ⟨u, ⟨hu, hid⟩, v.username, hname, by rw [hpic, hperm]⟩

/-- The row of a grant says what the grant is. -/
theorem CollaboratorRow.mem_iff {c : CollaboratorRow} : c ∈ db.collaborators.rows ↔
    db.collaborators.find? (c.ownerId, c.collaboratorId) = some ⟨c.ownerId, c.collaboratorId, c.permission⟩ := by
  rw [Table.find?_eq_some]
  exact (and_iff_left rfl).symm

theorem Db.mem_fetchOutgoing_iff {v : CollaboratorView} : v ∈ db.fetchOutgoingCollaborators ownerID ↔
    ∃ u ∈ db.users.table.rows, u.username = some v.username ∧ u.picture = v.picture ∧
      db.collaborators.find? (ownerID, u.tokenId) = some ⟨ownerID, u.tokenId, v.permission⟩ := by
  simp only [Db.fetchOutgoingCollaborators, List.mem_filterMap, List.mem_filter, decide_eq_true_eq, CollaboratorRow.mem_iff,
    Db.collaboratorView_eq_some]
  constructor
  · rintro ⟨c, ⟨hc, rfl⟩, u, hu, hid, hname, hpic, hperm⟩
    exact ⟨u, hu, hname, hpic, by rw [hid, ← hperm]; exact hc⟩
  · rintro ⟨u, hu, hname, hpic, hc⟩
    exact ⟨⟨ownerID, u.tokenId, v.permission⟩, ⟨hc, rfl⟩, u, hu, rfl, hname, hpic, rfl⟩

theorem Db.mem_fetchIncoming_iff {v : CollaboratorView} : v ∈ db.fetchIncomingCollaborators userID ↔
    ∃ u ∈ db.users.table.rows, u.username = some v.username ∧ u.picture = v.picture ∧
      db.collaborators.find? (u.tokenId, userID) = some ⟨u.tokenId, userID, v.permission⟩ := by
  simp only [Db.fetchIncomingCollaborators, List.mem_filterMap, List.mem_filter, decide_eq_true_eq, CollaboratorRow.mem_iff,
    Db.collaboratorView_eq_some]
  constructor
  · rintro ⟨c, ⟨hc, rfl⟩, u, hu, hid, hname, hpic, hperm⟩
    exact ⟨u, hu, hname, hpic, by rw [hid, ← hperm]; exact hc⟩
  · rintro ⟨u, hu, hname, hpic, hc⟩
    exact ⟨⟨u.tokenId, userID, v.permission⟩, ⟨hc, rfl⟩, u, hu, rfl, hname, hpic, rfl⟩

end Chessrepeat.Store
