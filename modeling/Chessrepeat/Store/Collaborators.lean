import Chessrepeat.Store.Schema

/-!
# store/collaborators.go and store/users.go

Who a request comes from and what it may do.
-/

namespace Chessrepeat.Store

open Lib Domain

structure User where
  tokenID : Text
  username : Text
  picture : Text
  deriving DecidableEq, Repr

/-- A missing username reads as the empty string. -/
def UserRow.user (u : UserRow) : User := ⟨u.tokenId, u.username.getD [], u.picture⟩

def Db.fetchUser (db : Db) (tokenID : Text) : Option User := (db.users.table.find? tokenID).map UserRow.user

def Db.fetchUserByUsername (db : Db) (username : Text) : Option User :=
  (db.users.table.rows.find? fun u => u.username = some username).map UserRow.user

/-- `limit_multiplier` is left as it is, `DEFAULT 1` in a new row. -/
def Users.row (us : Users) (user : User) : UserRow :=
  ⟨user.tokenID, if user.username = [] then none else some user.username, user.picture,
    ((us.table.find? user.tokenID).map UserRow.limitMultiplier).getD 1⟩

/-- `none` when the username is the one of another user. -/
def Db.upsertUser (db : Db) (user : User) : Option Db :=
  let table := db.users.table.upsert (db.users.row user)
  if h : (table.rows.filterMap UserRow.username).Nodup then some { db with users := ⟨table, h⟩ } else none

/-- The row that is found is the one with the username. -/
theorem Db.fetchUserByUsername_of_mem {db : Db} {u : UserRow} {username : Text} (hu : u ∈ db.users.table.rows)
    (hname : u.username = some username) : db.fetchUserByUsername username = some u.user := by
  rw [Db.fetchUserByUsername]
  cases hf : db.users.table.rows.find? fun u => u.username = some username with
  | none => exact absurd (decide_eq_true hname) (List.find?_eq_none.mp hf u hu)
  | some v =>
      have hv : v.username = some username := by simpa using List.find?_some hf
      rw [Users.eq_of_username (List.mem_of_find?_eq_some hf) hu hv hname]
      rfl

theorem Db.tokenID_of_fetchUser {db : Db} {tokenID : Text} {user : User} (h : db.fetchUser tokenID = some user) :
    user.tokenID = tokenID := by
  obtain ⟨u, hu, rfl⟩ := Option.map_eq_some_iff.mp h
  exact (Table.find?_eq_some.mp hu).2

/-- What is written is what is read. -/
theorem Users.user_row (us : Users) (user : User) : (us.row user).user = user := by
  obtain ⟨tokenID, username, picture⟩ := user
  cases username with
  | nil => rfl
  | cons c cs => rfl

/-- An upsert is seen by those who read its user, and by nobody else. -/
theorem Db.fetchUser_upsertUser {db db' : Db} {user : User} (h : db.upsertUser user = some db') (tokenID : Text) :
    db'.fetchUser tokenID = if user.tokenID = tokenID then some user else db.fetchUser tokenID := by
  simp only [Db.upsertUser] at h
  split at h
  · cases h
    rw [Db.fetchUser, Table.find?_upsert]
    change Option.map UserRow.user (if user.tokenID = tokenID then _ else _) = _
    split
    · rw [Option.map_some, Users.user_row]
    · rfl
  · cases h

def Db.effectivePermissionOnRepertoire (db : Db) (ownerID userID : Text) : Option Permission :=
  if ownerID = userID then some .owner
  else (db.collaborators.find? (ownerID, userID)).map fun r => r.permission.permission

/-- `none` for a chapter that does not exist, too. -/
def Db.effectivePermissionOnChapter (db : Db) (chapterID userID : Text) : Option Permission :=
  match db.chapters.find? chapterID with
  | none => none
  | some c =>
      let perm := db.collaborators.find? (c.ownerId, userID)
      if c.ownerId = userID then some .owner else perm.map fun r => r.permission.permission

/-- Which database calls of a request fail below the store: a timeout, a lost connection, a value PostgreSQL
refuses (a NUL in a text, a number out of the range of its column). -/
structure Faults where
  lookup : Bool
  authz : Bool
  store : Bool
  deriving DecidableEq, Repr

def Faults.none : Faults := ⟨false, false, false⟩

/-! ## The gates agree -/

/-- The gate of a message is the gate of the repertoire its chapter is in. -/
theorem Db.permissionOnChapter_eq {db : Db} {chapterID userID : Text} {c : ChapterRow}
    (h : db.chapters.find? chapterID = some c) :
    db.effectivePermissionOnChapter chapterID userID = db.effectivePermissionOnRepertoire c.ownerId userID := by
  simp only [Db.effectivePermissionOnChapter, h, Db.effectivePermissionOnRepertoire]

theorem Db.exists_chapter_of_permission {db : Db} {chapterID userID : Text} {perm : Permission}
    (h : db.effectivePermissionOnChapter chapterID userID = some perm) :
    ∃ c, db.chapters.find? chapterID = some c ∧
      db.effectivePermissionOnRepertoire c.ownerId userID = some perm := by
  cases hc : db.chapters.find? chapterID with
  | none => simp only [Db.effectivePermissionOnChapter, hc] at h; cases h
  | some c => exact ⟨c, rfl, by rwa [Db.permissionOnChapter_eq hc] at h⟩

/-- Edit class: the owner, or someone the owner granted `edit`. -/
theorem Db.canEdit_iff {db : Db} {ownerID userID : Text} :
    canEdit (db.effectivePermissionOnRepertoire ownerID userID) = true ↔
      ownerID = userID ∨ ∃ r, db.collaborators.find? (ownerID, userID) = some r ∧ r.permission = .edit := by
  unfold Db.effectivePermissionOnRepertoire
  by_cases ho : ownerID = userID
  · simp [ho, canEdit]
  · simp only [ho, if_false, false_or]
    cases hr : db.collaborators.find? (ownerID, userID) with
    | none => simp [canEdit]
    | some r => cases hp : r.permission <;> simp [canEdit, Grant.permission, hp]

end Chessrepeat.Store
