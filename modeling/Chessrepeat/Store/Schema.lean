import Chessrepeat.Store.Domain

/-!
# The tables of schema.sql

The columns the modelled statements read or write. Each table carries the uniqueness of its primary key;
the references between tables are kept by the statements (`Chessrepeat.Store.Chapters`).
-/

namespace Chessrepeat.Store

open Lib Domain

structure UserRow where
  tokenId : Text
  username : Option Text
  picture : Text
  limitMultiplier : Int
  deriving DecidableEq, Repr

structure CollaboratorRow where
  ownerId : Text
  collaboratorId : Text
  permission : Grant
  deriving DecidableEq, Repr

structure ChapterRow where
  uuid : Text
  ownerId : Text
  name : Text
  trainAs : Text
  deriving DecidableEq, Repr

structure MoveRow where
  chapterId : Text
  path : Text
  id : Text
  fen : Text
  ply : Int
  san : Text
  comment : Text
  enabled : Bool
  deriving DecidableEq, Repr

structure CardRow where
  chapterId : Text
  path : Text
  username : Text
  card : CardData
  deriving DecidableEq, Repr

def CollaboratorRow.key (r : CollaboratorRow) : Text × Text := (r.ownerId, r.collaboratorId)

def MoveRow.key (r : MoveRow) : Text × Text := (r.chapterId, r.path)

def CardRow.key (r : CardRow) : Text × Text × Text := (r.chapterId, r.path, r.username)

/-- The users table; `username` is `UNIQUE`, which lets any number of rows have none. -/
structure Users where
  table : Table UserRow.tokenId
  unique : (table.rows.filterMap UserRow.username).Nodup

structure Db where
  users : Users
  collaborators : Table CollaboratorRow.key
  chapters : Table ChapterRow.uuid
  moves : Table MoveRow.key
  trainingCards : Table CardRow.key

def Db.empty : Db := ⟨⟨Table.empty, List.nodup_nil⟩, Table.empty, Table.empty, Table.empty, Table.empty⟩

/-- Two users with one username are one user. -/
theorem Users.eq_of_username {us : Users} {u v : UserRow} {name : Text} (hu : u ∈ us.table.rows)
    (hv : v ∈ us.table.rows) (hun : u.username = some name) (hvn : v.username = some name) : u = v := by
  have h := us.unique
  generalize us.table.rows = rows at h hu hv
  induction rows with
  | nil => cases hu
  | cons w rows ih =>
      cases hw : w.username with
      | none =>
          rw [List.filterMap_cons_none hw] at h
          rcases List.mem_cons.mp hu with rfl | hu
          · rw [hw] at hun; cases hun
          rcases List.mem_cons.mp hv with rfl | hv
          · rw [hw] at hvn; cases hvn
          exact ih h hu hv
      | some n =>
          rw [List.filterMap_cons_some hw, List.nodup_cons] at h
          have hnot : ∀ x ∈ rows, x.username ≠ some n := fun x hx he =>
            h.1 (List.mem_filterMap.mpr ⟨x, hx, he⟩)
          rcases List.mem_cons.mp hu with rfl | hu' <;> rcases List.mem_cons.mp hv with rfl | hv'
          · rfl
          · rw [hw] at hun; cases hun; exact absurd hvn (hnot v hv')
          · rw [hw] at hvn; cases hvn; exact absurd hun (hnot u hu')
          · exact ih h.2 hu' hv'

end Chessrepeat.Store
