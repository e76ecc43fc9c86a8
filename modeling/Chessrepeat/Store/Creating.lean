import Chessrepeat.Store.Calls

/-!
# CreateChapter among the calls on its chapter

`CreateChapter` one SQL statement at a time, beside the pool of calls on the chapter it creates. What its
transaction has written is seen by the other calls with the commit.
-/

namespace Chessrepeat.Store

open Lib Domain

/-- The statement `CreateChapter` makes next, or what became of it. -/
inductive CreateProc where
  | ownerMultiplier
  | chapterCount (mult : Nat)
  | beginTx (moves : PathMap)
  | insertChapter (moves : PathMap)
  | copyMoves (moves : PathMap)
  | commit (moves : PathMap)
  | panicked
  | returned (result : Except StoreError Unit)

def CreateProc.exec (event : ChapterEvent) (db : Db) : CreateProc → CreateProc × Db
  | .ownerMultiplier => (.chapterCount (db.ownerLimitMultiplier event.ownerID), db)
  | .chapterCount mult =>
      (if db.chapterCountByOwner event.ownerID ≥ maxChaptersPerUser * mult then .returned (.error .chapterLimit)
        else match flattenTree event.root with
          | none => .panicked
          | some moves => if moves.moveCount > maxMovesPerChapter * mult then .returned (.error .chapterMoveLimit)
            else .beginTx moves, db)
  | .beginTx moves => (.insertChapter moves, db)
  | .insertChapter moves =>
      (if db.users.table.has event.ownerID && !db.chapters.has event.chapterID then .copyMoves moves
        else .returned (.error .sql), db)
  | .copyMoves moves =>
      (match Table.insertAll? (moves.rows.map (moveRow event.chapterID)) db.moves with
        | none => .returned (.error .sql)
        | some _ => .commit moves, db)
  | .commit moves => match db.insertChapter event moves with
      | .ok db' => (.returned (.ok ()), db')
      | .error e => (.returned (.error e), db)
  | .panicked => (.panicked, db)
  | .returned r => (.returned r, db)

/-- The calls on the chapter and the one that creates it, which has not begun at first. -/
structure Creation where
  pool : Pool
  create : CreateProc

inductive CreationAction where
  | pool (a : PoolAction)
  | create
  /-- `CreateChapter` gets an error from the driver in place of its next statement. -/
  | fail

def Creation.step (event : ChapterEvent) (w : Creation) : CreationAction → Creation
  | .pool a => { w with pool := w.pool.step a }
  | .create => ⟨{ w.pool with db := (w.create.exec event w.pool.db).2 }, (w.create.exec event w.pool.db).1⟩
  | .fail => { w with create := .returned (.error .sql) }

def Creation.start (db : Db) : Creation := ⟨⟨db, []⟩, .ownerMultiplier⟩

/-! ## CreateChapter alone -/

def CreateProc.alone (event : ChapterEvent) : Nat → CreateProc × Db → CreateProc × Db
  | 0, w => w
  | n + 1, w => CreateProc.alone event n (w.1.exec event w.2)

/-- What the method as a whole leaves. -/
def ended (db : Db) : Option (Except StoreError Db) → CreateProc × Db
  | none => (.panicked, db)
  | some (.ok db') => (.returned (.ok ()), db')
  | some (.error e) => (.returned (.error e), db)

theorem CreateProc.alone_done (event : ChapterEvent) (n : Nat) (db : Db) (r : Option (Except StoreError Db)) :
    CreateProc.alone event n (ended db r) = ended db r := by
  induction n with
  | zero => rfl
  | succ n ih =>
      match r with
      | none => exact ih
      | some (.ok _) => exact ih
      | some (.error _) => exact ih

/-- The transaction of `CreateChapter`. -/
theorem CreateProc.alone_beginTx (event : ChapterEvent) (moves : PathMap) (db : Db) :
    CreateProc.alone event 4 (.beginTx moves, db) = ended db (some (db.insertChapter event moves)) := by
  rw [CreateProc.alone, CreateProc.exec, CreateProc.alone, CreateProc.exec]
  cases hu : db.users.table.has event.ownerID with
  | false =>
      have herr : db.insertChapter event moves = .error .sql := by simp [Db.insertChapter, hu]
      rw [herr]
      exact CreateProc.alone_done event 2 db (some (.error .sql))
  | true =>
      cases hc : db.chapters.has event.chapterID with
      | true =>
          have herr : db.insertChapter event moves = .error .sql := by simp [Db.insertChapter, hu, Table.insert?, hc]
          rw [herr]
          exact CreateProc.alone_done event 2 db (some (.error .sql))
      | false =>
          simp only [Bool.not_false, Bool.and_self, if_true]
          rw [CreateProc.alone, CreateProc.exec]
          cases hm : Table.insertAll? (moves.rows.map (moveRow event.chapterID)) db.moves with
          | none =>
              have herr : db.insertChapter event moves = .error .sql := by
                simp [Db.insertChapter, hu, Table.insert?, hc, hm]
              rw [herr]
              exact CreateProc.alone_done event 1 db (some (.error .sql))
          | some t =>
              simp only [CreateProc.alone, CreateProc.exec]
              cases db.insertChapter event moves <;> rfl

/-- With no other call in between, six statements are the method. -/
theorem CreateProc.alone_createChapter (event : ChapterEvent) (db : Db) :
    CreateProc.alone event 6 (.ownerMultiplier, db) = ended db (db.createChapter event) := by
  rw [CreateProc.alone, CreateProc.exec, CreateProc.alone, CreateProc.exec, Db.createChapter]
  simp only
  split
  · exact CreateProc.alone_done event 4 db (some (.error .chapterLimit))
  · cases flattenTree event.root with
    | none => exact CreateProc.alone_done event 4 db none
    | some moves =>
        simp only [Option.map_some]
        split
        · exact CreateProc.alone_done event 4 db (some (.error .chapterMoveLimit))
        · exact CreateProc.alone_beginTx event moves db

end Chessrepeat.Store
