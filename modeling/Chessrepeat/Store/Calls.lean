import Chessrepeat.Lib.Run
import Chessrepeat.Store.Chapters

/-!
# Calls in flight, one SQL statement at a time

The mutating methods of a chapter as they run on the connections of a pool: between two statements of one
call the statements of the others run. What a call remembers from one statement to the next is in its `Proc`.
-/

namespace Chessrepeat.Store

open Lib Domain

inductive Call where
  | addMove (event : MoveEvent)
  | deleteNode (event : NodeDeleteEvent)
  | setComment (chapterID path comment : Text)
  | updateTraining (event : TrainingUpdatedEvent)

/-- The statement a call makes next, or what it returned. -/
inductive Proc where
  | parentExists (event : MoveEvent)
  | moveExists (event : MoveEvent)
  | ownerMultiplier (event : MoveEvent)
  | moveCount (event : MoveEvent) (mult : Nat)
  | insert (event : MoveEvent)
  | nodeExists (event : NodeDeleteEvent)
  | delete (event : NodeDeleteEvent)
  | update (chapterID path comment : Text)
  | upsertCard (event : TrainingUpdatedEvent)
  | returned (result : Except StoreError Unit)

/-- An empty parent path is the chapter root, which is not looked up. -/
def Call.start : Call → Proc
  | .addMove e => if e.path = [] then .moveExists e else .parentExists e
  | .deleteNode e => .nodeExists e
  | .setComment chapterID path comment => .update chapterID path comment
  | .updateTraining e => .upsertCard e

/-- What a statement that is the last of its call leaves. -/
def finish (db : Db) : Except StoreError Db → Proc × Db
  | .ok db' => (.returned (.ok ()), db')
  | .error e => (.returned (.error e), db)

theorem fst_finish (db : Db) (r : Except StoreError Db) : (finish db r).1 = .returned (r.map fun _ => ()) := by
  cases r <;> rfl

def Proc.exec (db : Db) : Proc → Proc × Db
  | .parentExists e =>
      (if db.pathExists e.chapterID e.path then .moveExists e else .returned (.error .pathNotFound), db)
  | .moveExists e =>
      (if db.pathExists e.chapterID (e.path ++ e.move.id) then .insert e else .ownerMultiplier e, db)
  | .ownerMultiplier e => (.moveCount e (db.chapterOwnerMultiplier e.chapterID), db)
  | .moveCount e mult =>
      (if db.chapterMoveCount e.chapterID ≥ maxMovesPerChapter * mult then .returned (.error .chapterMoveLimit)
        else .insert e, db)
  | .insert e =>
      finish db (db.upsertMove ⟨e.chapterID, e.path ++ e.move.id, e.move.id, e.move.fen, e.move.ply, e.move.san,
        e.move.comment, e.move.enabled⟩)
  | .nodeExists e =>
      (if db.pathExists e.chapterID e.path then .delete e
        else if e.path = [] then .returned (.ok ()) else .returned (.error .pathNotFound), db)
  | .delete e => (.returned (.ok ()), db.deleteSubtree e.chapterID e.path)
  | .update chapterID path comment => finish db (db.setComment chapterID path comment)
  | .upsertCard e => finish db (db.updateTrainingState e)
  | .returned r => (.returned r, db)

/-! ## The pool -/

structure Pool where
  db : Db
  procs : List Proc

inductive PoolAction where
  | call (c : Call)
  /-- The call `i` makes its next statement. -/
  | exec (i : Nat)
  /-- The call `i` gets an error from the driver in place of its next statement. -/
  | fail (i : Nat)

def Pool.step (w : Pool) : PoolAction → Pool
  | .call c => { w with procs := w.procs ++ [c.start] }
  | .exec i => match w.procs[i]? with
    | none => w
    | some proc => ⟨(proc.exec w.db).2, w.procs.set i (proc.exec w.db).1⟩
  | .fail i => { w with procs := w.procs.set i (.returned (.error .sql)) }

/-! ## A call alone -/

/-- The method as a whole, as `Chessrepeat.Store.Chapters` has it. -/
def Call.whole (db : Db) : Call → Except StoreError Db
  | .addMove e => db.addMoveToChapter e
  | .deleteNode e => db.deleteNodeFromChapter e
  | .setComment chapterID path comment => db.setComment chapterID path comment
  | .updateTraining e => db.updateTrainingState e

def Proc.alone : Nat → Proc × Db → Proc × Db
  | 0, w => w
  | n + 1, w => Proc.alone n (w.1.exec w.2)

theorem Proc.alone_returned (n : Nat) (r : Except StoreError Unit) (db : Db) :
    Proc.alone n (.returned r, db) = (.returned r, db) := by
  induction n with
  | zero => rfl
  | succ n ih => exact ih

theorem Proc.alone_finish (n : Nat) (db : Db) (r : Except StoreError Db) :
    Proc.alone n (finish db r) = finish db r := by
  cases r with
  | ok db' => exact Proc.alone_returned n _ _
  | error e => exact Proc.alone_returned n _ _

/-- The statements of `AddMoveToChapter` after its parent check. -/
theorem Proc.alone_moveExists (n : Nat) (e : MoveEvent) (db : Db) :
    Proc.alone (n + 4) (.moveExists e, db) = finish db (
      if db.pathExists e.chapterID (e.path ++ e.move.id) = false ∧
          db.chapterMoveCount e.chapterID ≥ maxMovesPerChapter * db.chapterOwnerMultiplier e.chapterID then
        .error .chapterMoveLimit
      else db.upsertMove ⟨e.chapterID, e.path ++ e.move.id, e.move.id, e.move.fen, e.move.ply, e.move.san,
        e.move.comment, e.move.enabled⟩) := by
  rw [Proc.alone, Proc.exec]
  cases hx : db.pathExists e.chapterID (e.path ++ e.move.id) with
  | true =>
      simp only [if_true, Bool.true_eq_false, false_and, if_false]
      exact Proc.alone_finish (n + 2) db _
  | false =>
      simp only [Bool.false_eq_true, if_false, true_and]
      rw [Proc.alone, Proc.exec, Proc.alone, Proc.exec]
      by_cases hc : db.chapterMoveCount e.chapterID ≥ maxMovesPerChapter * db.chapterOwnerMultiplier e.chapterID
      · simp only [hc, if_true]
        exact Proc.alone_returned (n + 1) _ _
      · simp only [hc, if_false]
        exact Proc.alone_finish n db _

/-- With no other call in between, five statements are the method. -/
theorem Call.alone (c : Call) (db : Db) : Proc.alone 5 (c.start, db) = finish db (c.whole db) := by
  cases c with
  | addMove e =>
      simp only [Call.start, Call.whole, Db.addMoveToChapter]
      by_cases hp : e.path = []
      · simp only [hp, if_true, ne_eq, not_true_eq_false, false_and, if_false]
        have h := Proc.alone_moveExists 1 e db
        rwa [hp] at h
      · simp only [hp, if_false, ne_eq, not_false_eq_true, true_and]
        rw [Proc.alone, Proc.exec]
        cases hx : db.pathExists e.chapterID e.path with
        | true =>
            simp only [if_true, Bool.true_eq_false, if_false]
            exact Proc.alone_moveExists 0 e db
        | false =>
            simp only [Bool.false_eq_true, if_false, if_true]
            exact Proc.alone_returned 4 _ _
  | deleteNode e =>
      simp only [Call.start, Call.whole, Db.deleteNodeFromChapter]
      rw [Proc.alone, Proc.exec]
      cases hx : db.pathExists e.chapterID e.path with
      | true => rfl
      | false =>
          simp only [Bool.false_eq_true, if_false]
          split
          · exact Proc.alone_returned 4 _ _
          · exact Proc.alone_returned 4 _ _
  | setComment chapterID path comment => exact Proc.alone_finish 4 db _
  | updateTraining e => exact Proc.alone_finish 4 db _

end Chessrepeat.Store
