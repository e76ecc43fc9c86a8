import Chessrepeat.Store.Lemmas.Changes
import Chessrepeat.Ws.Dispatch

/-!
# Messages one SQL statement at a time

`handleMessage` makes a statement for the permission and then calls a method of the store. Between the two, and between
the statements of the method, those of the others run.
-/

namespace Chessrepeat.Ws

open Lib Domain Store

variable {Raw : Type} {json : Codec Raw} {db : Db} {sub : Session}

/-- The statement a message that has passed its gate makes next. To rename or to delete a chapter takes one. -/
inductive Statement where
  | call (proc : Proc)
  | renameChapter (chapterID name : Text)
  | deleteChapter (chapterID : Text)

def Statement.exec (db : Db) : Statement → Statement × Db
  | .call proc => (.call (proc.exec db).1, (proc.exec db).2)
  | .renameChapter chapterID name => (.call (.returned (.ok ())), db.renameChapter chapterID name)
  | .deleteChapter chapterID => (.call (.returned (.ok ())), db.deleteChapter chapterID)

/-- The store method has returned. -/
def Statement.over : Statement → Bool
  | .call (.returned _) => true
  | _ => false

/-- A branch of the switch of `dispatch`: its gate, and the statement that comes after. -/
structure Branch where
  chapterID : Text
  requireEdit : Bool
  start : Statement

/-- The switch, up to the gate. -/
def mutation (json : Codec Raw) (sub : Session) (raw : Raw) : Option Branch :=
  match json.envelope raw with
  | none | some .ping | some .unknown => none
  | some .moveCreated => (json.moveEvent raw).map fun event =>
      ⟨event.chapterID, true, .call (Call.addMove event).start⟩
  | some .setComment => ((json.commentEvent raw).map truncateComment).map fun event =>
      ⟨event.chapterID, true, .call (Call.setComment event.chapterID event.path event.comment).start⟩
  | some .trainingUpdated => ((json.trainingUpdatedEvent raw).map (stampUsername sub)).map fun event =>
      ⟨event.chapterID, false, .call (Call.updateTraining event).start⟩
  | some .nodeDeleted => (json.nodeDeleteEvent raw).map fun event =>
      ⟨event.chapterID, true, .call (Call.deleteNode event).start⟩
  | some .chapterRenamed => (json.chapterRenameEvent raw).map fun event =>
      ⟨event.chapterID, true, .renameChapter event.chapterID event.name⟩
  | some .chapterDeleted => (json.chapterDeleteEvent raw).map fun event =>
      ⟨event.chapterID, true, .deleteChapter event.chapterID⟩

/-! ## A message alone -/

def Statement.alone : Nat → Statement × Db → Statement × Db
  | 0, w => w
  | n + 1, w => Statement.alone n (w.1.exec w.2)

theorem Statement.alone_call (n : Nat) (p : Proc) (db : Db) :
    Statement.alone n (.call p, db) = (.call (Proc.alone n (p, db)).1, (Proc.alone n (p, db)).2) := by
  induction n generalizing p db with
  | zero => rfl
  | succ n ih => exact ih (p.exec db).1 (p.exec db).2

/-- A branch whose write is a method of the store. -/
theorem mutate_alone {α : Type} (event : Option α) (chapterID : α → Text) (requireEdit : Bool) (call : α → Call)
    (reloads : List StoreError) (out : α → Raw) :
    (mutate json Faults.none db sub event chapterID requireEdit (fun e => (call e).whole db) reloads out).1 =
      match event.map fun e => (⟨chapterID e, requireEdit, .call (call e).start⟩ : Branch) with
      | none => db
      | some m => if authorizeChapter Faults.none db sub m.chapterID m.requireEdit then (Statement.alone 5 (m.start, db)).2
          else db := by
  cases event with
  | none => rfl
  | some e =>
      rw [mutate, Option.map_some]
      dsimp only
      split
      · rw [if_neg (by decide), Statement.alone_call, (call e).alone]
        cases (call e).whole db <;> rfl
      · rfl

/-- With no other statement in between, a message does what `dispatch` says. -/
theorem mutation_alone (json : Codec Raw) (db : Db) (sub : Session) (raw : Raw) :
    (dispatch json Faults.none db sub raw).1 =
      match mutation json sub raw with
      | none => db
      | some m => if authorizeChapter Faults.none db sub m.chapterID m.requireEdit then (Statement.alone 5 (m.start, db)).2
          else db := by
  unfold dispatch mutation
  cases json.envelope raw with
  | none => rfl
  | some op =>
      cases op with
      | ping | unknown => rfl
      | moveCreated => exact mutate_alone _ _ _ Call.addMove _ _
      | setComment => exact mutate_alone _ _ _ (fun e : CommentEvent => .setComment e.chapterID e.path e.comment) _ _
      | trainingUpdated => exact mutate_alone _ _ _ Call.updateTraining _ _
      | nodeDeleted => exact mutate_alone _ _ _ Call.deleteNode _ _
      | chapterRenamed =>
          cases hd : json.chapterRenameEvent raw with
          | none => simp only [chapterRenamed, hd]; rfl
          | some event =>
              simp only [chapterRenamed, hd, mutate, Option.map_some]
              split <;> rfl
      | chapterDeleted =>
          cases hd : json.chapterDeleteEvent raw with
          | none => simp only [chapterDeleted, hd]; rfl
          | some event =>
              simp only [chapterDeleted, hd, mutate, Option.map_some]
              split <;> rfl

/-! ## What the statements are about -/

def Statement.Edits (chapterID : Text) : Statement → Prop
  | .call proc => proc.Edits chapterID
  | .renameChapter id _ | .deleteChapter id => id = chapterID

def Statement.Trains (chapterID username : Text) : Statement → Prop
  | .call proc => proc.Trains chapterID username
  | .renameChapter .. | .deleteChapter _ => False

/-- Where the gate asks for no more than a permission, the statements write cards under the name of the session. -/
theorem mutation_gated {raw : Raw} {m : Branch} (h : mutation json sub raw = some m) :
    m.requireEdit = true ∧ m.start.Edits m.chapterID ∨ m.start.Trains m.chapterID sub.username := by
  unfold mutation at h
  split at h
  · cases h
  · cases h
  · cases h
  · obtain ⟨event, -, rfl⟩ := Option.map_eq_some_iff.mp h
    refine Or.inl ⟨rfl, ?_⟩
    change (Call.start _).Edits _
    rw [Call.start]
    split <;> exact rfl
  · obtain ⟨event, -, rfl⟩ := Option.map_eq_some_iff.mp h
    exact Or.inl ⟨rfl, rfl⟩
  · obtain ⟨event, hevent, rfl⟩ := Option.map_eq_some_iff.mp h
    obtain ⟨_, -, rfl⟩ := Option.map_eq_some_iff.mp hevent
    exact Or.inr ⟨rfl, rfl⟩
  · obtain ⟨event, -, rfl⟩ := Option.map_eq_some_iff.mp h
    exact Or.inl ⟨rfl, rfl⟩
  · obtain ⟨event, -, rfl⟩ := Option.map_eq_some_iff.mp h
    exact Or.inl ⟨rfl, rfl⟩
  · obtain ⟨event, -, rfl⟩ := Option.map_eq_some_iff.mp h
    exact Or.inl ⟨rfl, rfl⟩

section Statements

variable {chapterID username : Text} {s : Statement} {edits : Text → Prop} {trains : Text → Text → Prop}

theorem Statement.Edits.exec (h : s.Edits chapterID) (db : Db) : (s.exec db).1.Edits chapterID := by
  cases s with
  | call proc => exact Proc.Edits.exec h db
  | renameChapter | deleteChapter => trivial

theorem Statement.Trains.exec (h : s.Trains chapterID username) (db : Db) : (s.exec db).1.Trains chapterID username := by
  cases s with
  | call proc => exact Proc.Trains.exec h db
  | renameChapter | deleteChapter => exact h.elim

theorem Statement.Edits.changes (h : s.Edits chapterID) (he : edits chapterID) (db : Db) :
    Changes edits trains db (s.exec db).2 := by
  cases s with
  | call proc => exact Proc.Edits.changes h he db
  | renameChapter id name =>
      obtain rfl : id = chapterID := h
      exact .renameChapter he
  | deleteChapter id =>
      obtain rfl : id = chapterID := h
      exact .deleteChapter he

theorem Statement.Trains.changes (h : s.Trains chapterID username) (ht : trains chapterID username) (db : Db) :
    Changes edits trains db (s.exec db).2 := by
  cases s with
  | call proc => exact Proc.Trains.changes h ht db
  | renameChapter | deleteChapter => exact h.elim

/-- Whatever a statement does, it leaves the users and the grants alone. -/
theorem Statement.changes (s : Statement) (db : Db) : Changes (fun _ => True) (fun _ _ => True) db (s.exec db).2 := by
  cases s with
  | call proc =>
      rcases proc.edits_or_trains with ⟨chapterID, h⟩ | ⟨chapterID, username, h⟩
      · exact h.changes trivial db
      · exact h.changes trivial db
  | renameChapter => exact .renameChapter trivial
  | deleteChapter => exact .deleteChapter trivial

end Statements

end Chessrepeat.Ws
