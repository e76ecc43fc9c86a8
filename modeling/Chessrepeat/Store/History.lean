import Chessrepeat.Store.Calls

/-!
# Whole calls, one after the other

What a history says about a card, in terms of what was accepted and which moves were there.
-/

namespace Chessrepeat.Store

open Lib Domain

/-- A call of a method that writes. -/
inductive Mutation where
  | createChapter (event : ChapterEvent)
  | call (c : Call)
  | deleteChapter (chapterID : Text)

/-- The database after the call, whether it is accepted, refused or panics. -/
def Db.after (db : Db) : Mutation → Db
  | .createChapter event => match db.createChapter event with
    | some (.ok db') => db'
    | some (.error _) => db
    | none => db
  | .call c => (finish db (c.whole db)).2
  | .deleteChapter chapterID => db.deleteChapter chapterID

/-- Users and grants, and no chapters yet. -/
def Db.fresh (users : Users) (collaborators : Table CollaboratorRow.key) : Db :=
  ⟨users, collaborators, Table.empty, Table.empty, Table.empty⟩

variable (chapterID path username : Text)

/-- An update of this user's card of this move is accepted. -/
def Updates (db : Db) : Mutation → Prop
  | .call (.updateTraining e) => e.chapterID = chapterID ∧ e.path = path ∧ e.username = username ∧
      ∃ db', db.updateTrainingState e = .ok db'
  | _ => False

/-- The move is not there before the call, and there after it. -/
def Inserts (db : Db) (op : Mutation) : Prop :=
  db.moves.has (chapterID, path) = false ∧ (db.after op).moves.has (chapterID, path) = true

/-- The move is there, and since its row was last inserted this card came with the last accepted update. -/
def LastUpdate (db : Db) (ops : List Mutation) (card : CardData) : Prop :=
  (run Db.after db ops).moves.has (chapterID, path) = true ∧
  ∃ earlier e later, ops = earlier ++ .call (.updateTraining e) :: later ∧ e.card = card ∧
    Updates chapterID path username (run Db.after db earlier) (.call (.updateTraining e)) ∧
    Meets Db.after (fun db op => ¬ Updates chapterID path username db op ∧ ¬ Inserts chapterID path db op)
      (run Db.after db (earlier ++ [.call (.updateTraining e)])) later

end Chessrepeat.Store
