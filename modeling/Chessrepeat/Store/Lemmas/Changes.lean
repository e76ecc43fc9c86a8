import Chessrepeat.Store.Creating
import Chessrepeat.Store.Lemmas.Create
import Chessrepeat.Store.Lemmas.Subtree

/-!
# What a statement changes

A statement is made for one chapter. Whose permission stands behind it is for those who make it to say.
-/

namespace Chessrepeat.Store

open Lib Domain

variable {db db' : Db} {edits : Text → Prop} {trains : Text → Text → Prop} {chapterID username : Text}

/-- Chapters and moves change where `edits` holds; and cards, if they go with a move that goes, or if `trains` holds of
their chapter and their name. No chapter goes to another owner. -/
structure Changes (edits : Text → Prop) (trains : Text → Text → Prop) (db db' : Db) : Prop where
  users : db'.users = db.users
  collaborators : db'.collaborators = db.collaborators
  owner : ∀ id c c', db.chapters.find? id = some c → db'.chapters.find? id = some c' → c'.ownerId = c.ownerId
  chapters : ∀ id, db'.chapters.find? id ≠ db.chapters.find? id → edits id
  moves : ∀ id path, db'.moves.find? (id, path) ≠ db.moves.find? (id, path) → edits id
  cards : ∀ id path name,
    db'.trainingCards.find? (id, path, name) ≠ db.trainingCards.find? (id, path, name) →
    (edits id ∧ db.moves.has (id, path) = true ∧ db'.moves.has (id, path) = false ∧
      db'.trainingCards.find? (id, path, name) = none) ∨ trains id name

theorem Changes.refl (edits : Text → Prop) (trains : Text → Text → Prop) (db : Db) : Changes edits trains db db :=
  ⟨rfl, rfl, fun _ _ _ h h' => by rw [h] at h'; cases h'; rfl, fun _ h => absurd rfl h, fun _ _ h => absurd rfl h,
    fun _ _ _ h => absurd rfl h⟩

/-! ## Tables -/

/-- Writing moves of one chapter only. -/
theorem Changes.of_moves {moves : Table MoveRow.key} (he : edits chapterID)
    (hm : ∀ id path, id ≠ chapterID → moves.find? (id, path) = db.moves.find? (id, path)) :
    Changes edits trains db { db with moves := moves } := by
  refine ⟨rfl, rfl, (Changes.refl edits trains db).owner, fun _ h => absurd rfl h, fun id path h => ?_,
    fun _ _ _ h => absurd rfl h⟩
  by_cases hid : id = chapterID
  · exact hid ▸ he
  · exact absurd (hm id path hid) h

/-- Writing one chapter only. -/
theorem Changes.of_chapters {chapters : Table ChapterRow.uuid} (he : edits chapterID)
    (howner : ∀ id c c', db.chapters.find? id = some c → chapters.find? id = some c' → c'.ownerId = c.ownerId)
    (hch : ∀ id, id ≠ chapterID → chapters.find? id = db.chapters.find? id) :
    Changes edits trains db { db with chapters := chapters } := by
  refine ⟨rfl, rfl, howner, fun id h => ?_, fun _ _ h => absurd rfl h, fun _ _ _ h => absurd rfl h⟩
  by_cases hid : id = chapterID
  · exact hid ▸ he
  · exact absurd (hch id hid) h

/-- Writing one card. -/
theorem Changes.of_card {row : CardRow} (ht : trains row.chapterId row.username) :
    Changes edits trains db { db with trainingCards := db.trainingCards.upsert row } := by
  refine ⟨rfl, rfl, (Changes.refl edits trains db).owner, fun _ h => absurd rfl h, fun _ _ h => absurd rfl h,
    fun id path name h => Or.inr ?_⟩
  rw [Table.find?_upsert] at h
  split at h
  · rename_i hk
    simp only [CardRow.key, Prod.mk.injEq] at hk
    rw [← hk.1, ← hk.2.2]
    exact ht
  · exact absurd rfl h

/-- Deleting moves of one chapter, and their cards with them. -/
theorem Changes.cascade {gone : MoveRow → Bool} (he : edits chapterID) (hgone : ∀ m, gone m = true → m.chapterId = chapterID) :
    Changes edits trains db (db.cascade gone) := by
  have hkey : ∀ {id path m}, db.moves.find? (id, path) = some m → gone m = true → id = chapterID := by
    intro id path m hm hg
    have h := (MoveRow.key_eq.mp (Table.find?_eq_some.mp hm).2).1
    rw [← h]; exact hgone m hg
  refine ⟨rfl, rfl, (Changes.refl edits trains db).owner, fun _ h => absurd rfl h, fun id path h => ?_,
    fun id path name h => Or.inl ?_⟩
  · obtain ⟨m, hm, hg, -⟩ := find?_move_cascade h
    exact hkey hm hg ▸ he
  · obtain ⟨m, hm, hg, hnone, hcard⟩ := find?_card_cascade h
    refine ⟨hkey hm hg ▸ he, ?_, ?_, hcard⟩
    · rw [Table.has, hm]; rfl
    · rw [Table.has, hnone]; rfl

/-! ## Statements -/

theorem find?_upsertMove {row : MoveRow} {id path : Text} (h : id ≠ row.chapterId) :
    (db.moves.upsert row).find? (id, path) = db.moves.find? (id, path) := by
  rw [Table.find?_upsert, if_neg]
  exact fun he => h (MoveRow.key_eq.mp he).1.symm

theorem Changes.upsertMove {row : MoveRow} (he : edits row.chapterId) :
    Changes edits trains db { db with moves := db.moves.upsert row } :=
  .of_moves he fun _ _ hid => find?_upsertMove hid

theorem Changes.updateComment {path comment : Text} (he : edits chapterID) :
    Changes edits trains db (db.updateComment chapterID path comment) :=
  .of_moves he fun _ _ hid => Db.find?_updateComment.trans (if_neg fun hk => hid (Prod.mk.inj hk).1)

theorem Changes.deleteSubtree {path : Text} (he : edits chapterID) :
    Changes edits trains db (db.deleteSubtree chapterID path) :=
  .cascade he fun _ hm => (inSubtree_iff.mp hm).1

theorem find?_renameChapter {name id : Text} : (db.renameChapter chapterID name).chapters.find? id =
    if id = chapterID then (db.chapters.find? id).map (ChapterRow.rename name) else db.chapters.find? id := by
  simp only [Db.renameChapter, Table.find?_update, decide_eq_true_eq]
  cases hrow : db.chapters.find? id with
  | none => simp
  | some row =>
      have hk : row.uuid = id := (Table.find?_eq_some.mp hrow).2
      simp only [Option.map_some, hk]
      split <;> rfl

theorem Changes.renameChapter {name : Text} (he : edits chapterID) :
    Changes edits trains db (db.renameChapter chapterID name) := by
  refine .of_chapters he (fun id c c' hc hc' => ?_) fun id hid => find?_renameChapter.trans (if_neg hid)
  have hren := find?_renameChapter.symm.trans hc'
  split at hren
  · rw [hc, Option.map_some] at hren; cases hren; rfl
  · rw [hc] at hren; cases hren; rfl

theorem find?_deleteChapter {id : Text} : (db.deleteChapter chapterID).chapters.find? id =
    if id = chapterID then none else db.chapters.find? id := by
  have h : (db.deleteChapter chapterID).chapters.find? id =
      (db.chapters.find? id).filter fun c => !decide (c.uuid = chapterID) := Table.find?_deleteWhere
  rw [h]
  cases hrow : db.chapters.find? id with
  | none => simp
  | some row =>
      have hk : row.uuid = id := (Table.find?_eq_some.mp hrow).2
      by_cases hid : id = chapterID
      · simp [hk, hid]
      · simp [hk, hid]

/-- Deleting a chapter, its moves and their cards. -/
theorem Changes.deleteChapter (he : edits chapterID) : Changes edits trains db (db.deleteChapter chapterID) := by
  have h : Changes edits trains db (db.cascade fun m => m.chapterId = chapterID) :=
    .cascade he fun m hm => by simpa using hm
  refine ⟨rfl, rfl, fun id c c' hc hc' => ?_, fun id hid => ?_, h.moves, h.cards⟩
  · rw [find?_deleteChapter] at hc'
    split at hc'
    · cases hc'
    · rw [hc] at hc'; cases hc'; rfl
  · by_cases hne : id = chapterID
    · exact hne ▸ he
    · exact absurd (find?_deleteChapter.trans (if_neg hne)) hid

/-- The transaction of `CreateChapter`, which finds no chapter with the id. -/
theorem Changes.insertChapter {event : ChapterEvent} {moves : PathMap} (he : edits event.chapterID)
    (h : db.insertChapter event moves = .ok db') : Changes edits trains db db' := by
  obtain ⟨t, hnone, hmoves, rfl⟩ := insertChapter_ok h
  have hold : ∀ id, id ≠ event.chapterID →
      (db.chapters.upsert ⟨event.chapterID, event.ownerID, event.name, event.trainAs⟩).find? id =
        db.chapters.find? id := fun id hid => Table.find?_upsert.trans (if_neg fun h => hid h.symm)
  refine ⟨rfl, rfl, fun id c c' hc hc' => ?_, fun id h => ?_, fun id path h => ?_, fun _ _ _ h => absurd rfl h⟩
  · by_cases hid : id = event.chapterID
    · rw [hid, hnone] at hc; cases hc
    · have hsame := (hold id hid).symm.trans hc'
      rw [hc] at hsame; cases hsame; rfl
  · by_cases hid : id = event.chapterID
    · exact hid ▸ he
    · exact absurd (hold id hid) h
  · by_cases hid : id = event.chapterID
    · exact hid ▸ he
    · refine absurd (Table.find?_insertAll? hmoves fun r hr hk => ?_) h
      obtain ⟨e, -, rfl⟩ := List.mem_map.mp hr
      exact hid (Prod.mk.inj hk).1.symm

/-! ## Calls -/

/-- A statement that is about nothing but the moves of the chapter. -/
def Proc.Edits (chapterID : Text) : Proc → Prop
  | .parentExists e | .moveExists e | .ownerMultiplier e | .moveCount e _ | .insert e => e.chapterID = chapterID
  | .nodeExists e | .delete e => e.chapterID = chapterID
  | .update id _ _ => id = chapterID
  | .upsertCard _ => False
  | .returned _ => True

/-- A statement that is about nothing but the cards the user has in the chapter. -/
def Proc.Trains (chapterID username : Text) : Proc → Prop
  | .upsertCard e => e.chapterID = chapterID ∧ e.username = username
  | .returned _ => True
  | _ => False

theorem Proc.Edits.exec {p : Proc} (h : p.Edits chapterID) (db : Db) : (p.exec db).1.Edits chapterID := by
  cases p with
  | parentExists e =>
      rw [Proc.exec]
      split
      · exact h
      · trivial
  | moveExists e =>
      rw [Proc.exec]
      split
      · exact h
      · exact h
  | ownerMultiplier => exact h
  | moveCount e =>
      rw [Proc.exec]
      split
      · trivial
      · exact h
  | nodeExists e =>
      rw [Proc.exec]
      split
      · exact h
      · split <;> trivial
  | insert | update =>
      rw [Proc.exec, fst_finish]
      trivial
  | delete | returned => trivial
  | upsertCard => exact h.elim

theorem Proc.Trains.exec {p : Proc} (h : p.Trains chapterID username) (db : Db) :
    (p.exec db).1.Trains chapterID username := by
  cases p with
  | upsertCard =>
      rw [Proc.exec, fst_finish]
      trivial
  | returned => trivial
  | _ => exact h.elim

/-- What the last statement of a call leaves is what it was, or what the statement has returned. -/
theorem finish_cases (db : Db) (r : Except StoreError Db) : (finish db r).2 = db ∨ r = .ok (finish db r).2 := by
  cases r with
  | ok db' => exact Or.inr rfl
  | error e => exact Or.inl rfl

theorem Proc.Edits.changes {p : Proc} (h : p.Edits chapterID) (he : edits chapterID) (db : Db) :
    Changes edits trains db (p.exec db).2 := by
  cases p with
  | parentExists | moveExists | ownerMultiplier | moveCount | nodeExists | returned => exact .refl edits trains db
  | insert e =>
      obtain rfl : e.chapterID = chapterID := h
      rw [Proc.exec]
      rcases finish_cases db (db.upsertMove ⟨e.chapterID, e.path ++ e.move.id, e.move.id, e.move.fen, e.move.ply,
        e.move.san, e.move.comment, e.move.enabled⟩) with hsame | hok
      · rw [hsame]
        exact .refl edits trains db
      · rw [Db.upsertMove_ok hok]
        exact .upsertMove he
  | delete e =>
      obtain rfl : e.chapterID = chapterID := h
      exact .deleteSubtree he
  | update id path comment =>
      obtain rfl : id = chapterID := h
      rw [Proc.exec]
      rcases finish_cases db (db.setComment id path comment) with hsame | hok
      · rw [hsame]
        exact .refl edits trains db
      · rw [Db.setComment_ok hok]
        exact .updateComment he
  | upsertCard => exact h.elim

theorem Proc.Trains.changes {p : Proc} (h : p.Trains chapterID username) (ht : trains chapterID username) (db : Db) :
    Changes edits trains db (p.exec db).2 := by
  cases p with
  | upsertCard e =>
      obtain ⟨rfl, rfl⟩ := h
      rw [Proc.exec]
      rcases finish_cases db (db.updateTrainingState e) with hsame | hok
      · rw [hsame]
        exact .refl edits trains db
      · rw [(Db.updateTrainingState_ok hok).2]
        exact .of_card ht
  | returned => exact .refl edits trains db
  | _ => exact h.elim

theorem Proc.edits_or_trains (p : Proc) : (∃ chapterID, p.Edits chapterID) ∨ ∃ chapterID username, p.Trains chapterID username := by
  cases p with
  | upsertCard e => exact Or.inr ⟨_, _, rfl, rfl⟩
  | returned => exact Or.inl ⟨[], trivial⟩
  | parentExists | moveExists | ownerMultiplier | moveCount | insert | nodeExists | delete | update => exact Or.inl ⟨_, rfl⟩

/-- `CreateChapter` writes with its commit. -/
theorem CreateProc.exec_cases (event : ChapterEvent) (p : CreateProc) (db : Db) : (p.exec event db).2 = db ∨
    ∃ moves, p = .commit moves ∧ db.insertChapter event moves = .ok (p.exec event db).2 := by
  cases p with
  | commit moves =>
      rw [CreateProc.exec]
      cases hins : db.insertChapter event moves with
      | ok db' => exact Or.inr ⟨moves, rfl, hins⟩
      | error e => exact Or.inl rfl
  | ownerMultiplier | chapterCount | beginTx | insertChapter | copyMoves | panicked | returned => exact Or.inl rfl

end Chessrepeat.Store
