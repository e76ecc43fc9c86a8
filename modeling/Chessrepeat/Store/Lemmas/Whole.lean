import Chessrepeat.Store.Lemmas.Create

/-!
# Chapters whose tree has all their rows
-/

namespace Chessrepeat.Store

open Lib Domain

variable {db : Db} {chapterID c path : Text} {row : ChapterRow}

/-- The root is stored, and every move under its parent. -/
structure Whole (db : Db) (chapterID : Text) : Prop where
  root : db.moves.has (chapterID, []) = true
  closed : Closed chapterID db
  ids : ∀ m ∈ db.moves.rows, m.chapterId = chapterID → m.path ≠ [] → m.id.length = 2

/-- The moves of a chapter as `FetchChaptersByOwner` reads them, with their cards. -/
def Db.rowsOf (db : Db) (chapterID : Text) : PathMap :=
  mergeCardsIntoMoves (db.loadMoves chapterID) (db.loadCards chapterID)

theorem Whole.rooted (h : Whole db chapterID) : (db.rowsOf chapterID).Rooted := by
  have hroot : (db.rowsOf chapterID).has [] = true := has_mergeCards.mpr h.root
  refine ⟨hroot, fun e he he0 => ?_⟩
  obtain ⟨hid, parent, hp, hparent⟩ := h.closed.mergeCards h.ids (db.loadCards chapterID) e he he0
  refine ⟨hid, parent, hp, ?_⟩
  rcases hparent with rfl | hparent
  · exact hroot
  · exact hparent

/-- The tree has a node for every row. -/
theorem Whole.chapterTree (h : Whole db row.uuid) (order : PathOrder) :
    ∃ t, db.chapterTree order row = some ⟨row.uuid, row.name, row.trainAs, t.response⟩ ∧ Spelling t ∧ t.label.1 = [] ∧
      t.labels.Perm (db.rowsOf row.uuid).rows := by
  obtain ⟨t, ht, hs, -, hroot, hperm⟩ := exists_built order h.rooted
  refine ⟨t, ?_, hs, hroot, hperm⟩
  rw [Db.chapterTree, buildTree]
  simp only [Db.rowsOf] at ht
  rw [ht]
  rfl

/-! ## Writes -/

theorem Whole.congr {db' : Db} (h : Whole db chapterID) (hm : db'.moves = db.moves) : Whole db' chapterID :=
  ⟨by rw [hm]; exact h.root, (Closed.congr hm).mpr h.closed, by rw [hm]; exact h.ids⟩

theorem Whole.upsert {d : TrainingData} (h : Whole db chapterID) (hparent : path = [] ∨ db.moves.has (c, path) = true)
    (hid : d.id.length = 2) : Whole { db with moves := db.moves.upsert (moveRow c (path ++ d.id, d)) } chapterID := by
  refine ⟨Table.has_upsert.mpr (Or.inr h.root), ?_, fun m hm hc hp => ?_⟩
  · exact (Closed.upsert_iff h.closed).mpr fun hc => hparent.imp_right fun hhas => Or.inr (hc ▸ hhas)
  · rcases Table.mem_upsert.mp hm with rfl | ⟨hm, -⟩
    · exact hid
    · exact h.ids m hm hc hp

theorem Whole.deleteSubtree (h : Whole db chapterID) (hp : path ≠ []) : Whole (db.deleteSubtree c path) chapterID := by
  refine ⟨?_, h.closed.deleteSubtree, fun m hm => h.ids m (Db.mem_deleteSubtree.mp hm).1⟩
  exact Db.has_deleteSubtree.mpr ⟨h.root, fun hpre => hp (List.prefix_nil.mp hpre.2)⟩

theorem Whole.updateComment {comment : Text} (h : Whole db chapterID) : Whole (db.updateComment c path comment) chapterID := by
  refine ⟨by rw [Db.has_updateComment]; exact h.root, h.closed.updateComment, fun m hm hc hp => ?_⟩
  obtain ⟨m₀, hm₀, hchapter, hpath, hid⟩ := Db.exists_of_mem_updateComment hm
  rw [hid]
  exact h.ids m₀ hm₀ (hchapter ▸ hc) (hpath ▸ hp)

/-- The rows of the other chapters stay. -/
theorem Whole.deleteChapter (h : Whole db chapterID) (hne : chapterID ≠ c) : Whole (db.deleteChapter c) chapterID := by
  have hmem : ∀ m : MoveRow, m.chapterId = chapterID → (m ∈ (db.deleteChapter c).moves.rows ↔ m ∈ db.moves.rows) := by
    intro m hm
    refine Table.mem_deleteWhere.trans (and_iff_left ?_)
    exact decide_eq_false fun he => hne (hm.symm.trans he)
  have hhas : ∀ p, db.moves.has (chapterID, p) = true → (db.deleteChapter c).moves.has (chapterID, p) = true := by
    intro p hp
    obtain ⟨m, hm, hc, rfl⟩ := Db.has_move_iff.mp hp
    exact Db.has_move_iff.mpr ⟨m, (hmem m hc).mpr hm, hc, rfl⟩
  refine ⟨hhas [] h.root, fun m hm hc hp => ?_, fun m hm hc hp => h.ids m ((hmem m hc).mp hm) hc hp⟩
  obtain ⟨parent, hpath, hparent⟩ := h.closed m ((hmem m hc).mp hm) hc hp
  exact ⟨parent, hpath, hparent.imp_right (hhas parent)⟩

end Chessrepeat.Store
