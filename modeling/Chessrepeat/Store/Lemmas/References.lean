import Chessrepeat.Store.Calls
import Chessrepeat.Store.Lemmas.Subtree
import Chessrepeat.Store.Lemmas.Create

/-!
# The foreign keys are kept

Every statement leaves the chapter of every move and the move of every card in place.
-/

namespace Chessrepeat.Store

open Lib Domain

variable {db db' : Db} {event : ChapterEvent}

/-- Chapters and moves that stay, and no new cards. -/
theorem Referenced.of_kept (h : Referenced db) (hm : ∀ k, db'.moves.has k = true ↔ db.moves.has k = true)
    (hc : db'.chapters = db.chapters) (hcards : db'.trainingCards = db.trainingCards) : Referenced db' := by
  refine ⟨fun r hr => ?_, fun c hc' => ?_⟩
  · obtain ⟨r₀, hr₀, hk⟩ := Table.has_iff.mp ((hm r.key).mp (Table.has_iff.mpr ⟨r, hr, rfl⟩))
    have hid : r₀.chapterId = r.chapterId := (Prod.mk.inj hk).1
    rw [hc, ← hid]
    exact h.moves r₀ hr₀
  · rw [hcards] at hc'
    exact (hm _).mpr (h.cards c hc')

theorem Referenced.upsertMove {row : MoveRow} (h : Referenced db) (hc : db.chapters.has row.chapterId = true) :
    Referenced { db with moves := db.moves.upsert row } := by
  refine ⟨fun r hr => ?_, fun c hcard => Table.has_upsert.mpr (Or.inr (h.cards c hcard))⟩
  rcases Table.mem_upsert.mp hr with rfl | ⟨hr, -⟩
  · exact hc
  · exact h.moves r hr

/-- The cards of the deleted moves go with them. -/
theorem Referenced.cascade (h : Referenced db) (gone : MoveRow → Bool) : Referenced (db.cascade gone) := by
  refine ⟨fun r hr => h.moves r (Table.mem_deleteWhere.mp hr).1, fun c hc => ?_⟩
  obtain ⟨hc, hnone⟩ := Table.mem_deleteWhere.mp hc
  obtain ⟨r, hr, hk⟩ := Table.has_iff.mp (h.cards c hc)
  refine Table.has_iff.mpr ⟨r, Table.mem_deleteWhere.mpr ⟨hr, Bool.eq_false_iff.mpr fun hg => ?_⟩, hk⟩
  have hany : (db.moves.rows.any fun m => gone m && decide (m.key = (c.chapterId, c.path))) = true :=
    List.any_eq_true.mpr ⟨r, hr, by simp [hg, hk]⟩
  exact absurd (hnone.symm.trans hany) (by decide)

theorem Referenced.updateTrainingState {e : TrainingUpdatedEvent} (h : Referenced db)
    (hu : db.updateTrainingState e = .ok db') : Referenced db' := by
  obtain ⟨hhas, rfl⟩ := Db.updateTrainingState_ok hu
  refine ⟨h.moves, fun c hc => ?_⟩
  rcases Table.mem_upsert.mp hc with rfl | ⟨hc, -⟩
  · exact hhas
  · exact h.cards c hc

theorem Referenced.insertChapter {moves : PathMap} (h : Referenced db) (hins : db.insertChapter event moves = .ok db') :
    Referenced db' := by
  obtain ⟨rows, -, hrows, rfl⟩ := insertChapter_ok hins
  refine ⟨fun r hr => ?_, fun c hc => ?_⟩
  · rcases (Table.mem_insertAll? hrows).mp hr with hr | hr
    · exact Table.has_upsert.mpr (Or.inr (h.moves r hr))
    · obtain ⟨e, -, rfl⟩ := List.mem_map.mp hr
      exact Table.has_upsert.mpr (Or.inl rfl)
  · obtain ⟨r, hr, hk⟩ := Table.has_iff.mp (h.cards c hc)
    exact Table.has_iff.mpr ⟨r, (Table.mem_insertAll? hrows).mpr (Or.inl hr), hk⟩

theorem Referenced.deleteChapter (h : Referenced db) (chapterID : Text) : Referenced (db.deleteChapter chapterID) := by
  have hcascade := h.cascade fun m => m.chapterId = chapterID
  refine ⟨fun r hr => ?_, hcascade.cards⟩
  obtain ⟨c, hc, hid⟩ := Table.has_iff.mp (hcascade.moves r hr)
  have hne : r.chapterId ≠ chapterID := of_decide_eq_false (Table.mem_deleteWhere.mp hr).2
  exact Table.has_iff.mpr ⟨c, Table.mem_deleteWhere.mpr ⟨hc, decide_eq_false fun he => hne (hid.symm.trans he)⟩, hid⟩

/-! ## Statements -/

theorem Referenced.exec (h : Referenced db) (proc : Proc) : Referenced (proc.exec db).2 := by
  cases proc with
  | parentExists | moveExists | ownerMultiplier | moveCount | nodeExists | returned => exact h
  | insert e =>
      rw [Proc.exec, Db.upsertMove]
      split
      · exact h.upsertMove ‹_›
      · exact h
  | delete e => exact h.cascade _
  | update c p t =>
      rw [Proc.exec, Db.setComment]
      split
      · have hkeys : ∀ k, (db.updateComment c p t).moves.has k = true ↔ db.moves.has k = true := fun k => by
          rw [Db.has_updateComment]
        exact h.of_kept hkeys rfl rfl
      · exact h
  | upsertCard e =>
      rw [Proc.exec]
      cases hu : db.updateTrainingState e with
      | ok db' => exact h.updateTrainingState hu
      | error e' => exact h

end Chessrepeat.Store
