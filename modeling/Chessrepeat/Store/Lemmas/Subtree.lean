import Chessrepeat.Store.Chapters

/-!
# The rows a prefix deletion removes
-/

namespace Chessrepeat.Store

open Lib Domain

theorem escapeLike_cons (c : Char) (s : Text) : escapeLike (c :: s) =
    (if c = backslash ∨ c = '%' ∨ c = '_' then [backslash, c] else [c]) ++ escapeLike s := rfl

/-- An escaped text reads back as its own characters. -/
theorem tokens_escapeLike (s : Text) :
    Like.tokens backslash (escapeLike s ++ ['%']) = some (s.map .lit ++ [.any]) := by
  induction s with
  | nil => decide
  | cons c s ih =>
      rw [escapeLike_cons]
      split
      · simp only [List.cons_append, List.nil_append, Like.tokens, if_true, ih, Option.map_some,
          List.map_cons]
      · rename_i hc
        obtain ⟨hb, hp, hu⟩ := not_or.mp hc |>.imp_right not_or.mp
        cases hrest : escapeLike s ++ ['%'] with
        | nil => simp at hrest
        | cons d rest =>
            rw [hrest] at ih
            simp only [List.cons_append, List.nil_append, hrest, Like.tokens, hb, hp, hu, if_false, ih,
              Option.map_some, List.map_cons]

theorem like_escapeLike {s t : Text} : Like.like backslash (escapeLike s ++ ['%']) t = true ↔ s <+: t := by
  rw [Like.like, tokens_escapeLike]
  exact Like.fits_lits_any s t

/-- The deletion of a path removes the rows of the chapter that have it as a prefix. -/
theorem inSubtree_iff {chapterID path : Text} {m : MoveRow} :
    inSubtree chapterID path m = true ↔ m.chapterId = chapterID ∧ path <+: m.path := by
  simp only [inSubtree, Bool.and_eq_true, Bool.or_eq_true, decide_eq_true_eq, like_escapeLike]
  constructor
  · rintro ⟨hc, hp | hp⟩
    · exact ⟨hc, hp ▸ List.prefix_refl _⟩
    · exact ⟨hc, hp⟩
  · exact fun h => ⟨h.1, Or.inr h.2⟩

theorem Db.mem_deleteSubtree {db : Db} {chapterID path : Text} {m : MoveRow} :
    m ∈ (db.deleteSubtree chapterID path).moves.rows ↔
      m ∈ db.moves.rows ∧ ¬ (m.chapterId = chapterID ∧ path <+: m.path) := by
  rw [Db.deleteSubtree, Db.cascade, Table.mem_deleteWhere, ← inSubtree_iff, Bool.not_eq_true]

theorem MoveRow.key_eq {m : MoveRow} {chapterID path : Text} :
    m.key = (chapterID, path) ↔ m.chapterId = chapterID ∧ m.path = path := by
  simp [MoveRow.key]

theorem Db.has_move_iff {db : Db} {chapterID path : Text} : db.moves.has (chapterID, path) = true ↔
    ∃ m ∈ db.moves.rows, m.chapterId = chapterID ∧ m.path = path := by
  simp only [Table.has_iff, MoveRow.key_eq]

theorem Db.has_deleteSubtree {db : Db} {chapterID path c q : Text} :
    (db.deleteSubtree chapterID path).moves.has (c, q) = true ↔
      db.moves.has (c, q) = true ∧ ¬ (c = chapterID ∧ path <+: q) := by
  simp only [Db.has_move_iff, Db.mem_deleteSubtree]
  constructor
  · rintro ⟨m, ⟨hm, hn⟩, rfl, rfl⟩
    exact ⟨⟨m, hm, rfl, rfl⟩, hn⟩
  · rintro ⟨⟨m, hm, rfl, rfl⟩, hn⟩
    exact ⟨m, ⟨hm, hn⟩, rfl, rfl⟩

theorem Db.pathExists_iff {db : Db} {chapterID path : Text} :
    db.pathExists chapterID path = true ↔ path ≠ [] ∧ db.moves.has (chapterID, path) = true := by
  unfold Db.pathExists
  split
  · simp_all
  · simp_all

/-- The moves left by a deletion that cascades. -/
theorem find?_move_cascade {db : Db} {gone : MoveRow → Bool} {k : Text × Text}
    (h : (db.cascade gone).moves.find? k ≠ db.moves.find? k) :
    ∃ m, db.moves.find? k = some m ∧ gone m = true ∧ (db.cascade gone).moves.find? k = none := by
  rw [Db.cascade, Table.find?_deleteWhere] at h ⊢
  cases hm : db.moves.find? k with
  | none => rw [hm] at h; exact absurd rfl h
  | some m =>
      cases hg : gone m with
      | true => exact ⟨m, rfl, hg, by simp [hg]⟩
      | false => rw [hm] at h; exact absurd (by simp [hg]) h

/-- The cards left by a deletion that cascades. -/
theorem find?_card_cascade_eq {db : Db} {gone : MoveRow → Bool} {id path name : Text} :
    (db.cascade gone).trainingCards.find? (id, path, name) =
      if (db.moves.find? (id, path)).any gone then none else db.trainingCards.find? (id, path, name) := by
  have hcards : (db.cascade gone).trainingCards.find? (id, path, name) =
      (db.trainingCards.find? (id, path, name)).filter fun c => !(db.moves.find? (c.chapterId, c.path)).any gone := by
    simp only [Db.cascade, Table.find?_deleteWhere, Table.any_key]
  rw [hcards]
  cases hc : db.trainingCards.find? (id, path, name) with
  | none => simp
  | some c =>
      have hkey : c.key = (id, path, name) := (Table.find?_eq_some.mp hc).2
      simp only [CardRow.key, Prod.mk.injEq] at hkey
      rw [Option.filter_some, hkey.1, hkey.2.1]
      cases (db.moves.find? (id, path)).any gone <;> rfl

/-- A card that goes is one of a move that goes. -/
theorem find?_card_cascade {db : Db} {gone : MoveRow → Bool} {id path name : Text}
    (h : (db.cascade gone).trainingCards.find? (id, path, name) ≠ db.trainingCards.find? (id, path, name)) :
    ∃ m, db.moves.find? (id, path) = some m ∧ gone m = true ∧
      (db.cascade gone).moves.find? (id, path) = none ∧
      (db.cascade gone).trainingCards.find? (id, path, name) = none := by
  rw [find?_card_cascade_eq] at h ⊢
  cases hg : (db.moves.find? (id, path)).any gone with
  | false =>
      rw [hg] at h
      exact absurd rfl h
  | true =>
      obtain ⟨m, hm, hgm⟩ := (Option.any_eq_true _ _).mp hg
      refine ⟨m, hm, hgm, ?_, rfl⟩
      rw [Db.cascade, Table.find?_deleteWhere, hm]
      simp [hgm]

theorem Db.has_updateComment {db : Db} {c path comment : Text} {k : Text × Text} :
    (db.updateComment c path comment).moves.has k = db.moves.has k := by
  simp only [Db.updateComment, Table.has_update]

/-- A comment is written on the move with the key and no other. -/
theorem Db.find?_updateComment {db : Db} {c path comment : Text} {k : Text × Text} :
    (db.updateComment c path comment).moves.find? k =
      if k = (c, path) then (db.moves.find? k).map (MoveRow.setComment comment) else db.moves.find? k := by
  simp only [Db.updateComment, Table.find?_update, decide_eq_true_eq]
  cases hm : db.moves.find? k with
  | none => simp
  | some m =>
      have hk : m.key = k := (Table.find?_eq_some.mp hm).2
      simp only [Option.map_some, hk]
      split <;> rfl

theorem Db.mem_updateComment {db : Db} {c path comment : Text} {m : MoveRow} :
    m ∈ (db.updateComment c path comment).moves.rows ↔
      ∃ m₀ ∈ db.moves.rows, (if m₀.key = (c, path) then m₀.setComment comment else m₀) = m := by
  simp only [Db.updateComment, Table.mem_update, decide_eq_true_eq]

theorem Db.exists_of_mem_updateComment {db : Db} {c path comment : Text} {m : MoveRow}
    (h : m ∈ (db.updateComment c path comment).moves.rows) :
    ∃ m₀ ∈ db.moves.rows, m.chapterId = m₀.chapterId ∧ m.path = m₀.path ∧ m.id = m₀.id := by
  obtain ⟨m₀, hm₀, rfl⟩ := Db.mem_updateComment.mp h
  refine ⟨m₀, hm₀, ?_⟩
  split <;> exact ⟨rfl, rfl, rfl⟩

/-- What an accepted upsert of a move does. -/
theorem Db.upsertMove_ok {db db' : Db} {row : MoveRow} (h : db.upsertMove row = .ok db') :
    db' = { db with moves := db.moves.upsert row } := by
  unfold Db.upsertMove at h
  split at h
  · cases h; rfl
  · cases h

/-- What an accepted add does: the parent is the root or a row, and the row of the move is upserted. -/
theorem Db.addMoveToChapter_ok {db db' : Db} {e : MoveEvent} (h : db.addMoveToChapter e = .ok db') :
    (e.path = [] ∨ db.moves.has (e.chapterID, e.path) = true) ∧
      db' = { db with moves := db.moves.upsert (moveRow e.chapterID (e.path ++ e.move.id, e.move)) } := by
  unfold Db.addMoveToChapter at h
  split at h
  · cases h
  · rename_i hpath
    simp only at h
    split at h
    · cases h
    · refine ⟨?_, Db.upsertMove_ok h⟩
      by_cases hp : e.path = []
      · exact Or.inl hp
      · have hex : db.pathExists e.chapterID e.path = true := by simpa [hp] using hpath
        exact Or.inr (Db.pathExists_iff.mp hex).2

/-- What an accepted deletion does: nothing for the root, a prefix deletion otherwise. -/
theorem Db.deleteNodeFromChapter_ok {db db' : Db} {e : NodeDeleteEvent}
    (h : db.deleteNodeFromChapter e = .ok db') :
    (e.path = [] ∧ db' = db) ∨ (e.path ≠ [] ∧ db' = db.deleteSubtree e.chapterID e.path) := by
  unfold Db.deleteNodeFromChapter at h
  split at h
  · rename_i hex
    cases h
    exact Or.inr ⟨(Db.pathExists_iff.mp hex).1, rfl⟩
  · split at h
    · cases h; exact Or.inl ⟨‹_›, rfl⟩
    · cases h

theorem Db.setComment_ok {db db' : Db} {chapterID path comment : Text}
    (h : db.setComment chapterID path comment = .ok db') : db' = db.updateComment chapterID path comment := by
  unfold Db.setComment at h
  split at h
  · cases h; rfl
  · cases h

theorem Db.updateTrainingState_ok {db db' : Db} {e : TrainingUpdatedEvent}
    (h : db.updateTrainingState e = .ok db') :
    db.moves.has (e.chapterID, e.path) = true ∧
      db' = { db with trainingCards := db.trainingCards.upsert ⟨e.chapterID, e.path, e.username, e.card⟩ } := by
  unfold Db.updateTrainingState at h
  split at h
  · cases h; exact ⟨‹_›, rfl⟩
  · cases h

end Chessrepeat.Store
