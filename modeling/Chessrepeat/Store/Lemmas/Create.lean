import Chessrepeat.Store.Lemmas.Flatten

/-!
# A chapter read back after it was created
-/

namespace Chessrepeat.Domain

mutual
/-- The tree as the moves table keeps it. -/
def ChapterTreeNode.untrained : ChapterTreeNode → ChapterTreeNode
  | .null => .null
  | .mk data children => .mk { data with training := none } (untrainedList children)

def ChapterTreeNode.untrainedList : List ChapterTreeNode → List ChapterTreeNode
  | [] => []
  | c :: cs => c.untrained :: untrainedList cs
end

end Chessrepeat.Domain

namespace Chessrepeat.Store

open Lib Domain

variable {db db' : Db} {event : ChapterEvent} {moves : PathMap} {t : ChapterTreeNode}

/-! ## Untrained trees -/

def untrainedEntry (e : Text × TrainingData) : Text × TrainingData := (e.1, { e.2 with training := none })

theorem untrainedList_eq (cs : List ChapterTreeNode) :
    ChapterTreeNode.untrainedList cs = cs.map ChapterTreeNode.untrained := by
  induction cs with
  | nil => rfl
  | cons c cs ih => rw [ChapterTreeNode.untrainedList, ih, List.map_cons]

@[simp] theorem id_untrained (t : ChapterTreeNode) : t.untrained.id = t.id := by
  cases t <;> rfl

theorem keyed_untrained (h : t.Keyed) : t.untrained.Keyed := by
  induction h with
  | @mk data children _ ids distinct ih =>
      rw [ChapterTreeNode.untrained, untrainedList_eq]
      refine .mk (fun c hc => ?_) (fun c hc => ?_) (by simpa [Function.comp_def] using distinct)
      · obtain ⟨d, hd, rfl⟩ := List.mem_map.mp hc
        exact ih d hd
      · obtain ⟨d, hd, rfl⟩ := List.mem_map.mp hc
        simpa using ids d hd

theorem keyed_of_untrained (t : ChapterTreeNode) (h : t.untrained.Keyed) : t.Keyed := by
  match t with
  | .null => cases h
  | .mk data children =>
      rw [ChapterTreeNode.untrained, untrainedList_eq] at h
      obtain ⟨keyed, ids, distinct⟩ := h
      rw [List.map_map] at distinct
      refine .mk (fun c hc => ?_) (fun c hc => ?_) ?_
      · have hlt := List.sizeOf_lt_of_mem hc
        exact keyed_of_untrained c (keyed _ (List.mem_map_of_mem hc))
      · rw [← id_untrained]
        exact ids _ (List.mem_map_of_mem hc)
      · simpa [Function.comp_def] using distinct
  termination_by sizeOf t

theorem located_untrained (h : t.Keyed) (path : Text) : located path t.untrained = Rose.map untrainedEntry (located path t) := by
  induction h generalizing path with
  | @mk data children _ _ _ ih =>
      rw [ChapterTreeNode.untrained, untrainedList_eq, located, located, locatedList_eq, locatedList_eq, Rose.map,
        Rose.mapList_eq, List.map_map, List.map_map]
      congr 1
      refine List.map_congr_left fun c hc => ?_
      simp only [Function.comp_apply, id_untrained]
      exact ih c hc _

/-! ## The transaction -/

/-- What an inserted chapter is. -/
theorem insertChapter_ok {event : ChapterEvent} {moves : PathMap} (h : db.insertChapter event moves = .ok db') :
    ∃ t, db.chapters.find? event.chapterID = none ∧
      Table.insertAll? (moves.rows.map (moveRow event.chapterID)) db.moves = some t ∧
      db' = { db with
        chapters := db.chapters.upsert ⟨event.chapterID, event.ownerID, event.name, event.trainAs⟩
        moves := t } := by
  unfold Db.insertChapter at h
  split at h
  · split at h
    · rename_i hch hmv
      cases h
      obtain ⟨hnone, rfl⟩ := Table.insert?_eq_some.mp hch
      exact ⟨_, hnone, hmv, rfl⟩
    · cases h
  · cases h

theorem createChapter_ok {event : ChapterEvent} (h : db.createChapter event = some (.ok db')) :
    ∃ moves, flattenTree event.root = some moves ∧ db.insertChapter event moves = .ok db' := by
  unfold Db.createChapter at h
  simp only at h
  split at h
  · cases h
  · obtain ⟨moves, hm, hr⟩ := Option.map_eq_some_iff.mp h
    split at hr
    · cases hr
    · exact ⟨moves, hm, hr⟩

/-! ## The foreign keys -/

/-- The chapter of every move is there, and the move of every card. -/
structure Referenced (db : Db) : Prop where
  moves : ∀ m ∈ db.moves.rows, db.chapters.has m.chapterId = true
  cards : ∀ c ∈ db.trainingCards.rows, db.moves.has (c.chapterId, c.path) = true

/-! ## The rows of the new chapter -/

theorem mem_loadMoves_iff {chapterID : Text} {e : Text × TrainingData} : e ∈ (db.loadMoves chapterID).rows ↔
    ∃ m ∈ db.moves.rows, m.chapterId = chapterID ∧ e = (m.path, m.trainingData) := by
  refine ⟨exists_row_loadMoves, ?_⟩
  rintro ⟨m, hm, hc, rfl⟩
  obtain ⟨e, he, hk⟩ := List.mem_map.mp (mem_loadMoves.mpr ⟨m, hm, hc, rfl⟩)
  obtain ⟨m', hm', hc', rfl⟩ := exists_row_loadMoves he
  have hkey : m'.key = m.key := Prod.ext (hc'.trans hc.symm) hk
  rwa [List.inj_on_of_nodup_map db.moves.nodup hm' hm hkey] at he

/-- The new chapter has the posted moves and no cards. -/
theorem rows_createChapter (hr : Referenced db) (hk : event.root.Keyed) (h : db.createChapter event = some (.ok db')) :
    db'.chapters.find? event.chapterID = some ⟨event.chapterID, event.ownerID, event.name, event.trainAs⟩ ∧
    (mergeCardsIntoMoves (db'.loadMoves event.chapterID) (db'.loadCards event.chapterID)).rows.Perm
      (located [] event.root.untrained).labels := by
  obtain ⟨moves, hflat, hins⟩ := createChapter_ok h
  obtain ⟨rows, hnone, hrows, rfl⟩ := insertChapter_ok hins
  obtain ⟨moves', hflat', hperm⟩ := flattenTree_keyed hk
  obtain rfl : moves' = moves := Option.some.inj (hflat'.symm.trans hflat)
  have hno : ∀ m ∈ db.moves.rows, m.chapterId ≠ event.chapterID := fun m hm he => by
    have := hr.moves m hm
    rw [he, Table.has, hnone] at this
    cases this
  have hcards : ({ db with
      chapters := db.chapters.upsert ⟨event.chapterID, event.ownerID, event.name, event.trainAs⟩
      moves := rows } : Db).loadCards event.chapterID = [] := by
    refine List.filter_eq_nil_iff.mpr fun c hc he => ?_
    obtain ⟨m, hm, hkey⟩ := Table.has_iff.mp (hr.cards c hc)
    exact hno m hm ((Prod.mk.inj hkey).1.trans (of_decide_eq_true he))
  refine ⟨by rw [Table.find?_upsert, if_pos rfl], ?_⟩
  rw [hcards, located_untrained hk, Rose.labels_map]
  refine List.Perm.trans ?_ (hperm.map untrainedEntry)
  have hmerge : ∀ moves : PathMap, (mergeCardsIntoMoves moves []).rows = moves.rows := fun moves => by
    simp [mergeCardsIntoMoves, Table.update]
  rw [hmerge]
  have hd : (moves'.rows.map untrainedEntry).Nodup := List.Nodup.of_map Prod.fst (by
    rw [List.map_map]
    exact moves'.nodup)
  refine (List.perm_ext_iff_of_nodup (Table.nodup _).of_map hd).mpr fun e => ?_
  rw [mem_loadMoves_iff, List.mem_map]
  constructor
  · rintro ⟨m, hm, hc, rfl⟩
    rcases (Table.mem_insertAll? hrows).mp hm with hm | hm
    · exact absurd hc (hno m hm)
    · obtain ⟨e, he, rfl⟩ := List.mem_map.mp hm
      exact ⟨e, he, rfl⟩
  · rintro ⟨e, he, rfl⟩
    exact ⟨moveRow event.chapterID e, (Table.mem_insertAll? hrows).mpr (Or.inr (List.mem_map_of_mem he)), rfl, rfl⟩

/-- The paths of the new chapter are those of the posted tree. -/
theorem has_createChapter (hr : Referenced db) (hk : event.root.Keyed) (h : db.createChapter event = some (.ok db')) {p : Text} :
    db'.moves.has (event.chapterID, p) = true ↔ p ∈ (located [] event.root).labels.map Prod.fst := by
  obtain ⟨-, hperm⟩ := rows_createChapter hr hk h
  have hfst : (located [] event.root.untrained).labels.map Prod.fst = (located [] event.root).labels.map Prod.fst := by
    rw [located_untrained hk, Rose.labels_map, List.map_map]
    rfl
  rw [← @has_mergeCards db' event.chapterID p (db'.loadCards event.chapterID), Table.has_iff, ← List.mem_map, (hperm.map Prod.fst).mem_iff, hfst]

/-- Under every order, what is read back is a tree with the posted labels. -/
theorem readChapterAsTree_createChapter (hr : Referenced db) (hk : event.root.Keyed)
    (h : db.createChapter event = some (.ok db')) (order : PathOrder) : ∃ u,
      buildNodes (mergeCardsIntoMoves (db'.loadMoves event.chapterID) (db'.loadCards event.chapterID))
        (order.paths (mergeCardsIntoMoves (db'.loadMoves event.chapterID) (db'.loadCards event.chapterID))) = some u ∧
      Spelling u ∧ u.label = (located [] event.root.untrained).label ∧
      u.labels.Perm (located [] event.root.untrained).labels ∧
      db'.readChapterAsTree order event.chapterID =
        some (some ⟨event.chapterID, event.name, event.trainAs, u.response⟩) := by
  obtain ⟨hfind, hperm⟩ := rows_createChapter hr hk h
  have hk' := keyed_untrained hk
  have hspell := spelling_located hk' []
  obtain ⟨u, hu, hs, hd, hroot, hlabels⟩ :=
    exists_built order (rooted_of_perm hspell (ids_located hk' []) (fst_label_located [] _) hperm)
  have hall := hlabels.trans hperm
  refine ⟨u, hu, hs, ?_, hall, ?_⟩
  · refine List.inj_on_of_nodup_map hd (Rose.label_mem_labels u) (hall.mem_iff.mpr (Rose.label_mem_labels _)) ?_
    rw [hroot, fst_label_located]
  · rw [Db.readChapterAsTree, hfind]
    simp only [Db.chapterTree, buildTree, hu, Option.map_some]

end Chessrepeat.Store
