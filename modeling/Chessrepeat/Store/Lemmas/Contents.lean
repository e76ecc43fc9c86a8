import Chessrepeat.Lib.Contents
import Chessrepeat.Store.Lemmas.Subtree

/-!
# The rows of a chapter as data at paths

The store methods on the tables do to the rows of a chapter what `put` and `prune` do to its contents.
-/

namespace Chessrepeat.Store

open Lib Domain

variable {db : Db} {c q u : Text} {d : TrainingData} {m : Contents Char TrainingData} {out : PathMap}

/-- The cards in the training map of a move. -/
def cardRows (chapterID : Text) (e : Text × TrainingData) : List CardRow :=
  (e.2.training.getD []).filterMap fun t => t.2.map fun card => ⟨chapterID, e.1, t.1, card⟩

/-- The rows of the chapter are those of the moves and of their cards, and no others. -/
structure Records (db : Db) (c : Text) (out : PathMap) : Prop where
  moves : (db.moves.rows.filter fun m => m.chapterId = c).Perm (out.rows.map (moveRow c))
  cards : (db.trainingCards.rows.filter fun r => r.chapterId = c).Perm (out.rows.flatMap (cardRows c))

/-- What the rows of the chapter have under each key. -/
structure Tabulates (db : Db) (c : Text) (m : Contents Char TrainingData) : Prop where
  moves : ∀ q, db.moves.find? (c, q) = (m q).map fun d => moveRow c (q, d)
  cards : ∀ q u, db.trainingCards.find? (c, q, u) = (m q).bind fun d => (cardRows c (q, d)).find? fun r => r.username = u
  users : ∀ q d, m q = some d → ((cardRows c (q, d)).map CardRow.username).Nodup

def PathMap.contents (out : PathMap) : Contents Char TrainingData := fun q => (out.find? q).map Prod.snd

theorem PathMap.contents_eq_some : out.contents q = some d ↔ (q, d) ∈ out.rows := by
  rw [contents, Option.map_eq_some_iff]
  constructor
  · rintro ⟨e, he, rfl⟩
    obtain ⟨hmem, rfl⟩ := Table.find?_eq_some.mp he
    exact hmem
  · intro he
    exact ⟨(q, d), Table.find?_eq_some.mpr ⟨he, rfl⟩, rfl⟩

theorem of_mem_cardRows {r : CardRow} {e : Text × TrainingData} (h : r ∈ cardRows c e) : r.chapterId = c ∧ r.path = e.1 := by
  obtain ⟨t, -, ht⟩ := List.mem_filterMap.mp h
  obtain ⟨card, -, rfl⟩ := Option.map_eq_some_iff.mp ht
  exact ⟨rfl, rfl⟩

theorem map_key_cardRows (c : Text) (e : Text × TrainingData) :
    (cardRows c e).map CardRow.key = ((cardRows c e).map CardRow.username).map fun u => (c, e.1, u) := by
  rw [List.map_map]
  refine List.map_congr_left fun r hr => ?_
  obtain ⟨hc, hp⟩ := of_mem_cardRows hr
  rw [CardRow.key, hc, hp]
  rfl

/-- Where the usernames differ, the card of a user is the one the search finds. -/
theorem find?_username {rs : List CardRow} (h : (rs.map CardRow.username).Nodup) {r : CardRow} :
    (rs.find? fun r => r.username = u) = some r ↔ r ∈ rs ∧ r.username = u := by
  have hfind := @Table.find?_eq_some _ _ CardRow.username _ ⟨rs, h⟩ u r
  exact hfind

theorem mem_flatMap_cardRows {r : CardRow} :
    r ∈ out.rows.flatMap (cardRows c) ↔ ∃ d, out.contents r.path = some d ∧ r ∈ cardRows c (r.path, d) := by
  rw [List.mem_flatMap]
  constructor
  · rintro ⟨⟨q, d⟩, he, hr⟩
    obtain rfl : r.path = q := (of_mem_cardRows hr).2
    exact ⟨d, PathMap.contents_eq_some.mpr he, hr⟩
  · rintro ⟨d, hd, hr⟩
    exact ⟨_, PathMap.contents_eq_some.mp hd, hr⟩

theorem mem_map_moveRow {r : MoveRow} :
    r ∈ out.rows.map (moveRow c) ↔ ∃ d, out.contents r.path = some d ∧ moveRow c (r.path, d) = r := by
  rw [List.mem_map]
  constructor
  · rintro ⟨⟨q, d⟩, he, rfl⟩
    exact ⟨d, PathMap.contents_eq_some.mpr he, rfl⟩
  · rintro ⟨d, hd, hr⟩
    exact ⟨_, PathMap.contents_eq_some.mp hd, hr⟩

theorem Records.users (h : Records db c out) (hd : out.contents q = some d) :
    ((cardRows c (q, d)).map CardRow.username).Nodup := by
  have hkeys : ((out.rows.flatMap (cardRows c)).map CardRow.key).Nodup :=
    (h.cards.map CardRow.key).nodup_iff.mp ((List.filter_sublist.map _).nodup db.trainingCards.nodup)
  have hsub : ((cardRows c (q, d)).map CardRow.key).Sublist ((out.rows.flatMap (cardRows c)).map CardRow.key) :=
    (List.sublist_flatten_of_mem (List.mem_map_of_mem (PathMap.contents_eq_some.mp hd))).map _
  have hnodup := hsub.nodup hkeys
  rw [map_key_cardRows] at hnodup
  exact hnodup.of_map

theorem Records.tabulates (h : Records db c out) : Tabulates db c out.contents := by
  refine ⟨fun q => ?_, fun q u => ?_, fun q d => h.users⟩
  · ext r
    have hmem := h.moves.mem_iff (a := r)
    rw [List.mem_filter, mem_map_moveRow, decide_eq_true_eq] at hmem
    rw [Table.find?_eq_some, Option.map_eq_some_iff, MoveRow.key_eq, ← and_assoc, hmem]
    constructor
    · rintro ⟨⟨d, hd, hr⟩, rfl⟩
      exact ⟨d, hd, hr⟩
    · rintro ⟨d, hd, rfl⟩
      exact ⟨⟨d, hd, rfl⟩, rfl⟩
  · ext r
    have hmem := h.cards.mem_iff (a := r)
    rw [List.mem_filter, mem_flatMap_cardRows, decide_eq_true_eq] at hmem
    have hkey : r.key = (c, q, u) ↔ r.chapterId = c ∧ r.path = q ∧ r.username = u := by
      simp only [CardRow.key, Prod.mk.injEq]
    rw [Table.find?_eq_some, Option.bind_eq_some_iff, hkey, ← and_assoc, hmem]
    constructor
    · rintro ⟨⟨d, hd, hr⟩, rfl, hu⟩
      exact ⟨d, hd, (find?_username (h.users hd)).mpr ⟨hr, hu⟩⟩
    · rintro ⟨d, hd, hr⟩
      obtain ⟨hr, hu⟩ := (find?_username (h.users hd)).mp hr
      obtain rfl : r.path = q := (of_mem_cardRows hr).2
      exact ⟨⟨d, hd, hr⟩, rfl, hu⟩

theorem Tabulates.records (h : Tabulates db c out.contents) : Records db c out := by
  have hmoves : (out.rows.map (moveRow c)).Nodup := by
    refine List.Nodup.of_map MoveRow.path ?_
    rw [List.map_map]
    exact out.nodup
  have hcards : (out.rows.flatMap (cardRows c)).Nodup := by
    rw [List.nodup_flatMap]
    constructor
    · rintro ⟨q, d⟩ he
      exact (h.users q d (PathMap.contents_eq_some.mpr he)).of_map
    · refine (List.pairwise_map.mp out.nodup).imp fun {e e'} hne r hr hr' => hne ?_
      exact (of_mem_cardRows hr).2.symm.trans (of_mem_cardRows hr').2
  constructor
  · refine (List.perm_ext_iff_of_nodup (db.moves.nodup.of_map.filter _) hmoves).mpr fun r => ?_
    rw [List.mem_filter, mem_map_moveRow, decide_eq_true_eq]
    have hrow : r ∈ db.moves.rows ∧ r.chapterId = c ↔ db.moves.find? (c, r.path) = some r := by
      rw [Table.find?_eq_some, MoveRow.key_eq]
      simp
    rw [hrow, h.moves, Option.map_eq_some_iff]
  · refine (List.perm_ext_iff_of_nodup (db.trainingCards.nodup.of_map.filter _) hcards).mpr fun r => ?_
    rw [List.mem_filter, mem_flatMap_cardRows, decide_eq_true_eq]
    have hrow : r ∈ db.trainingCards.rows ∧ r.chapterId = c ↔ db.trainingCards.find? (c, r.path, r.username) = some r := by
      rw [Table.find?_eq_some]
      simp [CardRow.key]
    rw [hrow, h.cards, Option.bind_eq_some_iff]
    refine exists_congr fun d => and_congr_right fun hd => ?_
    rw [find?_username (h.users _ _ hd)]
    exact and_iff_left rfl

/-! ## The store methods -/

section Methods

variable {p : Text}

theorem Tabulates.has (h : Tabulates db c m) : db.moves.has (c, p) = (m p).isSome := by
  rw [Table.has, h.moves, Option.isSome_map]

theorem Tabulates.pathExists (h : Tabulates db c m) (h0 : p ≠ []) : db.pathExists c p = (m p).isSome := by
  rw [Db.pathExists, if_neg h0, h.has]

/-- A change of the rows at one path. -/
theorem Tabulates.put {db' : Db} (h : Tabulates db c m) (hmoves : ∀ q, q ≠ p → db'.moves.find? (c, q) = db.moves.find? (c, q))
    (hcards : ∀ q u, q ≠ p → db'.trainingCards.find? (c, q, u) = db.trainingCards.find? (c, q, u))
    (hrow : db'.moves.find? (c, p) = some (moveRow c (p, d)))
    (hcard : ∀ u, db'.trainingCards.find? (c, p, u) = (cardRows c (p, d)).find? fun r => r.username = u)
    (husers : ((cardRows c (p, d)).map CardRow.username).Nodup) : Tabulates db' c (m.put p d) := by
  refine ⟨fun q => ?_, fun q u => ?_, fun q e he => ?_⟩
  · by_cases hq : q = p
    · rw [hq, hrow, Contents.put_self, Option.map_some]
    · rw [hmoves q hq, h.moves, Contents.put_of_ne hq]
  · by_cases hq : q = p
    · rw [hq, hcard, Contents.put_self, Option.bind_some]
    · rw [hcards q u hq, h.cards, Contents.put_of_ne hq]
  · by_cases hq : q = p
    · rw [hq, Contents.put_self] at he
      cases he
      rwa [hq]
    · rw [Contents.put_of_ne hq] at he
      exact h.users q e he

/-- A new move without cards. -/
theorem Tabulates.addMove (h : Tabulates db c m) (hc : db.chapters.has c = true) (hp : (m p).isSome)
    (hnew : m (p ++ d.id) = none) (hcards : d.training.getD [] = [])
    (hcap : db.chapterMoveCount c < maxMovesPerChapter * db.chapterOwnerMultiplier c) :
    ∃ db', db.addMoveToChapter ⟨c, d, p⟩ = .ok db' ∧ Tabulates db' c (m.put (p ++ d.id) d) := by
  have hadd : db.addMoveToChapter ⟨c, d, p⟩ = .ok { db with moves := db.moves.upsert (moveRow c (p ++ d.id, d)) } := by
    have hparent : ¬(p ≠ [] ∧ db.pathExists c p = false) := fun ⟨h0, hno⟩ => by
      rw [h.pathExists h0, hp] at hno
      cases hno
    rw [Db.addMoveToChapter, if_neg hparent]
    simp only
    rw [if_neg fun hfull => absurd hcap (Nat.not_lt.mpr hfull.2), Db.upsertMove, if_pos hc]
    rfl
  have hnone : cardRows c (p ++ d.id, d) = [] := by
    rw [cardRows, hcards]
    rfl
  refine ⟨_, hadd, h.put (fun q hq => ?_) (fun _ _ _ => rfl) ?_ (fun u => ?_) (by rw [hnone]; exact List.nodup_nil)⟩
  · rw [Table.find?_upsert]
    exact if_neg fun he => hq (MoveRow.key_eq.mp he).2.symm
  · rw [Table.find?_upsert]
    exact if_pos rfl
  · rw [h.cards, hnew, hnone]
    rfl

/-- The cards go with the moves. -/
theorem Tabulates.deleteNode (h : Tabulates db c m) (h0 : p ≠ []) (hp : (m p).isSome) :
    ∃ db', db.deleteNodeFromChapter ⟨c, p⟩ = .ok db' ∧ Tabulates db' c (m.prune p) := by
  have hdelete : db.deleteNodeFromChapter ⟨c, p⟩ = .ok (db.deleteSubtree c p) := by
    rw [Db.deleteNodeFromChapter, if_pos ((h.pathExists h0).trans hp)]
  have hgone : ∀ q d, inSubtree c p (moveRow c (q, d)) = decide (p <+: q) := fun q d => by
    rw [Bool.eq_iff_iff, inSubtree_iff, decide_eq_true_eq]
    exact and_iff_right rfl
  refine ⟨_, hdelete, fun q => ?_, fun q u => ?_, fun q d hd => ?_⟩
  · rw [Contents.prune, Db.deleteSubtree, Db.cascade, Table.find?_deleteWhere, h.moves]
    cases m q with
    | none => simp
    | some d => by_cases hq : p <+: q <;> simp [hgone, hq]
  · rw [Contents.prune, Db.deleteSubtree, find?_card_cascade_eq, h.moves, h.cards]
    cases m q with
    | none => simp
    | some d => by_cases hq : p <+: q <;> simp [hgone, hq]
  · rw [Contents.prune] at hd
    split at hd
    · cases hd
    · exact h.users q d hd

theorem Tabulates.setComment (h : Tabulates db c m) (comment : Text) (hd : m p = some d) :
    ∃ db', db.setComment c p comment = .ok db' ∧ Tabulates db' c (m.put p { d with comment := comment }) := by
  have hset : db.setComment c p comment = .ok (db.updateComment c p comment) := by
    rw [Db.setComment, if_pos (by rw [h.has, hd]; rfl)]
  refine ⟨_, hset, h.put (fun q hq => ?_) (fun _ _ _ => rfl) ?_ (fun u => ?_) (h.users p d hd)⟩
  · rw [Db.find?_updateComment]
    exact if_neg fun he => hq (Prod.mk.inj he).2
  · rw [Db.find?_updateComment, if_pos rfl, h.moves, hd]
    rfl
  · exact (h.cards p u).trans (by rw [hd]; rfl)

/-- The move with the card of the user in its training map. -/
structure Trained (c p u : Text) (card : CardData) (d d' : TrainingData) : Prop where
  row : moveRow c (p, d') = moveRow c (p, d)
  cards : ∀ v, ((cardRows c (p, d')).find? fun r => r.username = v) =
    if v = u then some ⟨c, p, u, card⟩ else (cardRows c (p, d)).find? fun r => r.username = v
  users : ((cardRows c (p, d')).map CardRow.username).Nodup

theorem Tabulates.updateTraining {card : CardData} {d' : TrainingData} (h : Tabulates db c m) (hd : m p = some d)
    (ht : Trained c p u card d d') :
    ∃ db', db.updateTrainingState ⟨c, p, u, card⟩ = .ok db' ∧ Tabulates db' c (m.put p d') := by
  have hupdate : db.updateTrainingState ⟨c, p, u, card⟩ =
      .ok { db with trainingCards := db.trainingCards.upsert ⟨c, p, u, card⟩ } := by
    rw [Db.updateTrainingState, if_pos (by rw [h.has, hd]; rfl)]
  refine ⟨_, hupdate, h.put (fun _ _ => rfl) (fun q v hq => ?_) ?_ (fun v => ?_) ht.users⟩
  · rw [Table.find?_upsert, if_neg]
    rintro ⟨⟩
    exact hq rfl
  · rw [h.moves, hd, ht.row]
    rfl
  · rw [Table.find?_upsert, ht.cards, h.cards, hd, Option.bind_some]
    simp only [CardRow.key, Prod.mk.injEq, true_and, eq_comm]

end Methods

end Chessrepeat.Store
