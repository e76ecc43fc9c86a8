import Chessrepeat.Api.Lemmas.Panics

/-!
# Which requests store a long comment
-/

namespace Chessrepeat.Api

open Lib Domain Store Ws

variable {Raw : Type} {json : Codec Raw} {faults : Faults} {db db' : Db} {event : ChapterEvent} {moves : PathMap}

/-- No comment is longer than the cap. -/
def Capped (db : Db) : Prop := ∀ m ∈ db.moves.rows, m.comment.length ≤ maxCommentChars

/-! ## Messages -/

/-- A comment of after is one of before or within the cap. -/
def NoLongComments (db db' : Db) : Prop :=
  ∀ m ∈ db'.moves.rows, m.comment.length ≤ maxCommentChars ∨ ∃ m₀ ∈ db.moves.rows, m₀.comment = m.comment

theorem NoLongComments.capped (h : NoLongComments db db') (hc : Capped db) : Capped db' := by
  intro m hm
  rcases h m hm with hle | ⟨m₀, hm₀, he⟩
  · exact hle
  · exact he ▸ hc m₀ hm₀

theorem NoLongComments.of_subset (h : ∀ m ∈ db'.moves.rows, m ∈ db.moves.rows) : NoLongComments db db' :=
  fun m hm => Or.inr ⟨m, h m hm, rfl⟩

theorem NoLongComments.cascade (gone : MoveRow → Bool) : NoLongComments db (db.cascade gone) :=
  NoLongComments.of_subset fun _ hm => (Table.mem_deleteWhere.mp hm).1

theorem NoLongComments.updateComment {c path comment : Text} (h : comment.length ≤ maxCommentChars) :
    NoLongComments db (db.updateComment c path comment) := by
  intro m hm
  obtain ⟨m₀, hm₀, rfl⟩ := Db.mem_updateComment.mp hm
  split
  · exact Or.inl h
  · exact Or.inr ⟨m₀, hm₀, rfl⟩

theorem length_truncateComment (event : CommentEvent) : (truncateComment event).comment.length ≤ maxCommentChars := by
  unfold truncateComment
  split
  · exact List.length_take_le _ _
  · rename_i h
    exact Nat.not_lt.mp h

/-- The store takes the move: it has the parent, the move or room for it, and the chapter. -/
def Takes (db : Db) (event : MoveEvent) : Prop :=
  (event.path = [] ∨ db.pathExists event.chapterID event.path = true) ∧
  (db.pathExists event.chapterID (event.path ++ event.move.id) = true ∨
    db.chapterMoveCount event.chapterID < maxMovesPerChapter * db.chapterOwnerMultiplier event.chapterID) ∧
  db.chapters.has event.chapterID = true

theorem takes_iff {event : MoveEvent} : Takes db event ↔ ∃ db', db.addMoveToChapter event = .ok db' := by
  unfold Takes Db.addMoveToChapter Db.upsertMove
  by_cases hparent : event.path ≠ [] ∧ db.pathExists event.chapterID event.path = false
  · rw [if_pos hparent]
    refine iff_of_false (fun h => ?_) (by rintro ⟨_, ⟨⟩⟩)
    rcases h.1 with hp | hp
    · exact hparent.1 hp
    · rw [hparent.2] at hp; cases hp
  · rw [if_neg hparent]
    have hparent' : event.path = [] ∨ db.pathExists event.chapterID event.path = true := by
      by_contra hno
      exact hparent ((not_or.mp hno).imp_right (Bool.not_eq_true _).mp)
    simp only [hparent', true_and]
    by_cases hcap : db.pathExists event.chapterID (event.path ++ event.move.id) = false ∧
        db.chapterMoveCount event.chapterID ≥ maxMovesPerChapter * db.chapterOwnerMultiplier event.chapterID
    · rw [if_pos hcap]
      refine iff_of_false (fun h => ?_) (by rintro ⟨_, ⟨⟩⟩)
      rcases h.1 with hex | hroom
      · rw [hcap.1] at hex; cases hex
      · exact absurd hroom (Nat.not_lt.mpr hcap.2)
    · rw [if_neg hcap]
      have hcap' : db.pathExists event.chapterID (event.path ++ event.move.id) = true ∨
          db.chapterMoveCount event.chapterID < maxMovesPerChapter * db.chapterOwnerMultiplier event.chapterID := by
        by_contra hno
        exact hcap ((not_or.mp hno).imp (Bool.not_eq_true _).mp Nat.not_lt.mp)
      simp only [hcap', true_and]
      by_cases hchapter : db.chapters.has event.chapterID = true
      · simp only [hchapter, if_true]
        exact iff_of_true trivial ⟨_, rfl⟩
      · simp only [hchapter, if_false, Bool.false_eq_true]
        exact iff_of_false id (by rintro ⟨_, ⟨⟩⟩)

theorem addMove_capped_iff {event : MoveEvent} (hc : Capped db) (hw : db.addMoveToChapter event = .ok db') :
    Capped db' ↔ event.move.comment.length ≤ maxCommentChars := by
  obtain ⟨-, rfl⟩ := Db.addMoveToChapter_ok hw
  constructor
  · exact fun h => h _ (Table.mem_upsert.mpr (Or.inl rfl))
  · intro h m hm
    rcases Table.mem_upsert.mp hm with rfl | ⟨hm, -⟩
    · exact h
    · exact hc m hm

/-- A message puts no long comment into the table, unless it is an accepted `move_created`. -/
theorem dispatch_comments (json : Codec Raw) (faults : Faults) (db : Db) (sub : Session) (raw : Raw) :
    NoLongComments db (dispatch json faults db sub raw).1 ∨
    ∃ event, json.envelope raw = some .moveCreated ∧ json.moveEvent raw = some event ∧
      authorizeChapter faults db sub event.chapterID true = true ∧ faults.store = false ∧
      db.addMoveToChapter event = .ok (dispatch json faults db sub raw).1 := by
  rcases dispatch_writes json faults db sub raw with hdb | hwrites
  · exact Or.inl (hdb.symm ▸ NoLongComments.of_subset fun _ => id)
  · generalize (dispatch json faults db sub raw).1 = db' at hwrites ⊢
    cases hwrites with
    | moveCreated op decoded gate up write => exact Or.inr ⟨_, op, decoded, gate, up, write⟩
    | setComment op decoded gate up write =>
        obtain ⟨event, -, rfl⟩ := Option.map_eq_some_iff.mp decoded
        rw [Db.setComment_ok write]
        exact Or.inl (NoLongComments.updateComment (length_truncateComment event))
    | trainingUpdated op decoded gate up write =>
        rw [(Db.updateTrainingState_ok write).2]
        exact Or.inl (NoLongComments.of_subset fun _ => id)
    | nodeDeleted op decoded gate up write =>
        rcases Db.deleteNodeFromChapter_ok write with ⟨-, rfl⟩ | ⟨-, rfl⟩
        · exact Or.inl (NoLongComments.of_subset fun _ => id)
        · exact Or.inl (NoLongComments.cascade _)
    | chapterRenamed => exact Or.inl (NoLongComments.of_subset fun _ => id)
    | chapterDeleted => exact Or.inl (NoLongComments.cascade _)

/-! ## Posted chapters -/

/-- The repertoire a request is for is a user's. -/
theorem has_of_resolveOwner {req : ChapterRequest} {owner : User} (h : req.resolveOwner db = some owner) :
    db.users.table.has owner.tokenID = true := by
  unfold ChapterRequest.resolveOwner at h
  split at h
  · obtain ⟨u, hu, rfl⟩ := Option.map_eq_some_iff.mp h
    exact Table.has_iff.mpr ⟨u, List.mem_of_find?_eq_some hu, rfl⟩
  · obtain ⟨u, hu, rfl⟩ := Option.map_eq_some_iff.mp h
    exact Table.has_iff.mpr ⟨u, (Table.find?_eq_some.mp hu).1, rfl⟩

/-- With a new id, an owner and no more moves than the cap, a flattened chapter is stored. -/
theorem Reaches.stores_iff {req : ChapterRequest} (h : Reaches faults db req event) (hh : Housed db) :
    (∃ db', Stores faults db event moves db') ↔ faults.store = false ∧
      moves.moveCount ≤ maxMovesPerChapter * db.ownerLimitMultiplier event.ownerID ∧
      db.chapters.has event.chapterID = false := by
  constructor
  · rintro ⟨db', hf, hcount, hins⟩
    obtain ⟨_, hnone, -⟩ := insertChapter_ok hins
    exact ⟨hf, hcount, by rw [Table.has, hnone]; rfl⟩
  · rintro ⟨hf, hcount, hnew⟩
    have howner : db.users.table.has event.ownerID = true := by
      obtain ⟨-, -, owner, body, howner, -, -, rfl, -⟩ := h
      exact has_of_resolveOwner howner
    have hkeys : ((moves.rows.map (moveRow event.chapterID)).map MoveRow.key).Nodup := by
      rw [List.map_map]
      exact List.Nodup.of_map Prod.snd (by rw [List.map_map]; exact moves.nodup)
    obtain ⟨t, ht⟩ := Table.exists_insertAll? (t := db.moves) hkeys fun r hr => Bool.eq_false_iff.mpr fun hhas => by
      obtain ⟨e, -, rfl⟩ := List.mem_map.mp hr
      obtain ⟨m, hm, hk⟩ := Table.has_iff.mp hhas
      have hid : m.chapterId = event.chapterID := (Prod.mk.inj hk).1
      have hthere := hh m hm
      rw [hid, hnew] at hthere
      cases hthere
    have hchapter : db.chapters.insert? ⟨event.chapterID, event.ownerID, event.name, event.trainAs⟩ =
        some (db.chapters.upsert ⟨event.chapterID, event.ownerID, event.name, event.trainAs⟩) :=
      Table.insert?_eq_some.mpr ⟨by simpa [Table.has] using hnew, rfl⟩
    have hins : db.insertChapter event moves = .ok { db with
        chapters := db.chapters.upsert ⟨event.chapterID, event.ownerID, event.name, event.trainAs⟩
        moves := t } := by
      rw [Db.insertChapter, if_pos howner, hchapter, ht]
    exact ⟨_, hf, hcount, hins⟩

theorem Stores.capped_iff (h : Stores faults db event moves db') (hc : Capped db) :
    Capped db' ↔ ∀ e ∈ moves.rows, e.2.comment.length ≤ maxCommentChars := by
  constructor
  · exact fun h' e he => h' (moveRow event.chapterID e) (h.mem_moves.mpr (Or.inr ⟨e, he, rfl⟩))
  · intro hle m hm
    rcases h.mem_moves.mp hm with hm | ⟨e, he, rfl⟩
    · exact hc m hm
    · exact hle e he

/-! ## Steps -/

/-- A `move_created` that is let through and taken has a comment within the cap, and so has every node of a posted
chapter that is stored. -/
def ShortComments (json : Codec Raw) (w : Backend) : Request Raw → Prop
  | .message faults sub raw => ∀ event, json.envelope raw = some .moveCreated → json.moveEvent raw = some event →
      authorizeChapter faults w.db sub event.chapterID true = true → faults.store = false → Takes w.db event →
      event.move.comment.length ≤ maxCommentChars
  | .postChapter faults req => ∀ event moves, Reaches faults w.db req event → flattenTree event.root = some moves →
      faults.store = false → moves.moveCount ≤ maxMovesPerChapter * w.db.ownerLimitMultiplier event.ownerID →
      w.db.chapters.has event.chapterID = false → ∀ e ∈ moves.rows, e.2.comment.length ≤ maxCommentChars

theorem Backend.step_capped_iff {w : Backend} (hh : Housed w.db) (hc : Capped w.db) (a : Request Raw) :
    Capped (w.step json a).db ↔ ShortComments json w a := by
  cases a with
  | message faults sub raw =>
      constructor
      · intro hc' event henv hev ha hf ht
        obtain ⟨db', hw⟩ := takes_iff.mp ht
        have hdb := dispatch_moveCreated henv hev ha hf hw
        exact (addMove_capped_iff hc hw).mp (hdb ▸ hc')
      · intro hs
        rcases dispatch_comments json faults w.db sub raw with hn | ⟨event, henv, hev, ha, hf, hw⟩
        · exact hn.capped hc
        · exact (addMove_capped_iff hc hw).mpr (hs event henv hev ha hf (takes_iff.mpr ⟨_, hw⟩))
  | postChapter faults req =>
      by_cases hreach : ∃ event, Reaches faults w.db req event
      · obtain ⟨event, hev⟩ := hreach
        rcases postChapter_of_reaches hev with ⟨hnull, hpost⟩ | ⟨moves, db', resp, hflat, hpost, hstore⟩
        · simp only [Backend.step, hpost]
          refine iff_of_true hc fun event' moves hev' hflat => ?_
          obtain rfl := Reaches.unique hev' hev
          rw [flattenTree_eq_none.mpr hnull] at hflat
          cases hflat
        · simp only [Backend.step, hpost]
          rcases hstore with hs | ⟨rfl, hno⟩
          · rw [hs.capped_iff hc]
            constructor
            · intro hle event' moves' hev' hflat' _ _ _
              obtain rfl := Reaches.unique hev' hev
              rw [hflat] at hflat'
              cases hflat'
              exact hle
            · intro hs'
              obtain ⟨hf, hcount, hnew⟩ := (hev.stores_iff hh).mp ⟨db', hs⟩
              exact hs' event moves hev hflat hf hcount hnew
          · refine iff_of_true hc fun event' moves' hev' hflat' hf hcount hnew => ?_
            obtain rfl := Reaches.unique hev' hev
            rw [hflat] at hflat'
            cases hflat'
            obtain ⟨db'', hs⟩ := (hev.stores_iff hh).mpr ⟨hf, hcount, hnew⟩
            exact absurd hs (hno db'')
      · obtain ⟨resp, hpost⟩ := postChapter_of_not_reaches (fun event he => hreach ⟨event, he⟩)
        simp only [Backend.step, hpost]
        exact iff_of_true hc fun event _ he => absurd ⟨event, he⟩ hreach

end Chessrepeat.Api
