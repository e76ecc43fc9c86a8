import Chessrepeat.Api.Serve
import Chessrepeat.Api.Lemmas.Authorization
import Chessrepeat.Store.Lemmas.Tree

/-!
# Which requests lead to a panic
-/

namespace Chessrepeat.Api

open Lib Domain Store Ws

variable {Raw : Type} {json : Codec Raw} {order : PathOrder} {db db' : Db}

/-! ## States -/

/-- The foreign key of moves. -/
def Housed (db : Db) : Prop := ∀ m ∈ db.moves.rows, db.chapters.has m.chapterId = true

/-- No move is stored at a path of one code point. -/
def Readable (db : Db) : Prop := ∀ m ∈ db.moves.rows, m.path.length ≠ 1

theorem noPanic_iff (hh : Housed db) (panicked : Bool) :
    NoPanic order ⟨db, panicked⟩ ↔ panicked = false ∧ Readable db := by
  refine and_congr_right fun _ => ⟨fun h m hm hl => ?_, fun h => ⟨fun ownerID => ?_, fun id => ?_⟩⟩
  · obtain ⟨c, hc, hid⟩ := Table.has_iff.mp (hh m hm)
    have hnone : db.chapterTree order c = none := chapterTree_eq_none.mpr ⟨m, hm, hid.symm, hl⟩
    have hsome := h.1 c.ownerId
    rw [fetchChaptersByOwner_eq_none.mpr ⟨c, hc, rfl, hnone⟩] at hsome
    cases hsome
  · cases hf : db.fetchChaptersByOwner order ownerID with
    | some _ => rfl
    | none =>
        obtain ⟨c, -, -, hnone⟩ := fetchChaptersByOwner_eq_none.mp hf
        obtain ⟨m, hm, -, hl⟩ := chapterTree_eq_none.mp hnone
        exact absurd hl (h m hm)
  · change (db.readChapterAsTree order id).isSome
    unfold Db.readChapterAsTree
    split
    · rfl
    · rename_i c hc
      cases ht : db.chapterTree order c with
      | some _ => rfl
      | none =>
          obtain ⟨m, hm, -, hl⟩ := chapterTree_eq_none.mp ht
          exact absurd hl (h m hm)

/-- Every move of after was a move before, and its chapter is still there. -/
def NoNewMoves (db db' : Db) : Prop :=
  ∀ m ∈ db'.moves.rows, (∃ m₀ ∈ db.moves.rows, m₀.key = m.key) ∧
    (db.chapters.has m.chapterId = true → db'.chapters.has m.chapterId = true)

theorem NoNewMoves.of_eq (hm : db'.moves = db.moves) (hc : ∀ id, db'.chapters.has id = db.chapters.has id) :
    NoNewMoves db db' := by
  intro m hmem
  rw [hm] at hmem
  exact ⟨⟨m, hmem, rfl⟩, fun h => (hc _).trans h⟩

theorem NoNewMoves.housed (h : NoNewMoves db db') (hh : Housed db) : Housed db' := by
  intro m hm
  obtain ⟨⟨m₀, hm₀, hk⟩, hc⟩ := h m hm
  have hid : m₀.chapterId = m.chapterId := (Prod.mk.inj hk).1
  exact hc (hid ▸ hh m₀ hm₀)

theorem NoNewMoves.readable (h : NoNewMoves db db') (hr : Readable db) : Readable db' := by
  intro m hm
  obtain ⟨⟨m₀, hm₀, hk⟩, -⟩ := h m hm
  have hp : m₀.path = m.path := (Prod.mk.inj hk).2
  exact hp ▸ hr m₀ hm₀

theorem NoNewMoves.cascade (gone : MoveRow → Bool) : NoNewMoves db (db.cascade gone) :=
  fun m hm => ⟨⟨m, (Table.mem_deleteWhere.mp hm).1, rfl⟩, id⟩

theorem NoNewMoves.updateComment (c path comment : Text) : NoNewMoves db (db.updateComment c path comment) := by
  intro m hm
  obtain ⟨m₀, hm₀, rfl⟩ := Db.mem_updateComment.mp hm
  refine ⟨⟨m₀, hm₀, ?_⟩, id⟩
  split <;> rfl

theorem NoNewMoves.deleteChapter (chapterID : Text) : NoNewMoves db (db.deleteChapter chapterID) := by
  intro m hm
  obtain ⟨hm, hne⟩ := Table.mem_deleteWhere.mp hm
  rw [decide_eq_false_iff_not] at hne
  refine ⟨⟨m, hm, rfl⟩, fun hc => ?_⟩
  rw [Table.has, find?_deleteChapter, if_neg hne]
  exact hc

theorem NoNewMoves.renameChapter (chapterID name : Text) : NoNewMoves db (db.renameChapter chapterID name) :=
  NoNewMoves.of_eq rfl fun _ => by simp only [Db.renameChapter, Table.has_update]

/-! ## Messages -/

section Messages

variable {faults : Faults} {sub : Session}

/-- A message adds no move, unless it is an accepted `move_created`. -/
theorem dispatch_moves (json : Codec Raw) (faults : Faults) (db : Db) (sub : Session) (raw : Raw) :
    NoNewMoves db (dispatch json faults db sub raw).1 ∨
    ∃ event, json.envelope raw = some .moveCreated ∧ json.moveEvent raw = some event ∧
      authorizeChapter faults db sub event.chapterID true = true ∧ faults.store = false ∧
      db.addMoveToChapter event = .ok (dispatch json faults db sub raw).1 := by
  have hrefl : NoNewMoves db db := NoNewMoves.of_eq rfl fun _ => rfl
  rcases dispatch_writes json faults db sub raw with hdb | hwrites
  · exact Or.inl (hdb.symm ▸ hrefl)
  · generalize (dispatch json faults db sub raw).1 = db' at hwrites ⊢
    cases hwrites with
    | moveCreated op decoded gate up write => exact Or.inr ⟨_, op, decoded, gate, up, write⟩
    | setComment op decoded gate up write =>
        rw [Db.setComment_ok write]
        exact Or.inl (NoNewMoves.updateComment _ _ _)
    | trainingUpdated op decoded gate up write =>
        rw [(Db.updateTrainingState_ok write).2]
        exact Or.inl (NoNewMoves.of_eq rfl fun _ => rfl)
    | nodeDeleted op decoded gate up write =>
        rcases Db.deleteNodeFromChapter_ok write with ⟨-, rfl⟩ | ⟨-, rfl⟩
        · exact Or.inl hrefl
        · exact Or.inl (NoNewMoves.cascade _)
    | chapterRenamed => exact Or.inl (NoNewMoves.renameChapter _ _)
    | chapterDeleted => exact Or.inl (NoNewMoves.deleteChapter _)

/-- An accepted `move_created` is written. -/
theorem dispatch_moveCreated {raw : Raw} {event : MoveEvent} (henv : json.envelope raw = some .moveCreated)
    (hev : json.moveEvent raw = some event) (ha : authorizeChapter faults db sub event.chapterID true = true)
    (hf : faults.store = false) (hw : db.addMoveToChapter event = .ok db') :
    (dispatch json faults db sub raw).1 = db' := by
  simp only [dispatch, henv, moveCreated, mutate, hev, ha, hf, hw, if_true, Bool.false_eq_true, if_false]

/-- A stored move is at a path of one code point only when it goes to the root under an id of one: a parent
of one code point would be there already. -/
theorem addMove_readable_iff (hr : Readable db) {event : MoveEvent} (hw : db.addMoveToChapter event = .ok db') :
    Readable db' ↔ ¬ (event.path = [] ∧ event.move.id.length = 1) := by
  obtain ⟨hpar, rfl⟩ := Db.addMoveToChapter_ok hw
  constructor
  · rintro h ⟨hp, hid⟩
    refine h _ (Table.mem_upsert.mpr (Or.inl rfl)) ?_
    change (event.path ++ event.move.id).length = 1
    rw [hp, List.nil_append, hid]
  · intro h m hm hl
    rcases Table.mem_upsert.mp hm with rfl | ⟨hm, -⟩
    · change (event.path ++ event.move.id).length = 1 at hl
      rw [List.length_append] at hl
      rcases hpar with hp | hhas
      · rw [hp, List.length_nil, Nat.zero_add] at hl
        exact h ⟨hp, hl⟩
      · obtain ⟨m, hm, -, hpath⟩ := Db.has_move_iff.mp hhas
        have hne := hr m hm
        rw [hpath] at hne
        by_cases hp : event.path = []
        · rw [hp, List.length_nil, Nat.zero_add] at hl
          exact h ⟨hp, hl⟩
        · have hpos := List.length_pos_iff.mpr hp
          omega
    · exact hr m hm hl

theorem addMove_housed (hh : Housed db) {event : MoveEvent} (hw : db.addMoveToChapter event = .ok db') :
    Housed db' := by
  have hhas : db.chapters.has event.chapterID = true := by
    unfold Db.addMoveToChapter at hw
    split at hw
    · cases hw
    · simp only at hw
      split at hw
      · cases hw
      · unfold Db.upsertMove at hw
        split at hw
        · assumption
        · cases hw
  obtain ⟨-, rfl⟩ := Db.addMoveToChapter_ok hw
  intro m hm
  rcases Table.mem_upsert.mp hm with rfl | ⟨hm, -⟩
  · exact hhas
  · exact hh m hm

end Messages

/-! ## Posted chapters -/

/-- The request reaches `flattenTree` with this event: nothing fails before, its user may edit the repertoire,
and the owner is below the chapter cap. -/
def Reaches (faults : Faults) (db : Db) (req : ChapterRequest) (event : ChapterEvent) : Prop :=
  faults.lookup = false ∧ faults.authz = false ∧ ∃ owner body, req.resolveOwner db = some owner ∧
    canEdit (db.effectivePermissionOnRepertoire owner.tokenID req.userID) = true ∧ req.body = some body ∧
    event = { body with ownerID := owner.tokenID } ∧
    db.chapterCountByOwner owner.tokenID < maxChaptersPerUser * db.ownerLimitMultiplier owner.tokenID

theorem Reaches.unique {faults : Faults} {req : ChapterRequest} {event event' : ChapterEvent}
    (h : Reaches faults db req event) (h' : Reaches faults db req event') : event = event' := by
  obtain ⟨-, -, owner, body, howner, -, hbody, rfl, -⟩ := h
  obtain ⟨-, -, owner', body', howner', -, hbody', rfl, -⟩ := h'
  rw [howner] at howner'
  rw [hbody] at hbody'
  cases howner'
  cases hbody'
  rfl

/-- The flattened event is stored: the driver does not fail, it is below the move cap, and its insertion
succeeds. -/
def Stores (faults : Faults) (db : Db) (event : ChapterEvent) (moves : PathMap) (db' : Db) : Prop :=
  faults.store = false ∧ moves.moveCount ≤ maxMovesPerChapter * db.ownerLimitMultiplier event.ownerID ∧
    db.insertChapter event moves = .ok db'

/-- Below the caps, the answer and the database follow the insertion. -/
theorem created_stores {faults : Faults} {event : ChapterEvent} {moves : PathMap} :
    Stores faults db event moves (created faults db event.ownerID
      (if moves.moveCount > maxMovesPerChapter * db.ownerLimitMultiplier event.ownerID then
        .error .chapterMoveLimit else db.insertChapter event moves)).1 ∨
    ((created faults db event.ownerID
      (if moves.moveCount > maxMovesPerChapter * db.ownerLimitMultiplier event.ownerID then
        .error .chapterMoveLimit else db.insertChapter event moves)).1 = db ∧
      ∀ db', ¬ Stores faults db event moves db') := by
  by_cases hcount : moves.moveCount > maxMovesPerChapter * db.ownerLimitMultiplier event.ownerID
  · rw [if_pos hcount]
    exact Or.inr ⟨rfl, fun _ hs => absurd hs.2.1 (Nat.not_le.mpr hcount)⟩
  · rw [if_neg hcount]
    cases hins : db.insertChapter event moves with
    | ok db' =>
        cases hf : faults.store with
        | true =>
            refine Or.inr ⟨?_, fun _ hs => by rw [hs.1] at hf; cases hf⟩
            rw [created, if_pos hf]
        | false =>
            refine Or.inl ?_
            rw [created, hf]
            exact ⟨hf, Nat.not_lt.mp hcount, hins⟩
    | error e =>
        refine Or.inr ⟨?_, fun _ hs => by rw [hs.2.2] at hins; cases hins⟩
        cases e <;> rfl

/-- What a request that reaches `flattenTree` does. -/
theorem postChapter_of_reaches {faults : Faults} {req : ChapterRequest} {event : ChapterEvent}
    (h : Reaches faults db req event) :
    (hasNullChild event.root = true ∧ postChapter faults db req = none) ∨
    ∃ moves db' resp, flattenTree event.root = some moves ∧ postChapter faults db req = some (db', resp) ∧
      (Stores faults db event moves db' ∨ (db' = db ∧ ∀ db'', ¬ Stores faults db event moves db'')) := by
  obtain ⟨hl, ha, owner, body, howner, hedit, hbody, rfl, hcap⟩ := h
  have hpost : postChapter faults db req =
      (db.createChapter { body with ownerID := owner.tokenID }).map (created faults db owner.tokenID) := by
    simp only [postChapter, hl, ha, howner, hedit, hbody, Bool.false_eq_true, if_false, Bool.not_true]
  have hcreate : db.createChapter { body with ownerID := owner.tokenID } =
      (flattenTree body.root).map fun moves =>
        if moves.moveCount > maxMovesPerChapter * db.ownerLimitMultiplier owner.tokenID then
          .error .chapterMoveLimit
        else db.insertChapter { body with ownerID := owner.tokenID } moves := by
    simp only [Db.createChapter, ge_iff_le, Nat.not_le.mpr hcap, if_false]
  rw [hpost, hcreate]
  cases hflat : flattenTree body.root with
  | none => exact Or.inl ⟨flattenTree_eq_none.mp hflat, rfl⟩
  | some moves =>
      exact Or.inr ⟨moves, _, _, rfl, rfl, created_stores⟩

/-- What any other request does. -/
theorem postChapter_of_not_reaches {faults : Faults} {req : ChapterRequest}
    (h : ∀ event, ¬ Reaches faults db req event) : ∃ resp, postChapter faults db req = some (db, resp) := by
  unfold postChapter
  split
  · exact ⟨_, rfl⟩
  · split
    · exact ⟨_, rfl⟩
    · split
      · exact ⟨_, rfl⟩
      · split
        · exact ⟨_, rfl⟩
        · split
          · exact ⟨_, rfl⟩
          · rename_i hl _ owner howner ha hedit _ body hbody
            have hcap : ¬ db.chapterCountByOwner owner.tokenID <
                maxChaptersPerUser * db.ownerLimitMultiplier owner.tokenID := fun hcap =>
              h _ ⟨by simpa using hl, by simpa using ha, owner, body, howner, by simpa using hedit, hbody, rfl, hcap⟩
            refine ⟨⟨409, none⟩, ?_⟩
            simp only [Db.createChapter, ge_iff_le, Nat.not_lt.mp hcap, if_true, Option.map_some, created]

/-- The moves of an inserted chapter are those of its tree. -/
theorem Stores.mem_moves {faults : Faults} {event : ChapterEvent} {moves : PathMap}
    (h : Stores faults db event moves db') {m : MoveRow} : m ∈ db'.moves.rows ↔
      m ∈ db.moves.rows ∨ ∃ e ∈ moves.rows, m = moveRow event.chapterID e := by
  obtain ⟨t, -, hmoves, rfl⟩ := insertChapter_ok h.2.2
  rw [Table.mem_insertAll? hmoves, List.mem_map]
  simp only [eq_comm]

theorem Stores.housed {faults : Faults} {event : ChapterEvent} {moves : PathMap}
    (h : Stores faults db event moves db') (hh : Housed db) : Housed db' := by
  have hch : ∀ id, db'.chapters.has id = true ↔ event.chapterID = id ∨ db.chapters.has id = true := by
    obtain ⟨t, -, -, rfl⟩ := insertChapter_ok h.2.2
    exact fun id => Table.has_upsert
  intro m hm
  rcases h.mem_moves.mp hm with hm | ⟨e, -, rfl⟩
  · exact (hch _).mpr (Or.inr (hh m hm))
  · exact (hch _).mpr (Or.inl rfl)

theorem Stores.readable_iff {faults : Faults} {event : ChapterEvent} {moves : PathMap}
    (h : Stores faults db event moves db') (hr : Readable db) :
    Readable db' ↔ ∀ q ∈ moves.rows.map Prod.fst, q.length ≠ 1 := by
  constructor
  · intro h' q hq
    obtain ⟨e, he, rfl⟩ := List.mem_map.mp hq
    exact h' (moveRow event.chapterID e) (h.mem_moves.mpr (Or.inr ⟨e, he, rfl⟩))
  · intro hq m hm
    rcases h.mem_moves.mp hm with hm | ⟨e, he, rfl⟩
    · exact hr m hm
    · exact hq e.1 (List.mem_map.mpr ⟨e, he, rfl⟩)

/-! ## Steps -/

/-- An accepted `move_created` does not put an id of one code point under the root; a posted chapter has no
nil child, and if it is stored, no node at a path of one code point. -/
def Harmless (json : Codec Raw) (w : Backend) : Request Raw → Prop
  | .message faults sub raw => ∀ event db', json.envelope raw = some .moveCreated →
      json.moveEvent raw = some event → authorizeChapter faults w.db sub event.chapterID true = true →
      faults.store = false → w.db.addMoveToChapter event = .ok db' →
      ¬ (event.path = [] ∧ event.move.id.length = 1)
  | .postChapter faults req => ∀ event, Reaches faults w.db req event →
      hasNullChild event.root = false ∧
      ∀ moves db', flattenTree event.root = some moves → Stores faults w.db event moves db' →
        ∀ q ∈ treePaths [] event.root, q.length ≠ 1

theorem Backend.step_housed {w : Backend} (hh : Housed w.db) (a : Request Raw) : Housed (w.step json a).db := by
  cases a with
  | message faults sub raw =>
      rcases dispatch_moves json faults w.db sub raw with h | ⟨event, -, -, -, -, hw⟩
      · exact h.housed hh
      · exact addMove_housed hh hw
  | postChapter faults req =>
      by_cases hreach : ∃ event, Reaches faults w.db req event
      · obtain ⟨event, hev⟩ := hreach
        rcases postChapter_of_reaches hev with ⟨-, hp⟩ | ⟨moves, db', resp, -, hp, hs | ⟨rfl, -⟩⟩
        · simp only [Backend.step, hp]; exact hh
        · simp only [Backend.step, hp]; exact hs.housed hh
        · simp only [Backend.step, hp]; exact hh
      · obtain ⟨resp, hp⟩ := postChapter_of_not_reaches (fun event he => hreach ⟨event, he⟩)
        simp only [Backend.step, hp]; exact hh

theorem Backend.step_noPanic_iff {w : Backend} (hh : Housed w.db) (h : NoPanic order w) (a : Request Raw) :
    NoPanic order (w.step json a) ↔ Harmless json w a := by
  obtain ⟨hp, hr⟩ := (noPanic_iff hh w.panicked).mp h
  have hh' : Housed (w.step json a).db := Backend.step_housed hh a
  cases a with
  | message faults sub raw =>
      refine (noPanic_iff hh' w.panicked).trans ?_
      simp only [hp, true_and]
      constructor
      · intro hr' event db' henv hev ha hf hw
        have hdb := dispatch_moveCreated henv hev ha hf hw
        exact (addMove_readable_iff hr hw).mp (hdb ▸ hr')
      · intro hs
        rcases dispatch_moves json faults w.db sub raw with hn | ⟨event, henv, hev, ha, hf, hw⟩
        · exact hn.readable hr
        · exact (addMove_readable_iff hr hw).mpr (hs event _ henv hev ha hf hw)
  | postChapter faults req =>
      by_cases hreach : ∃ event, Reaches faults w.db req event
      · obtain ⟨event, hev⟩ := hreach
        have honly : ∀ event', Reaches faults w.db req event' → event' = event := fun event' hev' =>
          Reaches.unique hev' hev
        rcases postChapter_of_reaches hev with ⟨hnull, hpost⟩ | ⟨moves, db', resp, hflat, hpost, hstore⟩
        · simp only [Backend.step, hpost]
          exact iff_of_false (fun hno => by cases hno.1) fun hs => by
            rw [(hs event hev).1] at hnull; cases hnull
        · have hnull : hasNullChild event.root = false := by
            rw [← Bool.not_eq_true, ← flattenTree_eq_none, hflat]
            exact fun h => by cases h
          have hkeys : (∀ q ∈ moves.rows.map Prod.fst, q.length ≠ 1) ↔
              ∀ q ∈ treePaths [] event.root, q.length ≠ 1 := by
            simp only [mem_flattenTree hflat]
          have hstep : w.step json (.postChapter faults req) = ⟨db', w.panicked⟩ := by
            simp only [Backend.step, hpost]
          rw [hstep] at hh' ⊢
          refine (noPanic_iff hh' w.panicked).trans ?_
          simp only [hp, true_and]
          rcases hstore with hs | ⟨rfl, hno⟩
          · rw [hs.readable_iff hr, hkeys]
            constructor
            · intro hq event' hev'
              obtain rfl := honly event' hev'
              exact ⟨hnull, fun _ _ _ _ => hq⟩
            · exact fun hs' => (hs' event hev).2 moves db' hflat hs
          · refine iff_of_true hr fun event' hev' => ?_
            obtain rfl := honly event' hev'
            refine ⟨hnull, fun moves' db'' hflat' hs => absurd hs ?_⟩
            rw [hflat] at hflat'
            cases hflat'
            exact hno db''
      · obtain ⟨resp, hpost⟩ := postChapter_of_not_reaches (fun event he => hreach ⟨event, he⟩)
        simp only [Backend.step, hpost]
        exact iff_of_true h fun event he => absurd ⟨event, he⟩ hreach

end Chessrepeat.Api
