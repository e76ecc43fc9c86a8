import Chessrepeat.Store.History
import Chessrepeat.Store.Lemmas.References
import Chessrepeat.Store.Lemmas.Whole

/-!
# The cards of a history
-/

namespace Chessrepeat.Store

open Lib Domain

variable {db db' : Db} {op : Mutation} {ops : List Mutation} {chapterID path username : Text} {card : CardData}

/-! ## Foreign keys -/

theorem Referenced.alone (n : Nat) (proc : Proc) (h : Referenced db) : Referenced (Proc.alone n (proc, db)).2 := by
  induction n generalizing proc db with
  | zero => exact h
  | succ n ih => exact ih _ (h.exec proc)

theorem Referenced.after (h : Referenced db) (op : Mutation) : Referenced (db.after op) := by
  cases op with
  | createChapter event =>
      rw [Db.after]
      split
      · rename_i hcreate
        obtain ⟨moves, -, hins⟩ := createChapter_ok hcreate
        exact h.insertChapter hins
      · exact h
      · exact h
  | call c =>
      rw [Db.after, ← Call.alone]
      exact h.alone 5 _
  | deleteChapter chapterID => exact h.deleteChapter chapterID

theorem referenced_fresh (users : Users) (collaborators : Table CollaboratorRow.key) :
    Referenced (Db.fresh users collaborators) :=
  ⟨fun _ h => (by cases h), fun _ h => (by cases h)⟩

theorem referenced_run (h : Referenced db) (ops : List Mutation) : Referenced (run Db.after db ops) :=
  (always_of_step (fun _ op h => h.after op) h ops).last

/-! ## One call -/

/-- A card without its move is no card. -/
theorem Referenced.find?_card (h : Referenced db) (hm : db.moves.has (chapterID, path) = false) :
    db.trainingCards.find? (chapterID, path, username) = none := by
  refine Table.find?_none.mpr fun c hc hk => ?_
  simp only [CardRow.key, Prod.mk.injEq] at hk
  have hhas := h.cards c hc
  rw [hk.1, hk.2.1, hm] at hhas
  cases hhas

/-- Where the move stays and the card is not written, the card stays. -/
theorem Referenced.card_kept (h : Referenced db)
    (hcard : db'.trainingCards.find? (chapterID, path, username) = db.trainingCards.find? (chapterID, path, username))
    (hm : db.moves.has (chapterID, path) = true → db'.moves.has (chapterID, path) = true) :
    db'.trainingCards.find? (chapterID, path, username) =
      if db'.moves.has (chapterID, path) = true then db.trainingCards.find? (chapterID, path, username) else none := by
  split
  · exact hcard
  · rename_i hno
    rw [hcard]
    exact h.find?_card (Bool.eq_false_iff.mpr fun hhas => hno (hm hhas))

theorem Referenced.card_cascade (h : Referenced db) (gone : MoveRow → Bool) :
    (db.cascade gone).trainingCards.find? (chapterID, path, username) =
      if (db.cascade gone).moves.has (chapterID, path) = true then db.trainingCards.find? (chapterID, path, username)
      else none := by
  by_cases hcard : (db.cascade gone).trainingCards.find? (chapterID, path, username) =
      db.trainingCards.find? (chapterID, path, username)
  · split
    · exact hcard
    · rename_i hno
      exact (h.cascade gone).find?_card (Bool.eq_false_iff.mpr hno)
  · obtain ⟨m, -, -, hnone, hgone⟩ := find?_card_cascade hcard
    rw [hgone, Table.has, hnone]
    rfl

/-- Unless it updates the card, a call leaves it as long as its move is there. -/
theorem Referenced.card_after (h : Referenced db) (hno : ¬ Updates chapterID path username db op) :
    (db.after op).trainingCards.find? (chapterID, path, username) =
      if (db.after op).moves.has (chapterID, path) = true then db.trainingCards.find? (chapterID, path, username)
      else none := by
  have hsame : db.trainingCards.find? (chapterID, path, username) =
      if db.moves.has (chapterID, path) = true then db.trainingCards.find? (chapterID, path, username) else none :=
    h.card_kept rfl id
  cases op with
  | createChapter event =>
      rw [Db.after]
      split
      · rename_i hcreate
        obtain ⟨moves, -, hins⟩ := createChapter_ok hcreate
        obtain ⟨rows, -, hrows, rfl⟩ := insertChapter_ok hins
        refine h.card_kept rfl fun hhas => ?_
        obtain ⟨m, hm, hk⟩ := Table.has_iff.mp hhas
        exact Table.has_iff.mpr ⟨m, (Table.mem_insertAll? hrows).mpr (Or.inl hm), hk⟩
      · exact hsame
      · exact hsame
  | deleteChapter id => exact h.card_cascade _
  | call c =>
      rw [Db.after]
      cases hw : c.whole db with
      | error e => exact hsame
      | ok db' =>
          change db'.trainingCards.find? _ = if db'.moves.has _ = true then _ else none
          cases c with
          | addMove e =>
              obtain ⟨-, rfl⟩ := Db.addMoveToChapter_ok hw
              exact h.card_kept rfl fun hhas => Table.has_upsert.mpr (Or.inr hhas)
          | setComment c p t =>
              rw [Db.setComment_ok hw]
              exact h.card_kept rfl fun hhas => by rwa [Db.has_updateComment]
          | deleteNode e =>
              rcases Db.deleteNodeFromChapter_ok hw with ⟨-, rfl⟩ | ⟨-, rfl⟩
              · exact hsame
              · exact h.card_cascade _
          | updateTraining e =>
              obtain ⟨-, rfl⟩ := Db.updateTrainingState_ok hw
              refine h.card_kept (Table.find?_upsert.trans (if_neg fun hk => hno ?_)) id
              simp only [CardRow.key, Prod.mk.injEq] at hk
              exact ⟨hk.1, hk.2.1, hk.2.2, _, hw⟩

theorem card_of_updates {e : TrainingUpdatedEvent}
    (h : Updates chapterID path username db (.call (.updateTraining e))) :
    (db.after (.call (.updateTraining e))).trainingCards.find? (chapterID, path, username) =
        some ⟨chapterID, path, username, e.card⟩ ∧
      (db.after (.call (.updateTraining e))).moves.has (chapterID, path) = true := by
  obtain ⟨rfl, rfl, rfl, db', hw⟩ := h
  obtain ⟨hhas, rfl⟩ := Db.updateTrainingState_ok hw
  rw [Db.after, Call.whole, hw]
  exact ⟨Table.find?_upsert.trans (if_pos rfl), hhas⟩

/-! ## Histories -/

theorem run_concat (ops : List Mutation) (op : Mutation) :
    run Db.after db (ops ++ [op]) = (run Db.after db ops).after op := by
  rw [run_append]
  rfl

/-- The last call of a history brings the card, or it leaves alone the one that was there. -/
theorem lastUpdate_concat :
    LastUpdate chapterID path username db (ops ++ [op]) card ↔
      ((run Db.after db ops).after op).moves.has (chapterID, path) = true ∧
      ((∃ e, op = .call (.updateTraining e) ∧ e.card = card ∧ Updates chapterID path username (run Db.after db ops) op) ∨
        (¬ Updates chapterID path username (run Db.after db ops) op ∧
          (run Db.after db ops).moves.has (chapterID, path) = true ∧ LastUpdate chapterID path username db ops card)) := by
  unfold LastUpdate
  rw [run_concat]
  refine and_congr_right fun hhas => ⟨?_, ?_⟩
  · rintro ⟨earlier, e, later, hops, hcard, hupdates, hlater⟩
    rcases List.eq_nil_or_concat later with rfl | ⟨later', op', rfl⟩
    · obtain ⟨rfl, hop⟩ := List.append_inj' hops rfl
      cases hop
      exact Or.inl ⟨e, rfl, hcard, hupdates⟩
    · rw [List.concat_eq_append] at hops hlater
      rw [← List.cons_append, ← List.append_assoc] at hops
      obtain ⟨rfl, hop⟩ := List.append_inj' hops rfl
      cases hop
      rw [meets_append, ← run_append, List.append_assoc, List.singleton_append] at hlater
      obtain ⟨hlater, ⟨hno, hins⟩, -⟩ := hlater
      have hthere : (run Db.after db (earlier ++ .call (.updateTraining e) :: later')).moves.has (chapterID, path) = true := by
        by_contra habsent
        exact hins ⟨Bool.eq_false_iff.mpr habsent, hhas⟩
      exact Or.inr ⟨hno, hthere, hthere, earlier, e, later', rfl, hcard, hupdates, hlater⟩
  · rintro (⟨e, rfl, hcard, hupdates⟩ | ⟨hno, hthere, -, earlier, e, later, rfl, hcard, hupdates, hlater⟩)
    · exact ⟨ops, e, [], rfl, hcard, hupdates, trivial⟩
    · refine ⟨earlier, e, later ++ [op], by simp, hcard, hupdates, meets_append.mpr ⟨hlater, ⟨?_, ?_⟩, trivial⟩⟩
      · rwa [← run_append, List.append_assoc, List.singleton_append]
      · rw [← run_append, List.append_assoc, List.singleton_append]
        intro hins
        rw [hins.1] at hthere
        cases hthere

/-- The stored cards are those of the last updates. -/
theorem find?_card_run (users : Users) (collaborators : Table CollaboratorRow.key) (ops : List Mutation) :
    (run Db.after (Db.fresh users collaborators) ops).trainingCards.find? (chapterID, path, username) =
        some ⟨chapterID, path, username, card⟩ ↔
      LastUpdate chapterID path username (Db.fresh users collaborators) ops card := by
  induction ops using List.reverseRecOn with
  | nil =>
      refine iff_of_false (fun h => by cases h) ?_
      rintro ⟨h, -⟩
      cases h
  | append_singleton ops op ih =>
      have href := referenced_run (referenced_fresh users collaborators) ops
      rw [lastUpdate_concat, run_concat]
      by_cases hupdates : Updates chapterID path username (run Db.after (Db.fresh users collaborators) ops) op
      · obtain ⟨e, rfl⟩ : ∃ e, op = .call (.updateTraining e) := by
          cases op with
          | createChapter event => cases hupdates
          | deleteChapter id => cases hupdates
          | call c =>
              cases c with
              | addMove e => cases hupdates
              | deleteNode e => cases hupdates
              | setComment c p t => cases hupdates
              | updateTraining e => exact ⟨e, rfl⟩
        obtain ⟨hfind, hhas⟩ := card_of_updates hupdates
        rw [hfind]
        constructor
        · intro h
          cases h
          exact ⟨hhas, Or.inl ⟨e, rfl, rfl, hupdates⟩⟩
        · rintro ⟨-, ⟨e', he, rfl, -⟩ | ⟨hno, -⟩⟩
          · cases he
            rfl
          · exact absurd hupdates hno
      · rw [href.card_after hupdates]
        constructor
        · intro h
          split at h
          · rename_i hhas
            exact ⟨hhas, Or.inr ⟨hupdates, (ih.mp h).1, ih.mp h⟩⟩
          · cases h
        · rintro ⟨hhas, ⟨e, rfl, -, h⟩ | ⟨-, -, h⟩⟩
          · exact absurd h hupdates
          · rw [if_pos hhas]
            exact ih.mpr h

/-! ## Reads -/

variable {id p u : Text} {x : Option CardData}

theorem mem_cardsAt : (u, x) ∈ cardsAt (db.loadCards id) p ↔
    ∃ card, x = some card ∧ db.trainingCards.find? (id, p, u) = some ⟨id, p, u, card⟩ := by
  simp only [cardsAt, Db.loadCards, List.mem_map, List.mem_filter, decide_eq_true_eq, Prod.mk.injEq, Table.find?_eq_some]
  constructor
  · rintro ⟨c, ⟨⟨hc, rfl⟩, rfl⟩, rfl, rfl⟩
    exact ⟨c.card, rfl, hc, rfl⟩
  · rintro ⟨card, rfl, hc, -⟩
    exact ⟨_, ⟨⟨hc, rfl⟩, rfl⟩, rfl, rfl⟩

theorem nodup_cardsAt : ((cardsAt (db.loadCards id) p).map Prod.fst).Nodup := by
  rw [cardsAt, Db.loadCards, List.filter_filter, List.map_map]
  refine List.Nodup.map_on (fun c hc d hd he => ?_) (List.Nodup.filter _ db.trainingCards.nodup.of_map)
  obtain ⟨hc, hck⟩ := List.mem_filter.mp hc
  obtain ⟨hd, hdk⟩ := List.mem_filter.mp hd
  simp only [Bool.and_eq_true, decide_eq_true_eq] at hck hdk
  refine List.inj_on_of_nodup_map db.trainingCards.nodup hc hd ?_
  exact Prod.ext (hck.2.trans hdk.2.symm) (Prod.ext (hck.1.trans hdk.1.symm) he)

/-- The card of a user on a path is the one of their row. -/
theorem lookup_cardsAt : (cardsAt (db.loadCards id) p).lookup u = (db.trainingCards.find? (id, p, u)).map fun r => some r.card := by
  refine Option.ext fun x => ?_
  have hmem : (cardsAt (db.loadCards id) p).lookup u = some x ↔ (u, x) ∈ cardsAt (db.loadCards id) p := by
    rw [List.lookup_eq_some_iff]
    constructor
    · rintro ⟨l₁, l₂, hl, -⟩
      rw [hl]
      exact List.mem_append_right _ List.mem_cons_self
    · intro hx
      obtain ⟨l₁, l₂, hl⟩ := List.append_of_mem hx
      refine ⟨l₁, l₂, hl, fun e he => ?_⟩
      have hnodup := @nodup_cardsAt db id p
      rw [hl, List.map_append, List.map_cons, List.nodup_append] at hnodup
      simpa using (hnodup.2.2 e.1 (List.mem_map_of_mem he) u List.mem_cons_self).symm
  rw [hmem, mem_cardsAt]
  constructor
  · rintro ⟨card, rfl, hcard⟩
    rw [hcard]
    rfl
  · intro hx
    obtain ⟨r, hr, rfl⟩ := Option.map_eq_some_iff.mp hx
    have hkey := (Table.find?_eq_some.mp hr).2
    obtain ⟨rc, rp, ru, card⟩ := r
    cases hkey
    exact ⟨card, rfl, hr⟩

/-- The entry of a path: nothing, or the row with its cards. -/
theorem get_rowsOf (db : Db) (id p : Text) : (db.moves.has (id, p) = false ∧ (db.rowsOf id).get p = TrainingData.zero) ∨
    ∃ m ∈ db.moves.rows, m.chapterId = id ∧ m.path = p ∧ (db.rowsOf id).get p =
      { m.trainingData with
        training := if (db.loadCards id).any (fun c => c.path = p) then some (cardsAt (db.loadCards id) p) else none } := by
  have hfind : (db.rowsOf id).find? p = ((db.loadMoves id).find? p).map fun e =>
      if (db.loadCards id).any (fun c => c.path = e.1) then setTraining (db.loadCards id) e else e := by
    rw [Db.rowsOf, mergeCardsIntoMoves, Table.find?_update]
  cases hload : (db.loadMoves id).find? p with
  | none =>
      refine Or.inl ⟨Bool.eq_false_iff.mpr fun hhas => ?_, ?_⟩
      · have hrows := @has_mergeCards db id p []
        rw [mergeCardsIntoMoves, Table.has_update, Table.has, hload] at hrows
        cases hrows.mpr hhas
      · rw [PathMap.get, hfind, hload]
        rfl
  | some e =>
      obtain ⟨he, hk⟩ := Table.find?_eq_some.mp hload
      obtain ⟨m, hm, hc, rfl⟩ := exists_row_loadMoves he
      refine Or.inr ⟨m, hm, hc, hk, ?_⟩
      rw [PathMap.get, hfind, hload, Option.map_some]
      have hk' : m.path = p := hk
      subst hk'
      simp only
      split <;> rfl

theorem mem_training (hr : Referenced db) : (u, x) ∈ ((db.rowsOf id).get p).training.getD [] ↔
    ∃ card, x = some card ∧ db.trainingCards.find? (id, p, u) = some ⟨id, p, u, card⟩ := by
  rcases get_rowsOf db id p with ⟨hno, hget⟩ | ⟨m, -, -, -, hget⟩
  · rw [hget, hr.find?_card hno]
    refine iff_of_false (fun h => by cases h) ?_
    rintro ⟨_, -, h⟩
    cases h
  · rw [hget, ← mem_cardsAt]
    split
    · rfl
    · rename_i hany
      refine iff_of_false (fun h => by cases h) fun h => hany ?_
      obtain ⟨c, hc, -⟩ := List.mem_map.mp h
      obtain ⟨hc, hp⟩ := List.mem_filter.mp hc
      exact List.any_eq_true.mpr ⟨c, hc, hp⟩

theorem nodup_training : ((((db.rowsOf id).get p).training.getD []).map Prod.fst).Nodup := by
  rcases get_rowsOf db id p with ⟨-, hget⟩ | ⟨m, -, -, -, hget⟩
  · rw [hget]
    exact List.nodup_nil
  · rw [hget]
    simp only
    split
    · exact nodup_cardsAt
    · exact List.nodup_nil

/-- A read of a chapter after a history: one node for the root and one for each move, under its path and with its row,
and for each node the cards of the last updates, one for a user, and no others. -/
structure Shows (order : PathOrder) (start : Db) (ops : List Mutation) (r : ChapterTreeResponse) (t : BuildNode) : Prop where
  built : buildNodes ((run Db.after start ops).rowsOf r.uuid) (order.paths ((run Db.after start ops).rowsOf r.uuid)) = some t
  root : r.root = t.response
  once : (t.labels.map Prod.fst).Nodup
  paths : ∀ p, p ∈ t.labels.map Prod.fst ↔ p = [] ∨ (run Db.after start ops).moves.has (r.uuid, p) = true
  rows : ∀ l ∈ t.labels, ∀ m ∈ (run Db.after start ops).moves.rows, m.chapterId = r.uuid → m.path = l.1 →
    { l.2 with training := none } = m.trainingData
  users : ∀ l ∈ t.labels, ((l.2.training.getD []).map Prod.fst).Nodup
  cards : ∀ l ∈ t.labels, ∀ u x, (u, x) ∈ l.2.training.getD [] ↔
    ∃ card, x = some card ∧ LastUpdate r.uuid l.1 u start ops card

theorem chapterTree_ok {order : PathOrder} {c : ChapterRow} {r : ChapterTreeResponse} (h : db.chapterTree order c = some r) :
    ∃ t, buildNodes (db.rowsOf c.uuid) (order.paths (db.rowsOf c.uuid)) = some t ∧
      r = ⟨c.uuid, c.name, c.trainAs, t.response⟩ := by
  rw [Db.chapterTree, buildTree] at h
  obtain ⟨root, hroot, rfl⟩ := Option.map_eq_some_iff.mp h
  obtain ⟨t, ht, rfl⟩ := Option.map_eq_some_iff.mp hroot
  exact ⟨t, ht, rfl⟩

theorem shows_of_chapterTree {users : Users} {collaborators : Table CollaboratorRow.key} {order : PathOrder}
    {c : ChapterRow} {r : ChapterTreeResponse}
    (h : (run Db.after (Db.fresh users collaborators) ops).chapterTree order c = some r) :
    r.uuid = c.uuid ∧ ∃ t, Shows order (Db.fresh users collaborators) ops r t := by
  have href := referenced_run (referenced_fresh users collaborators) ops
  obtain ⟨t, ht, rfl⟩ := chapterTree_ok h
  have hperm := order.perm ((run Db.after (Db.fresh users collaborators) ops).rowsOf c.uuid)
  have hnodup := hperm.nodup_iff.mpr (Table.nodup _)
  have hpaths := paths_buildNodes hnodup ht
  have hget : ∀ l ∈ t.labels, l.2 = ((run Db.after (Db.fresh users collaborators) ops).rowsOf c.uuid).get l.1 := by
    intro l hl
    rcases List.mem_cons.mp ((labels_buildNodes hnodup ht).mem_iff.mp hl) with rfl | hl
    · rfl
    · obtain ⟨p, -, rfl⟩ := List.mem_map.mp hl
      rfl
  refine ⟨rfl, t, ht, rfl, ?_, fun p => ?_, fun l hl m hm hc hp => ?_, fun l hl => ?_, fun l hl u x => ?_⟩
  · rw [hpaths.nodup_iff, List.nodup_cons]
    exact ⟨fun h0 => of_decide_eq_true (List.mem_filter.mp h0).2 rfl, hnodup.filter _⟩
  · rw [hpaths.mem_iff, List.mem_cons, List.mem_filter, hperm.mem_iff, List.mem_map, ← Table.has_iff, Db.rowsOf,
      has_mergeCards]
    by_cases hp : p = [] <;> simp [hp]
  · rw [hget l hl]
    rcases get_rowsOf (run Db.after (Db.fresh users collaborators) ops) c.uuid l.1 with ⟨hno, -⟩ | ⟨m', hm', hc', hp', hentry⟩
    · rw [← hp, Db.has_move_iff.mpr ⟨m, hm, hc, rfl⟩] at hno
      cases hno
    · have hsame : m' = m := List.inj_on_of_nodup_map (Table.nodup _) hm' hm
        (Prod.ext (hc'.trans hc.symm) (hp'.trans hp.symm))
      rw [hentry, hsame]
      rfl
  · rw [hget l hl]
    exact nodup_training
  · rw [hget l hl, mem_training href]
    exact exists_congr fun card => and_congr_right fun _ => find?_card_run users collaborators ops

end Chessrepeat.Store
