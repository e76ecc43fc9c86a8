import Chessrepeat.Store.Lemmas.Closed
import Chessrepeat.Store.Lemmas.Cap
import Chessrepeat.Store.Lemmas.Order
import Chessrepeat.Store.Lemmas.Cards

/-!
# What holds of the store
-/

namespace Chessrepeat.Store

open Lib Domain

/-! ## Concurrent calls on one chapter -/

/-- The moves of a chapter stay closed under parents, after every statement of every interleaving, exactly
when each `INSERT` still finds the parent its call has looked up. No `DELETE` of a path above that parent
between the look-up and the `INSERT` is enough for it. -/
theorem always_closed {chapterID : Text} {db : Db} (h : Closed chapterID db) (as : List PoolAction) :
    (Always Pool.step (fun w => Closed chapterID w.db) ⟨db, []⟩ as ↔
      Meets Pool.step (InsertFindsParent chapterID) ⟨db, []⟩ as) ∧
    (Meets Pool.step (NoCrossing chapterID) ⟨db, []⟩ as →
      Always Pool.step (fun w => Closed chapterID w.db) ⟨db, []⟩ as) := by
  refine ⟨always_iff_meets (J := fun _ => True) (fun _ _ _ => trivial)
    (fun w a _ hw => Pool.step_closed_iff hw a) trivial h as, fun hc => ?_⟩
  have hinv : Always Pool.step (fun w => Closed chapterID w.db ∧ Attached chapterID w) ⟨db, []⟩ as := by
    refine hc.always (fun w a hw ha => ⟨?_, Pool.step_attached hw.2 ha⟩) ⟨h, fun proc hp => by cases hp⟩
    refine (Pool.step_closed_iff hw.1 a).mpr ?_
    intro proc hproc e he hch _
    by_cases hp : e.path = []
    · exact Or.inl hp
    · exact Or.inr (Or.inr (hw.2 proc (Pool.running_mem hproc) e (Proc.attaching_of_inserting he) hch hp))
  exact hinv.mono fun w hw => hw.1

/-- One chapter with the move `e4` of its owner. -/
def oneMove : Db :=
  { Db.empty with
    users := ⟨⟨[⟨['o'], some ['a', 'n', 'n'], [], 1⟩], by decide⟩, by decide⟩
    chapters := ⟨[⟨['c'], ['o'], ['x'], ['w']⟩], by decide⟩
    moves := ⟨[⟨['c'], ['/', '?'], ['/', '?'], [], 1, ['e', '4'], [], true⟩], by decide⟩ }

theorem oneMove_closed : Closed ['c'] oneMove := by
  intro m hm _ _
  rw [List.mem_singleton.mp hm]
  exact ⟨[], rfl, Or.inl rfl⟩

/-- The reply to `e4`. -/
def reply : MoveEvent := ⟨['c'], ⟨['W', 'G'], [], 2, ['e', '5'], [], true, none⟩, ['/', '?']⟩

/-- A reply to `e4` is added while `e4` is deleted: the parent check, the deletion, the insert. -/
def crossing : List PoolAction :=
  [.call (.addMove reply), .call (.deleteNode ⟨['c'], ['/', '?']⟩), .exec 0, .exec 1, .exec 1, .exec 0,
    .exec 0, .exec 0, .exec 0]

theorem crossing_leaves_orphan :
    Closed ['c'] oneMove ∧ ¬ Always Pool.step (fun w => Closed ['c'] w.db) ⟨oneMove, []⟩ crossing := by
  refine ⟨oneMove_closed, fun h => ?_⟩
  have hrow : ⟨['c'], ['/', '?', 'W', 'G'], ['W', 'G'], [], 2, ['e', '5'], [], true⟩ ∈
      (run Pool.step ⟨oneMove, []⟩ crossing).db.moves.rows := by decide
  obtain ⟨parent, he, hpar⟩ := h.last _ hrow rfl (by decide)
  have hp : parent = ['/', '?'] := (List.append_left_inj ['W', 'G']).mp he.symm
  subst hp
  exact absurd hpar (by decide)

/-- The statements of a deletion fall between those of two replies: it deletes `e4` when the first is there, and before the
second has looked it up. -/
def interleaved : List PoolAction :=
  [.call (.addMove reply), .call (.deleteNode ⟨['c'], ['/', '?']⟩), .exec 0, .exec 1, .exec 0, .exec 0,
    .call (.addMove { reply with move := { reply.move with id := ['X', 'H'] } }), .exec 0, .exec 0, .exec 1, .exec 2]

theorem interleaved_closed : Meets Pool.step (NoCrossing ['c']) ⟨oneMove, []⟩ interleaved ∧
    Always Pool.step (fun w => Closed ['c'] w.db) ⟨oneMove, []⟩ interleaved :=
  have h : Meets Pool.step (NoCrossing ['c']) ⟨oneMove, []⟩ interleaved := by decide
  ⟨h, (always_closed oneMove_closed interleaved).2 h⟩

/-! ## Trees in rows -/

/-- The owner and no chapter yet. -/
def noChapter : Db :=
  { Db.empty with users := ⟨⟨[⟨['o'], some ['a', 'n', 'n'], [], 1⟩], by decide⟩, by decide⟩ }

theorem noChapter_referenced : Referenced noChapter := ⟨fun _ h => (by cases h), fun _ h => (by cases h)⟩

def posted (children : List ChapterTreeNode) : ChapterEvent :=
  ⟨['c'], ['o'], ['x'], ['w'], .mk ⟨[], [], 0, [], [], false, none⟩ children⟩

/-- `e4` as the mainline and `d4` as the sideline. -/
def firstMoves : List ChapterTreeNode :=
  [.mk ⟨['/', '?'], [], 1, ['e', '4'], [], true, none⟩ [], .mk ⟨['.', '>'], [], 1, ['d', '4'], [], false, none⟩ []]

theorem firstMoves_keyed : (posted firstMoves).root.Keyed := by
  refine .mk (fun c hc => ?_) (by decide) (by decide)
  rcases List.mem_pair.mp hc with rfl | rfl <;>
    exact .mk (fun _ h => (by cases h)) (fun _ h => (by cases h)) List.nodup_nil

/-- Flattening and building are inverse to each other, up to the order of siblings. -/
theorem buildTree_flattenTree (order : PathOrder) :
    (∀ t : ChapterTreeNode, t.Keyed →
      ∃ moves t', flattenTree t = some moves ∧ buildTree order moves = some t' ∧ t'.Reordered t) ∧
    (∀ moves : PathMap, moves.Rooted →
      ∃ t moves', buildTree order moves = some t ∧ flattenTree t = some moves' ∧ moves'.rows.Perm moves.rows) := by
  refine ⟨fun t h => ?_, fun moves h => ?_⟩
  · obtain ⟨moves, hflat, hperm⟩ := flattenTree_keyed h
    have hspell := spelling_located h []
    obtain ⟨u, hu, hs, hd, hroot, hlabels⟩ :=
      exists_built order (rooted_of_perm hspell (ids_located h []) (fst_label_located [] t) hperm)
    have hall := hlabels.trans hperm
    have hlabel : u.label = (located [] t).label :=
      List.inj_on_of_nodup_map hd (Rose.label_mem_labels u) (hall.mem_iff.mpr (Rose.label_mem_labels _))
        (hroot.trans (fst_label_located [] t).symm)
    refine ⟨moves, u.response, hflat, by rw [buildTree, hu, Option.map_some], ?_⟩
    rw [← response_located h []]
    exact reordered_response (Rose.Spelled.reordered hs hspell hd hlabel hall)
  · obtain ⟨u, hu, hs, hd, hroot, hlabels⟩ := exists_built order h
    obtain ⟨moves', hflat, hperm⟩ := flattenTree_response hs hd hroot
    exact ⟨u.response, moves', by rw [buildTree, hu, Option.map_some], hflat, hperm.trans hlabels⟩

/-- The rows of a chapter whose only move is `e4`. -/
def oneEntry : PathMap :=
  ⟨[([], .zero), (['/', '?'], ⟨['/', '?'], [], 1, ['e', '4'], [], true, none⟩)], by decide⟩

theorem oneEntry_rooted : oneEntry.Rooted := by
  refine ⟨by decide, fun e he he0 => ?_⟩
  rcases List.mem_pair.mp he with rfl | rfl
  · exact absurd rfl he0
  · exact ⟨rfl, [], rfl, by decide⟩

theorem firstMoves_rebuilt :
    (∃ moves t', flattenTree (posted firstMoves).root = some moves ∧ buildTree .insertion moves = some t' ∧
      t'.Reordered (posted firstMoves).root) ∧
    ∃ t moves', buildTree .insertion oneEntry = some t ∧ flattenTree t = some moves' ∧ moves'.rows.Perm oneEntry.rows :=
  ⟨(buildTree_flattenTree .insertion).1 _ firstMoves_keyed, (buildTree_flattenTree .insertion).2 _ oneEntry_rooted⟩

/-- A chapter is read back as the posted tree up to the order of siblings, and under every order of rows and of map
keys with the siblings as posted exactly when their ids get longer from one to the next. -/
theorem siblings_kept {db db' : Db} {event : ChapterEvent} (hr : Referenced db) (hk : event.root.Keyed)
    (h : db.createChapter event = some (.ok db')) :
    (∀ order, ∃ t, db'.readChapterAsTree order event.chapterID =
        some (some ⟨event.chapterID, event.name, event.trainAs, t⟩) ∧ t.Reordered event.root.untrained) ∧
    ((∀ order, db'.readChapterAsTree order event.chapterID =
        some (some ⟨event.chapterID, event.name, event.trainAs, event.root.untrained⟩)) ↔
      LengthOrdered event.root) := by
  refine ⟨fun order => ?_, reads_posted_iff hr hk h⟩
  have hk' := keyed_untrained hk
  obtain ⟨u, -, hs, hroot, hp, hread⟩ := readChapterAsTree_createChapter hr hk h order
  refine ⟨u.response, hread, ?_⟩
  rw [← response_located hk' []]
  exact reordered_response (Rose.Spelled.reordered hs (spelling_located hk' [])
    ((hp.map Prod.fst).nodup_iff.mpr (nodup_located hk' [])) hroot hp)

theorem firstMoves_order_lost : ∃ db', noChapter.createChapter (posted firstMoves) = some (.ok db') ∧
    ¬ ∀ order, db'.readChapterAsTree order ['c'] =
      some (some ⟨['c'], ['x'], ['w'], (posted firstMoves).root.untrained⟩) := by
  refine ⟨_, rfl, fun h => ?_⟩
  have hlen := (reads_posted_iff noChapter_referenced firstMoves_keyed rfl).mp h
  obtain ⟨hordered, -⟩ := hlen
  exact absurd hordered (by decide)

/-- A pawn on g7 becomes a queen, or in the sideline a knight, whose id takes a byte more. -/
def promotions : List ChapterTreeNode :=
  [.mk ⟨['Y', 'i'], [], 1, ['g', '8', '=', 'Q'], [], true, none⟩ [],
    .mk ⟨['Y', Char.ofNat 0x81], [], 1, ['g', '8', '=', 'N'], [], true, none⟩ []]

theorem promotions_kept : ∃ db', noChapter.createChapter (posted promotions) = some (.ok db') ∧
    ∀ order, db'.readChapterAsTree order ['c'] = some (some ⟨['c'], ['x'], ['w'], (posted promotions).root.untrained⟩) := by
  have hkeyed : (posted promotions).root.Keyed := by
    refine .mk (fun c hc => ?_) (by decide) (by decide)
    rcases List.mem_pair.mp hc with rfl | rfl <;>
      exact .mk (fun _ h => (by cases h)) (fun _ h => (by cases h)) List.nodup_nil
  refine ⟨_, rfl, (siblings_kept noChapter_referenced hkeyed rfl).2.mpr (.mk (by decide) fun c hc => ?_)⟩
  rcases List.mem_pair.mp hc with rfl | rfl <;> exact .mk List.Pairwise.nil (fun _ h => by cases h)

/-! ## The cap on moves -/

/-- No add has passed its count when `CreateChapter` commits. -/
def CommitsAlone (chapterID : Text) (w : Creation) (a : CreationAction) : Prop :=
  ∀ moves, a = .create → w.create = .commit moves → w.pool.admittedPaths chapterID = ∅

/-- The adds in flight can take a chapter past its cap by their number, and by one less where none of them has passed
its count before the chapter is there. An add that finds its path is not refused. -/
theorem moves_capped {event : ChapterEvent} {db : Db} {m k : Nat} (hr : Referenced db)
    (hm : db.ownerLimitMultiplier event.ownerID = m)
    (howner : ∀ c, db.chapters.find? event.chapterID = some c → c.ownerId = event.ownerID)
    (hrows : db.chapterMoveCount event.chapterID ≤ maxMovesPerChapter * m) {as : List CreationAction}
    (hk : Always (Creation.step event) (fun w => w.pool.addsInFlight event.chapterID ≤ k) (.start db) as) :
    Always (Creation.step event) (fun w => w.pool.db.chapterMoveCount event.chapterID ≤ maxMovesPerChapter * m + k)
      (.start db) as ∧
    (1 ≤ k → Meets (Creation.step event) (CommitsAlone event.chapterID) (.start db) as →
      Always (Creation.step event)
        (fun w => w.pool.db.chapterMoveCount event.chapterID ≤ maxMovesPerChapter * m + (k - 1)) (.start db) as) ∧
    ∀ (w : Creation) (i : Nat) (e : MoveEvent), w.pool.procs[i]? = some (.moveExists e) →
      w.pool.db.pathExists e.chapterID (e.path ++ e.move.id) = true → ∀ bs,
      Always (Creation.step event) (fun w' => w'.pool.procs[i]? ≠ some (.returned (.error .chapterMoveLimit)))
        (w.step event (.pool (.exec i))) bs := by
  have hquota : (Creation.start db).Quota event m := by
    refine ⟨fun e mult h => (by cases h), ?_, hm.le, fun hmiss => ?_, trivial⟩
    · change db.chapterOwnerMultiplier event.chapterID ≤ m
      have hpos := one_le_ownerLimitMultiplier db event.ownerID
      rw [Db.chapterOwnerMultiplier]
      split
      · exact hm ▸ hpos
      · exact (howner _ ‹_›) ▸ hm.le
    · refine Finset.eq_empty_of_forall_notMem fun p hp => ?_
      obtain ⟨r, hrow, hc, -⟩ := Db.has_move_iff.mp (Db.mem_storedPaths.mp hp).2
      have hhas := hr.moves r hrow
      rw [hc] at hhas
      exact absurd (hhas.symm.trans hmiss) (by decide)
  have hclaimed : ((Creation.start db).pool.keys event.chapterID).claimed.card ≤ maxMovesPerChapter * m := by
    have hnone : (Creation.start db).pool.admittedPaths event.chapterID = ∅ := rfl
    rw [Admission.State.claimed, Pool.keys, hnone, Finset.union_empty, Db.card_storedPaths]
    exact hrows
  refine ⟨?_, fun hpos hc => ?_, fun w i e hi hex bs => ?_⟩
  · refine Creation.always_count hquota (hclaimed.trans (Nat.le_add_right _ k)) (hk.mono fun w hw => Nat.le_succ_of_le hw) ?_
    exact hk.meets.mono fun w a hw _ _ _ => (Pool.card_admittedPaths_le _).trans hw.1
  · refine Creation.always_count hquota (hclaimed.trans (Nat.le_add_right _ _)) (hk.mono fun w hw => hw.trans (by omega)) ?_
    refine hc.mono fun w a ha moves hact hcommit => ?_
    rw [ha moves hact hcommit]
    exact Nat.zero_le _
  · have hstart : (w.step event (.pool (.exec i))).pool.PastCapAt i := by
      have hlt : i < w.pool.procs.length := (List.getElem?_eq_some_iff.mp hi).1
      refine ⟨.insert e, ?_, trivial⟩
      simp only [Creation.step, Pool.step, hi, Proc.exec, hex, if_true, List.getElem?_set_self hlt]
    have hstep : ∀ (w : Creation) a, w.pool.PastCapAt i → (w.step event a).pool.PastCapAt i := fun w a hw => by
      cases a with
      | pool a => exact hw.step a
      | create => exact hw
      | fail => exact hw
    refine (always_of_step hstep hstart bs).mono fun w hw hret => ?_
    obtain ⟨proc, hproc, hpast⟩ := hw
    rw [hproc] at hret
    cases hret
    exact hpast rfl

/-- A chapter is created, and then one move is added to it. -/
def createdThenAdded : List CreationAction :=
  [.create, .create, .create, .create, .create, .create, .pool (.call (.addMove reply)), .pool (.exec 0), .pool (.exec 0),
    .pool (.exec 0), .pool (.exec 0), .pool (.exec 0)]

theorem sequential_capped :
    Always (Creation.step (posted firstMoves)) (fun w => w.pool.addsInFlight ['c'] ≤ 1) (.start noChapter) createdThenAdded ∧
    Always (Creation.step (posted firstMoves))
      (fun w => w.pool.db.chapterMoveCount ['c'] ≤ maxMovesPerChapter * 1 + (1 - 1)) (.start noChapter) createdThenAdded := by
  have hflight : Always (Creation.step (posted firstMoves)) (fun w => w.pool.addsInFlight ['c'] ≤ 1) (.start noChapter)
      createdThenAdded := by decide
  refine ⟨hflight, (moves_capped noChapter_referenced rfl (fun c h => (by cases h)) (by decide) hflight).2.1 (Nat.le_refl 1) ?_⟩
  exact ⟨fun _ _ _ => rfl, fun _ _ _ => rfl, fun _ _ _ => rfl, fun _ _ _ => rfl, fun _ _ _ => rfl, fun _ _ _ => rfl,
    nofun, nofun, nofun, nofun, nofun, nofun, trivial⟩

/-- A chapter of as many first moves as the cap allows. -/
def crowded : ChapterEvent :=
  posted ((List.range maxMovesPerChapter).map fun i => .mk ⟨[Char.ofNat (0x4E00 + i), 'x'], [], 1, [], [], true, none⟩ [])

def early : MoveEvent := ⟨['c'], ⟨['/', '?'], [], 1, ['e', '4'], [], true, none⟩, []⟩

/-- An add counts the moves of a chapter that is not there yet and is stored when it is there. -/
def lateInsert : List CreationAction :=
  [.pool (.call (.addMove early)), .pool (.exec 0), .pool (.exec 0), .pool (.exec 0)] ++
    (List.replicate 6 .create ++ [.pool (.exec 0)])

theorem crowded_keyed : crowded.root.Keyed := by
  refine .mk (fun c hc => ?_) (fun c hc => ?_) ?_
  · obtain ⟨i, -, rfl⟩ := List.mem_map.mp hc
    exact .mk (fun _ h => (by cases h)) (fun _ h => (by cases h)) List.nodup_nil
  · obtain ⟨i, -, rfl⟩ := List.mem_map.mp hc
    rfl
  · rw [List.map_map]
    refine List.Nodup.map_on (fun i hi j hj h => ?_) List.nodup_range
    have hi := List.mem_range.mp hi
    have hj := List.mem_range.mp hj
    have hchar : Char.ofNat (0x4E00 + i) = Char.ofNat (0x4E00 + j) := (List.cons.inj h).1
    have hnat : ∀ {n}, n < maxMovesPerChapter → (Char.ofNat (0x4E00 + n)).toNat = 0x4E00 + n := fun {n} hn => by
      have hvalid : (0x4E00 + n).isValidChar := Or.inl (by unfold maxMovesPerChapter at hn; omega)
      rw [Char.ofNat, dif_pos hvalid]
      rfl
    have := congrArg Char.toNat hchar
    rw [hnat hi, hnat hj] at this
    omega

/-- The paths of the chapter: the root's and those of its moves. -/
theorem paths_crowded : (located [] crowded.root).labels.map Prod.fst =
    [] :: (List.range maxMovesPerChapter).map fun i => [Char.ofNat (0x4E00 + i), 'x'] := by
  have hleaf : ∀ cs : List ChapterTreeNode, (∀ c ∈ cs, ∃ data, c = .mk data []) →
      (Rose.labelsList (locatedList [] cs)).map Prod.fst = cs.map ChapterTreeNode.id := fun cs h => by
    induction cs with
    | nil => rfl
    | cons c cs ih =>
        obtain ⟨data, rfl⟩ := h c List.mem_cons_self
        rw [locatedList, Rose.labelsList_cons, List.map_append, ih fun d hd => h d (List.mem_cons_of_mem _ hd)]
        rfl
  rw [crowded, posted, located, Rose.labels_node, List.map_cons, hleaf, List.map_map]
  · rfl
  · intro c hc
    obtain ⟨i, -, rfl⟩ := List.mem_map.mp hc
    exact ⟨_, rfl⟩

theorem crowded_accepted : ∃ db, noChapter.createChapter crowded = some (.ok db) := by
  refine exists_createChapter noChapter_referenced crowded_keyed (by decide) (by decide) (by decide) ?_
  have hlen := congrArg List.length paths_crowded
  rw [List.length_map, List.length_cons, List.length_map, List.length_range] at hlen
  have hmult : noChapter.ownerLimitMultiplier crowded.ownerID = 1 := by decide
  rw [hlen, hmult, Nat.mul_one]

/-- The chapter is full when it is there. -/
theorem count_crowded {db : Db} (h : noChapter.createChapter crowded = some (.ok db)) :
    db.chapterMoveCount ['c'] = maxMovesPerChapter := by
  have hhas : ∀ p, db.moves.has (['c'], p) = true ↔ p ∈ (located [] crowded.root).labels.map Prod.fst := fun p =>
    has_createChapter noChapter_referenced crowded_keyed h
  have hinsert : insert [] (db.storedPaths ['c']) = ((located [] crowded.root).labels.map Prod.fst).toFinset := by
    ext p
    rw [Finset.mem_insert, Db.mem_storedPaths, hhas, List.mem_toFinset, paths_crowded, List.mem_cons]
    exact ⟨fun h => h.elim Or.inl And.right, fun h => or_iff_not_imp_left.mpr fun h0 => ⟨h0, h⟩⟩
  have hlen : ((located [] crowded.root).labels.map Prod.fst).length = maxMovesPerChapter + 1 := by
    rw [paths_crowded, List.length_cons, List.length_map, List.length_range]
  have hnew : [] ∉ db.storedPaths ['c'] := fun hp => (Db.mem_storedPaths.mp hp).1 rfl
  have hcard : (insert [] (db.storedPaths ['c'])).card = maxMovesPerChapter + 1 := by
    rw [hinsert, List.toFinset_card_of_nodup (nodup_located crowded_keyed []), hlen]
  rw [Finset.card_insert_of_notMem hnew, Db.card_storedPaths] at hcard
  exact Nat.succ.inj hcard

theorem crowded_overshoots :
    Always (Creation.step crowded) (fun w => w.pool.addsInFlight ['c'] ≤ 1) (.start noChapter) lateInsert ∧
    ¬ Always (Creation.step crowded) (fun w => w.pool.db.chapterMoveCount ['c'] ≤ maxMovesPerChapter * 1 + (1 - 1))
      (.start noChapter) lateInsert := by
  obtain ⟨db, hdb⟩ := crowded_accepted
  refine ⟨⟨Nat.zero_le 1, ?_⟩, fun hall => ?_⟩
  · have hstep : ∀ (w : Creation) a, w.pool.procs.length ≤ 1 → (∀ c, a ≠ .pool (.call c)) →
        (w.step crowded a).pool.procs.length ≤ 1 := fun w a hw ha => by
      cases a with
      | create => exact hw
      | fail => exact hw
      | pool a =>
          cases a with
          | call c => exact absurd rfl (ha c)
          | fail i => exact (List.length_set ..).trans_le hw
          | exec i =>
              cases hi : w.pool.procs[i]? with
              | none => simpa only [Creation.step, Pool.step, hi] using hw
              | some proc => simpa only [Creation.step, Pool.step, hi, List.length_set] using hw
    have hcalls : Meets (Creation.step crowded) (fun _ a => ∀ c, a ≠ .pool (.call c))
        ((Creation.start noChapter).step crowded (.pool (.call (.addMove early)))) lateInsert.tail := by
      simp [lateInsert, Meets, List.replicate]
    have hone : ((Creation.start noChapter).step crowded (.pool (.call (.addMove early)))).pool.procs.length ≤ 1 :=
      Nat.le_refl 1
    exact (hcalls.always hstep hone).mono fun w hw => List.countP_le_length.trans hw
  · have hlast := hall.last
    have hadd : run (Creation.step crowded) (.start noChapter)
        [.pool (.call (.addMove early)), .pool (.exec 0), .pool (.exec 0), .pool (.exec 0)] =
        ⟨⟨noChapter, [.insert early]⟩, .ownerMultiplier⟩ := rfl
    have hchapter : db.chapters.has ['c'] = true := by
      have hfind : db.chapters.find? ['c'] = some _ := (rows_createChapter noChapter_referenced crowded_keyed hdb).1
      rw [Table.has, hfind]
      rfl
    rw [lateInsert, run_append, hadd, run_append, Creation.run_create, CreateProc.alone_createChapter, hdb] at hlast
    have hupsert : db.upsertMove (moveRow ['c'] (['/', '?'], early.move)) =
        .ok { db with moves := db.moves.upsert (moveRow ['c'] (['/', '?'], early.move)) } := if_pos hchapter
    have hfinal : (run (Creation.step crowded) ⟨⟨db, [.insert early]⟩, .returned (.ok ())⟩ [.pool (.exec 0)]).pool.db =
        { db with moves := db.moves.upsert (moveRow ['c'] (['/', '?'], early.move)) } := by
      change (finish db (db.upsertMove (moveRow ['c'] (['/', '?'], early.move)))).2 = _
      rw [hupsert]
      rfl
    have hnew : ['/', '?'] ∉ db.storedPaths ['c'] := fun hp => by
      have hmem := (has_createChapter noChapter_referenced crowded_keyed hdb).mp (Db.mem_storedPaths.mp hp).2
      rw [paths_crowded, List.mem_cons] at hmem
      obtain ⟨i, -, hi⟩ := List.mem_map.mp (hmem.resolve_left (by decide))
      exact absurd (List.cons.inj (List.cons.inj hi).2).1 (by decide)
    have hstored : insert ['/', '?'] (db.storedPaths ['c']) ⊆
        Db.storedPaths ['c'] { db with moves := db.moves.upsert (moveRow ['c'] (['/', '?'], early.move)) } := fun p hp => by
      rcases Finset.mem_insert.mp hp with rfl | hp
      · exact Db.mem_storedPaths.mpr ⟨by decide, Table.has_upsert.mpr (Or.inl rfl)⟩
      · exact Db.mem_storedPaths.mpr ((Db.mem_storedPaths.mp hp).imp_right fun hhas => Table.has_upsert.mpr (Or.inr hhas))
    have hcard := Finset.card_le_card hstored
    rw [Finset.card_insert_of_notMem hnew, Db.card_storedPaths, Db.card_storedPaths, count_crowded hdb] at hcard
    change Db.chapterMoveCount (run (Creation.step crowded) ⟨⟨db, [.insert early]⟩, .returned (.ok ())⟩ [.pool (.exec 0)]).pool.db
      ['c'] ≤ _ at hlast
    rw [hfinal] at hlast
    omega

/-! ## Prefix deletion -/

/-- The rows at or below a path of a chapter. -/
def AtOrBelow (chapterID path : Text) (m : MoveRow) : Prop := m.chapterId = chapterID ∧ path <+: m.path

instance (chapterID path : Text) (m : MoveRow) : Decidable (AtOrBelow chapterID path m) :=
  inferInstanceAs (Decidable (_ ∧ _))

/-- A deletion takes the rows that have its path as a literal prefix, the cards of these rows, and nothing else. -/
theorem deleteNodeFromChapter_exact (db : Db) (event : NodeDeleteEvent) :
    (∀ s p : Text, Like.like backslash (escapeLike s ++ ['%']) p = true ↔ s <+: p) ∧
    (event.path ≠ [] → db.moves.has (event.chapterID, event.path) = true →
      ∃ db', db.deleteNodeFromChapter event = .ok db' ∧
        db'.moves.rows = db.moves.rows.filter (fun m => ¬ AtOrBelow event.chapterID event.path m) ∧
        db'.trainingCards.rows = db.trainingCards.rows.filter
          (fun c => ¬ ∃ m ∈ db.moves.rows, AtOrBelow event.chapterID event.path m ∧ m.key = (c.chapterId, c.path)) ∧
        db'.chapters = db.chapters ∧ db'.users = db.users ∧ db'.collaborators = db.collaborators) ∧
    (event.path = [] ∨ db.moves.has (event.chapterID, event.path) = false →
      db.deleteNodeFromChapter event = (if event.path = [] then .ok db else .error .pathNotFound) ∧
      (finish db (db.deleteNodeFromChapter event)).2 = db) := by
  have hgone : ∀ m, inSubtree event.chapterID event.path m = decide (AtOrBelow event.chapterID event.path m) :=
    fun m => Bool.eq_iff_iff.mpr (inSubtree_iff.trans (decide_eq_true_iff (p := AtOrBelow _ _ m)).symm)
  refine ⟨fun s p => like_escapeLike, fun hpath hhas => ?_, fun hmiss => ?_⟩
  · have hexists : db.pathExists event.chapterID event.path = true := Db.pathExists_iff.mpr ⟨hpath, hhas⟩
    refine ⟨db.deleteSubtree event.chapterID event.path, if_pos hexists, ?_, ?_, rfl, rfl, rfl⟩
    · refine List.filter_congr fun m _ => ?_
      rw [hgone, decide_not]
    · refine List.filter_congr fun c _ => ?_
      rw [decide_not]
      refine congrArg Bool.not (Bool.eq_iff_iff.mpr ?_)
      simp only [hgone, List.any_eq_true, Bool.and_eq_true, decide_eq_true_eq]
  · have hexists : db.pathExists event.chapterID event.path ≠ true := fun h =>
      hmiss.elim (Db.pathExists_iff.mp h).1 fun hhas => by rw [(Db.pathExists_iff.mp h).2] at hhas; cases hhas
    have hresult : db.deleteNodeFromChapter event = if event.path = [] then .ok db else .error .pathNotFound :=
      if_neg hexists
    refine ⟨hresult, ?_⟩
    rw [hresult]
    split <;> rfl

/-- Two chapters with a move whose id is made of `%` and `_`, in the first one with a move below and one beside it. -/
def wildcards : Db :=
  { Db.empty with
    users := ⟨⟨[⟨['o'], some ['a', 'n', 'n'], [], 1⟩], by decide⟩, by decide⟩
    chapters := ⟨[⟨['c'], ['o'], ['x'], ['w']⟩, ⟨['d'], ['o'], ['y'], ['b']⟩], by decide⟩
    moves := ⟨[⟨['c'], ['%', '_'], ['%', '_'], [], 1, ['e', '4'], [], true⟩,
      ⟨['c'], ['%', '_', backslash, '?'], [backslash, '?'], [], 2, ['e', '5'], [], true⟩,
      ⟨['c'], ['/', '?'], ['/', '?'], [], 1, ['d', '4'], [], true⟩,
      ⟨['d'], ['%', '_'], ['%', '_'], [], 1, ['e', '4'], [], true⟩], by decide⟩
    trainingCards := ⟨[⟨['c'], ['%', '_', backslash, '?'], ['a', 'n', 'n'], ⟨[], 0, 0, 0, 0, 1, 0, 1, []⟩⟩,
      ⟨['c'], ['/', '?'], ['a', 'n', 'n'], ⟨[], 0, 0, 0, 0, 1, 0, 1, []⟩⟩], by decide⟩ }

theorem wildcards_deleted : ∃ db', wildcards.deleteNodeFromChapter ⟨['c'], ['%', '_']⟩ = .ok db' ∧
    db'.moves.rows.map MoveRow.key = [(['c'], ['/', '?']), (['d'], ['%', '_'])] ∧
    db'.trainingCards.rows.map CardRow.key = [(['c'], ['/', '?'], ['a', 'n', 'n'])] := by
  obtain ⟨db', hdb, hmoves, hcards, -⟩ :=
    (deleteNodeFromChapter_exact wildcards ⟨['c'], ['%', '_']⟩).2.1 (by decide) (by decide)
  exact ⟨db', hdb, by rw [hmoves]; decide, by rw [hcards]; decide⟩

/-! ## Training cards -/

/-- After any history, a read shows at each node the cards of the last accepted updates since its move was inserted, and
no others. An update touches the card of one user at one move, moves and comments touch none, and a deletion drops the
cards of its subtree. -/
theorem cards_durable (order : PathOrder) (users : Users) (collaborators : Table CollaboratorRow.key)
    (ops : List Mutation) :
    (∀ id r, (run Db.after (Db.fresh users collaborators) ops).readChapterAsTree order id = some (some r) →
      r.uuid = id ∧ ∃ t, Shows order (Db.fresh users collaborators) ops r t) ∧
    (∀ ownerID rs, (run Db.after (Db.fresh users collaborators) ops).fetchChaptersByOwner order ownerID = some rs →
      ∀ r ∈ rs, ∃ t, Shows order (Db.fresh users collaborators) ops r t) ∧
    ∀ db, db = run Db.after (Db.fresh users collaborators) ops →
      (∀ e k, k ≠ (e.chapterID, e.path, e.username) →
        (db.after (.call (.updateTraining e))).trainingCards.find? k = db.trainingCards.find? k) ∧
      (∀ e, (db.after (.call (.addMove e))).trainingCards = db.trainingCards) ∧
      (∀ c p t, (db.after (.call (.setComment c p t))).trainingCards = db.trainingCards) ∧
      ∀ e id p u, (db.after (.call (.deleteNode e))).trainingCards.find? (id, p, u) =
        if db.pathExists e.chapterID e.path = true ∧ id = e.chapterID ∧ e.path <+: p then none
        else db.trainingCards.find? (id, p, u) := by
  refine ⟨fun id r h => ?_, fun ownerID rs h r hr => ?_, ?_⟩
  · rw [Db.readChapterAsTree] at h
    split at h
    · cases h
    · rename_i c hc
      obtain ⟨r', hr', rfl⟩ : ∃ r', _ = some r' ∧ r' = r := by simpa using h
      obtain ⟨huuid, hshows⟩ := shows_of_chapterTree hr'
      exact ⟨huuid.trans (Table.find?_eq_some.mp hc).2, hshows⟩
  · obtain ⟨c, -, -, hread⟩ := mem_fetchChaptersByOwner h hr
    exact (shows_of_chapterTree hread).2
  · rintro db rfl
    have href := referenced_run (referenced_fresh users collaborators) ops
    generalize run Db.after (Db.fresh users collaborators) ops = db at href ⊢
    refine ⟨fun e k hk => ?_, fun e => ?_, fun c p t => ?_, fun e id p u => ?_⟩
    · rw [Db.after, Call.whole, Db.updateTrainingState]
      split
      · exact Table.find?_upsert.trans (if_neg fun he => hk he.symm)
      · rfl
    · rw [Db.after, Call.whole]
      cases hw : db.addMoveToChapter e with
      | error _ => rfl
      | ok db' =>
          obtain ⟨-, rfl⟩ := Db.addMoveToChapter_ok hw
          rfl
    · rw [Db.after, Call.whole, Db.setComment]
      split <;> rfl
    · rw [Db.after, Call.whole, Db.deleteNodeFromChapter]
      by_cases hexists : db.pathExists e.chapterID e.path = true
      · simp only [hexists, if_true, true_and]
        refine (href.card_cascade (inSubtree e.chapterID e.path)).trans ?_
        by_cases hbelow : id = e.chapterID ∧ e.path <+: p
        · rw [if_pos hbelow]
          exact if_neg fun hhas => (Db.has_deleteSubtree.mp hhas).2 hbelow
        · rw [if_neg hbelow]
          split
          · rfl
          · rename_i hno
            refine (href.find?_card (Bool.eq_false_iff.mpr fun hhas => hno ?_)).symm
            exact Db.has_deleteSubtree.mpr ⟨hhas, hbelow⟩
      · simp only [hexists, if_false, false_and, Bool.false_eq_true]
        split <;> rfl

def trained (username : Text) (reps : Int) : Mutation :=
  .call (.updateTraining ⟨['c'], ['/', '?'], username, ⟨[], 0, 0, 0, 0, reps, 0, 2, []⟩⟩)

/-- Ann trains `e4` twice and Bob once; the move is sent again in between. -/
def lessons : List Mutation :=
  [.createChapter (posted firstMoves), trained ['a', 'n', 'n'] 1, trained ['b', 'o', 'b'] 1,
    .call (.addMove ⟨['c'], ⟨['/', '?'], [], 1, ['e', '4'], ['!'], true, none⟩, []⟩), trained ['a', 'n', 'n'] 2]

theorem lessons_shown : ∃ r t,
    (run Db.after (Db.fresh noChapter.users Table.empty) lessons).readChapterAsTree .insertion ['c'] = some (some r) ∧
    Shows .insertion (Db.fresh noChapter.users Table.empty) lessons r t ∧
    LastUpdate ['c'] ['/', '?'] ['a', 'n', 'n'] (Db.fresh noChapter.users Table.empty) lessons
      ⟨[], 0, 0, 0, 0, 2, 0, 2, []⟩ := by
  obtain ⟨r, hr⟩ : ∃ r, (run Db.after (Db.fresh noChapter.users Table.empty) lessons).readChapterAsTree .insertion ['c'] =
      some (some r) := ⟨_, rfl⟩
  obtain ⟨-, t, ht⟩ := (cards_durable .insertion noChapter.users Table.empty lessons).1 ['c'] r hr
  refine ⟨r, t, hr, ht, ?_⟩
  exact (find?_card_run noChapter.users Table.empty lessons).mp (by decide)

end Chessrepeat.Store
