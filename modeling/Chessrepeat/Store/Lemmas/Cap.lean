import Chessrepeat.Lib.Admission
import Chessrepeat.Store.Creating
import Chessrepeat.Store.Lemmas.Closed
import Chessrepeat.Store.Lemmas.Create

/-!
# How many moves a chapter can get

The stored keys are the paths of the chapter's moves, the admitted ones those of the adds that have passed their
count and not made their `INSERT`. Every statement of the pool is a step of the check-then-write pattern.
-/

namespace Chessrepeat.Store

open Lib Domain

variable {chapterID : Text} {m k : Nat} {db : Db} {w : Pool} {event : ChapterEvent}

/-! ## Keys -/

def isMove (chapterID : Text) (r : MoveRow) : Bool := r.chapterId = chapterID && r.path ≠ []

def Db.storedPaths (chapterID : Text) (db : Db) : Finset Text :=
  ((db.moves.rows.filter (isMove chapterID)).map MoveRow.path).toFinset

/-- The path an add is about to store. -/
def Proc.admitted (chapterID : Text) (proc : Proc) : Option Text :=
  (proc.inserting.filter fun e => e.chapterID = chapterID).map fun e => e.path ++ e.move.id

def Pool.admittedPaths (chapterID : Text) (w : Pool) : Finset Text := (w.procs.filterMap (Proc.admitted chapterID)).toFinset

def Pool.keys (chapterID : Text) (w : Pool) : Admission.State Text := ⟨w.db.storedPaths chapterID, w.admittedPaths chapterID⟩

/-- The event of an add that has not returned. -/
def Proc.adding : Proc → Option MoveEvent
  | .parentExists e | .moveExists e | .ownerMultiplier e | .moveCount e _ | .insert e => some e
  | _ => none

/-- The adds on the chapter that are in flight. -/
def Pool.addsInFlight (chapterID : Text) (w : Pool) : Nat :=
  w.procs.countP fun proc => proc.adding.any fun e => e.chapterID = chapterID

theorem Db.mem_storedPaths {p : Text} :
    p ∈ db.storedPaths chapterID ↔ p ≠ [] ∧ db.moves.has (chapterID, p) = true := by
  simp only [Db.storedPaths, List.mem_toFinset, List.mem_map, List.mem_filter, isMove, Bool.and_eq_true, decide_eq_true_eq,
    Db.has_move_iff]
  constructor
  · rintro ⟨r, ⟨hr, hc, hp⟩, rfl⟩
    exact ⟨hp, r, hr, hc, rfl⟩
  · rintro ⟨hp, r, hr, hc, rfl⟩
    exact ⟨r, ⟨hr, hc, hp⟩, rfl⟩

theorem Db.card_storedPaths (chapterID : Text) (db : Db) : (db.storedPaths chapterID).card = db.chapterMoveCount chapterID := by
  rw [Db.storedPaths, List.toFinset_card_of_nodup, List.length_map, Db.chapterMoveCount, Table.countWhere,
    List.countP_eq_length_filter]
  · rfl
  · refine List.Nodup.of_map (fun p => (chapterID, p)) ?_
    rw [List.map_map]
    have hkey : (db.moves.rows.filter (isMove chapterID)).map ((fun p => (chapterID, p)) ∘ MoveRow.path) =
        (db.moves.rows.filter (isMove chapterID)).map MoveRow.key := List.map_congr_left fun r hr => by
      have hr := (List.mem_filter.mp hr).2
      simp only [isMove, Bool.and_eq_true, decide_eq_true_eq] at hr
      exact Prod.ext hr.1.symm rfl
    rw [hkey]
    exact (List.filter_sublist.map _).nodup db.moves.nodup

theorem Proc.admitted_eq {proc : Proc} {p : Text} :
    proc.admitted chapterID = some p ↔ ∃ e, proc = .insert e ∧ e.chapterID = chapterID ∧ e.path ++ e.move.id = p := by
  cases proc <;> simp [Proc.admitted, Proc.inserting, and_assoc]

theorem Pool.mem_admittedPaths {p : Text} :
    p ∈ w.admittedPaths chapterID ↔ ∃ e, .insert e ∈ w.procs ∧ e.chapterID = chapterID ∧ e.path ++ e.move.id = p := by
  simp only [Pool.admittedPaths, List.mem_toFinset, List.mem_filterMap, Proc.admitted_eq]
  constructor
  · rintro ⟨proc, hp, e, rfl, hc, he⟩
    exact ⟨e, hp, hc, he⟩
  · rintro ⟨e, hp, hc, he⟩
    exact ⟨_, hp, e, rfl, hc, he⟩

/-- An admitted path belongs to an add in flight. -/
theorem Pool.card_admittedPaths_le (w : Pool) : (w.admittedPaths chapterID).card ≤ w.addsInFlight chapterID := by
  refine (List.toFinset_card_le _).trans ?_
  rw [List.length_filterMap_eq_countP]
  refine List.countP_mono_left fun proc _ h => ?_
  obtain ⟨p, hp⟩ := Option.isSome_iff_exists.mp h
  obtain ⟨e, rfl, hc, -⟩ := Proc.admitted_eq.mp hp
  simpa [Proc.adding] using hc

theorem one_le_ownerLimitMultiplier (db : Db) (ownerID : Text) : 1 ≤ db.ownerLimitMultiplier ownerID := by
  rw [Db.ownerLimitMultiplier]
  split
  · exact Nat.le_refl 1
  · rw [clampMultiplier]
    split <;> omega

/-! ## Statements -/

theorem Proc.exec_frame (db : Db) (proc : Proc) :
    (proc.exec db).2.chapters = db.chapters ∧ (proc.exec db).2.users = db.users := by
  cases proc with
  | parentExists | moveExists | ownerMultiplier | moveCount | nodeExists | returned => exact ⟨rfl, rfl⟩
  | delete e => exact ⟨rfl, rfl⟩
  | insert e =>
      rw [Proc.exec, Db.upsertMove]
      split <;> exact ⟨rfl, rfl⟩
  | update c p t =>
      rw [Proc.exec, Db.setComment]
      split <;> exact ⟨rfl, rfl⟩
  | upsertCard e =>
      rw [Proc.exec, Db.updateTrainingState]
      split <;> exact ⟨rfl, rfl⟩

/-- An add is admitted when its path is stored, or when there is room for one more. -/
theorem Proc.admitted_exec {proc : Proc} {p : Text} (h : (proc.exec db).1.admitted chapterID = some p) :
    p ∈ db.storedPaths chapterID ∨
      ∃ e mult, proc = .moveCount e mult ∧ e.chapterID = chapterID ∧ db.chapterMoveCount chapterID < maxMovesPerChapter * mult := by
  obtain ⟨e, he, rfl, rfl⟩ := Proc.admitted_eq.mp h
  cases proc with
  | moveExists e' =>
      rw [Proc.exec] at he
      split at he
      · rename_i hex
        cases he
        exact Or.inl (Db.mem_storedPaths.mpr (Db.pathExists_iff.mp hex))
      · cases he
  | moveCount e' mult =>
      rw [Proc.exec] at he
      split at he
      · cases he
      · rename_i hroom
        cases he
        exact Or.inr ⟨e, mult, rfl, rfl, Nat.not_le.mp hroom⟩
  | parentExists e' =>
      rw [Proc.exec] at he
      split at he <;> cases he
  | nodeExists e' =>
      rw [Proc.exec] at he
      split at he
      · cases he
      · split at he <;> cases he
  | ownerMultiplier | delete | returned => cases he
  | insert | update | upsertCard =>
      obtain ⟨r, hr⟩ := eq_returned_of_finish he
      cases hr

/-- A statement that admits an add writes nothing. -/
theorem Proc.exec_db_of_admitted {proc : Proc} {p : Text} (h : (proc.exec db).1.admitted chapterID = some p) :
    (proc.exec db).2 = db := by
  obtain ⟨e, he, -⟩ := Proc.admitted_eq.mp h
  cases proc with
  | parentExists | moveExists | ownerMultiplier | moveCount | nodeExists | returned => rfl
  | delete => cases he
  | insert | update | upsertCard =>
      obtain ⟨r, hr⟩ := eq_returned_of_finish he
      cases hr

/-! ## Steps of the pool -/

/-- No add on the chapter counts with a greater multiplier. -/
def Pool.Counted (chapterID : Text) (m : Nat) (w : Pool) : Prop :=
  ∀ e mult, .moveCount e mult ∈ w.procs → e.chapterID = chapterID → mult ≤ m

theorem Pool.step_frame (w : Pool) (a : PoolAction) :
    (w.step a).db.chapters = w.db.chapters ∧ (w.step a).db.users = w.db.users := by
  cases hrun : w.running a with
  | none =>
      rw [Pool.db_step_of_none hrun]
      exact ⟨rfl, rfl⟩
  | some proc =>
      rw [Pool.db_step_of_running hrun]
      exact Proc.exec_frame w.db proc

theorem Pool.step_counted (h : w.Counted chapterID m) (hm : w.db.chapterOwnerMultiplier chapterID ≤ m) (a : PoolAction) :
    (w.step a).Counted chapterID m := by
  intro e mult hmem hc
  rcases Pool.mem_step hmem with hold | ⟨c, hstart⟩ | herror | ⟨proc, hrun, hnew⟩
  · exact h e mult hold hc
  · -- no call starts with its count
    cases c with
    | addMove e' =>
        rw [Call.start] at hstart
        split at hstart <;> cases hstart
    | deleteNode | setComment | updateTraining => cases hstart
  · cases herror
  · cases proc with
    | ownerMultiplier e' =>
        cases hnew
        exact hc ▸ hm
    | parentExists e' | moveExists e' | moveCount e' mult' =>
        rw [Proc.exec] at hnew
        split at hnew <;> cases hnew
    | nodeExists e' =>
        rw [Proc.exec] at hnew
        split at hnew
        · cases hnew
        · split at hnew <;> cases hnew
    | delete | returned => cases hnew
    | insert | update | upsertCard =>
        obtain ⟨r, hr⟩ := eq_returned_of_finish hnew.symm
        cases hr

theorem Db.storedPaths_subset {db' : Db} (h : ∀ p, db'.moves.has (chapterID, p) = true → db.moves.has (chapterID, p) = true) :
    db'.storedPaths chapterID ⊆ db.storedPaths chapterID := fun p hp =>
  Db.mem_storedPaths.mpr ((Db.mem_storedPaths.mp hp).imp_right (h p))

/-- Only the statement that runs can admit an add. -/
theorem Pool.admittedPaths_step {a : PoolAction} {p : Text} (h : p ∈ (w.step a).admittedPaths chapterID) :
    p ∈ w.admittedPaths chapterID ∨
      ∃ proc, w.running a = some proc ∧ (proc.exec w.db).1.admitted chapterID = some p := by
  obtain ⟨e, hmem, hc, he⟩ := Pool.mem_admittedPaths.mp h
  rcases Pool.mem_step hmem with hold | ⟨c, hstart⟩ | herror | ⟨proc, hrun, hnew⟩
  · exact Or.inl (Pool.mem_admittedPaths.mpr ⟨e, hold, hc, he⟩)
  · cases c with
    | addMove e' =>
        rw [Call.start] at hstart
        split at hstart <;> cases hstart
    | deleteNode | setComment | updateTraining => cases hstart
  · cases herror
  · exact Or.inr ⟨proc, hrun, Proc.admitted_eq.mpr ⟨e, hnew.symm, hc, he⟩⟩

/-- A statement that admits no add removes moves, or stores one that has been admitted. -/
theorem Pool.admission_quiet {w' : Pool} {proc : Proc} {cap : Nat} (hproc : proc ∈ w.procs)
    (hdb : w'.db = (proc.exec w.db).2) (hsub : w'.admittedPaths chapterID ⊆ w.admittedPaths chapterID) :
    Admission.Step cap (w.keys chapterID) (w'.keys chapterID) := by
  rcases Proc.exec_db w.db proc with hs | ⟨e, rfl, -, hs⟩ | ⟨e, rfl, hs⟩ | ⟨_, _, _, rfl, hs⟩
  · exact Admission.Step.drop (Db.storedPaths_subset fun p => by rw [hdb, hs]; exact id) hsub
  · by_cases hc : e.chapterID = chapterID
    · refine Admission.Step.store (Pool.mem_admittedPaths.mpr ⟨e, hproc, hc, rfl⟩) (fun p hp => ?_) hsub
      rw [Finset.mem_insert]
      obtain ⟨hp0, hhas⟩ := Db.mem_storedPaths.mp hp
      rw [hdb, hs] at hhas
      rcases Table.has_upsert.mp hhas with hk | hhas
      · exact Or.inl (MoveRow.key_eq.mp hk).2.symm
      · exact Or.inr (Db.mem_storedPaths.mpr ⟨hp0, hhas⟩)
    · refine Admission.Step.drop (Db.storedPaths_subset fun p hhas => ?_) hsub
      rw [hdb, hs] at hhas
      exact (Table.has_upsert.mp hhas).resolve_left fun hk => hc (MoveRow.key_eq.mp hk).1
  · refine Admission.Step.drop (Db.storedPaths_subset fun p hhas => ?_) hsub
    rw [hdb, hs] at hhas
    exact (Db.has_deleteSubtree.mp hhas).1
  · refine Admission.Step.drop (Db.storedPaths_subset fun p hhas => ?_) hsub
    rwa [hdb, hs, Db.has_updateComment] at hhas

/-- An add is admitted again, or there is room for it. -/
theorem Pool.admission_admitted {w' : Pool} {proc : Proc} {q : Text} (h : w.Counted chapterID m) (hproc : proc ∈ w.procs)
    (hnew : (proc.exec w.db).1.admitted chapterID = some q) (hdb : w'.db = (proc.exec w.db).2)
    (hsub : w'.admittedPaths chapterID ⊆ insert q (w.admittedPaths chapterID)) :
    Admission.Step (maxMovesPerChapter * m) (w.keys chapterID) (w'.keys chapterID) := by
  have hstored : w'.db.storedPaths chapterID ⊆ w.db.storedPaths chapterID := by
    rw [hdb, Proc.exec_db_of_admitted hnew]
  rcases Proc.admitted_exec hnew with hq | ⟨e, mult, rfl, hc, hroom⟩
  · exact Admission.Step.again hq hstored hsub
  · refine Admission.Step.grant hstored ?_
    change (w.db.storedPaths chapterID).card < _
    rw [Db.card_storedPaths]
    exact hroom.trans_le (Nat.mul_le_mul_left _ (h e mult hproc hc))

theorem Pool.step_admission (h : w.Counted chapterID m) (a : PoolAction) :
    Admission.Step (maxMovesPerChapter * m) (w.keys chapterID) ((w.step a).keys chapterID) := by
  cases hrun : w.running a with
  | none =>
      refine Admission.Step.drop ?_ fun p hp => ?_
      · change (w.step a).db.storedPaths chapterID ⊆ _
        rw [Pool.db_step_of_none hrun]
        exact Finset.Subset.refl _
      · refine (Pool.admittedPaths_step hp).resolve_right fun ⟨proc, hrun', _⟩ => ?_
        rw [hrun] at hrun'
        cases hrun'
  | some proc =>
      have hproc : proc ∈ w.procs := Pool.running_mem hrun
      have hadmitted : ∀ p ∈ (w.step a).admittedPaths chapterID,
          p ∈ w.admittedPaths chapterID ∨ (proc.exec w.db).1.admitted chapterID = some p := fun p hp => by
        refine (Pool.admittedPaths_step hp).imp_right fun ⟨proc', hrun', hp'⟩ => ?_
        rw [hrun] at hrun'
        cases hrun'
        exact hp'
      cases hnew : (proc.exec w.db).1.admitted chapterID with
      | none =>
          refine Pool.admission_quiet hproc (Pool.db_step_of_running hrun) fun p hp => ?_
          refine (hadmitted p hp).resolve_right fun h => ?_
          rw [hnew] at h
          cases h
      | some q =>
          refine Pool.admission_admitted h hproc hnew (Pool.db_step_of_running hrun) fun p hp => ?_
          rw [Finset.mem_insert]
          rcases hadmitted p hp with hp | hp
          · exact Or.inr hp
          · exact Or.inl (Option.some.inj (hp.symm.trans hnew))

/-- A chapter that is not there gets no moves. -/
theorem Proc.storedPaths_exec (proc : Proc) (h : db.chapters.has chapterID = false) :
    (proc.exec db).2.storedPaths chapterID ⊆ db.storedPaths chapterID := by
  refine Db.storedPaths_subset fun p hhas => ?_
  rcases Proc.exec_db db proc with hs | ⟨e, -, hch, hs⟩ | ⟨e, -, hs⟩ | ⟨_, _, _, -, hs⟩
  · rwa [hs] at hhas
  · rw [hs] at hhas
    refine (Table.has_upsert.mp hhas).resolve_left fun hk => ?_
    have hc : e.chapterID = chapterID := (MoveRow.key_eq.mp hk).1
    rw [hc, h] at hch
    cases hch
  · rw [hs] at hhas
    exact (Db.has_deleteSubtree.mp hhas).1
  · rwa [hs, Db.has_updateComment] at hhas

theorem Pool.storedPaths_step (a : PoolAction) (h : w.db.chapters.has chapterID = false) :
    (w.step a).db.storedPaths chapterID ⊆ w.db.storedPaths chapterID := by
  cases hrun : w.running a with
  | none =>
      rw [Pool.db_step_of_none hrun]
  | some proc =>
      rw [Pool.db_step_of_running hrun]
      exact Proc.storedPaths_exec proc h

/-! ## Steps with the creation -/

/-- The moves `CreateChapter` is about to insert are within the cap. -/
def CreateProc.Checked (m : Nat) : CreateProc → Prop
  | .chapterCount mult => mult ≤ m
  | .beginTx moves | .insertChapter moves | .copyMoves moves | .commit moves => moves.moveCount ≤ maxMovesPerChapter * m
  | _ => True

structure Creation.Quota (event : ChapterEvent) (m : Nat) (w : Creation) : Prop where
  counted : w.pool.Counted event.chapterID m
  multiplier : w.pool.db.chapterOwnerMultiplier event.chapterID ≤ m
  owner : w.pool.db.ownerLimitMultiplier event.ownerID ≤ m
  missing : w.pool.db.chapters.has event.chapterID = false → w.pool.db.storedPaths event.chapterID = ∅
  checked : w.create.Checked m

theorem CreateProc.exec_db (event : ChapterEvent) (db : Db) (proc : CreateProc) :
    (proc.exec event db).2 = db ∨
      ∃ moves, proc = .commit moves ∧ db.insertChapter event moves = .ok (proc.exec event db).2 := by
  cases proc with
  | commit moves =>
      rw [CreateProc.exec]
      cases h : db.insertChapter event moves with
      | ok db' => exact Or.inr ⟨moves, rfl, h⟩
      | error e => exact Or.inl rfl
  | ownerMultiplier | chapterCount | beginTx | insertChapter | copyMoves | panicked | returned => exact Or.inl rfl

theorem CreateProc.exec_checked {proc : CreateProc} (h : proc.Checked m) (ho : db.ownerLimitMultiplier event.ownerID ≤ m) :
    (proc.exec event db).1.Checked m := by
  cases proc with
  | ownerMultiplier => exact ho
  | chapterCount mult =>
      rw [CreateProc.exec]
      split
      · trivial
      split
      · trivial
      split
      · trivial
      · exact (Nat.not_lt.mp ‹_›).trans (Nat.mul_le_mul_left _ h)
  | beginTx moves => exact h
  | insertChapter moves =>
      rw [CreateProc.exec]
      split
      · exact h
      · trivial
  | copyMoves moves =>
      rw [CreateProc.exec]
      split
      · trivial
      · exact h
  | commit moves =>
      rw [CreateProc.exec]
      split <;> trivial
  | panicked => trivial
  | returned => trivial

/-- The chapter has the inserted moves and no others. -/
theorem storedPaths_insertChapter {db' : Db} {moves : PathMap} (hs : db.storedPaths event.chapterID = ∅)
    (h : db.insertChapter event moves = .ok db') : (db'.storedPaths event.chapterID).card ≤ moves.moveCount := by
  obtain ⟨rows, -, hrows, rfl⟩ := insertChapter_ok h
  have hsub : Db.storedPaths event.chapterID { db with
      chapters := db.chapters.upsert ⟨event.chapterID, event.ownerID, event.name, event.trainAs⟩
      moves := rows } ⊆ (((moves.rows.map Prod.fst).filter (· ≠ [])).toFinset : Finset Text) := fun p hp => by
    obtain ⟨hp0, hhas⟩ := Db.mem_storedPaths.mp hp
    obtain ⟨r, hr, hc, hpath⟩ := Db.has_move_iff.mp hhas
    rcases (Table.mem_insertAll? hrows).mp hr with hr | hr
    · have hmem : p ∈ db.storedPaths event.chapterID :=
        Db.mem_storedPaths.mpr ⟨hp0, Db.has_move_iff.mpr ⟨r, hr, hc, hpath⟩⟩
      rw [hs] at hmem
      cases hmem
    · obtain ⟨e, he, rfl⟩ := List.mem_map.mp hr
      rw [List.mem_toFinset, List.mem_filter]
      exact ⟨List.mem_map.mpr ⟨e, he, hpath⟩, decide_eq_true hp0⟩
  refine (Finset.card_le_card hsub).trans ((List.toFinset_card_le _).trans ?_)
  rw [PathMap.moveCount]
  split
  · rename_i hroot
    obtain ⟨e, he, hk⟩ := Table.has_iff.mp hroot
    have hlt : ((moves.rows.map Prod.fst).filter (· ≠ [])).length < (moves.rows.map Prod.fst).length :=
      List.length_filter_lt_length_iff_exists.mpr ⟨e.1, List.mem_map_of_mem he, by simp [hk]⟩
    rw [List.length_map] at hlt
    omega
  · exact (List.length_filter_le _ _).trans (List.length_map _).le

theorem chapterOwnerMultiplier_congr {db db' : Db} (hc : db'.chapters = db.chapters) (hu : db'.users = db.users) (id : Text) :
    db'.chapterOwnerMultiplier id = db.chapterOwnerMultiplier id := by
  simp only [Db.chapterOwnerMultiplier, Db.ownerLimitMultiplier, hc, hu]

theorem Creation.Quota.step {w : Creation} (h : w.Quota event m) (a : CreationAction) : (w.step event a).Quota event m := by
  cases a with
  | pool a =>
      obtain ⟨hc, hu⟩ := Pool.step_frame w.pool a
      refine ⟨Pool.step_counted h.counted h.multiplier a, ?_, ?_, fun hmiss => ?_, h.checked⟩
      · exact (chapterOwnerMultiplier_congr hc hu _).trans_le h.multiplier
      · change (w.pool.step a).db.ownerLimitMultiplier _ ≤ m
        rw [Db.ownerLimitMultiplier, hu]
        exact h.owner
      · have hmiss' : w.pool.db.chapters.has event.chapterID = false := by rwa [← hc]
        exact Finset.subset_empty.mp (h.missing hmiss' ▸ Pool.storedPaths_step a hmiss')
  | fail => exact ⟨h.counted, h.multiplier, h.owner, h.missing, trivial⟩
  | create =>
      have hchecked : (w.create.exec event w.pool.db).1.Checked m := CreateProc.exec_checked h.checked h.owner
      rcases CreateProc.exec_db event w.pool.db w.create with hs | ⟨moves, -, hins⟩
      · refine ⟨h.counted, ?_, ?_, ?_, hchecked⟩ <;> simp only [Creation.step, hs]
        · exact h.multiplier
        · exact h.owner
        · exact h.missing
      · obtain ⟨rows, -, -, hdb⟩ := insertChapter_ok hins
        have hfind : (w.create.exec event w.pool.db).2.chapters.find? event.chapterID =
            some ⟨event.chapterID, event.ownerID, event.name, event.trainAs⟩ := by
          rw [hdb, Table.find?_upsert, if_pos rfl]
        have hown : (w.create.exec event w.pool.db).2.ownerLimitMultiplier event.ownerID ≤ m := by
          rw [hdb]
          exact h.owner
        refine ⟨h.counted, ?_, hown, fun hmiss => ?_, hchecked⟩
        · change Db.chapterOwnerMultiplier (w.create.exec event w.pool.db).2 event.chapterID ≤ m
          rw [Db.chapterOwnerMultiplier, hfind]
          exact hown
        · change (w.create.exec event w.pool.db).2.chapters.has event.chapterID = false at hmiss
          rw [Table.has, hfind] at hmiss
          cases hmiss

/-- One step keeps what is claimed within the cap and `n` more, if the adds in flight are at most one more than `n`
and those admitted at the commit at most `n`. -/
theorem Creation.claimed_step {n : Nat} {w : Creation} (h : w.Quota event m) (a : CreationAction)
    (hflight : (w.step event a).pool.addsInFlight event.chapterID ≤ n + 1)
    (hcommit : ∀ moves, a = .create → w.create = .commit moves → (w.pool.admittedPaths event.chapterID).card ≤ n)
    (hs : (w.pool.keys event.chapterID).claimed.card ≤ maxMovesPerChapter * m + n) :
    ((w.step event a).pool.keys event.chapterID).claimed.card ≤ maxMovesPerChapter * m + n := by
  cases a with
  | pool a =>
      refine (Pool.step_admission h.counted a).card_claimed_le ?_ hs
      exact (Pool.card_admittedPaths_le _).trans hflight
  | fail => exact hs
  | create =>
      rcases CreateProc.exec_db event w.pool.db w.create with hdb | ⟨moves, hproc, hins⟩
      · simp only [Creation.step, hdb]
        exact hs
      · obtain ⟨rows, hnone, -, -⟩ := insertChapter_ok hins
        have hmiss : w.pool.db.chapters.has event.chapterID = false := by rw [Table.has, hnone]; rfl
        have hstored := storedPaths_insertChapter (h.missing hmiss) hins
        have hchecked := h.checked
        rw [hproc] at hchecked
        have hle : moves.moveCount ≤ maxMovesPerChapter * m := hchecked
        refine (Admission.card_claimed_le _).trans (Nat.add_le_add (hstored.trans hle) ?_)
        exact hcommit moves rfl hproc

theorem Creation.always_count {n : Nat} {w : Creation} {as : List CreationAction} (hq : w.Quota event m)
    (hs : (w.pool.keys event.chapterID).claimed.card ≤ maxMovesPerChapter * m + n)
    (hflight : Always (Creation.step event) (fun w => w.pool.addsInFlight event.chapterID ≤ n + 1) w as)
    (hcommit : Meets (Creation.step event) (fun w a => ∀ moves, a = .create → w.create = .commit moves →
      (w.pool.admittedPaths event.chapterID).card ≤ n) w as) :
    Always (Creation.step event) (fun w => w.pool.db.chapterMoveCount event.chapterID ≤ maxMovesPerChapter * m + n) w as := by
  have hinv : Always (Creation.step event) (fun w => w.Quota event m ∧
      (w.pool.keys event.chapterID).claimed.card ≤ maxMovesPerChapter * m + n) w as :=
    (hflight.meets.and hcommit).always
      (fun w a hw ha => ⟨hw.1.step a, Creation.claimed_step hw.1 a ha.1.2 ha.2 hw.2⟩) ⟨hq, hs⟩
  refine hinv.mono fun w hw => ?_
  rw [← Db.card_storedPaths]
  exact (Admission.card_stored_le (w.pool.keys event.chapterID)).trans hw.2

/-! ## An add that found its path -/

/-- The call makes its `INSERT` or has returned from it. -/
def Proc.PastCap : Proc → Prop
  | .insert _ => True
  | .returned r => r ≠ .error .chapterMoveLimit
  | _ => False

theorem Proc.PastCap.exec {proc : Proc} (h : proc.PastCap) (db : Db) : (proc.exec db).1.PastCap := by
  cases proc with
  | insert e =>
      rw [Proc.exec, Db.upsertMove]
      split
      · exact fun h => by cases h
      · exact fun h => by cases h
  | returned r => exact h
  | _ => cases h

def Pool.PastCapAt (i : Nat) (w : Pool) : Prop := ∃ proc, w.procs[i]? = some proc ∧ proc.PastCap

theorem Pool.PastCapAt.step {i : Nat} (h : w.PastCapAt i) (a : PoolAction) : (w.step a).PastCapAt i := by
  obtain ⟨proc, hi, hp⟩ := h
  have hlt : i < w.procs.length := (List.getElem?_eq_some_iff.mp hi).1
  have hset : ∀ {j : Nat} {new : Proc}, (i = j → new.PastCap) →
      ∃ proc, (w.procs.set j new)[i]? = some proc ∧ proc.PastCap := fun {j new} hnew => by
    by_cases hj : i = j
    · subst hj
      exact ⟨new, by rw [List.getElem?_set_self hlt], hnew rfl⟩
    · exact ⟨proc, by rw [List.getElem?_set_ne (Ne.symm hj), hi], hp⟩
  cases a with
  | call c => exact ⟨proc, by rw [← hi]; exact List.getElem?_append_left hlt, hp⟩
  | fail j => exact hset fun _ h => by cases h
  | exec j =>
      cases hj : w.procs[j]? with
      | none => exact ⟨proc, by simp only [Pool.step, hj, hi], hp⟩
      | some other =>
          simp only [Pool.step, hj]
          refine hset fun he => ?_
          rw [he, hj] at hi
          exact Option.some.inj hi ▸ hp.exec w.db

/-! ## A chapter with many moves -/

theorem Creation.run_create (event : ChapterEvent) (n : Nat) (w : Creation) :
    run (Creation.step event) w (List.replicate n .create) =
      ⟨{ w.pool with db := (CreateProc.alone event n (w.create, w.pool.db)).2 },
        (CreateProc.alone event n (w.create, w.pool.db)).1⟩ := by
  induction n generalizing w with
  | zero => rfl
  | succ n ih => exact ih _

/-- A flattened tree within the caps is accepted. -/
theorem exists_createChapter_of_flattened {moves : PathMap} (hr : Referenced db) (hflat : flattenTree event.root = some moves)
    (howner : db.users.table.has event.ownerID = true) (hnew : db.chapters.has event.chapterID = false)
    (hchapters : db.chapterCountByOwner event.ownerID < maxChaptersPerUser * db.ownerLimitMultiplier event.ownerID)
    (hmoves : moves.moveCount ≤ maxMovesPerChapter * db.ownerLimitMultiplier event.ownerID) :
    ∃ db', db.createChapter event = some (.ok db') := by
  have hkeys : ((moves.rows.map (moveRow event.chapterID)).map MoveRow.key).Nodup := by
    have hpair : (moves.rows.map (moveRow event.chapterID)).map MoveRow.key =
        (moves.rows.map Prod.fst).map fun p => (event.chapterID, p) := by
      rw [List.map_map, List.map_map]
      rfl
    rw [hpair]
    exact moves.nodup.map fun _ _ h => (Prod.mk.inj h).2
  obtain ⟨rows, hrows⟩ := Table.exists_insertAll? (t := db.moves) hkeys fun r hrow => Bool.eq_false_iff.mpr fun hhas => by
    obtain ⟨e, -, rfl⟩ := List.mem_map.mp hrow
    obtain ⟨m, hm, hc⟩ := Table.has_iff.mp hhas
    have := hr.moves m hm
    rw [(Prod.mk.inj hc).1] at this
    exact absurd (this.symm.trans hnew) (by decide)
  have hinsert : db.chapters.insert? ⟨event.chapterID, event.ownerID, event.name, event.trainAs⟩ =
      some (db.chapters.upsert ⟨event.chapterID, event.ownerID, event.name, event.trainAs⟩) := by
    rw [Table.insert?, hnew]
    rfl
  refine ⟨{ db with
    chapters := db.chapters.upsert ⟨event.chapterID, event.ownerID, event.name, event.trainAs⟩
    moves := rows }, ?_⟩
  simp only [Db.createChapter, Nat.not_le.mpr hchapters, if_false, hflat, Option.map_some, Nat.not_lt.mpr hmoves,
    Db.insertChapter, howner, if_true, hinsert, hrows]

/-- A tree within the caps is accepted. -/
theorem exists_createChapter (hr : Referenced db) (hk : event.root.Keyed)
    (howner : db.users.table.has event.ownerID = true) (hnew : db.chapters.has event.chapterID = false)
    (hchapters : db.chapterCountByOwner event.ownerID < maxChaptersPerUser * db.ownerLimitMultiplier event.ownerID)
    (hmoves : (located [] event.root).labels.length ≤ maxMovesPerChapter * db.ownerLimitMultiplier event.ownerID + 1) :
    ∃ db', db.createChapter event = some (.ok db') := by
  obtain ⟨moves, hflat, hperm⟩ := flattenTree_keyed hk
  have hroot : moves.has [] = true :=
    (rooted_of_perm (spelling_located hk []) (ids_located hk []) (fst_label_located [] _) hperm).root
  have hcount : moves.moveCount ≤ maxMovesPerChapter * db.ownerLimitMultiplier event.ownerID := by
    rw [PathMap.moveCount, if_pos hroot, hperm.length_eq]
    omega
  exact exists_createChapter_of_flattened hr hflat howner hnew hchapters hcount

end Chessrepeat.Store
