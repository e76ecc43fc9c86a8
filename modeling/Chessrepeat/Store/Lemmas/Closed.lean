import Chessrepeat.Store.Calls
import Chessrepeat.Store.Lemmas.Subtree

/-!
# Moves closed under parents

What each statement of a call in flight does to a chapter in which every move has its parent.
-/

namespace Chessrepeat.Store

open Lib Domain

/-- Every move of the chapter below the root is its parent's path and its own id, and the parent is the root
or a move. -/
def Closed (chapterID : Text) (db : Db) : Prop :=
  ∀ m ∈ db.moves.rows, m.chapterId = chapterID → m.path ≠ [] →
    ∃ parent, m.path = parent ++ m.id ∧ (parent = [] ∨ db.moves.has (chapterID, parent) = true)

/-- Closedness reads nothing but the moves. -/
theorem Closed.congr {chapterID : Text} {db db' : Db} (h : db'.moves = db.moves) :
    Closed chapterID db' ↔ Closed chapterID db := by
  simp only [Closed, h]

theorem Closed.deleteSubtree {chapterID c path : Text} {db : Db} (h : Closed chapterID db) :
    Closed chapterID (db.deleteSubtree c path) := by
  intro m hm hc hp
  obtain ⟨hm, hn⟩ := Db.mem_deleteSubtree.mp hm
  obtain ⟨parent, he, hpar⟩ := h m hm hc hp
  refine ⟨parent, he, hpar.imp_right fun hpar => Db.has_deleteSubtree.mpr ⟨hpar, ?_⟩⟩
  -- a prefix of the parent is a prefix of the move
  rintro ⟨rfl, hpre⟩
  exact hn ⟨hc, he ▸ hpre.trans (List.prefix_append parent m.id)⟩

theorem Closed.updateComment {chapterID c path comment : Text} {db : Db} (h : Closed chapterID db) :
    Closed chapterID (db.updateComment c path comment) := by
  intro m hm hc hp
  obtain ⟨m₀, hm₀, hsame⟩ := Db.exists_of_mem_updateComment hm
  obtain ⟨ec, ep, ei⟩ := hsame
  obtain ⟨parent, he', hpar⟩ := h m₀ hm₀ (ec ▸ hc) (ep ▸ hp)
  exact ⟨parent, by rw [ep, ei]; exact he', hpar.imp_right fun hpar => Db.has_updateComment.trans hpar⟩

/-- A move is stored without harm exactly when it goes to another chapter, under the root, under a move that
is there, or has no id of its own. -/
theorem Closed.upsert_iff {chapterID : Text} {db : Db} (h : Closed chapterID db) {c path : Text}
    {data : TrainingData} :
    Closed chapterID { db with moves := db.moves.upsert (moveRow c (path ++ data.id, data)) } ↔
      (c = chapterID → path = [] ∨ data.id = [] ∨ db.moves.has (chapterID, path) = true) := by
  constructor
  · rintro h' rfl
    by_cases hp : path ++ data.id = []
    · exact Or.inl (List.append_eq_nil_iff.mp hp).1
    · obtain ⟨parent, he, hpar⟩ := h' _ (Table.mem_upsert.mpr (Or.inl rfl)) rfl hp
      have hpp : path = parent := List.append_cancel_right he
      subst hpp
      refine hpar.imp_right fun hpar => ?_
      rcases Table.has_upsert.mp hpar with hkey | hhas
      · -- the parent is the new row itself
        have hpath : path ++ data.id = path := (MoveRow.key_eq.mp hkey).2
        exact Or.inl (List.append_right_eq_self.mp hpath)
      · exact Or.inr hhas
  · intro hins m hm hc hp
    rcases Table.mem_upsert.mp hm with rfl | ⟨hm, -⟩
    · refine ⟨path, rfl, ?_⟩
      rcases hins hc with hpath | hid | hhas
      · exact Or.inl hpath
      · refine Or.inr (Table.has_upsert.mpr (Or.inl (MoveRow.key_eq.mpr ⟨hc, ?_⟩)))
        change path ++ data.id = path
        rw [hid, List.append_nil]
      · exact Or.inr (Table.has_upsert.mpr (Or.inr hhas))
    · obtain ⟨parent, he, hpar⟩ := h m hm hc hp
      exact ⟨parent, he, hpar.imp_right fun hpar => Table.has_upsert.mpr (Or.inr hpar)⟩

/-! ## Statements -/

/-- What one statement writes. -/
theorem Proc.exec_db (db : Db) (proc : Proc) :
    ((proc.exec db).2.moves = db.moves) ∨
    (∃ e, proc = .insert e ∧ db.chapters.has e.chapterID = true ∧
      (proc.exec db).2 = { db with moves := db.moves.upsert (moveRow e.chapterID (e.path ++ e.move.id, e.move)) }) ∨
    (∃ e, proc = .delete e ∧ (proc.exec db).2 = db.deleteSubtree e.chapterID e.path) ∨
    (∃ c p t, proc = .update c p t ∧ (proc.exec db).2 = db.updateComment c p t) := by
  cases proc with
  | parentExists | moveExists | ownerMultiplier | moveCount | nodeExists | returned => exact Or.inl rfl
  | insert e =>
      rw [Proc.exec, Db.upsertMove]
      split
      · exact Or.inr (Or.inl ⟨e, rfl, ‹_›, rfl⟩)
      · exact Or.inl rfl
  | delete e => exact Or.inr (Or.inr (Or.inl ⟨e, rfl, rfl⟩))
  | update c p t =>
      rw [Proc.exec, Db.setComment]
      split
      · exact Or.inr (Or.inr (Or.inr ⟨c, p, t, rfl, rfl⟩))
      · exact Or.inl rfl
  | upsertCard e =>
      rw [Proc.exec, Db.updateTrainingState]
      split
      · exact Or.inl rfl
      · exact Or.inl rfl

/-- Only a deletion removes a move, and only below its own path. -/
theorem Proc.has_exec {db : Db} {proc : Proc} {c q : Text} (hq : db.moves.has (c, q) = true)
    (hdel : ∀ e, proc = .delete e → ¬ (e.chapterID = c ∧ e.path <+: q)) :
    (proc.exec db).2.moves.has (c, q) = true := by
  rcases Proc.exec_db db proc with h | ⟨e, rfl, -, h⟩ | ⟨e, rfl, h⟩ | ⟨_, _, _, rfl, h⟩
  · rwa [h]
  · rw [h]; exact Table.has_upsert.mpr (Or.inr hq)
  · rw [h]
    exact Db.has_deleteSubtree.mpr ⟨hq, fun hc => hdel e rfl ⟨hc.1.symm, hc.2⟩⟩
  · rw [h]; exact Db.has_updateComment.trans hq

/-- After the last statement of a call, it has returned. -/
theorem eq_returned_of_finish {db : Db} {proc : Proc} {r : Except StoreError Db} (h : (finish db r).1 = proc) :
    ∃ r', proc = .returned r' := ⟨_, h.symm.trans (fst_finish db r)⟩

/-- The event of an add whose parent check has passed and whose move is not stored yet. -/
def Proc.attaching : Proc → Option MoveEvent
  | .moveExists e | .ownerMultiplier e | .moveCount e _ | .insert e => some e
  | _ => none

def Proc.inserting : Proc → Option MoveEvent
  | .insert e => some e
  | _ => none

def Proc.deleting : Proc → Option NodeDeleteEvent
  | .delete e => some e
  | _ => none

theorem Proc.attaching_of_inserting {proc : Proc} {e : MoveEvent} (h : proc.inserting = some e) :
    proc.attaching = some e := by
  cases proc with
  | insert e' => exact h
  | _ => cases h

/-- An add is attaching only where it was before, or after its parent was found. -/
theorem Proc.attaching_exec {db : Db} {proc : Proc} {e : MoveEvent} (h : (proc.exec db).1.attaching = some e) :
    proc.attaching = some e ∨
      (∀ d, proc ≠ .delete d) ∧ db.moves.has (e.chapterID, e.path) = true := by
  have hfin : ∀ {r : Except StoreError Db}, (finish db r).1.attaching ≠ some e := by
    intro r hr
    obtain ⟨r', hret⟩ : ∃ r', (finish db r).1 = .returned r' := eq_returned_of_finish rfl
    rw [hret] at hr
    cases hr
  cases proc with
  | parentExists e' =>
      rw [Proc.exec] at h
      split at h
      · rename_i hex
        cases h
        exact Or.inr ⟨fun d => Proc.noConfusion, (Db.pathExists_iff.mp hex).2⟩
      · cases h
  | moveExists e' =>
      rw [Proc.exec] at h
      split at h
      · exact Or.inl h
      · exact Or.inl h
  | ownerMultiplier e' => exact Or.inl h
  | moveCount e' mult =>
      rw [Proc.exec] at h
      split at h
      · cases h
      · exact Or.inl h
  | insert e' => exact absurd h hfin
  | nodeExists e' =>
      rw [Proc.exec] at h
      split at h
      · cases h
      · split at h <;> cases h
  | delete e' => cases h
  | update c p t => exact absurd h hfin
  | upsertCard e' => exact absurd h hfin
  | returned r => cases h

/-! ## Steps of the pool -/

/-- The call whose statement an action makes. -/
def Pool.running (w : Pool) : PoolAction → Option Proc
  | .exec i => w.procs[i]?
  | _ => none

theorem Pool.running_mem {w : Pool} {a : PoolAction} {proc : Proc} (h : w.running a = some proc) :
    proc ∈ w.procs := by
  cases a with
  | exec i => exact List.mem_of_getElem? h
  | _ => cases h

theorem Pool.db_step_of_running {w : Pool} {a : PoolAction} {proc : Proc} (h : w.running a = some proc) :
    (w.step a).db = (proc.exec w.db).2 := by
  cases a with
  | exec i =>
      have hi : w.procs[i]? = some proc := h
      simp only [Pool.step, hi]
  | _ => cases h

theorem Pool.db_step_of_none {w : Pool} {a : PoolAction} (h : w.running a = none) : (w.step a).db = w.db := by
  cases a with
  | exec i =>
      have hi : w.procs[i]? = none := h
      simp only [Pool.step, hi]
  | call | fail => rfl

/-- Where a call comes from that is there after a step. -/
theorem Pool.mem_step {w : Pool} {a : PoolAction} {new : Proc} (h : new ∈ (w.step a).procs) :
    new ∈ w.procs ∨ (∃ c : Call, new = c.start) ∨ new = .returned (.error .sql) ∨
      ∃ proc, w.running a = some proc ∧ new = (proc.exec w.db).1 := by
  cases a with
  | call c =>
      rcases List.mem_append.mp h with h | h
      · exact Or.inl h
      · exact Or.inr (Or.inl ⟨c, List.mem_singleton.mp h⟩)
  | fail i =>
      rcases List.mem_or_eq_of_mem_set h with h | h
      · exact Or.inl h
      · exact Or.inr (Or.inr (Or.inl h))
  | exec i =>
      cases hi : w.procs[i]? with
      | none =>
          simp only [Pool.step, hi] at h
          exact Or.inl h
      | some proc =>
          simp only [Pool.step, hi] at h
          rcases List.mem_or_eq_of_mem_set h with h | h
          · exact Or.inl h
          · exact Or.inr (Or.inr (Or.inr ⟨proc, hi, h⟩))

/-- An `INSERT` into the chapter runs while its parent is the root or a move. A move without an id is its own
parent, and a chapter that is gone takes no moves. -/
def InsertFindsParent (chapterID : Text) (w : Pool) (a : PoolAction) : Prop :=
  ∀ proc ∈ w.running a, ∀ e ∈ proc.inserting, e.chapterID = chapterID → w.db.chapters.has chapterID = true →
    e.path = [] ∨ e.move.id = [] ∨ w.db.moves.has (chapterID, e.path) = true

/-- The deletion takes away the move that the add goes to. -/
def Severs (d : NodeDeleteEvent) (e : MoveEvent) : Prop :=
  d.chapterID = e.chapterID ∧ e.path ≠ [] ∧ d.path <+: e.path

instance (d : NodeDeleteEvent) (e : MoveEvent) : Decidable (Severs d e) := by delta Severs; infer_instance

/-- No `DELETE` runs while an add to a move it takes away is between its parent check and its `INSERT`. -/
def NoCrossing (chapterID : Text) (w : Pool) (a : PoolAction) : Prop :=
  ∀ proc ∈ w.running a, ∀ d ∈ proc.deleting, ∀ other ∈ w.procs, ∀ e ∈ other.attaching,
    e.chapterID = chapterID → ¬ Severs d e

instance (chapterID : Text) (w : Pool) (a : PoolAction) : Decidable (InsertFindsParent chapterID w a) := by
  delta InsertFindsParent; infer_instance

instance (chapterID : Text) (w : Pool) (a : PoolAction) : Decidable (NoCrossing chapterID w a) := by
  delta NoCrossing; infer_instance

/-- The parent of every add that has passed its check is there. -/
def Attached (chapterID : Text) (w : Pool) : Prop :=
  ∀ proc ∈ w.procs, ∀ e, proc.attaching = some e → e.chapterID = chapterID → e.path ≠ [] →
    w.db.moves.has (chapterID, e.path) = true

/-- One statement keeps the moves closed exactly when it is no `INSERT` without a parent. -/
theorem Pool.step_closed_iff {chapterID : Text} {w : Pool} (h : Closed chapterID w.db) (a : PoolAction) :
    Closed chapterID (w.step a).db ↔ InsertFindsParent chapterID w a := by
  cases hrun : w.running a with
  | none =>
      rw [Pool.db_step_of_none hrun]
      simp only [InsertFindsParent, hrun]
      exact iff_of_true h (fun _ hp => by cases hp)
  | some proc =>
      rw [Pool.db_step_of_running hrun]
      simp only [InsertFindsParent, hrun, Option.mem_some_iff, forall_eq']
      rcases Proc.exec_db w.db proc with hs | ⟨e, rfl, hch, hs⟩ | ⟨d, rfl, hs⟩ | ⟨_, _, _, rfl, hs⟩
      · refine iff_of_true ((Closed.congr hs).mpr h) fun e he hc hch => ?_
        cases proc with
        | insert e' =>
            cases he
            subst hc
            -- the chapter is there, so the row is stored although the moves are as before
            rw [Proc.exec, Db.upsertMove, if_pos hch] at hs
            exact (Closed.upsert_iff h).mp ((Closed.congr hs).mpr h) rfl
        | _ => cases he
      · rw [hs, Closed.upsert_iff h]
        constructor
        · rintro hins e' he' hc -
          cases he'
          exact hc ▸ hins hc
        · intro hins hc
          exact hins e rfl hc (hc ▸ hch)
      · rw [hs]
        exact iff_of_true h.deleteSubtree (fun e he => by cases he)
      · rw [hs]
        exact iff_of_true h.updateComment (fun e he => by cases he)

theorem Pool.step_attached {chapterID : Text} {w : Pool} (h : Attached chapterID w) {a : PoolAction}
    (hc : NoCrossing chapterID w a) : Attached chapterID (w.step a) := by
  intro proc hproc e he hch hp
  have hkeep : ∀ other ∈ w.procs, other.attaching = some e → (w.step a).db.moves.has (chapterID, e.path) = true := by
    intro other hother he'
    have hold := h other hother e he' hch hp
    cases hrun : w.running a with
    | none =>
        rw [Pool.db_step_of_none hrun]
        exact hold
    | some p =>
        rw [Pool.db_step_of_running hrun]
        refine Proc.has_exec hold ?_
        rintro d rfl ⟨hdc, hdp⟩
        exact hc _ hrun d rfl other hother e he' hch ⟨hdc.trans hch.symm, hp, hdp⟩
  rcases Pool.mem_step hproc with hold | ⟨c, rfl⟩ | rfl | ⟨p, hrun, rfl⟩
  · exact hkeep proc hold he
  · -- a call that has just started is attaching only under the root
    cases c with
    | addMove e' =>
        rw [Call.start] at he
        split at he
        · cases he; exact absurd ‹_› hp
        · cases he
    | deleteNode | setComment | updateTraining => cases he
  · cases he
  · rcases Proc.attaching_exec he with he' | ⟨hnd, hfound⟩
    · exact hkeep p (Pool.running_mem hrun) he'
    · rw [Pool.db_step_of_running hrun]
      exact Proc.has_exec (hch ▸ hfound) fun d hd => absurd hd (hnd d)

end Chessrepeat.Store
