import Chessrepeat.Client.Lemmas.Chapters

/-!
# What the playground stores

While the jobs run, a chapter of the store is either stored as it is or has still to be written, and the list of ids
is right or will be once the one job that changes it is done.
-/

namespace Chessrepeat.Client

open Lib TrainerState

variable {Card : Type}

/-! ## Jobs -/

namespace Job

/-- The chapter the job has still to write. -/
def written : Job Card → Option (Chapter Card)
  | .persist c _ | .rename c => some c
  | _ => none

/-- The chapter the job may write or list. -/
def about : Job Card → Option JsString
  | .persist c _ | .rename c => some c.uuid
  | .persisted cid _ => some cid
  | _ => none

def after : Job Card → After Card
  | .persist _ after | .persisted _ after | .writeIds _ after | .finish after => after
  | _ => .nothing

/-- The list of ids that the job has still to write. -/
def listed (ids : List JsString) : Job Card → Option (List JsString)
  | .persist c _ => if c.uuid ∈ ids then none else some (ids ++ [c.uuid])
  | .persisted cid _ => if cid ∈ ids then none else some (ids ++ [cid])
  | .writeIds ids _ | .delete _ ids => some ids
  | _ => none

theorem about_of_written {j : Job Card} {c : Chapter Card} (h : j.written = some c) : j.about = some c.uuid := by
  cases j with
  | persist c after | rename c => exact congrArg (Option.map Chapter.uuid) h
  | persisted | writeIds | delete | finish => cases h

end Job

/-- What the job holds is in the store: it writes, lists and sets chapters there are, and deletes one that is gone. -/
structure Job.Suits (store : TrainerState Card) (j : Job Card) : Prop where
  about : ∀ cid, j.about = some cid → cid ∈ store.uuids
  written : ∀ c, j.written = some c → c.head ∈ store.heads
  captured : ∀ cs msg, j.after = .setRepertoire cs msg → cs.map Chapter.head = store.heads
  deleted : ∀ cid ids, j = .delete cid ids → cid ∉ store.uuids

theorem Job.Suits.congr {store store' : TrainerState Card} {j : Job Card} (h : j.Suits store)
    (hh : store'.heads = store.heads) : j.Suits store' := by
  have hu : store'.uuids = store.uuids := by rw [uuids_eq, uuids_eq, hh]
  exact ⟨hu ▸ h.about, hh ▸ h.written, hh ▸ h.captured, hu ▸ h.deleted⟩

/-- What a job does after its last write. -/
theorem Job.Suits.jobs {store : TrainerState Card} {j : Job Card} (h : j.Suits store) :
    ∀ j' ∈ j.after.jobs, j'.Suits store := by
  have hfinish : (Job.finish j.after).Suits store := ⟨nofun, nofun, h.captured, nofun⟩
  intro j' hj'
  cases ha : j.after with
  | nothing =>
      rw [ha] at hj'
      cases hj'
  | jump | setRepertoire =>
      rw [ha] at hj' hfinish
      rwa [List.mem_singleton.mp hj']

theorem listed_jobs (ids : List JsString) (after : After Card) : after.jobs.filterMap (Job.listed ids) = [] := by
  cases after <;> rfl

/-! ## The invariant -/

/-- The ids are those of the chapters, or are once the one job that changes them is done. -/
def Lists (uuids ids : List JsString) (jobs : List (Job Card)) : Prop :=
  jobs.filterMap (Job.listed ids) = [] ∧ ids.Perm uuids ∨
    ∃ ids', jobs.filterMap (Job.listed ids) = [ids'] ∧ ids'.Perm uuids

/-- The list of ids stays, and so do the ids that the job has still to write. -/
theorem Lists.replace {j : Job Card} {pre post next : List (Job Card)} {uuids ids : List JsString}
    (h : Lists uuids ids (pre ++ j :: post))
    (hnext : next.filterMap (Job.listed ids) = [j].filterMap (Job.listed ids)) : Lists uuids ids (pre ++ next ++ post) := by
  have heq : (pre ++ next ++ post).filterMap (Job.listed ids) = (pre ++ j :: post).filterMap (Job.listed ids) := by
    rw [List.append_cons pre j post, List.filterMap_append, List.filterMap_append, List.filterMap_append,
      List.filterMap_append, hnext]
  rwa [Lists, heq]

/-- A job without ids to write starts. -/
theorem Lists.concat {jobs : List (Job Card)} {j : Job Card} {uuids ids : List JsString} (h : Lists uuids ids jobs)
    (hj : j.listed ids = none) : Lists uuids ids (jobs ++ [j]) := by
  have heq : (jobs ++ [j]).filterMap (Job.listed ids) = jobs.filterMap (Job.listed ids) := by
    rw [List.filterMap_append, List.filterMap_cons, hj]
    exact List.append_nil _
  rwa [Lists, heq]

/-- Once the ids are written, no other job has any to write. -/
theorem Lists.write {pre post : List (Job Card)} {uuids ids ids' : List JsString} {after : After Card}
    (h : Lists uuids ids (pre ++ .writeIds ids' after :: post))
    (habout : ∀ j ∈ pre ++ post, ∀ cid, j.about = some cid → cid ∈ uuids) : Lists uuids ids' (pre ++ after.jobs ++ post) := by
  have hmid : (pre ++ .writeIds ids' after :: post).filterMap (Job.listed ids) =
      pre.filterMap (Job.listed ids) ++ ids' :: post.filterMap (Job.listed ids) := by
    rw [List.filterMap_append, List.filterMap_cons]
    rfl
  rcases h with ⟨hnil, -⟩ | ⟨ids'', hone, hperm⟩
  · rw [hmid] at hnil
    exact absurd hnil (List.append_ne_nil_of_right_ne_nil _ nofun)
  · rw [hmid] at hone
    obtain ⟨hpre, hids⟩ := List.append_eq_singleton_iff.mp hone |>.resolve_right fun h => nomatch h.2
    obtain ⟨rfl, hpost⟩ := List.cons.inj hids
    have hnone : ∀ js : List (Job Card), (∀ j ∈ js, j ∈ pre ++ post) → js.filterMap (Job.listed ids) = [] →
        js.filterMap (Job.listed ids') = [] := by
      intro js hjs hnil
      rw [List.filterMap_eq_nil_iff] at hnil ⊢
      intro j hj
      have hold := hnil j hj
      have hmem : ∀ cid, j.about = some cid → cid ∈ ids' := fun cid hcid =>
        hperm.mem_iff.mpr (habout j (hjs j hj) cid hcid)
      cases j with
      | persist c after => exact if_pos (hmem c.uuid rfl)
      | persisted cid after => exact if_pos (hmem cid rfl)
      | writeIds | delete => cases hold
      | rename | finish => rfl
    refine .inl ⟨?_, hperm⟩
    rw [List.filterMap_append, List.filterMap_append, listed_jobs,
      hnone pre (fun j hj => List.mem_append_left _ hj) hpre, hnone post (fun j hj => List.mem_append_right _ hj) hpost]
    rfl

namespace Playground

variable {s : Playground Card}

structure Kept (s : Playground Card) : Prop where
  sound : Sound s.store
  nodup : s.store.uuids.Nodup
  suits : ∀ j ∈ s.jobs, j.Suits s.store
  stored : ∀ d ∈ s.store.repertoire, s.idb.readChapter d.uuid = some d.stored ∨
    ∃ j ∈ s.jobs, ∃ c, j.written = some c ∧ c.head = d.head
  lists : Lists s.store.uuids s.idb.readChapterIds s.jobs

/-- A job goes on: what it leaves takes its place. -/
theorem Kept.replace {j : Job Card} {pre post next : List (Job Card)} {idb : Idb (RawChapter Card)} (h : s.Kept)
    (hj : s.jobs = pre ++ j :: post) (hnext : ∀ j' ∈ next, j'.Suits s.store)
    (hblob : ∀ d ∈ s.store.repertoire, idb.readChapter d.uuid = some d.stored ∨
      idb.readChapter d.uuid = s.idb.readChapter d.uuid ∧ ∀ c, j.written = some c → c.head ≠ d.head)
    (hlists : Lists s.store.uuids idb.readChapterIds (pre ++ next ++ post)) :
    Kept { s with idb, jobs := pre ++ next ++ post } := by
  refine ⟨h.sound, h.nodup, ?_, ?_, hlists⟩
  · intro j' hj'
    rcases List.mem_append.mp hj' with hj' | hj'
    · rcases List.mem_append.mp hj' with hj' | hj'
      · exact h.suits j' (hj ▸ List.mem_append_left _ hj')
      · exact hnext j' hj'
    · exact h.suits j' (hj ▸ List.mem_append_right _ (List.mem_cons_of_mem _ hj'))
  · intro d hd
    rcases hblob d hd with hblob | ⟨hread, hne⟩
    · exact .inl hblob
    · rcases h.stored d hd with hstored | ⟨j', hj', c, hc, hhead⟩
      · exact .inl (hread.trans hstored)
      · refine .inr ⟨j', ?_, c, hc, hhead⟩
        rw [hj] at hj'
        rcases List.mem_append.mp hj' with hj' | hj'
        · exact List.mem_append_left _ (List.mem_append_left _ hj')
        · rcases List.mem_cons.mp hj' with rfl | hj'
          · exact absurd hhead (hne c hc)
          · exact List.mem_append_right _ hj'

/-- The store changes and a job starts, which may have a chapter to write. -/
theorem Kept.start {store : TrainerState Card} {j : Job Card} (h : s.Kept) (hsound : Sound store)
    (hnodup : store.uuids.Nodup) (hsuits : ∀ j ∈ s.jobs, j.Suits store) (hj : j.Suits store)
    (hstored : ∀ d ∈ store.repertoire, (∃ c, j.written = some c ∧ c.head = d.head) ∨
      ∃ c ∈ s.store.repertoire, c.head = d.head ∧ c.stored = d.stored)
    (hlists : Lists store.uuids s.idb.readChapterIds (s.jobs ++ [j])) : ((s.setStore store).start j).Kept := by
  refine ⟨hsound, hnodup, ?_, ?_, hlists⟩
  · intro j' hj'
    rcases List.mem_append.mp hj' with hj' | hj'
    · exact hsuits j' hj'
    · rwa [List.mem_singleton.mp hj']
  · intro d hd
    rcases hstored d hd with ⟨c, hc, hhead⟩ | ⟨c, hcmem, hhead, hsame⟩
    · exact .inr ⟨j, List.mem_append_right _ (List.mem_singleton_self _), c, hc, hhead⟩
    · have huuid : c.uuid = d.uuid := congrArg Head.uuid hhead
      rw [← huuid, ← hhead, ← hsame]
      rcases h.stored c hcmem with hs | ⟨j', hj', hw⟩
      · exact .inl hs
      · exact .inr ⟨j', List.mem_append_left _ hj', hw⟩

/-- The store changes without its chapters, and no tree does. -/
theorem Kept.setStore {store : TrainerState Card} (h : s.Kept) (hr : Reshapes none s.store store) :
    (s.setStore store).Kept where
  sound := hr.sound
  nodup := hr.uuids ▸ h.nodup
  suits j hj := (h.suits j hj).congr hr.heads
  stored d hd := by
    obtain ⟨c, hc, hhead, hstored⟩ := hr.mem h.nodup hd
    have huuid : c.uuid = d.uuid := congrArg Head.uuid hhead
    rw [← huuid, ← hhead, ← hstored nofun]
    exact h.stored c hc
  lists := hr.uuids ▸ h.lists

/-! ## A job goes on -/

/-- The chapter is stored as it is by now, and no other chapter is stored anew. -/
theorem Kept.write (h : s.Kept) {j : Job Card} (hj : j ∈ s.jobs) {c : Chapter Card} (hc : j.written = some c) :
    ∀ d ∈ s.store.repertoire,
      (s.idb.writeChapter c.uuid (s.store.refresh c).stored).readChapter d.uuid = some d.stored ∨
        (s.idb.writeChapter c.uuid (s.store.refresh c).stored).readChapter d.uuid = s.idb.readChapter d.uuid ∧
          ∀ c', j.written = some c' → c'.head ≠ d.head := by
  intro d hd
  rw [Idb.readChapter_writeChapter]
  by_cases hu : d.uuid = c.uuid
  · obtain ⟨e, he, hhead⟩ := List.mem_map.mp ((h.suits j hj).written c hc)
    have hed : e = d := eq_of_uuid h.nodup he hd ((congrArg Head.uuid hhead).trans hu.symm)
    subst hed
    rw [if_pos hu, stored_refresh h.sound he hhead.symm]
    exact .inl rfl
  · refine .inr ⟨if_neg hu, fun c' hc' hhead => hu ?_⟩
    obtain rfl : c = c' := Option.some.inj (hc.symm.trans hc')
    exact (congrArg Head.uuid hhead).symm

theorem Kept.go {j : Job Card} {pre post : List (Job Card)} (h : s.Kept) (env : Env Card) (hj : s.jobs = pre ++ j :: post) :
    Kept { (s.go env j).1 with jobs := pre ++ (s.go env j).2 ++ post } := by
  have hmem : j ∈ s.jobs := hj ▸ List.mem_append_right _ List.mem_cons_self
  have hlists : Lists s.store.uuids s.idb.readChapterIds (pre ++ j :: post) := hj ▸ h.lists
  have hsame (hw : j.written = none) : ∀ d ∈ s.store.repertoire, s.idb.readChapter d.uuid = some d.stored ∨
      s.idb.readChapter d.uuid = s.idb.readChapter d.uuid ∧ ∀ c, j.written = some c → c.head ≠ d.head := by
    rw [hw]
    exact fun _ _ => .inr ⟨rfl, nofun⟩
  have hsuits := h.suits j hmem
  cases j with
  | persist c after =>
      have hnext : ∀ j' ∈ [Job.persisted c.uuid after], j'.Suits s.store := by
        intro j' hj'
        rw [List.mem_singleton.mp hj']
        exact ⟨hsuits.about, nofun, hsuits.captured, nofun⟩
      exact h.replace hj hnext (h.write hmem rfl) (hlists.replace rfl)
  | persisted cid after =>
      rw [Playground.go]
      split
      · rename_i hcid
        refine h.replace hj hsuits.jobs (hsame rfl) (hlists.replace ?_)
        rw [listed_jobs, List.filterMap_cons, Job.listed, if_pos hcid]
        rfl
      · rename_i hcid
        refine h.replace hj (fun j' hj' => ?_) (hsame rfl) (hlists.replace ?_)
        · rw [List.mem_singleton.mp hj']
          exact ⟨nofun, nofun, hsuits.captured, nofun⟩
        · rw [List.filterMap_cons, List.filterMap_cons, Job.listed, Job.listed, if_neg hcid]
  | writeIds ids after =>
      refine h.replace hj hsuits.jobs (hsame rfl) (hlists.write fun j hj' => (h.suits j ?_).about)
      rw [hj]
      rcases List.mem_append.mp hj' with hj' | hj'
      · exact List.mem_append_left _ hj'
      · exact List.mem_append_right _ (List.mem_cons_of_mem _ hj')
  | rename c => exact h.replace hj nofun (h.write hmem rfl) (hlists.replace rfl)
  | delete cid ids =>
      refine h.replace hj (fun j' hj' => ?_) (fun d hd => .inr ⟨?_, nofun⟩) (hlists.replace rfl)
      · rw [List.mem_singleton.mp hj']
        exact ⟨nofun, nofun, nofun, nofun⟩
      · have hne : d.uuid ≠ cid := fun he => hsuits.deleted cid ids rfl (he ▸ mem_uuids_of_mem hd)
        exact (Idb.readChapter_deleteChapterIDB s.idb cid d.uuid).trans (if_neg hne)
  | finish after =>
      have hrest : Kept { s with jobs := pre ++ [] ++ post } := h.replace hj nofun (hsame rfl) (hlists.replace rfl)
      cases after with
      | nothing => exact hrest
      | jump msg path =>
          have hsend : Reshapes none s.store (s.store.send env msg) := (Reshapes.of_repertoire h.sound rfl rfl).send
          exact hrest.setStore (hsend.trans (Reshapes.of_repertoire hsend.sound (repertoire_jump path) (nextRef_jump path)))
      | setRepertoire cs msg => exact hrest.setStore (Reshapes.setChapters h.sound (hsuits.captured cs msg rfl)).send

theorem Kept.resume (h : s.Kept) (env : Env Card) (k : Nat) : (s.resume env k).Kept := by
  rw [Playground.resume]
  split
  · exact h
  · rename_i j hk
    obtain ⟨hlt, rfl⟩ := List.getElem?_eq_some_iff.mp hk
    refine h.go env ?_
    rw [← List.drop_eq_getElem_cons hlt, List.take_append_drop]

/-! ## Actions -/

/-- No job has ids to write. -/
def Unlisted (s : Playground Card) : Prop := s.jobs.filterMap (Job.listed s.idb.readChapterIds) = []

/-- No job has chapters of the store to set again. -/
def Uncaptured (s : Playground Card) : Prop := ∀ j ∈ s.jobs, ∀ cs msg, j.after ≠ .setRepertoire cs msg

/-- The selected chapter is in the list of ids. -/
def SelectedListed (s : Playground Card) : Prop :=
  ∀ chapter, s.store.selectedChapter = some chapter → chapter.uuid ∈ s.idb.readChapterIds

theorem Kept.lists_of_unlisted (h : s.Kept) (hu : s.Unlisted) : s.idb.readChapterIds.Perm s.store.uuids := by
  rcases h.lists with ⟨-, hperm⟩ | ⟨ids, hone, -⟩
  · exact hperm
  · rw [Unlisted, hone] at hu
    cases hu

/-- A job starts that is to write the ids. -/
theorem Unlisted.lists (hu : s.Unlisted) {j : Job Card} {uuids ids : List JsString}
    (hj : j.listed s.idb.readChapterIds = some ids) (hperm : ids.Perm uuids) :
    Lists uuids s.idb.readChapterIds (s.jobs ++ [j]) := by
  have hnil : s.jobs.filterMap (Job.listed s.idb.readChapterIds) = [] := hu
  refine .inr ⟨ids, ?_, hperm⟩
  rw [List.filterMap_append, hnil, List.filterMap_cons, hj]
  rfl

theorem Unlisted.not_delete (hu : s.Unlisted) (cid : JsString) (ids : List JsString) : Job.delete cid ids ∉ s.jobs := by
  intro hmem
  have hnone := List.filterMap_eq_nil_iff.mp hu _ hmem
  cases hnone

/-- An edit of the selected chapter, which has then to be written. -/
theorem Kept.edit {store : TrainerState Card} {chapter : Chapter Card} {after : After Card} (h : s.Kept)
    (hr : Reshapes (some chapter.uuid) s.store store) (hc : chapter ∈ s.store.repertoire)
    (hlisted : chapter.uuid ∈ s.idb.readChapterIds)
    (hafter : ∀ cs msg, after = .setRepertoire cs msg → cs.map Chapter.head = s.store.heads) :
    ((s.setStore store).start (.persist chapter after)).Kept := by
  have hnew : (Job.persist chapter after).Suits s.store := by
    refine ⟨?_, ?_, hafter, nofun⟩
    · rintro cid ⟨⟩
      exact mem_uuids_of_mem hc
    · rintro c ⟨⟩
      exact List.mem_map_of_mem hc
  refine h.start hr.sound (hr.uuids ▸ h.nodup) (fun j hj => (h.suits j hj).congr hr.heads) (hnew.congr hr.heads) ?_ ?_
  · intro d hd
    obtain ⟨c, hcmem, hhead, hstored⟩ := hr.mem h.nodup hd
    by_cases hu : d.uuid = chapter.uuid
    · have huuid : c.uuid = d.uuid := congrArg Head.uuid hhead
      obtain rfl : c = chapter := eq_of_uuid h.nodup hcmem hc (huuid.trans hu)
      exact .inl ⟨c, rfl, hhead⟩
    · exact .inr ⟨c, hcmem, hhead, hstored fun he => hu (Option.some.inj he)⟩
  · have hnone : Job.listed s.idb.readChapterIds (.persist chapter after) = none := if_pos hlisted
    exact hr.uuids ▸ h.lists.concat hnone

theorem Kept.addNewChapter {env : Env Card} {c : RawChapter Card} (h : s.Kept) (h2 : RawTwoUnits [c])
    (hfresh : c.uuid ∉ s.store.uuids) (hu : s.Unlisted) (hcap : s.Uncaptured) : (s.addNewChapter env c).Kept := by
  have hperm := insertChapter_perm s.store env c
  have huuids : (s.store.insertChapter env c).1.uuids.Perm (c.uuid :: s.store.uuids) := hperm.map Chapter.uuid
  have hheads : (s.store.insertChapter env c).1.heads.Perm ((s.store.insertChapter env c).2.head :: s.store.heads) :=
    hperm.map Chapter.head
  have hids := h.lists_of_unlisted hu
  refine h.start (h.sound.insertChapter h2) ?_ ?_ ?_ ?_ ?_
  · exact huuids.nodup_iff.mpr (List.nodup_cons.mpr ⟨hfresh, h.nodup⟩)
  · intro j hj
    have hsuits := h.suits j hj
    refine ⟨?_, ?_, fun cs msg hcs => absurd hcs (hcap j hj cs msg), ?_⟩
    · exact fun cid hcid => huuids.mem_iff.mpr (List.mem_cons_of_mem _ (hsuits.about cid hcid))
    · exact fun c hc => hheads.mem_iff.mpr (List.mem_cons_of_mem _ (hsuits.written c hc))
    · rintro cid ids rfl
      exact absurd hj (hu.not_delete cid ids)
  · refine ⟨?_, ?_, nofun, nofun⟩
    · rintro cid ⟨⟩
      exact huuids.mem_iff.mpr List.mem_cons_self
    · rintro c ⟨⟩
      exact hheads.mem_iff.mpr List.mem_cons_self
  · intro d hd
    rcases List.mem_cons.mp (hperm.mem_iff.mp hd) with rfl | hd
    · exact .inl ⟨_, rfl, rfl⟩
    · exact .inr ⟨d, hd, rfl, rfl⟩
  · have hnew : Job.listed s.idb.readChapterIds (.persist (s.store.insertChapter env c).2 .nothing) =
        some (s.idb.readChapterIds ++ [c.uuid]) := if_neg fun hin => hfresh (hids.mem_iff.mp hin)
    exact hu.lists hnew ((List.perm_append_comm.trans (hids.cons c.uuid)).trans huuids.symm)

theorem Kept.renameChapter {chapterId newName : JsString} (h : s.Kept) (hcap : s.Uncaptured)
    (hw : ∀ j ∈ s.jobs, ∀ c, j.written = some c → c.uuid ≠ chapterId) : (s.renameChapter chapterId newName).Kept := by
  rw [Playground.renameChapter]
  split
  · exact h
  · rename_i chapter hc
    obtain ⟨rfl, as, bs, hrep, has⟩ := chapter_split hc
    have hnew : (s.store.onChapter chapter.uuid (Chapter.setName newName)).repertoire =
        as ++ chapter.setName newName :: bs := by
      rw [onChapter, hrep]
      exact updateChapter_append has
    have huuids : (s.store.onChapter chapter.uuid (Chapter.setName newName)).uuids = s.store.uuids := by
      rw [uuids, hnew, uuids, hrep, List.map_append, List.map_append]
      rfl
    have hroots : (s.store.onChapter chapter.uuid (Chapter.setName newName)).roots = s.store.roots := by
      rw [roots, hnew, roots, hrep, List.map_append, List.map_append]
      rfl
    have hnewmem : chapter.setName newName ∈ (s.store.onChapter chapter.uuid (Chapter.setName newName)).repertoire :=
      hnew ▸ List.mem_append_right _ List.mem_cons_self
    refine h.start (h.sound.congr hroots (Nat.le_refl _)) (huuids ▸ h.nodup) ?_ ?_ ?_ (huuids ▸ h.lists.concat rfl)
    · intro j hj
      have hsuits := h.suits j hj
      refine ⟨huuids ▸ hsuits.about, ?_, fun cs msg hcs => absurd hcs (hcap j hj cs msg), huuids ▸ hsuits.deleted⟩
      intro c hwritten
      obtain ⟨d, hd, hhead⟩ := List.mem_map.mp (hsuits.written c hwritten)
      have huuid : d.uuid = c.uuid := congrArg Head.uuid hhead
      rw [hrep] at hd
      rw [← hhead, heads, hnew]
      refine List.mem_map_of_mem ?_
      rcases List.mem_append.mp hd with hd | hd
      · exact List.mem_append_left _ hd
      · rcases List.mem_cons.mp hd with rfl | hd
        · exact absurd huuid.symm (hw j hj c hwritten)
        · exact List.mem_append_right _ (List.mem_cons_of_mem _ hd)
    · refine ⟨?_, ?_, ?_, ?_⟩
      · rintro cid ⟨⟩
        exact mem_uuids_of_mem hnewmem
      · rintro c ⟨⟩
        exact List.mem_map_of_mem hnewmem
      · rintro cs msg ⟨⟩
      · rintro cid ids ⟨⟩
    · intro d hd
      rw [hnew] at hd
      rw [hrep]
      rcases List.mem_append.mp hd with hd | hd
      · exact .inr ⟨d, List.mem_append_left _ hd, rfl, rfl⟩
      · rcases List.mem_cons.mp hd with rfl | hd
        · exact .inl ⟨_, rfl, rfl⟩
        · exact .inr ⟨d, List.mem_append_right _ (List.mem_cons_of_mem _ hd), rfl, rfl⟩

theorem Kept.deleteChapterAt {chapterId : JsString} (h : s.Kept) (hu : s.Unlisted) (hcap : s.Uncaptured)
    (habout : ∀ j ∈ s.jobs, j.about ≠ some chapterId) : (s.deleteChapterAt chapterId).Kept := by
  rw [Playground.deleteChapterAt]
  split
  · exact h
  · rename_i idx hidx
    obtain ⟨as, chapter, bs, hrep, rfl, hnew, hnext⟩ := removeChapter_spec hidx
    have hsub : (s.store.removeChapter chapter.uuid idx).repertoire.Sublist s.store.repertoire := by
      rw [hnew, hrep]
      exact (List.Sublist.refl _).append (List.sublist_cons_self _ _)
    have hgone : chapter.uuid ∉ (s.store.removeChapter chapter.uuid idx).uuids := by
      have hnodup := h.nodup
      rw [uuids, hrep, List.map_append, List.map_cons] at hnodup
      rw [uuids, hnew, List.map_append]
      exact (List.nodup_middle.mp hnodup).notMem
    have hmem : ∀ c ∈ s.store.repertoire, c.uuid ≠ chapter.uuid →
        c ∈ (s.store.removeChapter chapter.uuid idx).repertoire := by
      intro c hc hne
      rw [hrep] at hc
      rw [hnew]
      rcases List.mem_append.mp hc with hc | hc
      · exact List.mem_append_left _ hc
      · rcases List.mem_cons.mp hc with rfl | hc
        · exact absurd rfl hne
        · exact List.mem_append_right _ hc
    refine h.start (h.sound.of_sublist hsub hnext) ((hsub.map Chapter.uuid).nodup h.nodup) ?_ ?_ ?_
      (hu.lists rfl (List.Perm.refl _))
    · intro j hj
      have hsuits := h.suits j hj
      refine ⟨?_, ?_, fun cs msg hcs => absurd hcs (hcap j hj cs msg), ?_⟩
      · intro cid hcid
        obtain ⟨c, hc, rfl⟩ := List.mem_map.mp (hsuits.about cid hcid)
        exact List.mem_map_of_mem (hmem c hc fun he => habout j hj (he ▸ hcid))
      · intro c hc
        obtain ⟨d, hd, hhead⟩ := List.mem_map.mp (hsuits.written c hc)
        have huuid : d.uuid = c.uuid := congrArg Head.uuid hhead
        have hne : d.uuid ≠ chapter.uuid := fun he => habout j hj (he ▸ huuid ▸ Job.about_of_written hc)
        exact hhead ▸ List.mem_map_of_mem (hmem d hd hne)
      · rintro cid ids rfl
        exact absurd hj (hu.not_delete cid ids)
    · refine ⟨?_, ?_, ?_, ?_⟩
      · rintro cid ⟨⟩
      · rintro c ⟨⟩
      · rintro cs msg ⟨⟩
      · rintro cid ids ⟨⟩
        exact hgone
    · exact fun d hd => .inr ⟨d, hsub.subset hd, rfl, rfl⟩

/-- The action does not come between the writes of another. The list of ids is changed, a chapter deleted and a
repertoire set again by one job at a time; a chapter is renamed while no job has it to write; and an edit is one of
the selected chapter, which is in the list. -/
def InTurn (chess : Chessops) (s : Playground Card) (a : Env Card × PlayAction Card) : Prop :=
  match a.2 with
  | .addNewChapter c => RawTwoUnits [c] ∧ c.uuid ∉ s.store.uuids ∧ s.Unlisted ∧ s.Uncaptured
  | .renameChapter chapterId _ => s.Uncaptured ∧ ∀ j ∈ s.jobs, ∀ c, j.written = some c → c.uuid ≠ chapterId
  | .deleteChapterAt chapterId => s.Unlisted ∧ s.Uncaptured ∧ ∀ j ∈ s.jobs, j.about ≠ some chapterId
  | .makeMove san => s.SelectedListed ∧ ∀ chapter n d, s.store.selectedChapter = some chapter →
      nextMove chess s.store san = some (n, d) → n ∈ chapter.root.nodes
  | .deleteLine _ | .setCommentAt _ _ => s.SelectedListed
  | .learn | .train _ => s.SelectedListed ∧ ∀ chapter target path,
      s.store.trainingTarget a.1.playground = some (chapter, target, path) → target ∈ chapter.root.nodes
  | .navigate _ | .resume _ => True

variable {chess : Chessops} {env : Env Card}

theorem chapter_uuid_of_selected {s : TrainerState Card} {chapter : Chapter Card} (h : s.selectedChapter = some chapter) :
    s.chapter chapter.uuid = some chapter ∧ chapter ∈ s.repertoire := by
  obtain ⟨id, hid⟩ := chapter_of_selected h
  obtain ⟨hmem, rfl⟩ := chapter_mem hid
  exact ⟨hid, hmem⟩

theorem Kept.makeMove {san : JsString} (h : s.Kept) (hl : s.SelectedListed)
    (hn : ∀ chapter n d, s.store.selectedChapter = some chapter → nextMove chess s.store san = some (n, d) →
      n ∈ chapter.root.nodes) : (s.makeMove chess env san).Kept := by
  rw [Playground.makeMove]
  cases hmove : nextMove chess s.store san with
  | none =>
      have hsame : SameTrees s.store (s.store.makeMove chess env san) := SameTrees.makeMove hmove
      have hkept := h.setStore (Reshapes.of_repertoire h.sound hsame.repertoire hsame.nextRef)
      split
      · rename_i heq
        cases heq
      · exact hkept
  | some p =>
      cases hsel : s.store.selectedChapter with
      | none =>
          rw [nextMove, hsel] at hmove
          cases hmove
      | some chapter =>
          obtain ⟨hid, hmem⟩ := chapter_uuid_of_selected hsel
          refine h.edit (Reshapes.makeMove h.sound hsel hid fun n d => ?_) hmem (hl chapter hsel) ?_
          · exact hn chapter n d hsel
          · rintro cs msg ⟨⟩

theorem Kept.deleteLine {path : JsString} (h : s.Kept) (hl : s.SelectedListed) : (s.deleteLine env path).Kept := by
  rw [Playground.deleteLine]
  split
  · exact h
  · rename_i chapter hsel
    obtain ⟨hid, hmem⟩ := chapter_uuid_of_selected hsel
    exact h.edit (Reshapes.removeLine h.sound hid) hmem (hl chapter hsel) nofun

theorem Kept.setCommentAt {comment path : JsString} (h : s.Kept) (hl : s.SelectedListed) :
    (s.setCommentAt comment path).Kept := by
  rw [Playground.setCommentAt]
  split
  · exact h
  · rename_i chapter hsel
    obtain ⟨hid, hmem⟩ := chapter_uuid_of_selected hsel
    refine h.edit (Reshapes.startSetCommentAt h.sound hid) hmem (hl chapter hsel) ?_
    rintro cs msg ⟨⟩
    rfl

theorem Kept.learn (h : s.Kept) (hl : s.SelectedListed) (hn : ∀ chapter target path,
    s.store.trainingTarget env = some (chapter, target, path) → target ∈ chapter.root.nodes) : (s.learn env).Kept := by
  rw [Playground.learn]
  split
  · exact h
  · rename_i chapter target path ht
    obtain ⟨hsel, -, -⟩ := trainingTarget_spec ht
    obtain ⟨hid, hmem⟩ := chapter_uuid_of_selected hsel
    exact h.edit (Reshapes.learn h.sound ht hid (hn chapter target path ht)) hmem (hl chapter hsel) nofun

theorem Kept.train {correct : Bool} (h : s.Kept) (hl : s.SelectedListed) (hn : ∀ chapter target path,
    s.store.trainingTarget env = some (chapter, target, path) → target ∈ chapter.root.nodes) :
    (s.train env correct).Kept := by
  rw [Playground.train]
  split
  · exact h
  · rename_i chapter target path ht
    obtain ⟨hsel, -, -⟩ := trainingTarget_spec ht
    obtain ⟨hid, hmem⟩ := chapter_uuid_of_selected hsel
    split
    · exact h
    · exact h
    · exact h.edit (Reshapes.train h.sound ht hid (hn chapter target path ht)) hmem (hl chapter hsel) nofun

theorem Kept.step {a : Env Card × PlayAction Card} (h : s.Kept) (hc : InTurn chess s a) : (s.step chess a).Kept := by
  obtain ⟨env, a⟩ := a
  cases a with
  | addNewChapter c => exact h.addNewChapter hc.1 hc.2.1 hc.2.2.1 hc.2.2.2
  | renameChapter chapterId newName => exact h.renameChapter hc.1 hc.2
  | deleteChapterAt chapterId => exact h.deleteChapterAt hc.1 hc.2.1 hc.2.2
  | makeMove san => exact h.makeMove hc.1 hc.2
  | deleteLine path => exact h.deleteLine hc
  | setCommentAt comment path => exact h.setCommentAt hc
  | learn => exact h.learn hc.1 hc.2
  | train correct => exact h.train hc.1 hc.2
  | navigate a =>
      simp only [Playground.step]
      split
      · rename_i hnav
        have hsame : SameTrees s.store (Client.step chess s.store env.playground a) := SameTrees.navigation hnav
        exact h.setStore (Reshapes.of_repertoire h.sound hsame.repertoire hsame.nextRef)
      · exact h
  | resume k => exact h.resume env.playground k

/-! ## What is restored -/

/-- The chapters in the store; in place of none, the example. -/
def held (s : Playground Card) (exampleChapter : Option (RawChapter Card)) : List (RawChapter Card) :=
  match s.store.repertoire with
  | [] => exampleChapter.toList
  | chapters => chapters.map Chapter.stored

/-- The chapters are stored as they are. -/
structure Stored (s : Playground Card) : Prop where
  sound : Sound s.store
  nodup : s.store.uuids.Nodup
  ids : s.idb.readChapterIds.Perm s.store.uuids
  chapters : ∀ d ∈ s.store.repertoire, s.idb.readChapter d.uuid = some d.stored

/-- No job has anything left to write. -/
def Written (s : Playground Card) : Prop := ∀ j ∈ s.jobs, ∃ after, j = .finish after

theorem Stored.initial : Stored (⟨.initial, .empty, []⟩ : Playground Card) :=
  ⟨Sound.initial, List.nodup_nil, List.Perm.refl _, nofun⟩

theorem Stored.kept (h : s.Stored) (hj : s.jobs = []) : s.Kept where
  sound := h.sound
  nodup := h.nodup
  suits j hmem := by
    rw [hj] at hmem
    cases hmem
  stored d hd := .inl (h.chapters d hd)
  lists := .inl ⟨by rw [hj]; rfl, h.ids⟩

theorem Kept.stored_of_written (h : s.Kept) (hw : s.Written) : s.Stored := by
  have hunlisted : s.Unlisted := by
    refine List.filterMap_eq_nil_iff.mpr fun j hj => ?_
    obtain ⟨after, rfl⟩ := hw j hj
    rfl
  refine ⟨h.sound, h.nodup, h.lists_of_unlisted hunlisted, fun d hd => ?_⟩
  rcases h.stored d hd with hs | ⟨j, hj, c, hc, -⟩
  · exact hs
  · obtain ⟨after, rfl⟩ := hw j hj
    cases hc

/-- What is read back is what there is. -/
theorem Stored.hydrated (h : s.Stored) (exampleChapter : Option (RawChapter Card)) :
    (s.hydrated exampleChapter).Perm (s.held exampleChapter) := by
  have hids := h.ids
  have hread : s.store.uuids.filterMap s.idb.readChapter = s.store.repertoire.map Chapter.stored := by
    rw [uuids, List.filterMap_map, ← List.filterMap_eq_map]
    exact List.filterMap_congr fun d hd => h.chapters d hd
  rw [Playground.hydrated, held]
  cases hrep : s.store.repertoire with
  | nil =>
      rw [uuids, hrep] at hids
      rw [List.perm_nil.mp hids]
  | cons d ds =>
      have hperm := hids.filterMap s.idb.readChapter
      rw [hread, hrep] at hperm
      split
      · rename_i hnil
        rw [uuids, hrep, hnil] at hids
        exact absurd hids.length_eq (Nat.zero_ne_add_one _)
      · exact hperm

end Playground

end Chessrepeat.Client
