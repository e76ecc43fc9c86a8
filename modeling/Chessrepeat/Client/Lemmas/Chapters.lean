import Chessrepeat.Client.Lemmas.Counters
import Chessrepeat.Client.Playground

/-!
# The chapters of the playground

What the actions of the playground do to the list of chapters and to their trees: an edit changes one tree, and a
chapter is added, renamed or deleted without changing any.
-/

namespace Chessrepeat.Client

open Lib TrainerState

variable {Card : Type} {s s' : TrainerState Card} {env : Env Card} {chess : Chessops} {uuid path : JsString}
  {chapter : Chapter Card}

/-- A chapter without its counts, with the root as an object. -/
structure Head where
  uuid : JsString
  name : JsString
  trainAs : JsString
  root : Nat

def Chapter.head (c : Chapter Card) : Head := ⟨c.uuid, c.name, c.trainAs, c.root.ref⟩

namespace TrainerState

def heads (s : TrainerState Card) : List Head := s.repertoire.map Chapter.head

def uuids (s : TrainerState Card) : List JsString := s.repertoire.map Chapter.uuid

end TrainerState

theorem uuids_eq (s : TrainerState Card) : s.uuids = s.heads.map Head.uuid := by
  rw [uuids, heads, List.map_map]
  rfl

theorem mem_uuids_of_mem {c : Chapter Card} (h : c ∈ s.repertoire) : c.uuid ∈ s.uuids := List.mem_map_of_mem h

/-- Where no two chapters have one uuid, it finds the chapter. -/
theorem chapter_of_mem (hu : s.uuids.Nodup) {c : Chapter Card} (h : c ∈ s.repertoire) : s.chapter c.uuid = some c := by
  cases hf : s.chapter c.uuid with
  | none => exact absurd rfl (of_decide_eq_false (Bool.eq_false_iff.mpr (List.find?_eq_none.mp hf c h)))
  | some d =>
      obtain ⟨hd, he⟩ := chapter_mem hf
      rw [List.inj_on_of_nodup_map hu hd h he]

theorem eq_of_uuid (hu : s.uuids.Nodup) {c d : Chapter Card} (hc : c ∈ s.repertoire) (hd : d ∈ s.repertoire)
    (h : c.uuid = d.uuid) : c = d :=
  List.inj_on_of_nodup_map hu hc hd h

/-! ## Edits -/

/-- The chapters are the ones there were, and of their trees none but that of the chapter may be another. -/
structure Reshapes (uuid : Option JsString) (s s' : TrainerState Card) : Prop where
  heads : s'.heads = s.heads
  rootOf : ∀ v, some v ≠ uuid → s'.rootOf v = s.rootOf v
  sound : Sound s'

theorem Reshapes.uuids {u : Option JsString} (h : Reshapes u s s') : s'.uuids = s.uuids := by
  rw [uuids_eq, uuids_eq, h.heads]

/-- A chapter after the edit was there before it, with the same tree if it is not the one that was edited. -/
theorem Reshapes.mem {u : Option JsString} (h : Reshapes u s s') (hu : s.uuids.Nodup) {d : Chapter Card}
    (hd : d ∈ s'.repertoire) : ∃ c ∈ s.repertoire, c.head = d.head ∧ (some d.uuid ≠ u → c.stored = d.stored) := by
  have hmem : d.head ∈ s.heads := h.heads ▸ List.mem_map_of_mem hd
  obtain ⟨c, hc, he⟩ := List.mem_map.mp hmem
  refine ⟨c, hc, he, fun hne => ?_⟩
  have hcu : c.uuid = d.uuid := congrArg Head.uuid he
  have hroot : d.root = c.root := by
    have hr := h.rootOf d.uuid hne
    rw [chapter_root (chapter_of_mem (h.uuids ▸ hu) hd), ← hcu, chapter_root (chapter_of_mem hu hc)] at hr
    exact Option.some.inj hr
  have hname : c.name = d.name := congrArg Head.name he
  have htrain : c.trainAs = d.trainAs := congrArg Head.trainAs he
  rw [Chapter.stored, Chapter.stored, hcu, hname, htrain, hroot]

theorem Reshapes.trans {u : Option JsString} {s'' : TrainerState Card} (h : Reshapes u s s') (h' : Reshapes u s' s'') :
    Reshapes u s s'' :=
  ⟨h'.heads.trans h.heads, fun v hv => (h'.rootOf v hv).trans (h.rootOf v hv), h'.sound⟩

theorem Reshapes.of_repertoire {u : Option JsString} (hs : Sound s) (hr : s'.repertoire = s.repertoire)
    (hn : s'.nextRef = s.nextRef) : Reshapes u s s' where
  heads := by rw [TrainerState.heads, hr]; rfl
  rootOf v _ := by rw [TrainerState.rootOf, TrainerState.chapter, hr]; rfl
  sound := hs.of_repertoire hr hn

theorem heads_updateChapter {f : Chapter Card → Chapter Card} (hf : ∀ c, (f c).head = c.head) (cs : List (Chapter Card)) :
    (updateChapter uuid f cs).map Chapter.head = cs.map Chapter.head := by
  induction cs with
  | nil => rfl
  | cons c cs ih => by_cases h : c.uuid = uuid <;> simp [updateChapter, h, hf, ih]

/-- Counting changes no chapter. -/
theorem Reshapes.onChapter {u : Option JsString} {f : Chapter Card → Chapter Card} (hs : Sound s) (hf : Counts f)
    (hh : ∀ c, (f c).head = c.head) : Reshapes u s (s.onChapter uuid f) where
  heads := heads_updateChapter hh s.repertoire
  rootOf v _ := rootOf_onChapter hf v
  sound := hs.onChapter hf

theorem heads_mutate {r : Nat} {f : TrainableNode Card → TrainableNode Card} (hk : Keeps f) :
    (s.mutate r f).heads = s.heads := by
  rw [TrainerState.heads, TrainerState.heads, mutate, List.map_map]
  refine List.map_congr_left fun c _ => ?_
  have href : (Rose.modify (fun n : Object Card => n.ref = r) f c.root).label.ref = c.root.label.ref :=
    Rose.label_modify (g := Object.ref) (fun n _ => hk.ref n) c.root
  exact congrArg (Head.mk c.uuid c.name c.trainAs) href

/-- An object in the tree of a chapter is changed. -/
theorem Reshapes.mutate {root n : TrainableNode Card} {f : TrainableNode Card → TrainableNode Card} (hs : Sound s)
    (hroot : s.rootOf uuid = some root) (hn : n ∈ root.nodes) (hk : Keeps f)
    (hrep : s'.repertoire = (s.mutate n.label.ref f).repertoire) (hsound : Sound s') : Reshapes (some uuid) s s' where
  heads := by
    rw [TrainerState.heads, hrep]
    exact heads_mutate hk
  rootOf v hv := by
    have hr : s'.rootOf v = (s.mutate n.label.ref f).rootOf v := by
      rw [TrainerState.rootOf, TrainerState.chapter, hrep]
      rfl
    rw [hr, rootOf_mutate]
    cases hr : s.rootOf v with
    | none => rfl
    | some root' =>
        obtain ⟨chapter, hc, rfl⟩ := Option.map_eq_some_iff.mp hroot
        obtain ⟨c, hcv, rfl⟩ := Option.map_eq_some_iff.mp hr
        obtain ⟨hmem, rfl⟩ := chapter_mem hcv
        obtain ⟨rfl, as, bs, hrep, -⟩ := chapter_split hc
        have hother : c ∈ as ++ bs := by
          rw [hrep] at hmem
          rcases List.mem_append.mp hmem with hmem | hmem
          · exact List.mem_append_left _ hmem
          · rcases List.mem_cons.mp hmem with rfl | hmem
            · exact absurd rfl hv
            · exact List.mem_append_right _ hmem
        rw [Option.map_some, Rose.modify_of_none fun l hl => decide_eq_false (hs.separate.ref_ne hrep hn c hother l hl)]
  sound := hsound

theorem head_addCounts (a b : Int) (c : Chapter Card) : (Chapter.addCounts a b c).head = c.head := rfl

theorem Reshapes.addCounts {u : Option JsString} {a b : Int} (h : Reshapes u s s') :
    Reshapes u s (s'.onChapter uuid (Chapter.addCounts a b)) :=
  h.trans (Reshapes.onChapter h.sound (Counts.addCounts a b) (head_addCounts a b))

theorem Reshapes.updateDueCounts {u : Option JsString} (h : Reshapes u s s') :
    Reshapes u s (s'.updateDueCounts env) := by
  rw [TrainerState.updateDueCounts]
  split
  · exact h
  · split
    · exact h
    · rename_i chapter _ _
      have hset : Reshapes u s (s'.onChapter chapter.uuid
          (Chapter.setLastDueCount ((dueSummary env chapter.root).countP (· ≤ 0)))) :=
        h.trans (Reshapes.onChapter h.sound (Counts.setLastDueCount _) fun _ => rfl)
      exact hset.trans (Reshapes.of_repertoire hset.sound rfl rfl)

theorem Reshapes.removeLine (hs : Sound s) (hc : s.chapter uuid = some chapter) :
    Reshapes (some uuid) s (s.removeLine env chapter path) := by
  have hm : Sound (s.mutate (nodeAtPath chapter.root (init path)).ref (Client.removeChild (last path))) :=
    hs.removeChild _
  have h1 : Reshapes (some uuid) s (s.deleteNodeAt chapter path) :=
    Reshapes.mutate hs (chapter_root hc) (nodeAtPath_mem_nodes _ _) (Keeps.removeChild (last path)) rfl
      (hm.of_repertoire rfl rfl)
  exact h1.addCounts.updateDueCounts

theorem Reshapes.setData {root n : TrainableNode Card} {g : TrainingData Card → TrainingData Card} (hs : Sound s)
    (hroot : s.rootOf uuid = some root) (hn : n ∈ root.nodes) (hg : ∀ d, (g d).id = d.id) :
    Reshapes (some uuid) s (s.mutate n.label.ref fun n => n.setData (g n.data)) :=
  Reshapes.mutate hs hroot hn (Keeps.setData hg) rfl (hs.setData hg)

theorem Reshapes.send {u : Option JsString} {msg : Outgoing Card} (h : Reshapes u s s') : Reshapes u s (s'.send env msg) :=
  h.trans (Reshapes.of_repertoire h.sound (repertoire_send msg) (by rw [send_eq]))

theorem Reshapes.startSetCommentAt {comment : JsString} (hs : Sound s) (hc : s.chapter uuid = some chapter) :
    Reshapes (some uuid) s (s.startSetCommentAt chapter comment path).1 := by
  simp only [TrainerState.startSetCommentAt]
  generalize (if comment.length > maxCommentChars then comment.take maxCommentChars else comment) = cut
  exact Reshapes.setData (g := TrainingData.setComment cut) hs (chapter_root hc) (nodeAtPath_mem_nodes _ _) fun _ => rfl

theorem Reshapes.putCard {target : TrainableNode Card} {card : Card} (hs : Sound s) {root : TrainableNode Card}
    (hroot : s.rootOf uuid = some root) (hn : target ∈ root.nodes) :
    Reshapes (some uuid) s (s.putCard env chapter target path card) :=
  (Reshapes.setData (g := TrainingData.setCard env.currentUserKey card) hs hroot hn fun _ => rfl).send

theorem Reshapes.learn {target : TrainableNode Card} (hs : Sound s)
    (ht : s.trainingTarget env = some (chapter, target, path)) (hc : s.chapter uuid = some chapter)
    (hn : target ∈ chapter.root.nodes) : Reshapes (some uuid) s (s.learn env) := by
  simp only [TrainerState.learn, ht]
  have h : Reshapes (some uuid) s (s.onChapter chapter.uuid (Chapter.addCounts 0 (-1))) :=
    (Reshapes.of_repertoire hs rfl rfl).addCounts
  refine h.trans (Reshapes.putCard h.sound ?_ hn)
  rw [rootOf_onChapter (Counts.addCounts _ _), chapter_root hc]

theorem Reshapes.train {target : TrainableNode Card} {correct : Bool} (hs : Sound s)
    (ht : s.trainingTarget env = some (chapter, target, path)) (hc : s.chapter uuid = some chapter)
    (hn : target ∈ chapter.root.nodes) : Reshapes (some uuid) s (s.train env correct) := by
  simp only [TrainerState.train, ht]
  split
  · exact Reshapes.of_repertoire hs rfl rfl
  · exact Reshapes.of_repertoire hs rfl rfl
  · exact Reshapes.putCard hs (chapter_root hc) hn

/-- The move is made in the tree of the selected chapter. -/
theorem Reshapes.makeMove {san : JsString} (hs : Sound s) (hsel : s.selectedChapter = some chapter)
    (hc : s.chapter uuid = some chapter)
    (hn : ∀ n d, nextMove chess s san = some (n, d) → n ∈ chapter.root.nodes) :
    Reshapes (some uuid) s (s.makeMove chess env san) := by
  cases hnode : s.selectedNode.bind s.deref with
  | none =>
      simp only [TrainerState.makeMove, hsel, hnode]
      exact Reshapes.of_repertoire hs rfl rfl
  | some node =>
      simp only [TrainerState.makeMove, hsel, hnode]
      split
      · exact Reshapes.of_repertoire hs rfl rfl
      · rename_i s' he
        have hfollow {u : Option JsString} (h : Reshapes u s s') : Reshapes u s (s'.follow node.label.ref san) := by
          refine h.trans (Reshapes.of_repertoire h.sound (repertoire_follow _ _) ?_)
          rw [follow_eq]
        apply hfollow
        rcases extend_cases he with ⟨-, rfl⟩ | ⟨hnew, d, hd, k, -, rfl⟩
        · exact Reshapes.of_repertoire hs rfl rfl
        · have hmem : node ∈ chapter.root.nodes := by
            refine hn node d ?_
            simp only [nextMove, hsel, hnode]
            rw [if_neg, hd]
            · rfl
            · intro hany
              obtain ⟨c, hcmem, hsan⟩ := List.any_eq_true.mp hany
              exact hnew c hcmem (of_decide_eq_true hsan)
          have h : Reshapes (some uuid) s (s.onChapter chapter.uuid (Chapter.addCounts k k)) :=
            (Reshapes.of_repertoire hs rfl rfl).addCounts
          have hroot : (s.onChapter chapter.uuid (Chapter.addCounts k k)).rootOf uuid = some chapter.root := by
            rw [rootOf_onChapter (Counts.addCounts _ _), chapter_root hc]
          have hpush : Reshapes (some uuid) (s.onChapter chapter.uuid (Chapter.addCounts k k))
              ((s.onChapter chapter.uuid (Chapter.addCounts k k)).pushNew node.ref d) :=
            Reshapes.mutate h.sound hroot hmem (Keeps.push _) rfl (h.sound.pushNew (newMove_id hd))
          exact (h.trans hpush).send

/-! ## The list of chapters -/

theorem labelsList_perm {ts us : List (TrainableNode Card)} (h : ts.Perm us) :
    (Rose.labelsList ts).Perm (Rose.labelsList us) := by
  induction h with
  | nil => exact List.Perm.refl _
  | cons t _ ih =>
      rw [Rose.labelsList_cons, Rose.labelsList_cons]
      exact ih.append_left _
  | swap t u ts =>
      simp only [Rose.labelsList_cons, ← List.append_assoc]
      exact List.perm_append_comm.append_right _
  | trans _ _ ih1 ih2 => exact ih1.trans ih2

theorem labelsList_sublist {ts us : List (TrainableNode Card)} (h : ts.Sublist us) :
    (Rose.labelsList ts).Sublist (Rose.labelsList us) := by
  induction h with
  | slnil => exact List.Sublist.refl _
  | cons t _ ih =>
      rw [Rose.labelsList_cons]
      exact ih.trans (List.sublist_append_right _ _)
  | cons_cons t _ ih =>
      rw [Rose.labelsList_cons, Rose.labelsList_cons]
      exact (List.Sublist.refl _).append ih

theorem addNewChapterLocally_perm (s : TrainerState Card) (c : Chapter Card) :
    (s.addNewChapterLocally c).repertoire.Perm (c :: s.repertoire) := by
  rw [TrainerState.addNewChapterLocally]
  split
  · exact List.Perm.refl _
  · exact List.perm_append_comm

theorem insertChapter_perm (s : TrainerState Card) (env : Env Card) (c : RawChapter Card) :
    (s.insertChapter env c).1.repertoire.Perm ((s.insertChapter env c).2 :: s.repertoire) :=
  addNewChapterLocally_perm _ _

/-- A chapter of new objects comes in. -/
theorem Sound.insertChapter {c : RawChapter Card} (hs : Sound s) (h2 : RawTwoUnits [c]) :
    Sound (s.insertChapter env c).1 := by
  obtain ⟨href, hnext, hdata⟩ := allocate_spec s.nextRef c.root
  have hperm : (s.insertChapter env c).1.roots.Perm ((allocate s.nextRef c.root).1 :: s.roots) :=
    (insertChapter_perm s env c).map Chapter.root
  have hlabels := labelsList_perm hperm
  rw [Rose.labelsList_cons] at hlabels
  have hlt : s.nextRef ≤ (allocate s.nextRef c.root).2 := by omega
  constructor
  · rw [(hlabels.map Object.ref).nodup_iff, List.map_append, List.nodup_append]
    refine ⟨href ▸ List.nodup_range', hs.nodup, ?_⟩
    intro a ha b hb
    obtain ⟨l, hl, rfl⟩ := List.mem_map.mp ha
    obtain ⟨m, hm, rfl⟩ := List.mem_map.mp hb
    have h1 := (allocate_label hl).1
    have h2 := hs.fresh m hm
    omega
  · intro n hn
    rcases List.mem_append.mp (hlabels.mem_iff.mp hn) with hn | hn
    · exact (allocate_label hn).2.1
    · exact Nat.lt_of_lt_of_le (hs.fresh n hn) hlt
  · intro t ht
    rcases List.mem_cons.mp (hperm.mem_iff.mp ht) with rfl | ht
    · exact twoUnits_of_map hdata (h2 c (List.mem_singleton_self _))
    · exact hs.twoUnits t ht

/-- The chapter goes, and all others stay. -/
theorem removeChapter_spec {chapterId : JsString} {idx : Nat}
    (h : (s.repertoire.findIdx? fun c => c.uuid = chapterId) = some idx) :
    ∃ as c bs, s.repertoire = as ++ c :: bs ∧ c.uuid = chapterId ∧
      (s.removeChapter chapterId idx).repertoire = as ++ bs ∧
      (s.removeChapter chapterId idx).nextRef = s.nextRef := by
  obtain ⟨hlt, hp, -⟩ := List.findIdx?_eq_some_iff_getElem.mp h
  refine ⟨s.repertoire.take idx, s.repertoire[idx], s.repertoire.drop (idx + 1), ?_, of_decide_eq_true hp, ?_, ?_⟩
  · rw [← List.drop_eq_getElem_cons hlt, List.take_append_drop]
  · rw [← List.eraseIdx_eq_take_drop_succ, removeChapter]
    split <;> rfl
  · rw [removeChapter]
    split <;> rfl

theorem Sound.of_sublist (hs : Sound s) (h : s'.repertoire.Sublist s.repertoire) (hn : s'.nextRef = s.nextRef) :
    Sound s' := by
  have hroots : s'.roots.Sublist s.roots := h.map Chapter.root
  have hlabels := labelsList_sublist hroots
  exact ⟨(hlabels.map Object.ref).nodup hs.nodup, fun n hm => hn ▸ hs.fresh n (hlabels.subset hm),
    fun t ht => hs.twoUnits t (hroots.subset ht)⟩

/-! ## Objects held by a job -/

/-- A chapter of the store is found as it is. -/
theorem refresh_of_head (hs : Sound s) {c d : Chapter Card} (hd : d ∈ s.repertoire) (h : c.head = d.head) :
    (s.refresh c).root = d.root := by
  have hroot : c.root.ref = d.root.label.ref := congrArg Head.root h
  have hderef : s.deref d.root.label.ref = some d.root := hs.deref (List.mem_map_of_mem hd) (Rose.self_mem_nodes _)
  rw [refresh, hroot, hderef]
  rfl

theorem stored_refresh (hs : Sound s) {c d : Chapter Card} (hd : d ∈ s.repertoire) (h : c.head = d.head) :
    (s.refresh c).stored = d.stored := by
  have huuid : c.uuid = d.uuid := congrArg Head.uuid h
  have hname : c.name = d.name := congrArg Head.name h
  have htrain : c.trainAs = d.trainAs := congrArg Head.trainAs h
  rw [Chapter.stored, refresh_of_head hs hd h, Chapter.stored, ← huuid, ← hname, ← htrain]
  rfl

/-- The chapters there are, set again. -/
theorem Reshapes.setChapters {u : Option JsString} {cs : List (Chapter Card)} (hs : Sound s)
    (h : cs.map Chapter.head = s.heads) : Reshapes u s (s.setChapters cs) := by
  have hpairs : ∀ cs ds : List (Chapter Card), cs.map Chapter.head = ds.map Chapter.head →
      (∀ d ∈ ds, d ∈ s.repertoire) →
      (cs.map s.refresh).map (fun c => (c.uuid, c.root)) = ds.map (fun d => (d.uuid, d.root)) ∧
        (cs.map s.refresh).map Chapter.head = ds.map Chapter.head := by
    intro cs
    induction cs with
    | nil =>
        intro ds hds _
        cases ds with
        | nil => exact ⟨rfl, rfl⟩
        | cons d ds => cases hds
    | cons c cs ih =>
        intro ds hds hmem
        cases ds with
        | nil => cases hds
        | cons d ds =>
            obtain ⟨hcd, hrest⟩ := List.cons.inj hds
            obtain ⟨ih1, ih2⟩ := ih ds hrest fun e he => hmem e (List.mem_cons_of_mem _ he)
            have hroot := refresh_of_head hs (hmem d List.mem_cons_self) hcd
            have hhead : (s.refresh c).head = d.head := by
              rw [← hcd, Chapter.head, hroot]
              exact congrArg (Head.mk c.uuid c.name c.trainAs) (congrArg Head.root hcd).symm
            have hpair : ((s.refresh c).uuid, (s.refresh c).root) = (d.uuid, d.root) :=
              Prod.ext (congrArg Head.uuid hcd) hroot
            simp only [List.map_cons, ih1, ih2, hpair, hhead, and_self]
  obtain ⟨hpair, hhead⟩ := hpairs cs s.repertoire h fun d hd => hd
  have hroots : (s.setChapters cs).roots = s.roots := by
    have hsnd := congrArg (List.map Prod.snd) hpair
    change (cs.map s.refresh).map Chapter.root = s.repertoire.map Chapter.root
    simpa only [List.map_map, Function.comp_def] using hsnd
  refine ⟨hhead, fun v _ => ?_, hs.congr hroots (Nat.le_refl _)⟩
  have hfind : ∀ ds : List (Chapter Card), (ds.find? fun c => c.uuid = v).map Chapter.root =
      ((ds.map fun d => (d.uuid, d.root)).find? fun p => p.1 = v).map Prod.snd := by
    intro ds
    rw [List.find?_map, Option.map_map]
    rfl
  rw [TrainerState.rootOf, TrainerState.rootOf, TrainerState.chapter, TrainerState.chapter, hfind, hfind s.repertoire, ← hpair]
  rfl

end Chessrepeat.Client
