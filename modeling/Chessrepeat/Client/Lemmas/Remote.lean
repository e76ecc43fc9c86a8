import Chessrepeat.Client.Lemmas.Counters
import Chessrepeat.Client.Remote

/-!
# The other chapters are left alone

An event changes objects of one chapter only, and no object is in two chapters.
-/

namespace Chessrepeat.Client

open Lib TrainerState

variable {Card : Type} {s s' : TrainerState Card} {env : Env Card} {uuid : JsString} {chapter : Chapter Card}

theorem others_of_repertoire (h : s'.repertoire = s.repertoire) (uuid : JsString) : s'.others uuid = s.others uuid := by
  rw [others, h, others]

/-- An edit of an object of the chapter leaves the trees of the others as they are. -/
theorem modify_other (hs : Separate s) (hc : s.chapter uuid = some chapter) {n : TrainableNode Card}
    (hn : n ∈ chapter.root.nodes) (f : TrainableNode Card → TrainableNode Card) {c : Chapter Card}
    (hmem : c ∈ s.repertoire) (hne : c.uuid ≠ uuid) :
    Rose.modify (fun m : Object Card => m.ref = n.label.ref) f c.root = c.root := by
  obtain ⟨hu, as, bs, hrep, -⟩ := chapter_split hc
  have hmem : c ∈ as ++ bs := by
    rw [hrep] at hmem
    rcases List.mem_append.mp hmem with hmem | hmem
    · exact List.mem_append_left bs hmem
    · rcases List.mem_cons.mp hmem with rfl | hmem
      · exact absurd hu hne
      · exact List.mem_append_right as hmem
  exact Rose.modify_of_none fun l hl => decide_eq_false (hs.ref_ne hrep hn c hmem l hl)

theorem others_mutate (hs : Separate s) (hc : s.chapter uuid = some chapter) {n : TrainableNode Card}
    (hn : n ∈ chapter.root.nodes) (f : TrainableNode Card → TrainableNode Card) :
    (s.mutate n.label.ref f).others uuid = s.others uuid := by
  rw [others, others, mutate, List.filter_map, List.map_map]
  refine List.map_congr_left fun c hc' => ?_
  obtain ⟨hmem, hne⟩ := List.mem_filter.mp hc'
  have hroot := modify_other hs hc hn f hmem (of_decide_eq_true hne)
  simp only [Function.comp_apply, Chapter.mapRoot, hroot]

theorem others_onChapter {f : Chapter Card → Chapter Card} (hf : Counts f) : (s.onChapter uuid f).others uuid = s.others uuid := by
  rw [others, others, onChapter]
  refine congrArg _ ?_
  induction s.repertoire with
  | nil => rfl
  | cons c cs ih =>
      by_cases h : c.uuid = uuid
      · simp [updateChapter, h, hf.uuid]
      · simp only [updateChapter, h, if_false, List.filter_cons]
        rw [ih]

theorem others_setLastDueCount (n : Int) (v : JsString) :
    (s.onChapter v (Chapter.setLastDueCount n)).others uuid = s.others uuid := by
  rw [others, others, onChapter]
  induction s.repertoire with
  | nil => rfl
  | cons c cs ih =>
      by_cases h : c.uuid = v
      · by_cases hu : c.uuid = uuid
        · simp [updateChapter, h, h ▸ hu, Chapter.setLastDueCount]
        · have hv : v ≠ uuid := h ▸ hu
          simp [updateChapter, h, hv, Chapter.setLastDueCount]
      · simp only [updateChapter, h, if_false, List.filter_cons]
        split
        · rw [List.map_cons, List.map_cons, ih]
        · exact ih

theorem others_updateDueCounts : (s.updateDueCounts env).others uuid = s.others uuid := by
  rw [updateDueCounts]
  split
  · rfl
  · split
    · rfl
    · exact others_setLastDueCount _ _

theorem others_removeLine {path : JsString} (hs : Separate s) (hc : s.chapter uuid = some chapter) :
    (s.removeLine env chapter path).others uuid = s.others uuid := by
  have hu : chapter.uuid = uuid := (chapter_mem hc).2
  rw [removeLine, others_updateDueCounts, hu, others_onChapter (Counts.addCounts _ _)]
  exact others_mutate hs hc (nodeAtPath_mem_nodes _ _) _

theorem others_addMove {path : JsString} {node : Rose (TrainingData Card)} (hs : Separate s)
    (hc : s.chapter uuid = some chapter) : (s.addMove env uuid path node).others uuid = s.others uuid := by
  simp only [addMove, hc]
  split
  · rfl
  · rename_i parent hparent
    rw [(chapter_mem hc).2, others_onChapter (Counts.addCounts _ _)]
    exact others_mutate hs hc (nodeAtPathOrNull_mem_nodes hparent) _

theorem filter_eraseIdx {cs : List (Chapter Card)} {idx : Nat} (h : cs.findIdx? (fun c => c.uuid = uuid) = some idx) :
    (cs.eraseIdx idx).filter (fun c => c.uuid ≠ uuid) = cs.filter fun c => c.uuid ≠ uuid := by
  induction cs generalizing idx with
  | nil => cases h
  | cons c cs ih =>
      rw [List.findIdx?_cons] at h
      split at h
      · rename_i hc
        cases h
        simp [of_decide_eq_true hc]
      · obtain ⟨i, hi, rfl⟩ := Option.map_eq_some_iff.mp h
        rw [List.eraseIdx_cons_succ, List.filter_cons, List.filter_cons, ih hi]

theorem others_deleteChapterRemote : (s.deleteChapterRemote uuid).others uuid = s.others uuid := by
  rw [deleteChapterRemote]
  split
  · rfl
  · rename_i idx hidx
    split <;> exact congrArg (List.map _) (filter_eraseIdx hidx)

/-! ## The view -/

theorem view_of_rest (h : s'.rest = s.rest) : s'.view = s.view := (congrArg view h : _)

/-- On the selected chapter, a line of another chapter is not missed. -/
theorem selectedRoot_removeLine_other {path : JsString} (hs : Separate s) (hc : s.chapter uuid = some chapter)
    (hne : s.selectedChapterId ≠ some uuid) : (s.removeLine env chapter path).selectedRoot = s.selectedRoot := by
  rw [selectedRoot_removeLine, selectedRoot, selectedChapter]
  cases hid : s.selectedChapterId with
  | none => rfl
  | some id =>
      cases hsel : s.chapter id with
      | none => simp [hsel]
      | some c =>
          obtain ⟨hmem, hu⟩ := chapter_mem hsel
          have hother : c.uuid ≠ uuid := fun h => hne (by rw [hid, ← hu, h])
          have hroot := modify_other hs hc (nodeAtPath_mem_nodes chapter.root (init path)) (removeChild (last path)) hmem hother
          simp only [Option.bind_some, hsel, Option.map_some]
          exact congrArg some hroot

/-- Where `jump` takes the view on a chapter with this root. -/
def TrainerState.jumpView (s : TrainerState Card) (root : TrainableNode Card) (path : JsString) : View :=
  ⟨s.selectedChapterId, path, (getNodeList root path).getLast?.map TrainableNode.ref, s.trainableContext, s.userTip⟩

theorem view_jump {path : JsString} (hc : s.selectedChapter = some chapter) :
    (s.jump path).view = s.jumpView chapter.root path := by
  simp only [jump, hc]
  rfl

theorem view_setNextTrainablePosition {method : TrainingMethod} (hc : s.selectedChapter = some chapter)
    (hm : s.trainingMethod = some method) (hedit : method ≠ .edit) :
    (s.setNextTrainablePosition env).view = s.nextView env chapter.root method := by
  rcases setNextTrainablePosition_cases s env with ⟨hstop, -⟩ | ⟨c, m, hc', hm', -, hn, h⟩ | ⟨c, m, x, hc', hm', -, hn, h⟩
  · rcases hstop with hno | hno
    · rw [hc] at hno; cases hno
    · exact absurd (hno method hm) hedit
  · rw [hc] at hc'; cases hc'
    rw [hm] at hm'; cases hm'
    rw [h, nextView, hn]
    rfl
  · rw [hc] at hc'; cases hc'
    rw [hm] at hm'; cases hm'
    rw [h, nextView, hn]
    rfl

theorem setNextTrainablePosition_of_idle (h : s.trainingMethod = none ∨ s.trainingMethod = some .edit) :
    s.setNextTrainablePosition env = s := by
  rw [setNextTrainablePosition]
  rcases h with h | h <;> simp only [h]

theorem view_deleteChapterRemote (hne : s.selectedChapterId ≠ some uuid) : (s.deleteChapterRemote uuid).view = s.view := by
  rw [deleteChapterRemote]
  split
  · rfl
  · simp only [hne, if_false]
    rfl

/-- Going to the parent of a path that leads to the selected node is no change only at the root. -/
theorem init_eq_iff {path p : JsString} (hp : path <+: p) : init path = p ↔ path = [] ∧ p = [] := by
  constructor
  · intro h
    have hlen := congrArg List.length h
    rw [length_init] at hlen
    have hle := hp.length_le
    have h0 : path = [] := List.length_eq_zero_iff.mp (by omega)
    subst h0
    exact ⟨rfl, h.symm⟩
  · rintro ⟨rfl, rfl⟩
    rfl

theorem setNextTrainablePosition_of_unselected (h : s.selectedChapter = none) :
    s.setNextTrainablePosition env = s := by
  rw [setNextTrainablePosition, h]
  split <;> rfl

/-- The handler goes to the parent of the path on the chapter that is selected. -/
theorem view_recalculated {c : Chapter Card} {path : JsString} (hrest : s'.rest = s.rest)
    (hroot : s'.selectedRoot = s.selectedRoot) (hsel : s.selectedChapter = some c) :
    ((s'.jump (init path)).setNextTrainablePosition env).view =
      match s.trainingMethod with
      | none | some .edit => s.jumpView c.root (init path)
      | some method => s.nextView env c.root method := by
  rw [selectedChapter_root hsel] at hroot
  obtain ⟨c', hsel', hc'⟩ := Option.map_eq_some_iff.mp hroot
  have hview := view_of_rest hrest
  have hjump : (s'.jump (init path)).view = s'.jumpView c'.root (init path) := view_jump hsel'
  have hsel'' : (s'.jump (init path)).selectedChapter = some c' := by
    rw [jump, hsel']
    exact hsel'
  have hmethod : (s'.jump (init path)).trainingMethod = s.trainingMethod :=
    (trainingMethod_jump _).trans (trainingMethod_of_rest hrest)
  have hidle : s.trainingMethod = none ∨ s.trainingMethod = some .edit →
      ((s'.jump (init path)).setNextTrainablePosition env).view = s.jumpView c.root (init path) := by
    intro h
    rw [setNextTrainablePosition_of_idle (by rwa [hmethod]), hjump, hc', jumpView, jumpView, selectedChapterId_of_rest hrest]
    exact congrArg (fun v : View => (⟨_, _, _, v.trainableContext, v.userTip⟩ : View)) hview
  have hbusy : ∀ method, s.trainingMethod = some method → method ≠ .edit →
      ((s'.jump (init path)).setNextTrainablePosition env).view = s.nextView env c.root method := by
    intro method h hedit
    have hid : (s'.jump (init path)).selectedChapterId = s.selectedChapterId :=
      (congrArg View.selectedChapterId hjump).trans (selectedChapterId_of_rest hrest)
    have hconfig : (s'.jump (init path)).searchConfig = s.searchConfig := by
      rw [jump, hsel']
      exact (congrArg searchConfig hrest : _)
    rw [view_setNextTrainablePosition hsel'' (hmethod.trans h) hedit, hc', nextView, nextView, hid, hconfig]
  cases hm : s.trainingMethod with
  | none => exact hidle (Or.inl hm)
  | some method =>
      cases method with
      | edit => exact hidle (Or.inr hm)
      | _ => exact hbusy _ hm (by rintro ⟨⟩)

theorem jumpView_eq_view {root : TrainableNode Card} {path : JsString} (hin : contains s.selectedPath path = true) :
    s.jumpView root (init path) = s.view ↔ path = [] ∧ s.selectedPath = [] ∧ s.selectedNode = some root.ref := by
  simp only [jumpView, view, View.mk.injEq, true_and, and_true, init_eq_iff (contains_iff.mp hin), and_assoc]
  refine and_congr_right fun h0 => and_congr_right fun _ => ?_
  subst h0
  exact eq_comm

/-- Nothing is seen of a chapter where none is selected. -/
theorem view_recalculated_of_unselected {path : JsString} (hrest : s'.rest = s.rest)
    (hroot : s'.selectedRoot = s.selectedRoot) (hsel : s.selectedChapter = none) :
    ((s'.jump path).setNextTrainablePosition env).view = s.view := by
  have hnone : s'.selectedChapter = none := by
    rw [selectedRoot, selectedRoot, hsel] at hroot
    exact Option.map_eq_none_iff.mp hroot
  have hjump : s'.jump path = s' := by rw [jump, hnone]
  rw [hjump, setNextTrainablePosition_of_unselected hnone, view_of_rest hrest]

theorem view_deleteNodeRemote {chapterId path : JsString} (hs : Separate s) (hc : s.chapter chapterId = some chapter)
    (hne : s.selectedChapterId ≠ some chapterId) :
    (s.deleteNodeRemote env chapterId path).view = s.view ↔ Undisturbed env s (.deleteNodeRemote chapterId path) := by
  simp only [deleteNodeRemote, hc, Undisturbed]
  have hrest : (s.removeLine env chapter path).rest = s.rest := rest_removeLine
  have hroot : (s.removeLine env chapter path).selectedRoot = s.selectedRoot := selectedRoot_removeLine_other hs hc hne
  by_cases hin : contains s.selectedPath path = true
  · rw [if_pos hin]
    cases hsel : s.selectedChapter with
    | none =>
        refine ⟨fun _ _ c hc => ?_, fun _ => view_recalculated_of_unselected hrest hroot hsel⟩
        cases hc
    | some c =>
        rw [view_recalculated hrest hroot hsel]
        have hsplit : ∀ {P : Chapter Card → Prop}, (contains s.selectedPath path = true → ∀ c', some c = some c' → P c') ↔ P c :=
          ⟨fun h => h hin c rfl, fun h _ _ he => Option.some.inj he ▸ h⟩
        rw [hsplit]
        cases hm : s.trainingMethod with
        | none => exact jumpView_eq_view hin
        | some method =>
            cases method with
            | edit => exact jumpView_eq_view hin
            | _ => exact eq_comm
  · rw [if_neg hin]
    exact ⟨fun _ h => absurd h hin, fun _ => view_of_rest hrest⟩

theorem others_deleteNodeRemote {chapterId path : JsString} (hs : Separate s) (hc : s.chapter chapterId = some chapter) :
    (s.deleteNodeRemote env chapterId path).others chapterId = s.others chapterId := by
  rw [others_of_repertoire (deleteNodeRemote_eq env path hc).1, others_removeLine hs hc]

end Chessrepeat.Client
