import Chessrepeat.Client.Lemmas.Paths
import Chessrepeat.Client.State

/-!
# The objects of the repertoire

Every reference in the repertoire names one object, and the ids below the roots have two units. The edits of the
store keep both, and each is described by what it does to the root of a chapter.
-/

namespace Chessrepeat.Client

open Lib

variable {Card : Type}

namespace TrainerState

/-- The roots of the repertoire. -/
def roots (s : TrainerState Card) : List (TrainableNode Card) := s.repertoire.map Chapter.root

/-- The root of the first chapter with that uuid. -/
def rootOf (s : TrainerState Card) (uuid : JsString) : Option (TrainableNode Card) :=
  (s.chapter uuid).map Chapter.root

def selectedRoot (s : TrainerState Card) : Option (TrainableNode Card) := s.selectedChapter.map Chapter.root

theorem selectedRoot_eq (s : TrainerState Card) : s.selectedRoot = s.selectedChapterId.bind s.rootOf := by
  rw [selectedRoot, selectedChapter, Option.map_bind]; rfl

end TrainerState

structure Sound (s : TrainerState Card) : Prop where
  nodup : ((Rose.labelsList s.roots).map Object.ref).Nodup
  fresh : ∀ n ∈ Rose.labelsList s.roots, n.ref < s.nextRef
  twoUnits : ∀ t ∈ s.roots, TwoUnits t

/-- No object is in the trees twice. -/
def Separate (s : TrainerState Card) : Prop := ((Rose.labelsList s.roots).map Object.ref).Nodup

instance (s : TrainerState Card) : Decidable (Separate s) := inferInstanceAs (Decidable (List.Nodup _))

open TrainerState

variable {s s' : TrainerState Card} {uuid : JsString} {root : TrainableNode Card}

theorem Sound.separate (h : Sound s) : Separate s := h.nodup

/-! ## Chapters -/

theorem chapter_mem {c : Chapter Card} (h : s.chapter uuid = some c) : c ∈ s.repertoire ∧ c.uuid = uuid :=
  ⟨List.mem_of_find?_eq_some h, by simpa using List.find?_some h⟩

theorem rootOf_mem (h : s.rootOf uuid = some root) : root ∈ s.roots := by
  obtain ⟨c, hc, rfl⟩ := Option.map_eq_some_iff.mp h
  exact List.mem_map_of_mem (chapter_mem hc).1

theorem selectedRoot_mem (h : s.selectedRoot = some root) : root ∈ s.roots := by
  rw [selectedRoot_eq] at h
  obtain ⟨id, -, h⟩ := Option.bind_eq_some_iff.mp h
  exact rootOf_mem h

theorem selectedChapter_root {c : Chapter Card} (h : s.selectedChapter = some c) : s.selectedRoot = some c.root := by
  rw [selectedRoot, h]; rfl

theorem chapter_root {c : Chapter Card} (h : s.chapter uuid = some c) : s.rootOf uuid = some c.root := by
  rw [rootOf, h]; rfl

theorem map_root_updateChapter {f : Chapter Card → Chapter Card} (hf : ∀ c, (f c).root = c.root)
    (cs : List (Chapter Card)) : (updateChapter uuid f cs).map Chapter.root = cs.map Chapter.root := by
  induction cs with
  | nil => rfl
  | cons c cs ih => by_cases h : c.uuid = uuid <;> simp [updateChapter, h, hf, ih]

theorem find?_updateChapter {f : Chapter Card → Chapter Card} (hf : ∀ c, (f c).root = c.root)
    (hu : ∀ c, (f c).uuid = c.uuid) (cs : List (Chapter Card)) (v : JsString) :
    ((updateChapter uuid f cs).find? fun c => c.uuid = v).map Chapter.root =
      (cs.find? fun c => c.uuid = v).map Chapter.root := by
  induction cs with
  | nil => rfl
  | cons c cs ih =>
      by_cases h : c.uuid = uuid <;> by_cases hv : c.uuid = v <;> simp_all [updateChapter]

/-- A change of a chapter's counts. -/
structure Counts (f : Chapter Card → Chapter Card) : Prop where
  root : ∀ c, (f c).root = c.root
  uuid : ∀ c, (f c).uuid = c.uuid

theorem Counts.addCounts (a b : Int) : Counts (Chapter.addCounts a b : Chapter Card → Chapter Card) :=
  ⟨fun _ => rfl, fun _ => rfl⟩

theorem Counts.setLastDueCount (n : Int) : Counts (Chapter.setLastDueCount n : Chapter Card → Chapter Card) :=
  ⟨fun _ => rfl, fun _ => rfl⟩

theorem roots_onChapter {f : Chapter Card → Chapter Card} (hf : Counts f) : (s.onChapter uuid f).roots = s.roots :=
  map_root_updateChapter hf.root s.repertoire

theorem rootOf_onChapter {f : Chapter Card → Chapter Card} (hf : Counts f) (v : JsString) :
    (s.onChapter uuid f).rootOf v = s.rootOf v :=
  find?_updateChapter hf.root hf.uuid s.repertoire v

theorem selectedRoot_onChapter {f : Chapter Card → Chapter Card} (hf : Counts f) :
    (s.onChapter uuid f).selectedRoot = s.selectedRoot := by
  rw [selectedRoot_eq, selectedRoot_eq]
  exact congrArg _ (funext fun v => rootOf_onChapter hf v)

/-! ## Edits of objects -/

theorem roots_mutate (r : Nat) (f : TrainableNode Card → TrainableNode Card) :
    (s.mutate r f).roots = s.roots.map (Rose.modify (fun n => n.ref = r) f) := by
  simp [roots, mutate, Chapter.mapRoot, Function.comp_def]

theorem rootOf_mutate (r : Nat) (f : TrainableNode Card → TrainableNode Card) (v : JsString) :
    (s.mutate r f).rootOf v = (s.rootOf v).map (Rose.modify (fun n => n.ref = r) f) := by
  simp only [rootOf, chapter, mutate, List.find?_map, Option.map_map]
  rfl

theorem selectedRoot_mutate (r : Nat) (f : TrainableNode Card → TrainableNode Card) :
    (s.mutate r f).selectedRoot = s.selectedRoot.map (Rose.modify (fun n => n.ref = r) f) := by
  rw [selectedRoot_eq, selectedRoot_eq, Option.map_bind]
  exact congrArg _ (funext fun v => rootOf_mutate r f v)

/-! ## Soundness -/

theorem Sound.congr (h : Sound s) (hr : s'.roots = s.roots) (hn : s.nextRef ≤ s'.nextRef) : Sound s' :=
  ⟨hr ▸ h.nodup, fun n hm => Nat.lt_of_lt_of_le (h.fresh n (hr ▸ hm)) hn, hr ▸ h.twoUnits⟩

theorem Sound.initial : Sound (TrainerState.initial : TrainerState Card) :=
  ⟨List.nodup_nil, by simp [roots, TrainerState.initial], by simp [roots, TrainerState.initial]⟩

/-- What an edit of an object may not change. -/
structure Keeps (f : TrainableNode Card → TrainableNode Card) : Prop where
  ref : ∀ n : TrainableNode Card, (f n).label.ref = n.label.ref
  id : ∀ n : TrainableNode Card, (f n).label.id = n.label.id

theorem TwoUnits.modify {p : Object Card → Bool} {f : TrainableNode Card → TrainableNode Card} (hk : Keeps f)
    (hf : ∀ n, TwoUnits n → TwoUnits (f n)) {t : TrainableNode Card} (h : TwoUnits t) : TwoUnits (Rose.modify p f t) :=
  Rose.Below.modify (fun n _ hn => by rwa [hk.id n]) hf h

/-- An edit that makes no new objects. -/
theorem Sound.mutate {r : Nat} {f : TrainableNode Card → TrainableNode Card} (h : Sound s) (hk : Keeps f)
    (hs : ∀ n, ((f n).labels.map Object.ref).Sublist (n.labels.map Object.ref))
    (h2 : ∀ n, TwoUnits n → TwoUnits (f n)) : Sound (s.mutate r f) := by
  have hsub : ((Rose.labelsList (s.mutate r f).roots).map Object.ref).Sublist
      ((Rose.labelsList s.roots).map Object.ref) := by
    rw [roots_mutate, ← Rose.modifyList_eq]
    exact Rose.map_labelsList_modify_sublist (fun n _ => hs n) s.roots
  constructor
  · exact hsub.nodup h.nodup
  · intro n hn
    obtain ⟨m, hm, he⟩ := List.mem_map.mp (hsub.subset (List.mem_map_of_mem hn))
    exact he ▸ h.fresh m hm
  · intro t ht
    rw [roots_mutate] at ht
    obtain ⟨u, hu, rfl⟩ := List.mem_map.mp ht
    exact (h.twoUnits u hu).modify hk h2

theorem Keeps.setData {g : TrainingData Card → TrainingData Card} (hg : ∀ d, (g d).id = d.id) :
    Keeps fun n : TrainableNode Card => n.setData (g n.data) :=
  ⟨fun _ => rfl, fun n => hg n.label.data⟩

theorem Keeps.removeChild (id : JsString) : Keeps (removeChild id : TrainableNode Card → TrainableNode Card) :=
  ⟨fun _ => rfl, fun _ => rfl⟩

theorem Keeps.push (c : TrainableNode Card) : Keeps (TrainableNode.push c) := ⟨fun _ => rfl, fun _ => rfl⟩

theorem below_removeChild {p : Object Card → Prop} {id : JsString} {n : TrainableNode Card} (h : Rose.Below p n) :
    Rose.Below p (removeChild id n) := by
  intro l hl
  obtain ⟨c, hc, hl⟩ := Rose.mem_labelsList.mp hl
  exact h l (Rose.mem_labelsList.mpr ⟨c, (List.mem_filter.mp hc).1, hl⟩)

theorem below_push {p : Object Card → Prop} {c n : TrainableNode Card} (h : Rose.Below p n) (hc : ∀ l ∈ c.labels, p l) :
    Rose.Below p (TrainableNode.push c n) := by
  intro l hl
  rw [TrainableNode.push, Rose.children_node, Rose.labelsList_append] at hl
  rcases List.mem_append.mp hl with hl | hl
  · exact h l hl
  · rw [Rose.labelsList_cons, Rose.labelsList_nil, List.append_nil] at hl
    exact hc l hl

theorem labels_removeChild_sublist (id : JsString) (n : TrainableNode Card) :
    (removeChild id n).labels.Sublist n.labels := by
  have hsub : ∀ cs : List (TrainableNode Card),
      (Rose.labelsList (cs.filter fun n : TrainableNode Card => n.data.id ≠ id)).Sublist (Rose.labelsList cs) := by
    intro cs
    induction cs with
    | nil => exact List.Sublist.refl _
    | cons c cs ih =>
        by_cases hc : c.label.data.id = id
        · rw [List.filter_cons_of_neg (by simp [TrainableNode.data, hc]), Rose.labelsList_cons]
          exact ih.trans (List.sublist_append_right _ _)
        · rw [List.filter_cons_of_pos (by simp [TrainableNode.data, hc]), Rose.labelsList_cons,
            Rose.labelsList_cons]
          exact (List.Sublist.refl _).append ih
  conv_rhs => rw [← Rose.eta n, Rose.labels_node]
  exact (hsub n.children).cons_cons n.label

theorem labels_push (c n : TrainableNode Card) : (TrainableNode.push c n).labels = n.labels ++ c.labels := by
  conv_rhs => rw [← Rose.eta n]
  simp [TrainableNode.push, Rose.labelsList_append]

theorem Sound.setData {r : Nat} {g : TrainingData Card → TrainingData Card} (h : Sound s) (hg : ∀ d, (g d).id = d.id) :
    Sound (s.mutate r fun n => n.setData (g n.data)) := by
  apply h.mutate (Keeps.setData hg)
  · intro n
    conv_rhs => rw [← Rose.eta n]
    simp [TrainableNode.setData, TrainableNode.ref]
  · exact fun n hn => hn

theorem Sound.removeChild {r : Nat} (h : Sound s) (id : JsString) : Sound (s.mutate r (removeChild id)) :=
  h.mutate (Keeps.removeChild id) (fun n => (labels_removeChild_sublist id n).map _) fun _ hn => below_removeChild hn

/-- New objects below an old one. -/
theorem Sound.push {r next : Nat} {c : TrainableNode Card} (h : Sound s) (hn : s.nextRef ≤ next)
    (hc : (c.labels.map Object.ref).Nodup) (hlt : ∀ l ∈ c.labels, s.nextRef ≤ l.ref ∧ l.ref < next)
    (h2 : ∀ l ∈ c.labels, l.id.length = 2) :
    Sound (TrainerState.mutate { s with nextRef := next } r (TrainableNode.push c)) := by
  have hroots : (TrainerState.mutate { s with nextRef := next } r (TrainableNode.push c)).roots =
      Rose.modifyList (fun n => n.ref = r) (TrainableNode.push c) s.roots := by
    rw [roots_mutate, Rose.modifyList_eq]; rfl
  have htwo : ∀ t ∈ (TrainerState.mutate { s with nextRef := next } r (TrainableNode.push c)).roots, TwoUnits t := by
    intro t ht
    rw [hroots, Rose.modifyList_eq] at ht
    obtain ⟨u, hu, rfl⟩ := List.mem_map.mp ht
    exact (h.twoUnits u hu).modify (Keeps.push c) fun n hn => below_push hn h2
  by_cases hr : r ∈ (Rose.labelsList s.roots).map Object.ref
  · have hone : (Rose.labelsList s.roots).countP (fun n => n.ref = r) = 1 := by
      have := List.count_eq_one_of_mem h.nodup hr
      rw [List.count, List.countP_map] at this
      rw [← this]
      exact List.countP_congr fun n _ => by simp
    have hperm : (Rose.labelsList (TrainerState.mutate { s with nextRef := next } r (TrainableNode.push c)).roots).Perm
        (c.labels ++ Rose.labelsList s.roots) := by
      rw [hroots]
      refine Rose.labelsList_modify_perm (fun n _ => ?_) s.roots hone
      rw [labels_push]
      exact List.perm_append_comm
    constructor
    · rw [(hperm.map Object.ref).nodup_iff, List.map_append, List.nodup_append]
      refine ⟨hc, h.nodup, ?_⟩
      intro a ha b hb
      obtain ⟨l, hl, rfl⟩ := List.mem_map.mp ha
      obtain ⟨m, hm, rfl⟩ := List.mem_map.mp hb
      have h1 := (hlt l hl).1
      have h2 := h.fresh m hm
      omega
    · intro n hmem
      rcases List.mem_append.mp (hperm.mem_iff.mp hmem) with hmem | hmem
      · exact (hlt n hmem).2
      · exact Nat.lt_of_lt_of_le (h.fresh n hmem) hn
    · exact htwo
  · have hsame : (TrainerState.mutate { s with nextRef := next } r (TrainableNode.push c)).roots = s.roots := by
      rw [hroots]
      apply Rose.modifyList_of_none
      intro n hmem
      simp only [decide_eq_false_iff_not]
      exact fun he => hr (List.mem_map.mpr ⟨n, hmem, he⟩)
    exact h.congr hsame hn

/-! ## New objects -/

mutual
/-- The new objects are numbered in order, and hold the data they were made from. -/
theorem allocate_spec (next : Nat) : (t : Rose (TrainingData Card)) →
    (allocate next t).1.labels.map Object.ref = List.range' next t.labels.length ∧
      (allocate next t).2 = next + t.labels.length ∧ (allocate next t).1.map Object.data = t
  | .node d cs => by
      obtain ⟨h1, h2, h3⟩ := allocateList_spec (next + 1) cs
      refine ⟨?_, ?_, ?_⟩
      · simp only [allocate, Rose.labels_node, List.map_cons, List.length_cons, List.range'_succ, h1]
      · simp only [allocate, Rose.labels_node, List.length_cons, h2]; omega
      · simp only [allocate, Rose.map, h3]

theorem allocateList_spec (next : Nat) : (cs : List (Rose (TrainingData Card))) →
    (Rose.labelsList (allocateList next cs).1).map Object.ref = List.range' next (Rose.labelsList cs).length ∧
      (allocateList next cs).2 = next + (Rose.labelsList cs).length ∧
      Rose.mapList Object.data (allocateList next cs).1 = cs
  | [] => ⟨rfl, rfl, rfl⟩
  | c :: cs => by
      obtain ⟨h1, h2, h3⟩ := allocate_spec next c
      obtain ⟨k1, k2, k3⟩ := allocateList_spec (allocate next c).2 cs
      refine ⟨?_, ?_, ?_⟩
      · rw [allocateList, Rose.labelsList_cons, Rose.labelsList_cons, List.map_append, List.length_append, h1, k1, h2]
        exact List.range'_append_1
      · rw [allocateList, Rose.labelsList_cons, List.length_append, k2, h2]; omega
      · simp only [allocateList, Rose.mapList, h3, k3]
end

theorem allocate_label {next : Nat} {t : Rose (TrainingData Card)} {l : Object Card}
    (h : l ∈ (allocate next t).1.labels) :
    next ≤ l.ref ∧ l.ref < (allocate next t).2 ∧ l.data ∈ t.labels := by
  obtain ⟨h1, h2, h3⟩ := allocate_spec next t
  have hr : l.ref ∈ List.range' next t.labels.length := h1 ▸ List.mem_map_of_mem h
  rw [List.mem_range'_1] at hr
  refine ⟨hr.1, h2 ▸ hr.2, ?_⟩
  have hl := Rose.labels_map Object.data (allocate next t).1
  rw [h3] at hl
  exact hl ▸ List.mem_map_of_mem h


theorem parseChapters_spec (env : Env Card) (next : Nat) (raw : List (RawChapter Card)) :
    (Rose.labelsList ((parseChapters env next raw).1.map Chapter.root)).map Object.ref =
        List.range' next (Rose.labelsList (raw.map RawChapter.root)).length ∧
      (parseChapters env next raw).2 = next + (Rose.labelsList (raw.map RawChapter.root)).length ∧
      (parseChapters env next raw).1.map (fun c => (c.uuid, c.trainAs, c.root.map Object.data)) =
        raw.map fun c => (c.uuid, c.trainAs, c.root) := by
  induction raw generalizing next with
  | nil => exact ⟨rfl, rfl, rfl⟩
  | cons c cs ih =>
      obtain ⟨h1, h2, h3⟩ := allocate_spec next c.root
      obtain ⟨k1, k2, k3⟩ := ih (allocate next c.root).2
      refine ⟨?_, ?_, ?_⟩
      · simp only [parseChapters, parseChapter, List.map_cons, Rose.labelsList_cons, List.map_append,
          List.length_append]
        rw [h1, k1, h2]
        exact List.range'_append_1
      · simp only [parseChapters, parseChapter, List.map_cons, Rose.labelsList_cons, List.length_append]
        rw [k2, h2]
        omega
      · simp only [parseChapters, parseChapter, List.map_cons, h3, k3]

/-- A parsed chapter has the tree of a chapter of the response. -/
theorem parseChapters_mem {env : Env Card} {next : Nat} {raw : List (RawChapter Card)} {c : Chapter Card}
    (h : c ∈ (parseChapters env next raw).1) : ∃ d ∈ raw, d.uuid = c.uuid ∧ c.root.map Object.data = d.root := by
  have hm := List.mem_map_of_mem (f := fun c => (c.uuid, c.trainAs, c.root.map Object.data)) h
  rw [(parseChapters_spec env next raw).2.2] at hm
  obtain ⟨d, hd, he⟩ := List.mem_map.mp hm
  simp only [Prod.mk.injEq] at he
  exact ⟨d, hd, he.1, he.2.2.symm⟩

/-- The ids of a response have two units. -/
def RawTwoUnits (raw : List (RawChapter Card)) : Prop :=
  ∀ c ∈ raw, ∀ d ∈ Rose.labelsList c.root.children, d.id.length = 2

instance (raw : List (RawChapter Card)) : Decidable (RawTwoUnits raw) := by
  delta RawTwoUnits; infer_instance

theorem twoUnits_of_map {t : TrainableNode Card} {u : Rose (TrainingData Card)} (h : t.map Object.data = u)
    (h2 : ∀ d ∈ Rose.labelsList u.children, d.id.length = 2) : TwoUnits t := by
  subst h
  exact Rose.below_map.mp h2

theorem Sound.setRepertoire {env : Env Card} {raw : List (RawChapter Card)} (h2 : RawTwoUnits raw) :
    Sound (s.setRepertoire env raw) := by
  obtain ⟨h1, hn, -⟩ := parseChapters_spec env s.nextRef raw
  constructor
  · change ((Rose.labelsList ((parseChapters env s.nextRef raw).1.map Chapter.root)).map Object.ref).Nodup
    rw [h1]
    exact List.nodup_range'
  · intro n hmem
    have hr : n.ref ∈ List.range' s.nextRef (Rose.labelsList (raw.map RawChapter.root)).length :=
      h1 ▸ List.mem_map_of_mem hmem
    change n.ref < (parseChapters env s.nextRef raw).2
    rw [hn]
    exact (List.mem_range'_1.mp hr).2
  · intro t ht
    obtain ⟨c, hc, rfl⟩ := List.mem_map.mp ht
    obtain ⟨d, hd, -, he⟩ := parseChapters_mem hc
    exact twoUnits_of_map he (h2 d hd)

/-! ## Finding objects -/

theorem Separate.root_nodup (h : Separate s) (ht : root ∈ s.roots) : (root.labels.map Object.ref).Nodup := by
  have hsub : ∀ ts : List (TrainableNode Card), root ∈ ts → root.labels.Sublist (Rose.labelsList ts) := by
    intro ts hts
    induction ts with
    | nil => cases hts
    | cons t ts ih =>
        rw [Rose.labelsList_cons]
        rcases List.mem_cons.mp hts with rfl | hts
        · exact List.sublist_append_left _ _
        · exact (ih hts).trans (List.sublist_append_right _ _)
  exact ((hsub s.roots ht).map Object.ref).nodup h

theorem Sound.root_nodup (h : Sound s) (ht : root ∈ s.roots) : (root.labels.map Object.ref).Nodup := h.separate.root_nodup ht

theorem Sound.eq_of_ref (h : Sound s) {t u m n : TrainableNode Card} (ht : t ∈ s.roots) (hu : u ∈ s.roots)
    (hm : m ∈ t.nodes) (hn : n ∈ u.nodes) (he : m.label.ref = n.label.ref) : m = n :=
  Rose.eq_of_map_eq h.nodup (Rose.mem_nodesList.mpr ⟨t, ht, hm⟩) (Rose.mem_nodesList.mpr ⟨u, hu, hn⟩) he

theorem nodesList_append (ts us : List (TrainableNode Card)) :
    Rose.nodesList (ts ++ us) = Rose.nodesList ts ++ Rose.nodesList us := by
  induction ts with
  | nil => rfl
  | cons t ts ih => simp [Rose.nodesList, ih]

/-- A reference to a node of the repertoire leads to it. -/
theorem Sound.deref (h : Sound s) {n : TrainableNode Card} (ht : root ∈ s.roots) (hn : n ∈ root.nodes) :
    s.deref n.label.ref = some n := by
  have hmem : n ∈ Rose.nodesList s.roots := Rose.mem_nodesList.mpr ⟨root, ht, hn⟩
  have hex : ((Rose.nodesList s.roots).find? fun m => m.label.ref = n.label.ref) = some n := by
    cases hf : (Rose.nodesList s.roots).find? fun m => m.label.ref = n.label.ref with
    | none => simpa using List.find?_eq_none.mp hf n hmem
    | some m =>
        have he : m.label.ref = n.label.ref := by simpa using List.find?_some hf
        rw [Rose.eq_of_map_eq h.nodup (List.mem_of_find?_eq_some hf) hmem he]
  rw [TrainerState.deref, trees, nodesList_append, List.find?_append]
  change (((Rose.nodesList s.roots).find? _).or _) = _
  rw [hex]
  rfl

end Chessrepeat.Client
