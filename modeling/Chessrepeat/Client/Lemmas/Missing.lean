import Chessrepeat.Client.Lemmas.Sound

/-!
# Operations aimed at a path that leads nowhere

`nodeAtPath` returns the last node on the way, so the operations go on with that node. What they do to it decides
whether the repertoire stays as it is.
-/

namespace Chessrepeat.Client

open Lib TrainerState

variable {Card : Type} {s s' : TrainerState Card} {env : Env Card} {chess : Chessops} {chapter : Chapter Card}
  {path : JsString}

/-- The chapter and the path that an operation looks a node up for. -/
def aim (s : TrainerState Card) (env : Env Card) : Action Card → Option (Chapter Card × JsString)
  | .deleteLine path | .setCommentAt _ path => s.selectedChapter.map fun chapter => (chapter, path)
  | .learn | .train _ => (s.trainingTarget env).map fun t => (t.1, t.2.2)
  | .deleteNodeRemote chapterId path | .setCommentRemote chapterId path _
  | .updateTrainingRemote chapterId path _ _ => (s.chapter chapterId).map fun chapter => (chapter, path)
  | _ => none

/-- The operation looks for a node at a path that leads to none. -/
structure Misses (env : Env Card) (s : TrainerState Card) (a : Action Card) (chapter : Chapter Card) (path : JsString) :
    Prop where
  aim : aim s env a = some (chapter, path)
  missing : nodeAtPathOrNull chapter.root path = none

/-- The operations of the user. -/
def isLocal : Action Card → Bool
  | .deleteLine _ | .setCommentAt _ _ | .learn | .train _ => true
  | _ => false

def Chapter.counts (c : Chapter Card) : Int × Int := (c.enabledCount, c.unseenCount)

/-- The trees and the counts stay as they are and nothing is sent; an operation of the user starts
`resyncAndRestore` instead. -/
structure Rejects (chess : Chessops) (env : Env Card) (s : TrainerState Card) (a : Action Card) : Prop where
  roots : (step chess s env a).roots = s.roots
  counts : (step chess s env a).repertoire.map Chapter.counts = s.repertoire.map Chapter.counts
  sent : (step chess s env a).sent = s.sent
  resyncs : isLocal a = true → (step chess s env a).resyncs = s.resyncs ++ [s.selectedPath]

/-- The node that is found instead of the missing one is left as it was. -/
def Harmless (chapter : Chapter Card) (path : JsString) : Action Card → Prop
  | .deleteNodeRemote _ _ =>
      (∀ c ∈ (nodeAtPath chapter.root (init path)).children, c.label.data.id ≠ last path) ∧
        ∀ d ∈ forEachNode (nodeAtPath chapter.root path), d.enabled = false
  | .setCommentRemote _ _ comment => (nodeAtPath chapter.root path).data.comment = comment
  | .updateTrainingRemote _ _ username card =>
      ((nodeAtPath chapter.root path).data.training.bind (List.lookup username)) = some card
  | _ => False

/-! ## Edits that change nothing -/

theorem roots_mutate_eq_iff (hs : Sound s) {root n : TrainableNode Card} (hroot : root ∈ s.roots) (hn : n ∈ root.nodes)
    (f : TrainableNode Card → TrainableNode Card) : (s.mutate n.label.ref f).roots = s.roots ↔ f n = n := by
  have hu : ∀ t ∈ s.roots, ∀ m ∈ t.nodes, m.label.ref = n.label.ref → m = n := fun t ht m hm =>
    hs.eq_of_ref ht hroot hm hn
  have hself := Rose.modify_eq_self (p := fun m : Object Card => m.ref = n.label.ref) (f := f)
    (fun m hm hp => hu root hroot m hm (of_decide_eq_true hp)) hn (decide_eq_true rfl)
  rw [roots_mutate]
  constructor
  · intro h
    rw [← List.map_id s.roots, List.map_map] at h
    exact hself.mp (List.map_inj_left.mp h root hroot)
  · intro h
    conv_rhs => rw [← List.map_id s.roots]
    refine List.map_congr_left fun t ht => ?_
    by_cases hmem : n ∈ t.nodes
    · exact (Rose.modify_eq_self (fun m hm hp => hu t ht m hm (of_decide_eq_true hp)) hmem (decide_eq_true rfl)).mpr h
    · refine Rose.modify_of_none fun b hb => ?_
      obtain ⟨m, hm, rfl⟩ := Rose.mem_labels.mp hb
      exact decide_eq_false fun he => hmem (hu t ht m hm he ▸ hm)

theorem setData_eq_self {n : TrainableNode Card} {d : TrainingData Card} : n.setData d = n ↔ d = n.data := by
  conv_lhs => rhs; rw [← Rose.eta n]
  rw [TrainableNode.setData, Rose.node.injEq]
  constructor
  · intro h
    exact congrArg Object.data h.1
  · rintro rfl
    exact ⟨rfl, rfl⟩

theorem removeChild_eq_self {n : TrainableNode Card} {id : JsString} :
    removeChild id n = n ↔ ∀ c ∈ n.children, c.label.data.id ≠ id := by
  conv_lhs => rhs; rw [← Rose.eta n]
  rw [removeChild, Rose.node.injEq, List.filter_eq_self]
  exact ⟨fun h c hc => of_decide_eq_true (h.2 c hc), fun h => ⟨rfl, fun c hc => decide_eq_true (h c hc)⟩⟩

theorem setComment_eq_self {d : TrainingData Card} {comment : JsString} : d.setComment comment = d ↔ d.comment = comment := by
  constructor
  · intro h
    rw [← h]; rfl
  · rintro rfl
    rfl

theorem setEntry_eq_self {key : JsString} {card : Card} {es : List (JsString × Card)} :
    setEntry key card es = es ↔ es.lookup key = some card := by
  induction es with
  | nil => simp [setEntry]
  | cons e es ih =>
      obtain ⟨k, c⟩ := e
      by_cases hk : k = key
      · subst hk
        simp [setEntry, eq_comm]
      · have hk' : (key == k) = false := by simpa using fun h => hk h.symm
        simp [setEntry, hk, hk', List.lookup_cons, ih]

theorem mem_setEntry {key : JsString} {card : Card} {es : List (JsString × Card)} {e : JsString × Card}
    (h : e ∈ setEntry key card es) : e = (key, card) ∨ e ∈ es := by
  induction es with
  | nil => exact Or.inl (List.mem_singleton.mp h)
  | cons e' es ih =>
      rw [setEntry] at h
      split at h
      · exact (List.mem_cons.mp h).imp_right (List.mem_cons_of_mem _)
      · rcases List.mem_cons.mp h with rfl | h
        · exact Or.inr List.mem_cons_self
        · exact (ih h).imp_right (List.mem_cons_of_mem _)

theorem setCard_eq_self {d : TrainingData Card} {key : JsString} {card : Card} :
    d.setCard key card = d ↔ d.training.bind (List.lookup key) = some card := by
  obtain ⟨id, fen, ply, san, comment, enabled, training⟩ := d
  cases training with
  | none => simp [TrainingData.setCard]
  | some es => simp [TrainingData.setCard, setEntry_eq_self]

theorem counts_mutate (r : Nat) (f : TrainableNode Card → TrainableNode Card) :
    (s.mutate r f).repertoire.map Chapter.counts = s.repertoire.map Chapter.counts := by
  simp [mutate, Chapter.mapRoot, Chapter.counts, Function.comp_def]

theorem counts_updateChapter {a b : Int} {uuid : JsString} (cs : List (Chapter Card))
    (h : (cs.find? fun c => c.uuid = uuid).isSome) :
    (updateChapter uuid (Chapter.addCounts a b) cs).map Chapter.counts = cs.map Chapter.counts ↔ a = 0 ∧ b = 0 := by
  induction cs with
  | nil => simp at h
  | cons c cs ih =>
      by_cases hc : c.uuid = uuid
      · simp only [updateChapter, hc, if_true, List.map_cons, Chapter.addCounts, Chapter.counts, List.cons.injEq,
          Prod.mk.injEq, and_true]
        omega
      · have h' : (cs.find? fun c => c.uuid = uuid).isSome := by simpa [List.find?_cons, hc] using h
        simp [updateChapter, hc, ih h']

theorem counts_updateDueCounts : (s.updateDueCounts env).repertoire.map Chapter.counts = s.repertoire.map Chapter.counts := by
  have h : ∀ (n : Int) (uuid : JsString) (cs : List (Chapter Card)),
      (updateChapter uuid (Chapter.setLastDueCount n) cs).map Chapter.counts = cs.map Chapter.counts := by
    intro n uuid cs
    induction cs with
    | nil => rfl
    | cons c cs ih => by_cases hc : c.uuid = uuid <;> simp [updateChapter, hc, ih, Chapter.setLastDueCount, Chapter.counts]
  rw [updateDueCounts]
  split
  · rfl
  · split
    · rfl
    · exact h _ _ _

theorem countEnabled_eq_zero {n : TrainableNode Card} :
    countEnabled n = 0 ↔ ∀ d ∈ forEachNode n, d.enabled = false := by
  simp [countEnabled, List.countP_eq_zero]

theorem countUnseen_of_none {n : TrainableNode Card} (h : ∀ d ∈ forEachNode n, d.enabled = false) :
    countUnseen env n = 0 := by
  rw [countUnseen, Int.natCast_eq_zero, List.countP_eq_zero]
  intro d hd
  simp [h d hd]

theorem repertoire_removeLine_roots (hs : Sound s) (hc : s.chapter chapter.uuid = some chapter) :
    (s.removeLine env chapter path).roots = s.roots ↔
      ∀ c ∈ (nodeAtPath chapter.root (init path)).children, c.label.data.id ≠ last path := by
  rw [roots_removeLine, ← roots_mutate, ← removeChild_eq_self]
  exact roots_mutate_eq_iff hs (rootOf_mem (chapter_root hc)) (nodeAtPath_mem_nodes _ _) _

theorem repertoire_removeLine_counts (hc : s.chapter chapter.uuid = some chapter) :
    (s.removeLine env chapter path).repertoire.map Chapter.counts = s.repertoire.map Chapter.counts ↔
      ∀ d ∈ forEachNode (nodeAtPath chapter.root path), d.enabled = false := by
  have hfind : ((s.deleteNodeAt chapter path).repertoire.find? fun c => c.uuid = chapter.uuid).isSome := by
    simp only [deleteNodeAt, mutate, List.find?_map]
    rw [Option.isSome_map]
    exact Option.isSome_iff_exists.mpr ⟨chapter, hc⟩
  have hcounts : (s.deleteNodeAt chapter path).repertoire.map Chapter.counts = s.repertoire.map Chapter.counts :=
    counts_mutate _ _
  rw [removeLine, counts_updateDueCounts, ← hcounts, ← countEnabled_eq_zero]
  refine (counts_updateChapter _ hfind).trans ⟨fun h => by omega, fun h => ⟨by omega, ?_⟩⟩
  rw [countUnseen_of_none (countEnabled_eq_zero.mp h)]
  rfl

end Chessrepeat.Client
