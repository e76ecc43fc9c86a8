import Chessrepeat.Client.Lemmas.Paths
import Chessrepeat.Client.Training
import Mathlib.Logic.Relation

/-!
# Where the search for a move leads

Every entry of the deque is a child of the node at its path, from the first entries on. With distinct ids the
path goes on through the child, so the entries pushed for its children are such entries again.
-/

namespace Chessrepeat.Client

open Lib

variable {Card : Type} {root : TrainableNode Card}

/-- No two children of a node have one id. -/
def DistinctIds (root : TrainableNode Card) : Prop := Rose.Distinct Object.id root

instance (root : TrainableNode Card) : Decidable (DistinctIds root) := by
  delta DistinctIds Rose.Distinct; infer_instance

/-- The entry is a child of the node at its path. -/
def DequeEntry.At (root : TrainableNode Card) (e : DequeEntry Card) : Prop :=
  ∃ n, nodeAtPathOrNull root e.pathToHere = some n ∧ e.targetNode ∈ n.children

theorem DequeEntry.At.first {c : TrainableNode Card} (hc : c ∈ root.children) :
    DequeEntry.At root ⟨0, [], c⟩ :=
  ⟨root, nodeAtPathOrNull_nil root, hc⟩

/-- The path of an entry goes on to its node. -/
theorem DequeEntry.At.target {e : DequeEntry Card} (hd : DistinctIds root) (h2 : TwoUnits root) (h : e.At root) :
    nodeAtPathOrNull root (e.pathToHere ++ e.targetNode.data.id) = some e.targetNode := by
  obtain ⟨n, hn, hmem⟩ := h
  have hnode : n ∈ root.nodes := nodeAtPathOrNull_mem_nodes hn
  have hid : e.targetNode.data.id.length = 2 := (h2.node hnode).id_child hmem
  rw [nodeAtPathOrNull_append (h2.even hn) hid, hn]
  exact (hd.sub hnode).child?_key hmem

theorem DequeEntry.At.below {limit : Int} {e : DequeEntry Card} (hd : DistinctIds root) (h2 : TwoUnits root)
    (h : e.At root) : ∀ e' ∈ e.below limit, e'.At root := by
  intro e' he'
  rw [DequeEntry.below] at he'
  split at he'
  · obtain ⟨⟨c, i⟩, hc, rfl⟩ := List.mem_map.mp he'
    exact ⟨e.targetNode, h.target hd h2, List.fst_mem_of_mem_zipIdx hc⟩
  · simp at he'

/-- A turn of the loop that does not end it. -/
theorem searchFrom_skip {env : Env Card} {method : TrainingMethod} {search : NodeSearch}
    {deque rest : List (DequeEntry Card)} {e : DequeEntry Card} (htake : search.algorithm.take deque = some (e, rest))
    (hmiss : isTarget env method e.targetNode.data = false) :
    searchFrom env method search deque = searchFrom env method search (rest ++ e.below search.limit) := by
  rw [searchFrom, htake]
  simp only [hmiss, Bool.false_eq_true, if_false]

/-- What the loop returns comes from a target entry, of which everything holds that goes from the first entries down. -/
theorem searchFrom_entry {env : Env Card} {method : TrainingMethod} {search : NodeSearch} {p : DequeEntry Card → Prop}
    (hbelow : ∀ e, p e → ∀ e' ∈ e.below search.limit, p e') (deque : List (DequeEntry Card)) {context : TrainableContext}
    (hdeque : ∀ e ∈ deque, p e) (h : searchFrom env method search deque = some context) :
    ∃ e, p e ∧ isTarget env method e.targetNode.data = true ∧ context = ⟨e.pathToHere, e.targetNode.ref⟩ := by
  induction deque using searchFrom.induct env method search with
  | case1 deque hnone =>
      rw [searchFrom, hnone] at h
      cases h
  | case2 deque e rest htake htarget =>
      rw [searchFrom, htake] at h
      simp only [htarget, if_true, Option.some.injEq] at h
      exact ⟨e, hdeque e ((Algorithm.take_perm htake).mem_iff.mpr List.mem_cons_self), htarget, h.symm⟩
  | case3 deque e rest htake htarget ih =>
      rw [searchFrom_skip htake (by simpa using htarget)] at h
      have hmem : ∀ e' ∈ e :: rest, p e' := fun e' he' => hdeque e' ((Algorithm.take_perm htake).mem_iff.mpr he')
      refine ih (fun e' he' => ?_) h
      rcases List.mem_append.mp he' with he' | he'
      · exact hmem e' (List.mem_cons_of_mem _ he')
      · exact hbelow e (hmem e List.mem_cons_self) e' he'

/-- The same for the search as a whole. -/
theorem computeNextTrainableNode_entry {env : Env Card} {method : TrainingMethod} {search : NodeSearch}
    {p : DequeEntry Card → Prop} {context : TrainableContext} (hfirst : ∀ c ∈ root.children, p ⟨0, [], c⟩)
    (hbelow : ∀ e, p e → ∀ e' ∈ e.below search.limit, p e')
    (h : computeNextTrainableNode env root method search = some context) :
    ∃ e, p e ∧ isTarget env method e.targetNode.data = true ∧ context = ⟨e.pathToHere, e.targetNode.ref⟩ := by
  refine searchFrom_entry hbelow _ (fun e he => ?_) h
  obtain ⟨c, hc, rfl⟩ := List.mem_map.mp he
  exact hfirst c hc

/-- The search returns a child of the node at its starting path. -/
theorem computeNextTrainableNode_at {env : Env Card} {method : TrainingMethod} {search : NodeSearch}
    {context : TrainableContext} (hd : DistinctIds root) (h2 : TwoUnits root)
    (h : computeNextTrainableNode env root method search = some context) :
    ∃ n c, nodeAtPathOrNull root context.startingPath = some n ∧ c ∈ n.children ∧ c.label.ref = context.targetMove := by
  obtain ⟨e, ⟨n, hn, hmem⟩, -, rfl⟩ := computeNextTrainableNode_entry
    (fun _ hc => DequeEntry.At.first hc) (fun _ he => he.below hd h2) h
  exact ⟨n, e.targetNode, hn, hmem, rfl⟩

/-! ## How deep the search gets -/

/-- The number of moves on a path. -/
def depth (path : JsString) : Nat := (steps path).length

/-- The layer of an entry counts at least the moves to it, and its move is within the limit. -/
structure DequeEntry.Layered (limit : Int) (e : DequeEntry Card) : Prop where
  layer : (depth e.pathToHere : Int) ≤ e.layer
  limit : (depth e.pathToHere : Int) + 1 ≤ 2 * limit

theorem depth_append {p id : JsString} (hp : p.length % 2 = 0) (hid : id.length = 2) : depth (p ++ id) = depth p + 1 := by
  rw [depth, steps_append_id hp hid, List.length_append, List.length_singleton, depth]

theorem DequeEntry.Layered.first {limit : Int} (hlimit : 1 ≤ limit) (c : TrainableNode Card) :
    DequeEntry.Layered limit ⟨0, [], c⟩ := by
  constructor <;> simp only [depth, steps, List.length_nil, Int.natCast_zero]
  · exact Int.le_refl 0
  · omega

/-- An entry is pushed one move further down, from a layer under the limit. -/
theorem DequeEntry.Layered.below {limit : Int} {e : DequeEntry Card} (h2 : TwoUnits root) (hat : e.At root)
    (h : e.Layered limit) : ∀ e' ∈ e.below limit, e'.Layered limit := by
  obtain ⟨n, hn, hmem⟩ := hat
  have hdepth : depth (e.pathToHere ++ e.targetNode.data.id) = depth e.pathToHere + 1 :=
    depth_append (h2.even hn) ((h2.node (nodeAtPathOrNull_mem_nodes hn)).id_child hmem)
  have hl := h.layer
  intro e' he'
  rw [DequeEntry.below] at he'
  split at he'
  · obtain ⟨⟨c, i⟩, -, rfl⟩ := List.mem_map.mp he'
    constructor <;> simp only [hdepth, Int.natCast_add] <;> omega
  · simp at he'

/-! ## What is a target -/

/-- What the method asks of what the user has for a move. -/
def Wanted (env : Env Card) (method : TrainingMethod) (data : TrainingData Card) : Prop :=
  match method with
  | .learn => userCard env data = none
  | .recall => ∃ card, userCard env data = some (.card card) ∧ env.due card ≤ env.now
  | .edit => False

theorem isTarget_iff {env : Env Card} {method : TrainingMethod} {data : TrainingData Card} :
    isTarget env method data = true ↔ data.enabled = true ∧ Wanted env method data := by
  unfold isTarget Wanted
  rw [Bool.and_eq_true]
  refine and_congr_right fun _ => ?_
  rcases method with _ | _ | _ <;> rcases userCard env data with _ | _ | _ <;> simp

/-- An enabled move the user has no card for, or one that is due. -/
def Matches (env : Env Card) (method : TrainingMethod) (data : TrainingData Card) : Prop :=
  data.enabled = true ∧ match method with
    | .learn => ownCard env data = none
    | .recall => ∃ card, ownCard env data = some card ∧ env.due card ≤ env.now
    | .edit => False

/-- The user has the name of something that the object `training` inherits, so a move to learn looks as if it had a
card. -/
def Hides (env : Env Card) (method : TrainingMethod) (data : TrainingData Card) : Prop :=
  method = .learn ∧ data.training.isSome ∧ env.currentUserKey ∈ objectProperties

instance (env : Env Card) (method : TrainingMethod) (data : TrainingData Card) : Decidable (Hides env method data) := by
  delta Hides; infer_instance

theorem isTarget_iff_matches {env : Env Card} {method : TrainingMethod} {data : TrainingData Card} :
    isTarget env method data = true ↔ Matches env method data ∧ ¬ Hides env method data := by
  rw [isTarget_iff]
  unfold Matches Wanted Hides
  rw [and_assoc]
  refine and_congr_right fun _ => ?_
  match method with
  | .learn => simp [userCard_eq_none]
  | .recall => simp [userCard_eq_card]
  | .edit => simp

/-! ## What the search looks at -/

/-- The entries an entry leads to, itself included. -/
def DequeEntry.Leads (limit : Int) : DequeEntry Card → DequeEntry Card → Prop :=
  Relation.ReflTransGen fun e e' => e' ∈ e.below limit

theorem Algorithm.take_eq_none {α : Type} {algorithm : Algorithm} {deque : List α} (h : algorithm.take deque = none) :
    deque = [] := by
  cases algorithm with
  | bfs =>
      cases deque with
      | nil => rfl
      | cons d ds => cases h
  | dfs => exact List.getLast?_eq_none_iff.mp (Option.map_eq_none_iff.mp h)

/-- In whatever order the deque is worked off, the loop finds nothing exactly when nothing it leads to is a target. -/
theorem searchFrom_eq_none {env : Env Card} {method : TrainingMethod} {search : NodeSearch}
    (deque : List (DequeEntry Card)) : searchFrom env method search deque = none ↔
      ∀ e ∈ deque, ∀ e', e.Leads search.limit e' → isTarget env method e'.targetNode.data = false := by
  induction deque using searchFrom.induct env method search with
  | case1 deque hnone =>
      rw [searchFrom, hnone, Algorithm.take_eq_none hnone]
      exact iff_of_true rfl fun _ he => by cases he
  | case2 deque e rest htake htarget =>
      rw [searchFrom, htake]
      simp only [htarget, if_true]
      refine iff_of_false (by simp) fun h => ?_
      have he : e ∈ deque := (Algorithm.take_perm htake).mem_iff.mpr List.mem_cons_self
      exact absurd (h e he e .refl) (by simp [htarget])
  | case3 deque e rest htake htarget ih =>
      rw [searchFrom_skip htake (by simpa using htarget), ih]
      constructor
      · intro h d hd d' hlead
        rcases List.mem_cons.mp ((Algorithm.take_perm htake).mem_iff.mp hd) with rfl | hd
        · rcases hlead.cases_head with rfl | ⟨c, hc, hlead⟩
          · simpa using htarget
          · exact h c (List.mem_append_right rest hc) d' hlead
        · exact h d (List.mem_append_left _ hd) d' hlead
      · intro h d hd d' hlead
        rcases List.mem_append.mp hd with hd | hd
        · exact h d ((Algorithm.take_perm htake).mem_iff.mpr (List.mem_cons_of_mem e hd)) d' hlead
        · exact h e ((Algorithm.take_perm htake).mem_iff.mpr List.mem_cons_self) d' (.head hd hlead)

/-- What a place adds to the layer. -/
def layers (place : List Nat) : Int := (place.map fun (i : Nat) => (i : Int) + 1).sum

theorem layers_nonneg (place : List Nat) : 0 ≤ layers place := by
  induction place with
  | nil => exact Int.le_refl 0
  | cons i place ih =>
      rw [layers, List.map_cons, List.sum_cons, ← layers]
      omega

/-- The entry for the parent of the node at the place below an entry at `layer`, if it is not that entry's own node,
is on a layer the search goes on from. -/
def Opened (limit layer : Int) (place : List Nat) : Prop := place = [] ∨ layer + layers place.dropLast < limit * 2 - 1

theorem opened_cons {limit layer : Int} {i : Nat} {place : List Nat} :
    Opened limit layer (i :: place) ↔ layer < limit * 2 - 1 ∧ Opened limit (layer + (i + 1)) place := by
  cases place with
  | nil => simp [Opened, layers]
  | cons j place =>
      have hpos := layers_nonneg (j :: place).dropLast
      have hsum : layers (i :: j :: place).dropLast = (i + 1) + layers (j :: place).dropLast := rfl
      simp only [Opened, reduceCtorEq, false_or, hsum]
      omega

theorem opened_zero {limit : Int} (hlimit : 1 ≤ limit) {place : List Nat} :
    Opened limit 0 place ↔ layers place.dropLast < limit * 2 - 1 := by
  cases place with
  | nil => exact iff_of_true (Or.inl rfl) (by simp only [List.dropLast_nil, layers, List.map_nil, List.sum_nil]; omega)
  | cons i place => simp [Opened]

theorem DequeEntry.mem_below {limit : Int} {e e' : DequeEntry Card} : e' ∈ e.below limit ↔ e.layer < limit * 2 - 1 ∧
    ∃ i : Nat, e.targetNode.children[i]? = some e'.targetNode ∧
      e' = ⟨e.layer + (i + 1), e.pathToHere ++ e.targetNode.data.id, e'.targetNode⟩ := by
  rw [DequeEntry.below]
  split
  · rename_i h
    simp only [h, true_and, List.mem_map, Prod.exists]
    constructor
    · rintro ⟨c, i, hc, rfl⟩
      exact ⟨i, List.mk_mem_zipIdx_iff_getElem?.mp hc, rfl⟩
    · rintro ⟨i, hc, he⟩
      exact ⟨e'.targetNode, i, List.mk_mem_zipIdx_iff_getElem?.mpr hc, he.symm⟩
  · rename_i h
    simp [h]

/-- The nodes an entry leads to. -/
theorem DequeEntry.leads_iff {limit : Int} {e : DequeEntry Card} {n : TrainableNode Card} :
    (∃ e', e.Leads limit e' ∧ e'.targetNode = n) ↔
      ∃ place, e.targetNode.get? place = some n ∧ Opened limit e.layer place := by
  constructor
  · rintro ⟨e', hlead, rfl⟩
    induction hlead using Relation.ReflTransGen.head_induction_on with
    | refl => exact ⟨[], rfl, Or.inl rfl⟩
    | head hstep _ ih =>
        obtain ⟨hlayer, i, hi, he⟩ := DequeEntry.mem_below.mp hstep
        obtain ⟨place, hplace, hopen⟩ := ih
        refine ⟨i :: place, Rose.get?_cons.mpr ⟨_, hi, hplace⟩, opened_cons.mpr ⟨hlayer, ?_⟩⟩
        rw [he] at hopen
        exact hopen
  · rintro ⟨place, hplace, hopen⟩
    induction place generalizing e with
    | nil => exact ⟨e, .refl, Option.some.inj hplace⟩
    | cons i place ih =>
        obtain ⟨c, hc, hplace⟩ := Rose.get?_cons.mp hplace
        obtain ⟨hlayer, hopen⟩ := opened_cons.mp hopen
        obtain ⟨e', hlead, htarget⟩ :=
          @ih ⟨e.layer + (i + 1), e.pathToHere ++ e.targetNode.data.id, c⟩ hplace hopen
        exact ⟨e', .head (DequeEntry.mem_below.mpr ⟨hlayer, i, hc, rfl⟩) hlead, htarget⟩

/-- The search finds nothing exactly when no node it gets to is a target: the layers of the ancestors below the first
move stay under the limit. -/
theorem computeNextTrainableNode_eq_none {env : Env Card} {method : TrainingMethod} {search : NodeSearch} :
    computeNextTrainableNode env root method search = none ↔
      ∀ i place (n : TrainableNode Card), root.get? (i :: place) = some n → Opened search.limit 0 place → isTarget env method n.data = false := by
  rw [computeNextTrainableNode, searchFrom_eq_none]
  constructor
  · intro h i place n hn hopen
    obtain ⟨c, hc, hn⟩ := Rose.get?_cons.mp hn
    obtain ⟨e', hlead, rfl⟩ := (@DequeEntry.leads_iff _ search.limit ⟨0, [], c⟩ n).mpr ⟨place, hn, hopen⟩
    exact h _ (List.mem_map_of_mem (List.mem_of_getElem? hc)) e' hlead
  · intro h e he e' hlead
    obtain ⟨c, hc, rfl⟩ := List.mem_map.mp he
    obtain ⟨i, hi⟩ := List.getElem?_of_mem hc
    obtain ⟨place, hplace, hopen⟩ := DequeEntry.leads_iff.mp ⟨e', hlead, rfl⟩
    exact h i place _ (Rose.get?_cons.mpr ⟨c, hi, hplace⟩) hopen

end Chessrepeat.Client
