import Mathlib.Algebra.Ring.Int.Defs
import Mathlib.Algebra.Ring.Nat
import Chessrepeat.Client.Tree

/-!
# util/userCard.ts, util/training.ts and util/chapters.ts

Who is signed in, the clock and the scheduler may change from one action to the next, so an action has an
environment of its own.
-/

namespace Chessrepeat.Client

open Lib

variable {Card : Type}

/-- What an action reads outside the store. A user is signed in when there is one. `due` is the due date of a
card in milliseconds, `createCard` and `reviewCard` are the scheduler's. -/
structure Env (Card : Type) where
  user : Option JsString
  socketOpen : Bool
  now : Int
  due : Card → Int
  createCard : Card
  reviewCard : Card → Bool → Card

def Env.isAuthenticated (env : Env Card) : Bool := env.user.isSome

def playgroundKey : JsString :=
  Utf16.encode ['_', '_', 'p', 'l', 'a', 'y', 'g', 'r', 'o', 'u', 'n', 'd', '_', '_']

def Env.currentUserKey (env : Env Card) : JsString := env.user.getD playgroundKey

/-- What every object inherits from `Object.prototype`. A user may be called `constructor` or `__proto__`. -/
def objectProperties : List JsString :=
  [['c', 'o', 'n', 's', 't', 'r', 'u', 'c', 't', 'o', 'r'], ['_', '_', 'p', 'r', 'o', 't', 'o', '_', '_'],
    ['t', 'o', 'S', 't', 'r', 'i', 'n', 'g'], ['v', 'a', 'l', 'u', 'e', 'O', 'f'],
    ['t', 'o', 'L', 'o', 'c', 'a', 'l', 'e', 'S', 't', 'r', 'i', 'n', 'g'],
    ['h', 'a', 's', 'O', 'w', 'n', 'P', 'r', 'o', 'p', 'e', 'r', 't', 'y'],
    ['i', 's', 'P', 'r', 'o', 't', 'o', 't', 'y', 'p', 'e', 'O', 'f'],
    ['p', 'r', 'o', 'p', 'e', 'r', 't', 'y', 'I', 's', 'E', 'n', 'u', 'm', 'e', 'r', 'a', 'b', 'l', 'e'],
    ['_', '_', 'd', 'e', 'f', 'i', 'n', 'e', 'G', 'e', 't', 't', 'e', 'r', '_', '_'],
    ['_', '_', 'd', 'e', 'f', 'i', 'n', 'e', 'S', 'e', 't', 't', 'e', 'r', '_', '_'],
    ['_', '_', 'l', 'o', 'o', 'k', 'u', 'p', 'G', 'e', 't', 't', 'e', 'r', '_', '_'],
    ['_', '_', 'l', 'o', 'o', 'k', 'u', 'p', 'S', 'e', 't', 't', 'e', 'r', '_', '_']].map Utf16.encode

/-- What `training[key]` finds: a card, or what the object inherits under that name. -/
inductive Property (Card : Type) where
  | card (c : Card)
  | inherited
  deriving DecidableEq

/-- The card the user has for the move. An empty key is as good as none. -/
def ownCard (env : Env Card) (data : TrainingData Card) : Option Card :=
  if env.currentUserKey = [] then none
  else data.training.bind (List.lookup env.currentUserKey)

/-- `data.training?.[key] ?? null`. An inherited property is no card, but it is not `null` either. -/
def userCard (env : Env Card) (data : TrainingData Card) : Option (Property Card) :=
  match ownCard env data with
  | some card => some (.card card)
  | none => if data.training.isSome ∧ env.currentUserKey ∈ objectProperties then some .inherited else none

theorem userCard_of_ownCard {env : Env Card} {data : TrainingData Card} {card : Card} (h : ownCard env data = some card) :
    userCard env data = some (.card card) := by
  rw [userCard, h]

theorem userCard_eq_card {env : Env Card} {data : TrainingData Card} {card : Card} :
    userCard env data = some (.card card) ↔ ownCard env data = some card := by
  rw [userCard]
  cases ownCard env data with
  | some c => simp
  | none => simp

theorem userCard_eq_none {env : Env Card} {data : TrainingData Card} : userCard env data = none ↔
    ownCard env data = none ∧ ¬(data.training.isSome ∧ env.currentUserKey ∈ objectProperties) := by
  rw [userCard]
  cases ownCard env data with
  | some c => simp
  | none => simp

/-- Under a name that no object has of its own accord, there is a card or nothing. -/
theorem userCard_plain {env : Env Card} (h : env.currentUserKey ∉ objectProperties) (data : TrainingData Card) :
    userCard env data = (ownCard env data).map .card := by
  rw [userCard]
  cases ownCard env data with
  | some c => rfl
  | none => simp [h]

/-! ## The search for the next move to train -/

inductive TrainingMethod where
  | learn
  | recall
  | edit
  deriving DecidableEq, Repr

inductive Algorithm where
  | bfs
  | dfs
  deriving DecidableEq, Repr

structure NodeSearch where
  algorithm : Algorithm
  limit : Int
  deriving DecidableEq, Repr

structure TrainableContext where
  startingPath : JsString
  targetMove : Nat
  deriving DecidableEq, Repr

structure DequeEntry (Card : Type) where
  layer : Int
  pathToHere : JsString
  targetNode : TrainableNode Card

/-- `shift` or `pop`. -/
def Algorithm.take {α : Type} : Algorithm → List α → Option (α × List α)
  | .bfs, deque => match deque with
    | [] => none
    | e :: rest => some (e, rest)
  | .dfs, deque => deque.getLast?.map fun e => (e, deque.dropLast)

theorem Algorithm.take_perm {α : Type} {algorithm : Algorithm} {deque rest : List α} {e : α}
    (h : algorithm.take deque = some (e, rest)) : deque.Perm (e :: rest) := by
  cases algorithm with
  | bfs =>
      cases deque with
      | nil => cases h
      | cons d ds => cases h; exact List.Perm.refl _
  | dfs =>
      simp only [take, Option.map_eq_some_iff, Prod.mk.injEq] at h
      obtain ⟨d, hd, rfl, rfl⟩ := h
      rw [← List.dropLast_append_getLast? d hd, List.dropLast_concat]
      exact List.perm_append_singleton d _

/-- A move to recall is due, a move to learn has no card. An inherited property has no due date. -/
def isTarget (env : Env Card) (method : TrainingMethod) (data : TrainingData Card) : Bool :=
  data.enabled && match method, userCard env data with
    | .recall, some (.card card) => env.due card ≤ env.now
    | .learn, none => true
    | _, _ => false

/-- The entries pushed for the children. `++entry.layer` counts up from child to child. -/
def DequeEntry.below (limit : Int) (e : DequeEntry Card) : List (DequeEntry Card) :=
  if e.layer < limit * 2 - 1 then
    e.targetNode.children.zipIdx.map fun (child, i) =>
      ⟨e.layer + (i + 1), e.pathToHere ++ e.targetNode.data.id, child⟩
  else []

/-- The number of nodes still to be looked at. -/
def pending (deque : List (DequeEntry Card)) : Nat := (deque.map fun e => e.targetNode.nodes.length).sum

theorem nodes_children (n : TrainableNode Card) :
    (n.children.map fun c => c.nodes.length).sum + 1 = n.nodes.length := by
  cases n with
  | node a cs =>
      have h : ∀ ds : List (TrainableNode Card), (ds.map fun c => c.nodes.length).sum = (Rose.nodesList ds).length := by
        intro ds
        induction ds with
        | nil => rfl
        | cons d ds ih => simp [Rose.nodesList, ih]
      simp [Rose.nodes, h]

theorem pending_below (limit : Int) (e : DequeEntry Card) :
    pending (e.below limit) < e.targetNode.nodes.length := by
  have h := nodes_children e.targetNode
  rw [DequeEntry.below]
  split
  · have hfst : (e.targetNode.children.zipIdx.map fun p => p.1.nodes.length) =
        e.targetNode.children.map fun c => c.nodes.length := by
      rw [← List.zipIdx_map_fst 0 e.targetNode.children, List.map_map]
      simp [Function.comp_def]
    simp only [pending, List.map_map, Function.comp_def, hfst]
    omega
  · simp only [pending, List.map_nil, List.sum_nil]
    omega

theorem pending_next {env : NodeSearch} {deque rest : List (DequeEntry Card)} {e : DequeEntry Card}
    (h : env.algorithm.take deque = some (e, rest)) : pending (rest ++ e.below env.limit) < pending deque := by
  have hp : pending deque = e.targetNode.nodes.length + pending rest := by
    simpa [pending] using ((Algorithm.take_perm h).map fun e => e.targetNode.nodes.length).sum_nat
  have hb := pending_below env.limit e
  simp only [pending, List.map_append, List.sum_append] at *
  omega

/-- The loop over the deque. -/
def searchFrom (env : Env Card) (method : TrainingMethod) (search : NodeSearch)
    (deque : List (DequeEntry Card)) : Option TrainableContext :=
  match _h : search.algorithm.take deque with
  | none => none
  | some (e, rest) =>
      if isTarget env method e.targetNode.data then some ⟨e.pathToHere, e.targetNode.ref⟩
      else searchFrom env method search (rest ++ e.below search.limit)
termination_by pending deque
decreasing_by exact pending_next _h

def computeNextTrainableNode (env : Env Card) (root : TrainableNode Card) (method : TrainingMethod)
    (search : NodeSearch) : Option TrainableContext :=
  searchFrom env method search (root.children.map fun child => ⟨0, [], child⟩)

/-! ## Chapters -/

structure Chapter (Card : Type) where
  uuid : JsString
  name : JsString
  trainAs : JsString
  root : TrainableNode Card
  enabledCount : Int
  unseenCount : Int
  lastDueCount : Int

/-- A chapter of the response to `GET /repertoire`. -/
structure RawChapter (Card : Type) where
  uuid : JsString
  name : JsString
  trainAs : JsString
  root : Rose (TrainingData Card)

def countEnabled (root : TrainableNode Card) : Int := (forEachNode root).countP (·.enabled)

def countUnseen (env : Env Card) (root : TrainableNode Card) : Int :=
  (forEachNode root).countP fun d => d.enabled && (userCard env d).isNone

/-- The cards of the enabled moves, as milliseconds until they are due. The `NaN` of an inherited property, which
no comparison counts, is left out. -/
def dueSummary (env : Env Card) (root : TrainableNode Card) : List Int :=
  (forEachNode root).filterMap fun d =>
    match d.enabled, userCard env d with
    | true, some (.card card) => some (env.due card - env.now)
    | _, _ => none

/-- One turn of the loop of `parseChapters`, which makes new objects. -/
def parseChapter (env : Env Card) (next : Nat) (c : RawChapter Card) : Chapter Card × Nat :=
  let out := allocate next c.root
  (⟨c.uuid, c.name, c.trainAs, out.1, countEnabled out.1, countUnseen env out.1,
    (dueSummary env out.1).countP (· < 0)⟩, out.2)

def parseChapters (env : Env Card) (next : Nat) : List (RawChapter Card) → List (Chapter Card) × Nat
  | [] => ([], next)
  | c :: cs =>
      let out := parseChapter env next c
      let rest := parseChapters env out.2 cs
      (out.1 :: rest.1, rest.2)

end Chessrepeat.Client
