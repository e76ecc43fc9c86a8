import Chessrepeat.Lib.Rose
import Chessrepeat.Lib.Utf16

/-!
# util/path.ts and util/tree.ts

A node of the move tree is an object that other parts of the program hold on to, so its label has, beside its
data, the reference by which they name it. A path is the string of the ids below the root, each of two code
units.
-/

namespace Chessrepeat.Client

open Lib

variable {Card : Type}

/-! ## Paths -/

def head (path : JsString) : JsString := path.take 2

def tail (path : JsString) : JsString := path.drop 2

def init (path : JsString) : JsString := path.take (path.length - 2)

def last (path : JsString) : JsString := path.drop (path.length - 2)

def contains (p1 p2 : JsString) : Bool := p2.isPrefixOf p1

/-- The ids the lookups read off a path: `head` again and again, until nothing is left. -/
def steps : JsString → List JsString
  | [] => []
  | [u] => [[u]]
  | u :: v :: path => [u, v] :: steps path

theorem steps_eq (path : JsString) : steps path = if path = [] then [] else head path :: steps (tail path) := by
  match path with
  | [] => rfl
  | [_] => rfl
  | _ :: _ :: _ => rfl

/-! ## Nodes -/

/-- `training` is `none` where the server sent `null`. -/
structure TrainingData (Card : Type) where
  id : JsString
  fen : JsString
  ply : Int
  san : JsString
  comment : JsString
  enabled : Bool
  training : Option (List (JsString × Card))
  deriving DecidableEq

structure Object (Card : Type) where
  ref : Nat
  data : TrainingData Card
  deriving DecidableEq

abbrev TrainableNode (Card : Type) := Rose (Object Card)

/-- The key of a child in `childById`. -/
def Object.id (n : Object Card) : JsString := n.data.id

namespace TrainableNode

def ref (n : TrainableNode Card) : Nat := n.label.ref

def data (n : TrainableNode Card) : TrainingData Card := n.label.data

def setData (d : TrainingData Card) (n : TrainableNode Card) : TrainableNode Card :=
  .node ⟨n.ref, d⟩ n.children

/-- `children.push`. -/
def push (c n : TrainableNode Card) : TrainableNode Card := .node n.label (n.children ++ [c])

end TrainableNode

/-! ## Lookups -/

def childById (node : TrainableNode Card) (id : JsString) : Option (TrainableNode Card) :=
  Rose.child? Object.id node id

/-- Where a child is missing, the node reached so far is returned. -/
def nodeAtPath (root : TrainableNode Card) (path : JsString) : TrainableNode Card :=
  Rose.reach Object.id root (steps path)

def nodeAtPathOrNull (root : TrainableNode Card) (path : JsString) : Option (TrainableNode Card) :=
  Rose.at? Object.id root (steps path)

def getNodeList (root : TrainableNode Card) (path : JsString) : List (TrainableNode Card) :=
  Rose.chain Object.id root (steps path)

/-- The recursion of `nodeAtPathFrom`. -/
theorem nodeAtPath_eq (node : TrainableNode Card) (path : JsString) : nodeAtPath node path =
    if path = [] then node else match childById node (head path) with
      | some child => nodeAtPath child (tail path)
      | none => node := by
  rw [nodeAtPath, steps_eq]
  by_cases h : path = []
  · simp [h, Rose.reach]
  · simp only [h, if_false, Rose.reach, childById]
    cases Rose.child? Object.id node (head path) <;> rfl

/-- The recursion of `nodeAtPathOrNullFrom`. -/
theorem nodeAtPathOrNull_eq (node : TrainableNode Card) (path : JsString) : nodeAtPathOrNull node path =
    if path = [] then some node else match childById node (head path) with
      | some child => nodeAtPathOrNull child (tail path)
      | none => none := by
  rw [nodeAtPathOrNull, steps_eq]
  by_cases h : path = []
  · simp [h]
  · simp only [h, if_false, Rose.at?_cons, childById]
    cases Rose.child? Object.id node (head path) <;> rfl

/-- The loop of `collect` as `getNodeList` runs it. -/
theorem getNodeList_eq (node : TrainableNode Card) (path : JsString) : getNodeList node path =
    node :: if path = [] then [] else match childById node (head path) with
      | some child => getNodeList child (tail path)
      | none => [] := by
  rw [getNodeList, steps_eq]
  by_cases h : path = []
  · simp [h, Rose.chain]
  · simp only [h, if_false, Rose.chain, childById]
    cases Rose.child? Object.id node (head path) <;> rfl

/-- What is left to pick of the path that the callback of `getNodeList` has captured. -/
def pickChild (path : JsString) (node : TrainableNode Card) : Option (TrainableNode Card × JsString) :=
  if head path = [] then none else (childById node (head path)).map fun child => (child, tail path)

/-- The loop of `collect` from a node on, with a callback that changes what it has captured. -/
inductive Collects {σ : Type} (pick : σ → TrainableNode Card → Option (TrainableNode Card × σ)) :
    σ → TrainableNode Card → List (TrainableNode Card) → Prop where
  | stop {s : σ} {n : TrainableNode Card} (none : pick s n = none) : Collects pick s n [n]
  | push {s s' : σ} {n c : TrainableNode Card} {nodes : List (TrainableNode Card)} (some : pick s n = some (c, s'))
      (rest : Collects pick s' c nodes) : Collects pick s n (n :: nodes)

theorem collects_of_tail {path : JsString} (h0 : path ≠ []) (root : TrainableNode Card)
    (h : ∀ c : TrainableNode Card, Collects pickChild (tail path) c (getNodeList c (tail path))) :
    Collects pickChild path root (getNodeList root path) := by
  have hhead : head path ≠ [] := by simpa [head] using h0
  rw [getNodeList_eq, if_neg h0]
  cases hc : childById root (head path) with
  | none => exact .stop (by rw [pickChild, if_neg hhead, hc]; rfl)
  | some c => exact .push (by rw [pickChild, if_neg hhead, hc]; rfl) (h c)

theorem collects_getNodeList (root : TrainableNode Card) (path : JsString) :
    Collects pickChild path root (getNodeList root path) := by
  induction path using steps.induct generalizing root with
  | case1 => exact .stop rfl
  | case2 u => exact collects_of_tail (List.cons_ne_nil u []) root fun c => .stop rfl
  | case3 u v path ih => exact collects_of_tail (List.cons_ne_nil u (v :: path)) root ih

/-- `fromNodeList`. -/
def fromNodeList (nodes : List (TrainableNode Card)) : JsString := (nodes.map fun n => n.data.id).flatten

/-- The nodes `forEachNode` visits. -/
def forEachNode (root : TrainableNode Card) : List (TrainingData Card) := root.labels.map Object.data

/-- `removeChild`: every child with that id goes. -/
def removeChild (id : JsString) (parent : TrainableNode Card) : TrainableNode Card :=
  .node parent.label (parent.children.filter fun n : TrainableNode Card => n.data.id ≠ id)

/-- The paths of all nodes, the root's first. -/
def paths (root : TrainableNode Card) : List JsString := (Rose.addresses Object.id root).map List.flatten

/-! ## Objects from JSON -/

mutual
/-- New objects, numbered in the order in which a depth-first walk meets them. -/
def allocate (next : Nat) : Rose (TrainingData Card) → TrainableNode Card × Nat
  | .node d cs =>
      let out := allocateList (next + 1) cs
      (.node ⟨next, d⟩ out.1, out.2)

def allocateList (next : Nat) : List (Rose (TrainingData Card)) → List (TrainableNode Card) × Nat
  | [] => ([], next)
  | c :: cs =>
      let out := allocate next c
      let rest := allocateList out.2 cs
      (out.1 :: rest.1, rest.2)
end

def hasBranching : TrainableNode Card → Nat → Bool
  | _, 0 => false
  | node, depth + 1 =>
      match node.children with
      | [] => false
      | [child] => hasBranching child depth
      | _ => true

end Chessrepeat.Client
