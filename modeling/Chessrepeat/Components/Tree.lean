import Chessrepeat.Client.State
import Chessrepeat.Lib.Decimal
import Chessrepeat.Lib.Prune

/-!
# components/pgn/Tree.tsx

What the move list renders. An element is given by what it shows, before a click and without its style.
-/

namespace Chessrepeat.Components

open Lib Client

variable {Card : Type}

/-- Where a node sits. -/
structure Args (Card : Type) where
  parentPath : JsString
  parentNode : TrainableNode Card
  isMainline : Bool
  parenthetical : Bool := false

structure Ctx (Card : Type) where
  truncateComments : Bool
  showComments : Bool
  visibleChildren : Rose.Pruning (Object Card)

/-- The element of a `MoveNode`. -/
structure Move (Card : Type) where
  path : JsString
  node : TrainableNode Card
  isMainline : Bool
  index : Option (List Char)

/-- What a component renders. -/
inductive Element (Card : Type) where
  | index (text : List Char)
  | emptyMove
  | move (m : Move Card)
  | comment (path text : JsString)
  | interrupt (content : List (Element Card))
  | inline (content : List (Element Card))
  | lines (single : Bool) (content : List (Element Card))
  | line (content : List (Element Card))

def maxLenMainlineComment : Nat := 300

def maxLenInlineComment : Nat := 200

/-- Exactly two continuations, the second one short and straight. -/
def isParenthetical (children : List (TrainableNode Card)) : Bool :=
  children[2]?.isNone && match children[1]? with
    | some second => !hasBranching second 6
    | none => false

def truncateComment (text : JsString) (len : Nat) (ctx : Ctx Card) : JsString :=
  if ctx.truncateComments && len < text.length then text.take len else text

def renderCommentsOf (maxLength : Nat) (ctx : Ctx Card) (node : TrainableNode Card) (path : JsString) : List (Element Card) :=
  if !ctx.showComments || node.data.comment = [] then []
  else [.comment path (truncateComment node.data.comment maxLength ctx)]

def renderInlineCommentsOf (ctx : Ctx Card) (node : TrainableNode Card) (path : JsString) : List (Element Card) :=
  renderCommentsOf maxLenInlineComment ctx node path

def renderMainlineCommentsOf (ctx : Ctx Card) (node : TrainableNode Card) (path : JsString) : List (Element Card) :=
  renderCommentsOf maxLenMainlineComment ctx node path

def plyToTurn (ply : Int) : Int := (ply - 1) / 2 + 1

/-- `ply % 2 === 1`, the remainder being negative for a negative ply. -/
def isOdd (ply : Int) : Bool := ply.tmod 2 = 1

def renderIndex (ply : Int) (withDots : Bool) : List Char :=
  decimal (plyToTurn ply) ++ if withDots then (if isOdd ply then ['.'] else ['.', '.', '.']) else []

def indexCell (ply : Int) : Element Card := .index (renderIndex ply false)

def moveNode (node : TrainableNode Card) (args : Args Card) : Element Card :=
  let withIndex := !args.isMainline && (isOdd node.data.ply ||
    (1 < args.parentNode.children.length &&
      (!args.parenthetical || args.parentNode.children[0]?.map TrainableNode.ref ≠ some node.ref)))
  .move
    { path := args.parentPath ++ node.data.id
      node := node
      isMainline := args.isMainline
      index := if withIndex then some (renderIndex node.data.ply true) else none }

mutual
/-- A block of sidelines. -/
def lines (ctx : Ctx Card) (nodes : List (TrainableNode Card)) (args : Args Card) : List (Element Card) :=
  let lineArgs : Args Card := { parentPath := args.parentPath, parentNode := args.parentNode, isMainline := false }
  if nodes = [] then []
  else if !args.isMainline && args.parenthetical then [.inline (sidelineNodes ctx nodes lineArgs)]
  else [.lines nodes[1]?.isNone (nodes.map fun n => .line (sidelineNodes ctx [n] lineArgs))]
termination_by 2 * Rose.size nodes + 1
decreasing_by
  · exact Nat.lt_succ_self _
  · rename_i hn
    exact Nat.lt_succ_of_le (Nat.mul_le_mul_left 2 (Rose.size_singleton_le hn))

/-- One sideline. -/
def sidelineNodes (ctx : Ctx Card) (nodes : List (TrainableNode Card)) (args : Args Card) : List (Element Card) :=
  match nodes with
  | [] => []
  | child :: siblings =>
      let path := args.parentPath ++ child.data.id
      let children := ctx.visibleChildren.children child
      let childArgs : Args Card :=
        { parentPath := path, parentNode := child, isMainline := false, parenthetical := isParenthetical children }
      let siblingLines := lines ctx siblings args
      moveNode child args :: renderInlineCommentsOf ctx child path ++
        (if args.parenthetical then siblingLines else []) ++
        (if children.length < 2 || childArgs.parenthetical then sidelineNodes ctx children childArgs
        else lines ctx children childArgs) ++
        if !args.parenthetical then siblingLines else []
termination_by 2 * Rose.size nodes
decreasing_by
  · have := Rose.size_tail_lt child siblings
    omega
  · have := ctx.visibleChildren.size_children_lt child siblings
    omega
  · have := ctx.visibleChildren.size_children_lt child siblings
    omega
end

/-- The mainline, a flat run of cells. -/
def columnNodes (ctx : Ctx Card) (nodes : List (TrainableNode Card)) (args : Args Card) : List (Element Card) :=
  match nodes with
  | [] => []
  | child :: siblings =>
      let childPath := args.parentPath ++ child.data.id
      let isWhite := isOdd child.data.ply
      let children := ctx.visibleChildren.children child
      let interrupted := siblings ≠ [] || ctx.showComments && child.data.comment ≠ []
      (if isWhite then [indexCell child.data.ply] else []) ++
        moveNode child args ::
        (if interrupted then
          (if isWhite then [.emptyMove] else []) ++
            .interrupt (renderMainlineCommentsOf ctx child childPath ++ lines ctx siblings args) ::
            (if isWhite && children ≠ [] then [indexCell child.data.ply, .emptyMove] else [])
        else []) ++
        columnNodes ctx children { parentPath := childPath, parentNode := child, isMainline := true }
termination_by Rose.size nodes
decreasing_by exact ctx.visibleChildren.size_children_lt child siblings

/-! ## PgnTree -/

/-- Outside of edit mode the children that continue the line being trained. Plies count from 0; below -1 the index has no
element, and the component throws. -/
def visibleChildren (trainingMethod : Option TrainingMethod) (trainingLine : List (TrainableNode Card))
    (node : TrainableNode Card) : List (TrainableNode Card) :=
  if trainingMethod = some .edit then node.children
  else
    let ply := node.data.ply
    if (trainingLine.length : Int) - 1 ≤ ply then []
    else match if ply < -1 then none else trainingLine[(ply + 1).toNat]? with
      | none => []
      | some next => node.children.filter fun c : TrainableNode Card => c.data.san = next.data.san

theorem visibleChildren_sublist (trainingMethod : Option TrainingMethod) (trainingLine : List (TrainableNode Card))
    (node : TrainableNode Card) : (visibleChildren trainingMethod trainingLine node).Sublist node.children := by
  rw [visibleChildren]
  split
  · exact List.Sublist.refl _
  · dsimp only
    split
    · exact List.nil_sublist _
    · split
      · exact List.nil_sublist _
      · exact List.filter_sublist

/-- The context of a chapter with this root. -/
def treeCtx (trainingMethod : Option TrainingMethod) (context : Option TrainableContext) (showComments : Bool)
    (root : TrainableNode Card) : Ctx Card :=
  let trainingLine := getNodeList root ((context.map TrainableContext.startingPath).getD [])
  { truncateComments := true
    showComments := showComments
    visibleChildren := ⟨visibleChildren trainingMethod trainingLine, visibleChildren_sublist trainingMethod trainingLine⟩ }

/-- The body of the tree of a chapter with this root. -/
def treeBody (ctx : Ctx Card) (root : TrainableNode Card) : List (Element Card) :=
  (if ctx.showComments && root.data.comment ≠ [] then [.interrupt (renderMainlineCommentsOf ctx root [])] else []) ++
    (if root.data.ply % 2 = 1 then [indexCell root.data.ply, .emptyMove] else []) ++
    columnNodes ctx (ctx.visibleChildren.children root) { parentPath := [], parentNode := root, isMainline := true }

end Chessrepeat.Components
