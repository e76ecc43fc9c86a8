import Chessrepeat.Client.Lemmas.Search
import Chessrepeat.Lib.Line

/-!
# What the lookups find along a path
-/

namespace Chessrepeat.Client

open Lib

variable {Card : Type} {root : TrainableNode Card} {nodes : List (TrainableNode Card)} {path : JsString}

/-- The nodes below the root that a path leads through, read two characters at a time, as far as there are any. -/
structure LongestPrefix (root : TrainableNode Card) (path : JsString) (nodes : List (TrainableNode Card)) : Prop where
  line : Rose.Line root nodes
  along : (nodes.map fun n : TrainableNode Card => n.data.id) <+: steps path
  longest : ∀ nodes', Rose.Line root nodes' → (nodes'.map fun n : TrainableNode Card => n.data.id) <+: steps path → nodes' <+: nodes

theorem below_line {p : Object Card → Prop} (h : Rose.Below p root) (hl : Rose.Line root nodes) : ∀ n ∈ nodes, p n.label := by
  induction nodes generalizing root with
  | nil => nofun
  | cons c cs ih =>
      intro n hn
      rcases List.mem_cons.mp hn with rfl | hn
      · exact h.label hl.1
      · exact ih (h.child hl.1) hl.2 n hn

/-- The path of a line spells its ids. -/
theorem steps_fromNodeList (h2 : TwoUnits root) (hl : Rose.Line root nodes) :
    steps (fromNodeList nodes) = nodes.map fun n : TrainableNode Card => n.data.id := by
  refine steps_flatten fun k hk => ?_
  obtain ⟨n, hn, rfl⟩ := List.mem_map.mp hk
  exact below_line (p := fun o : Object Card => o.id.length = 2) h2 hl n hn

theorem getNodeList_fromNodeList (h2 : TwoUnits root) (hfound : Rose.Found Object.id root nodes) :
    getNodeList root (fromNodeList nodes) = root :: nodes := by
  rw [getNodeList, steps_fromNodeList h2 hfound.line]
  exact hfound.chain

theorem longestPrefix_getNodeList (hd : DistinctIds root) (path : JsString) :
    LongestPrefix root path (getNodeList root path).tail := by
  obtain ⟨hline, hkeys⟩ := Rose.line_chain Object.id root (steps path)
  exact ⟨hline, hkeys, fun nodes' hl hk => Rose.Distinct.line_prefix_chain hd hl hk⟩

/-- The path of a line is the path that was followed if and only if the line has all its ids. -/
theorem fromNodeList_eq_iff (h2 : TwoUnits root) (hl : Rose.Line root nodes) :
    fromNodeList nodes = path ↔ (nodes.map fun n : TrainableNode Card => n.data.id) = steps path := by
  rw [← steps_fromNodeList h2 hl]
  exact ⟨congrArg steps, steps_injective⟩

theorem nodeAtPathOrNull_eq_nodeAtPath (h2 : TwoUnits root) (path : JsString) : nodeAtPathOrNull root path =
    if fromNodeList (getNodeList root path).tail = path then some (nodeAtPath root path) else none := by
  have hline := (Rose.line_chain Object.id root (steps path)).1
  rw [nodeAtPathOrNull, Rose.at?_eq_reach]
  exact if_congr (fromNodeList_eq_iff h2 hline).symm rfl rfl

end Chessrepeat.Client
