import Chessrepeat.Client.Lemmas.Lookups
import Chessrepeat.Client.Lemmas.Sitting

/-!
# Stepping through the moves

In the edit mode the steps go along the first children, otherwise along the way to the position to train.
-/

namespace Chessrepeat.Client

open Lib TrainerState

variable {Card : Type} {s : TrainerState Card} {root : TrainableNode Card} {nodes : List (TrainableNode Card)} {k : Nat}

/-- The last node of a line below the root is selected, under the path of the line. -/
structure Displays (s : TrainerState Card) (root : TrainableNode Card) (nodes : List (TrainableNode Card)) : Prop where
  path : s.selectedPath = fromNodeList nodes
  node : s.selectedNode = (root :: nodes).getLast?.map TrainableNode.ref

/-- The steps go along the line. -/
structure Guided (s : TrainerState Card) (root : TrainableNode Card) (nodes : List (TrainableNode Card)) : Prop where
  sound : Sound s
  selected : s.selectedRoot = some root
  found : Rose.Found Object.id root nodes
  edit : s.trainingMethod = some .edit → mainline root = root :: nodes
  train : s.trainingMethod ≠ some .edit → s.pathToTrain = fromNodeList nodes

theorem mainline_eq_cons (root : TrainableNode Card) : mainline root = root :: (mainline root).tail := by
  cases root with
  | node a cs => cases cs <;> rfl

theorem getElem?_mainline {n : TrainableNode Card} (h : (mainline root)[k]? = some n) :
    (mainline root)[k + 1]? = n.children.head? := by
  induction k generalizing root with
  | zero =>
      rw [mainline_eq_cons, List.getElem?_cons_zero] at h
      obtain rfl := Option.some.inj h
      cases root with
      | node a cs =>
          cases cs with
          | nil => rfl
          | cons c cs =>
              rw [mainline, mainline_eq_cons]
              rfl
  | succ k ih =>
      cases root with
      | node a cs =>
          cases cs with
          | nil => cases h
          | cons c cs => exact ih h

theorem line_mem_nodes (h : Rose.Line root nodes) : ∀ n ∈ nodes, n ∈ root.nodes := by
  induction nodes generalizing root with
  | nil => intro n hn; cases hn
  | cons c cs ih =>
      intro n hn
      rcases List.mem_cons.mp hn with rfl | hn
      · exact Rose.child_mem_nodes h.1
      · exact Rose.nodes_trans (ih h.2 n hn) (Rose.child_mem_nodes h.1)

theorem fromNodeList_append (ms ns : List (TrainableNode Card)) : fromNodeList (ms ++ ns) = fromNodeList ms ++ fromNodeList ns := by
  rw [fromNodeList, List.map_append, List.flatten_append]
  rfl

theorem length_fromNodeList (h2 : TwoUnits root) (h : Rose.Line root nodes) : (fromNodeList nodes).length = 2 * nodes.length := by
  rw [fromNodeList, length_flatten, List.length_map]
  intro id hid
  obtain ⟨n, hn, rfl⟩ := List.mem_map.mp hid
  exact below_line (p := fun o : Object Card => o.id.length = 2) h2 h n hn

theorem Guided.twoUnits (h : Guided s root nodes) : TwoUnits root := h.sound.twoUnits _ (selectedRoot_mem h.selected)

theorem Guided.jump (h : Guided s root nodes) (path : JsString) : Guided (s.jump path) root nodes := by
  have he : Edits id s (s.jump path) := .jump path
  refine { sound := h.sound.jump path, selected := ?_, found := h.found, edit := ?_, train := ?_ }
  · rw [selectedRoot_jump, h.selected]
  · rw [he.trainingMethod]
    exact h.edit
  · rw [he.trainingMethod, pathToTrain, he.trainableContext]
    exact h.train

/-- A jump along the line. -/
theorem Guided.displays (h : Guided s root nodes) (k : Nat) : Displays (s.jump (fromNodeList (nodes.take k))) root (nodes.take k) := by
  obtain ⟨chapter, hchapter, rfl⟩ := Option.map_eq_some_iff.mp h.selected
  constructor
  · rw [TrainerState.jump, hchapter]
  · rw [TrainerState.jump, hchapter]
    change (getNodeList chapter.root _).getLast?.map _ = _
    rw [getNodeList_fromNodeList h.twoUnits (h.found.take k)]

/-- The node that is selected after `k` steps. -/
theorem Guided.deref (h : Guided s root nodes) (hk : k ≤ nodes.length) (hs : Displays s root (nodes.take k)) :
    s.selectedNode.bind s.deref = (root :: nodes)[k]? := by
  have hlast : (root :: nodes.take k).getLast? = (root :: nodes)[k]? := by
    rw [← List.take_succ_cons, List.getLast?_take, if_neg (Nat.succ_ne_zero k), Nat.add_sub_cancel]
    have hlt : k < (root :: nodes).length := Nat.lt_succ_of_le hk
    rw [List.getElem?_eq_getElem hlt]
    rfl
  obtain ⟨n, hn⟩ : ∃ n, (root :: nodes)[k]? = some n :=
    ⟨_, List.getElem?_eq_getElem (Nat.lt_succ_of_le hk)⟩
  have hmem : n ∈ root.nodes := by
    rcases List.mem_cons.mp (List.mem_of_getElem? hn) with rfl | hmem
    · exact Rose.self_mem_nodes _
    · exact line_mem_nodes h.found.line n hmem
  rw [hs.node, hlast, hn]
  exact h.sound.deref (selectedRoot_mem h.selected) hmem

/-- The path of one more node. -/
theorem fromNodeList_take_succ {c : TrainableNode Card} (hc : nodes[k]? = some c) :
    fromNodeList (nodes.take (k + 1)) = fromNodeList (nodes.take k) ++ c.label.data.id := by
  rw [List.take_add_one, hc, fromNodeList_append]
  exact congrArg (fromNodeList (nodes.take k) ++ ·) (List.append_nil _)

theorem Guided.length_id (h : Guided s root nodes) {c : TrainableNode Card} (hc : nodes[k]? = some c) : c.label.data.id.length = 2 :=
  below_line (p := fun o : Object Card => o.id.length = 2) h.twoUnits h.found.line c (List.mem_of_getElem? hc)

/-- What comes after the first `k` ids of the path. -/
theorem Guided.drop_path (h : Guided s root nodes) {c : TrainableNode Card} (hc : nodes[k]? = some c) :
    ((fromNodeList nodes).drop (fromNodeList (nodes.take k)).length).take 2 = c.label.data.id := by
  obtain ⟨hlt, hget⟩ := List.getElem?_eq_some_iff.mp hc
  have hsplit : fromNodeList nodes = fromNodeList (nodes.take k) ++ (c.label.data.id ++ fromNodeList (nodes.drop (k + 1))) := by
    conv_lhs => rw [← List.take_append_drop (k + 1) nodes]
    rw [fromNodeList_append, fromNodeList_take_succ hc, List.append_assoc]
  rw [hsplit, List.drop_left, ← h.length_id hc, List.take_left]

theorem Guided.nextMove_of_le (h : Guided s root nodes) (hk : k ≤ nodes.length) (hs : Displays s root (nodes.take k)) :
    Guided s.nextMove root nodes ∧ Displays s.nextMove root (nodes.take (k + 1)) := by
  have hstay : nodes[k]? = none → nodes.take (k + 1) = nodes.take k := fun hnone => by
    rw [List.take_add_one, hnone]
    exact List.append_nil _
  have hgo : ∀ c, nodes[k]? = some c → Guided (s.jump (s.selectedPath ++ c.label.data.id)) root nodes ∧
      Displays (s.jump (s.selectedPath ++ c.label.data.id)) root (nodes.take (k + 1)) := fun c hc => by
    rw [hs.path, ← fromNodeList_take_succ hc]
    exact ⟨h.jump _, h.displays (k + 1)⟩
  rw [TrainerState.nextMove]
  split
  · rename_i hedit
    obtain ⟨n, hn⟩ : ∃ n, (root :: nodes)[k]? = some n := ⟨_, List.getElem?_eq_getElem (Nat.lt_succ_of_le hk)⟩
    have hhead : n.children.head? = nodes[k]? := by
      have hmain : (mainline root)[k]? = some n := by rw [h.edit hedit, hn]
      rw [← getElem?_mainline hmain, h.edit hedit, List.getElem?_cons_succ]
    rw [h.deref hk hs, hn, Option.bind_some, hhead]
    cases hc : nodes[k]? with
    | none => exact ⟨h, (hstay hc).symm ▸ hs⟩
    | some c => exact hgo c hc
  · rename_i hedit
    have hlen := length_fromNodeList h.twoUnits (h.found.take k).line
    have htotal := length_fromNodeList h.twoUnits h.found.line
    rw [List.length_take, Nat.min_eq_left hk] at hlen
    rw [h.train hedit]
    split
    · rename_i hlt
      have hlt : k < nodes.length := by rw [hs.path] at hlt; omega
      have hc := List.getElem?_eq_getElem hlt
      have hnext := hgo _ hc
      rw [← h.drop_path hc, ← hs.path] at hnext
      exact hnext
    · rename_i hge
      have hge : nodes.length ≤ k := by rw [hs.path] at hge; omega
      exact ⟨h, (hstay (List.getElem?_eq_none hge)).symm ▸ hs⟩

/-- A step along the line, and none at its end. -/
theorem Guided.nextMove (h : Guided s root nodes) (hs : Displays s root (nodes.take k)) :
    Guided s.nextMove root nodes ∧ Displays s.nextMove root (nodes.take (k + 1)) := by
  by_cases hk : k ≤ nodes.length
  · exact h.nextMove_of_le hk hs
  · have hlen : nodes.length ≤ k := by omega
    rw [List.take_of_length_le hlen] at hs
    rw [List.take_of_length_le (by omega)]
    have hnext := h.nextMove_of_le (Nat.le_refl _) (by rwa [List.take_length])
    rwa [List.take_of_length_le (Nat.le_succ _)] at hnext

theorem Guided.iterate (h : Guided s root nodes) (k : Nat) : Guided (TrainerState.nextMove^[k] s.firstMove) root nodes ∧
    Displays (TrainerState.nextMove^[k] s.firstMove) root (nodes.take k) := by
  induction k with
  | zero => exact ⟨h.jump _, h.displays 0⟩
  | succ k ih =>
      rw [Function.iterate_succ_apply']
      exact ih.1.nextMove ih.2

theorem Guided.prevMove (h : Guided s root nodes) (hk : k < nodes.length) (hs : Displays s root (nodes.take (k + 1))) :
    Displays s.prevMove root (nodes.take k) := by
  have hc := List.getElem?_eq_getElem hk
  have hinit : init (fromNodeList (nodes.take (k + 1))) = fromNodeList (nodes.take k) := by
    rw [fromNodeList_take_succ hc, init, List.length_append, h.length_id hc, Nat.add_sub_cancel, List.take_left]
  rw [TrainerState.prevMove, hs.path, hinit]
  exact h.displays k

theorem Guided.lastMove (h : Guided s root nodes) : Displays s.lastMove root nodes := by
  have hall := h.displays nodes.length
  rw [List.take_length] at hall
  rw [TrainerState.lastMove]
  split
  · rename_i hedit
    obtain ⟨chapter, hchapter, hroot⟩ := Option.map_eq_some_iff.mp h.selected
    rw [hchapter]
    change Displays (s.jump (fromNodeList (mainline chapter.root).tail)) root nodes
    rw [hroot, h.edit hedit]
    exact hall
  · rename_i hedit
    rw [h.train hedit]
    exact hall

end Chessrepeat.Client
