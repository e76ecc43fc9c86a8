import Chessrepeat.Client.Lemmas.Search
import Chessrepeat.Client.Lemmas.Sound

/-!
# The selected node and the selected path

The store keeps the selected position twice, as a node and as a path. What an action must meet so that the two
stay together is `Safe`; what a caller may be expected to respect is `Admissible`.
-/

namespace Chessrepeat.Client

open Lib TrainerState

variable {Card : Type} {s s' : TrainerState Card} {env : Env Card} {chess : Chessops}

/-- The selected path leads to the selected node. -/
def SelectionConsistent (s : TrainerState Card) : Prop :=
  ∀ r, s.selectedNode = some r →
    ∃ root n, s.selectedRoot = some root ∧ nodeAtPathOrNull root s.selectedPath = some n ∧ n.label.ref = r

/-- The path leads to a node of the selected chapter, if one is selected. -/
def Found (s : TrainerState Card) (path : JsString) : Prop :=
  ∀ root, s.selectedRoot = some root → ∃ n, nodeAtPathOrNull root path = some n

/-- `setNextTrainablePosition` looks for a move. -/
def Searching (s : TrainerState Card) : Prop := ∃ method, s.trainingMethod = some method ∧ method ≠ .edit

/-- Where it looks, no two children of a node have one id. -/
def Searchable (s : TrainerState Card) : Prop := Searching s → ∀ root, s.selectedRoot = some root → DistinctIds root

/-- No child that `deleteNodeAt(chapter.root, path)` removes is on the way to the position `line` of the selected
chapter. -/
def Spared (s : TrainerState Card) (chapter : Chapter Card) (path line : JsString) : Prop :=
  ∀ root, s.selectedRoot = some root → ∀ m ∈ getNodeList root line,
    m ∈ (nodeAtPath chapter.root (init path)).children → m.label.id ≠ last path

/-- In the edit mode, the id of the child that `makeMove(san)` goes to leads to it. -/
def Leads (chess : Chessops) (s : TrainerState Card) (san : JsString) : Prop :=
  s.trainingMethod = some .edit → ∀ chapter node, s.selectedChapter = some chapter →
    s.selectedNode.bind s.deref = some node →
      (∀ c, node.children.find? (fun c => c.label.data.san = san) = some c → childById node c.label.id = some c) ∧
      ((∀ c ∈ node.children, c.label.data.san ≠ san) → ∀ d, newMove chess chapter.trainAs node.data san = some d →
        d.san = san → childById node d.id = none)

/-- The calls the callers make: trees with ids of two units, and paths of existing nodes for `jump` and
`deleteLine`. -/
def Admissible (s : TrainerState Card) (a : Action Card) : Prop :=
  a.TwoUnits ∧ match a with
    | .jump path => Found s path
    | .deleteLine path => path ≠ [] ∧ Found s path
    | _ => True

/-- Of someone who is not signed in, `deleteLine` jumps only once the chapter has been written. -/
def Safe (chess : Chessops) (env : Env Card) (s : TrainerState Card) : Action Card → Prop
  | .setRepertoire _ => s.selectedNode = none
  | .makeMove san => Leads chess s san
  | .deleteLine path =>
      if env.isAuthenticated then contains s.selectedPath path = true ∨ s.selectedRoot = none
      else ∀ chapter, s.selectedChapter = some chapter → s.selectedNode = none ∨ Spared s chapter path s.selectedPath
  | .finishDeleteLine i => ∀ msg path, s.awaits[i]? = some (.jump msg path) → Found s path
  | .setNextTrainablePosition => Searchable s
  | .deleteNodeRemote chapterId path => ∀ chapter, s.chapter chapterId = some chapter →
      if contains s.selectedPath path then
        Searchable s ∧ (Searching s ∨ Found s (init path) ∧ Spared s chapter path (init path))
      else s.selectedNode = none ∨ Spared s chapter path s.selectedPath
  | .finishResync _ none => Searchable s
  | .finishResync _ (some raw) => Searching s → ∀ c ∈ raw, Rose.Distinct TrainingData.id c.root
  | .runEffect => ∀ r, s.effect = some r →
      s.selectedPath = [] ∧ ∃ root, s.selectedRoot = some root ∧ root.label.ref = r
  | _ => True

/-! ## Selecting -/

theorem SelectionConsistent.of_none (h : s.selectedNode = none) : SelectionConsistent s := by
  intro r hr
  rw [h] at hr
  cases hr

theorem SelectionConsistent.congr (h : SelectionConsistent s) (hroot : s'.selectedRoot = s.selectedRoot)
    (hpath : s'.selectedPath = s.selectedPath) (hnode : s'.selectedNode = s.selectedNode) :
    SelectionConsistent s' := by
  intro r hr
  rw [hroot, hpath]
  exact h r (hnode ▸ hr)

/-- Selecting the last node on the way to a path that leads somewhere. -/
theorem SelectionConsistent.getLast {root : TrainableNode Card} {path : JsString} {n : TrainableNode Card}
    (hroot : s.selectedRoot = some root) (hn : nodeAtPathOrNull root path = some n) (hpath : s.selectedPath = path)
    (hnode : s.selectedNode = (getNodeList root path).getLast?.map TrainableNode.ref) : SelectionConsistent s := by
  intro r hr
  rw [hnode, getLast?_getNodeList, nodeAtPath_of_found hn] at hr
  exact ⟨root, n, hroot, hpath ▸ hn, Option.some.inj hr⟩

theorem SelectionConsistent.jump {path : JsString} (hf : Found s path)
    (h : s.selectedRoot = none → SelectionConsistent s) : SelectionConsistent (s.jump path) := by
  cases hc : s.selectedChapter with
  | none =>
      have hr : s.selectedRoot = none := by rw [selectedRoot, hc]; rfl
      simpa only [TrainerState.jump, hc] using h hr
  | some chapter =>
      obtain ⟨n, hn⟩ := hf chapter.root (selectedChapter_root hc)
      simp only [TrainerState.jump, hc]
      exact SelectionConsistent.getLast (selectedChapter_root hc) hn rfl rfl

theorem selectedRoot_jump (path : JsString) : (s.jump path).selectedRoot = s.selectedRoot := by
  rw [TrainerState.jump]; split <;> rfl

theorem trainingMethod_jump (path : JsString) : (s.jump path).trainingMethod = s.trainingMethod := by
  rw [TrainerState.jump]; split <;> rfl

/-- A search ends in a consistent selection, whatever was selected before. -/
theorem SelectionConsistent.setNextTrainablePosition (hs : Sound s) (hd : Searchable s)
    (h : (Searching s ∧ s.selectedRoot ≠ none) ∨ SelectionConsistent s) :
    SelectionConsistent (s.setNextTrainablePosition env) := by
  rcases setNextTrainablePosition_cases s env with ⟨hno, he⟩ | ⟨_, _, _, _, _, _, he⟩ | ⟨c, m, x, hc, hm, hne, hx, he⟩
  · rw [he]
    rcases h with ⟨⟨method, hm, hne⟩, hroot⟩ | h
    · rcases hno with hno | hno
      · exact absurd (by rw [selectedRoot, hno]; rfl) hroot
      · exact absurd (hno method hm) hne
    · exact h
  · rw [he]
    exact SelectionConsistent.of_none rfl
  · have hroot := selectedChapter_root hc
    obtain ⟨n, _, hn, -⟩ := computeNextTrainableNode_at (hd ⟨m, hm, hne⟩ _ hroot)
      (hs.twoUnits _ (selectedRoot_mem hroot)) hx
    rw [he]
    exact SelectionConsistent.getLast hroot hn rfl rfl

/-! ## Edits -/

/-- An edit that keeps the children on the selected path. -/
theorem SelectionConsistent.mutate {r : Nat} {f : TrainableNode Card → TrainableNode Card} (hk : Keeps f)
    (h : SelectionConsistent s)
    (hc : ∀ root, s.selectedRoot = some root → ∀ ls k (n c : TrainableNode Card), ls ++ [k] <+: steps s.selectedPath →
      Rose.at? Object.id root ls = some n → n.label.ref = r → childById n k = some c → childById (f n) k = some c) :
    SelectionConsistent (s.mutate r f) := by
  intro r' hr'
  obtain ⟨root, n, hroot, hn, rfl⟩ := h r' hr'
  obtain ⟨m, hm, he⟩ := Rose.at?_modify_keep (p := fun n : Object Card => n.ref = r) (fun n _ => hk.id n)
    (fun n _ => hk.ref n) hn fun ls k n c hp hn hpn => hc root hroot ls k n c hp hn (of_decide_eq_true hpn)
  exact ⟨_, m, by rw [selectedRoot_mutate, hroot]; rfl, hm, he⟩

theorem SelectionConsistent.setData {r : Nat} {g : TrainingData Card → TrainingData Card}
    (hg : ∀ d, (g d).id = d.id) (h : SelectionConsistent s) :
    SelectionConsistent (s.mutate r fun n => n.setData (g n.data)) :=
  h.mutate (Keeps.setData hg) fun _ _ _ _ _ _ _ _ _ hc => hc

theorem childById_push {n c d : TrainableNode Card} {id : JsString} (h : childById n id = some d) :
    childById (TrainableNode.push c n) id = some d := by
  rw [childById, Rose.child?] at h ⊢
  rw [TrainableNode.push, Rose.children_node, List.find?_append, h]
  rfl

theorem SelectionConsistent.push {r : Nat} {c : TrainableNode Card} (h : SelectionConsistent s) :
    SelectionConsistent (s.mutate r (TrainableNode.push c)) :=
  h.mutate (Keeps.push c) fun _ _ _ _ _ _ _ _ _ hc => childById_push hc

theorem childById_removeChild {n : TrainableNode Card} {id k : JsString} (h : k ≠ id) :
    childById (removeChild id n) k = childById n k := by
  simp only [childById, Rose.child?, removeChild, Rose.children_node, List.find?_filter]
  congr 1
  funext c
  simp only [TrainableNode.data, Object.id]
  by_cases hk : c.label.data.id = k
  · simp [hk, h]
  · simp [hk]

/-- A position whose way is spared is still there when the line is removed. -/
theorem Spared.survives {chapter : Chapter Card} {path line : JsString} {root m : TrainableNode Card} (hs : Sound s)
    (hchapter : chapter.root ∈ s.roots) (h : Spared s chapter path line) (hroot : s.selectedRoot = some root)
    (hm : nodeAtPathOrNull root line = some m) :
    ∃ m', nodeAtPathOrNull (Rose.modify (fun n => n.ref = (nodeAtPath chapter.root (init path)).ref)
      (removeChild (last path)) root) line = some m' ∧ m'.label.ref = m.label.ref := by
  refine Rose.at?_modify_keep (g := Object.ref)
    (p := fun n : Object Card => n.ref = (nodeAtPath chapter.root (init path)).ref) (f := removeChild (last path))
    (fun n _ => rfl) (fun n _ => rfl) hm fun ls k n c hp hn hpn hc => ?_
  have hnode : n = nodeAtPath chapter.root (init path) :=
    hs.eq_of_ref (selectedRoot_mem hroot) hchapter (Rose.at?_mem_nodes hn) (nodeAtPath_mem_nodes _ _)
      (of_decide_eq_true hpn)
  have hat : Rose.at? Object.id root (ls ++ [k]) = some c := by
    rw [Rose.at?_append, hn, Option.bind_some, Rose.at?_cons, hc]; rfl
  have hne : k ≠ last path := by
    have := h root hroot c (Rose.mem_chain hp hat) (hnode ▸ (Rose.child?_eq_some hc).1)
    rwa [(Rose.child?_eq_some hc).2] at this
  exact (childById_removeChild hne).trans hc

theorem SelectionConsistent.removeLine {chapter : Chapter Card} {path : JsString} (hs : Sound s)
    (hchapter : chapter.root ∈ s.roots) (h : SelectionConsistent s)
    (hsp : s.selectedNode = none ∨ Spared s chapter path s.selectedPath) :
    SelectionConsistent (s.removeLine env chapter path) := by
  intro r hr
  rw [selectedNode_of_rest rest_removeLine] at hr
  obtain ⟨root, n, hroot, hn, rfl⟩ := h r hr
  rcases hsp with hnone | hsp
  · rw [hnone] at hr; cases hr
  · obtain ⟨m, hm, he⟩ := hsp.survives hs hchapter hroot hn
    refine ⟨_, m, by rw [selectedRoot_removeLine, hroot]; rfl, ?_, he⟩
    rw [selectedPath_of_rest rest_removeLine]
    exact hm

theorem Spared.found {chapter : Chapter Card} {path line : JsString} (hs : Sound s) (hchapter : chapter.root ∈ s.roots)
    (h : Spared s chapter path line) (hf : Found s line) : Found (s.removeLine env chapter path) line := by
  intro root' hroot'
  rw [selectedRoot_removeLine] at hroot'
  obtain ⟨root, hroot, rfl⟩ := Option.map_eq_some_iff.mp hroot'
  obtain ⟨m, hm⟩ := hf root hroot
  obtain ⟨m', hm', -⟩ := h.survives hs hchapter hroot hm
  exact ⟨m', hm'⟩

/-- The parent of a removed node stays where it was. -/
theorem found_parent {chapter : Chapter Card} {path : JsString} {n : TrainableNode Card} (hs : Sound s)
    (hc : s.selectedChapter = some chapter) (h0 : path ≠ []) (hn : nodeAtPathOrNull chapter.root path = some n) :
    Found (s.removeLine env chapter path) (init path) := by
  intro root' hroot'
  have hroot := selectedChapter_root hc
  have hmem := selectedRoot_mem hroot
  obtain ⟨parent, hparent, -⟩ := (hs.twoUnits _ hmem).parent h0 hn
  rw [selectedRoot_removeLine, hroot, nodeAtPath_of_found hparent] at hroot'
  cases hroot'
  refine ⟨removeChild (last path) parent, ?_⟩
  have hat := Rose.at?_modify (p := fun n : Object Card => n.ref = parent.label.ref) (f := removeChild (last path))
    (fun _ _ => rfl) hparent (decide_eq_true rfl)
    (fun qs m hm hp => Rose.at?_inj (hs.root_nodup hmem) hm hparent (of_decide_eq_true hp)) (steps (init path))
  rw [if_pos (List.prefix_refl _), List.drop_length] at hat
  exact hat

/-! ## Making a move -/

theorem repertoire_follow (r : Nat) (san : JsString) : (s.follow r san).repertoire = s.repertoire := by
  rw [follow_eq]

/-- Following a move to the child its id leads to. -/
theorem SelectionConsistent.follow {r : Nat} {san : JsString} {root n : TrainableNode Card} (hs : Sound s)
    (hroot : s.selectedRoot = some root) (hn : nodeAtPathOrNull root s.selectedPath = some n) (hr : n.label.ref = r)
    (hnode : s.selectedNode = some r)
    (hlead : s.trainingMethod = some .edit → ∀ c : TrainableNode Card,
      n.children.find? (fun c => c.label.data.san = san) = some c → childById n c.label.id = some c) :
    SelectionConsistent (s.follow r san) := by
  have hmem := selectedRoot_mem hroot
  have hnodes := nodeAtPathOrNull_mem_nodes hn
  have hcons : SelectionConsistent s := fun r' hr' => by
    rw [hnode] at hr'; cases hr'
    exact ⟨root, n, hroot, hn, hr⟩
  rw [TrainerState.follow]
  split
  · rename_i hedit
    rw [← hr, hs.deref hmem hnodes, Option.bind_some]
    split
    · exact hcons
    · rename_i c hc
      have hchild : c ∈ n.children := List.mem_of_find?_eq_some hc
      have hid : c.label.data.id.length = 2 := ((hs.twoUnits _ hmem).node hnodes).id_child hchild
      intro r' hr'
      cases hr'
      refine ⟨root, c, hroot, ?_, rfl⟩
      change nodeAtPathOrNull root (s.selectedPath ++ c.label.data.id) = some c
      rw [nodeAtPathOrNull_append ((hs.twoUnits _ hmem).even hn) hid, hn, Option.bind_some]
      exact hlead hedit c hc
  · exact hcons

theorem selectedRoot_send (msg : Outgoing Card) : (s.send env msg).selectedRoot = s.selectedRoot := by
  rw [send_eq]; rfl

theorem selectedRoot_pushNew (r : Nat) (d : TrainingData Card) : (s.pushNew r d).selectedRoot =
    s.selectedRoot.map (Rose.modify (fun n => n.ref = r) (TrainableNode.push (.node ⟨s.nextRef, d⟩ []))) := by
  rw [pushNew, selectedRoot_mutate]; rfl

theorem childById_push_self {c n : TrainableNode Card} (h : childById n c.label.id = none) :
    childById (TrainableNode.push c n) c.label.id = some c := by
  rw [childById, Rose.child?] at h ⊢
  rw [TrainableNode.push, Rose.children_node, List.find?_append, h, Option.none_or]
  exact List.find?_cons_of_pos (decide_eq_true rfl)

/-- The node that was extended, at its path. -/
theorem nodeAtPathOrNull_push {root n c : TrainableNode Card} {path : JsString} (hn : nodeAtPathOrNull root path = some n)
    (hd : (root.labels.map Object.ref).Nodup) :
    nodeAtPathOrNull (Rose.modify (fun m => m.ref = n.label.ref) (TrainableNode.push c) root) path =
      some (TrainableNode.push c n) := by
  have hat := Rose.at?_modify (p := fun m : Object Card => m.ref = n.label.ref) (f := TrainableNode.push c)
    (fun _ _ => rfl) hn (decide_eq_true rfl) (fun qs m hm hp => Rose.at?_inj hd hm hn (of_decide_eq_true hp))
    (steps path)
  rwa [if_pos (List.prefix_refl _), List.drop_length] at hat

theorem SelectionConsistent.makeMove {san : JsString} (hs : Sound s) (h : SelectionConsistent s)
    (hl : Leads chess s san) : SelectionConsistent (s.makeMove chess env san) := by
  cases hc : s.selectedChapter with
  | none => simpa only [TrainerState.makeMove, hc] using h
  | some chapter =>
      cases hnode : s.selectedNode.bind s.deref with
      | none => simpa only [TrainerState.makeMove, hc, hnode] using h
      | some node =>
          obtain ⟨r, hr, hderef⟩ := Option.bind_eq_some_iff.mp hnode
          obtain ⟨root, n, hroot, hn, rfl⟩ := h r hr
          have hmem := selectedRoot_mem hroot
          obtain rfl : n = node := Option.some.inj (hs.deref hmem (nodeAtPathOrNull_mem_nodes hn) ▸ hderef)
          simp only [TrainerState.makeMove, hc, hnode]
          split
          · exact h
          · rename_i s' he
            rcases extend_cases he with ⟨-, rfl⟩ | ⟨hnew, d, hd, k, -, hs'⟩
            · exact SelectionConsistent.follow hs hroot hn rfl hr fun hedit => (hl hedit _ _ hc hnode).1
            · have hsound := hs.extend he
              have hrest : s'.selectedPath = s.selectedPath ∧ s'.selectedNode = s.selectedNode ∧
                  s'.trainingMethod = s.trainingMethod := by
                rw [hs', send_eq]; exact ⟨rfl, rfl, rfl⟩
              have hroot' : s'.selectedRoot =
                  some (Rose.modify (fun m => m.ref = n.label.ref) (TrainableNode.push (.node ⟨s.nextRef, d⟩ [])) root) := by
                rw [hs', selectedRoot_send, selectedRoot_pushNew, selectedRoot_onChapter (Counts.addCounts _ _), hroot]
                rfl
              have hat := nodeAtPathOrNull_push (c := .node ⟨s.nextRef, d⟩ []) hn (hs.root_nodup hmem)
              refine SelectionConsistent.follow (n := TrainableNode.push (.node ⟨s.nextRef, d⟩ []) n) hsound hroot'
                (hrest.1 ▸ hat) rfl (hrest.2.1.trans hr) ?_
              intro hedit c hfind
              rw [TrainableNode.push, Rose.children_node, List.find?_append,
                List.find?_eq_none.mpr (by simpa using hnew), Option.none_or] at hfind
              have hcd : c = .node ⟨s.nextRef, d⟩ [] := by
                simpa using List.mem_of_find?_eq_some hfind
              subst hcd
              have hsan : d.san = san := by
                have h := List.find?_some hfind
                exact of_decide_eq_true h
              exact childById_push_self ((hl (hrest.2.2 ▸ hedit) _ _ hc hnode).2 hnew d hd hsan)

/-! ## Every action -/

theorem SelectionConsistent.deleteLine {path : JsString} (hs : Sound s) (h : SelectionConsistent s) (h0 : path ≠ [])
    (hf : Found s path) (hsafe : Safe chess env s (.deleteLine path)) : SelectionConsistent (s.deleteLine env path) := by
  rw [Safe] at hsafe
  cases hc : s.selectedChapter with
  | none => simpa only [TrainerState.deleteLine, hc] using h
  | some chapter =>
      cases henv : env.isAuthenticated with
      | true =>
          obtain ⟨n, hn⟩ := hf _ (selectedChapter_root hc)
          rw [if_pos henv] at hsafe
          have hsel : contains s.selectedPath path = true := by
            rcases hsafe with hsel | hnone
            · exact hsel
            · rw [selectedChapter_root hc] at hnone
              cases hnone
          rw [deleteLine_signedIn henv hc, if_pos hsel]
          refine SelectionConsistent.jump (fun root hroot => ?_) fun hnone => ?_
          · rw [selectedRoot_send] at hroot
            exact found_parent hs hc h0 hn root hroot
          · rw [selectedRoot_send, selectedRoot_removeLine, selectedChapter_root hc] at hnone
            cases hnone
      | false =>
          rw [if_neg (by simp [henv])] at hsafe
          rw [deleteLine_guest henv hc]
          exact (h.removeLine hs (selectedRoot_mem (selectedChapter_root hc)) (hsafe chapter hc)).congr rfl rfl rfl

/-- What is left of `deleteLine` once the chapter has been written. -/
theorem SelectionConsistent.finishDeleteLine {i : Nat} (h : SelectionConsistent s)
    (hf : ∀ msg path, s.awaits[i]? = some (.jump msg path) → Found s path) :
    SelectionConsistent (s.finishDeleteLine env i) := by
  rcases finishDeleteLine_cases s env i with he | ⟨msg, path, hi, he⟩ <;> rw [he]
  · exact h
  · refine SelectionConsistent.jump (fun root hroot => ?_) fun _ => ?_
    · rw [selectedRoot_send] at hroot
      exact hf msg path hi root hroot
    · rw [send_eq]
      exact h.congr rfl rfl rfl

theorem Searching.congr (h : s'.trainingMethod = s.trainingMethod) : Searching s' ↔ Searching s := by
  rw [Searching, Searching, h]

theorem DistinctIds.removeChild {root : TrainableNode Card} {p : Object Card → Bool} (h : DistinctIds root) (id : JsString) :
    DistinctIds (Rose.modify p (removeChild id) root) := by
  refine Rose.Distinct.modify (fun n _ => (Keeps.removeChild id).id n) (fun n _ _ hd m hm => ?_) h
  rcases Rose.mem_nodes.mp hm with rfl | ⟨c, hc, hm⟩
  · have hsub : ((Client.removeChild id n).children.map fun c => c.label.id).Sublist (n.children.map fun c => c.label.id) :=
      List.filter_sublist.map _
    exact hsub.nodup (hd n (Rose.self_mem_nodes n))
  · exact hd m (Rose.mem_nodes.mpr (Or.inr ⟨c, (List.mem_filter.mp hc).1, hm⟩))

theorem Searchable.removeLine {chapter : Chapter Card} {path : JsString} (h : Searchable s) :
    Searchable (s.removeLine env chapter path) := by
  intro hm root' hroot'
  rw [selectedRoot_removeLine] at hroot'
  obtain ⟨root, hroot, rfl⟩ := Option.map_eq_some_iff.mp hroot'
  exact (h ((Searching.congr (trainingMethod_of_rest rest_removeLine)).mp hm) root hroot).removeChild _

theorem SelectionConsistent.deleteNodeRemote {chapterId path : JsString} (hs : Sound s) (h : SelectionConsistent s)
    (hsafe : Safe chess env s (.deleteNodeRemote chapterId path)) :
    SelectionConsistent (s.deleteNodeRemote env chapterId path) := by
  cases hc : s.chapter chapterId with
  | none => simpa only [TrainerState.deleteNodeRemote, hc] using h
  | some chapter =>
      have hchapter : chapter.root ∈ s.roots := rootOf_mem (chapter_root hc)
      have hsafe := hsafe chapter hc
      simp only [TrainerState.deleteNodeRemote, hc]
      split <;> rename_i hsel
      · rw [if_pos hsel] at hsafe
        obtain ⟨hd, hsafe⟩ := hsafe
        have hd' : Searchable ((s.removeLine env chapter path).jump (init path)) := by
          intro hm root hroot
          rw [selectedRoot_jump] at hroot
          exact hd.removeLine ((Searching.congr (trainingMethod_jump _)).mp hm) root hroot
        refine SelectionConsistent.setNextTrainablePosition (hs.removeLine.jump _) hd' ?_
        cases hroot : s.selectedRoot with
        | none =>
            -- without a selected chapter nothing is selected, and `jump` selects nothing
            have hnone : s.selectedNode = none := Option.eq_none_iff_forall_ne_some.mpr fun r hr => by
              obtain ⟨root, _, hroot', _⟩ := h r hr
              rw [hroot] at hroot'; cases hroot'
            right
            refine SelectionConsistent.jump (fun root hroot' => ?_) fun _ => ?_
            · rw [selectedRoot_removeLine, hroot] at hroot'; cases hroot'
            · exact SelectionConsistent.of_none (by rw [selectedNode_of_rest rest_removeLine, hnone])
        | some root =>
            rcases hsafe with hsearch | ⟨hf, hsp⟩
            · left
              constructor
              · rw [Searching.congr (trainingMethod_jump _), Searching.congr (trainingMethod_of_rest rest_removeLine)]
                exact hsearch
              · rw [selectedRoot_jump, selectedRoot_removeLine, hroot]
                simp
            · right
              refine SelectionConsistent.jump (hsp.found hs hchapter hf) fun hnone => ?_
              rw [selectedRoot_removeLine, hroot] at hnone
              cases hnone
      · rw [if_neg hsel] at hsafe
        exact h.removeLine hs hchapter hsafe

theorem SelectionConsistent.addMove {chapterId path : JsString} {node : Rose (TrainingData Card)}
    (h : SelectionConsistent s) : SelectionConsistent (s.addMove env chapterId path node) := by
  cases hc : s.chapter chapterId with
  | none => simpa only [TrainerState.addMove, hc] using h
  | some chapter =>
      cases hn : nodeAtPathOrNull chapter.root path with
      | none =>
          simp only [TrainerState.addMove, hc, hn]
          exact SelectionConsistent.of_none rfl
      | some parent =>
          simp only [TrainerState.addMove, hc, hn]
          have hnext : SelectionConsistent { s with nextRef := (allocate s.nextRef node).2 } := h.congr rfl rfl rfl
          exact (hnext.push (c := (allocate s.nextRef node).1)).congr
            (selectedRoot_onChapter (Counts.addCounts _ _)) rfl rfl

theorem SelectionConsistent.restore {savedPath : JsString} {fetched : Option (List (RawChapter Card))}
    (hs : Sound (s.fetchRepertoire env fetched)) (hd : Searchable (s.fetchRepertoire env fetched)) :
    SelectionConsistent (s.restore env savedPath fetched) := by
  rw [TrainerState.restore]
  rcases recoverPath_cases (s.fetchRepertoire env fetched) savedPath with ⟨root, n, hroot, hn, he⟩ | he <;> rw [he]
  · refine SelectionConsistent.setNextTrainablePosition (hs.jump _) (fun hm root' hroot' => ?_) (Or.inr ?_)
    · rw [selectedRoot_jump] at hroot'
      exact hd ((Searching.congr (trainingMethod_jump _)).mp hm) root' hroot'
    · refine SelectionConsistent.jump (fun root' hroot' => ?_) fun hnone => ?_
      · rw [hroot] at hroot'; cases hroot'
        exact ⟨n, hn⟩
      · rw [hroot] at hnone; cases hnone
  · exact SelectionConsistent.setNextTrainablePosition (hs.of_repertoire rfl rfl) hd
      (Or.inr (SelectionConsistent.of_none rfl))

/-- A response with distinct ids can be searched. -/
theorem searchable_fetched {raw : List (RawChapter Card)}
    (h : Searching s → ∀ c ∈ raw, Rose.Distinct TrainingData.id c.root) :
    Searchable (s.fetchRepertoire env (some raw)) := by
  intro hm root hroot
  obtain ⟨c, hc, rfl⟩ := List.mem_map.mp (selectedRoot_mem hroot)
  obtain ⟨d, hd, -, he⟩ := parseChapters_mem hc
  have hdist := h hm d hd
  rw [← he, Rose.distinct_map] at hdist
  exact hdist

theorem SelectionConsistent.step (hs : Sound s) (h : SelectionConsistent s) {a : Action Card} (ha : Admissible s a)
    (hsafe : Safe chess env s a) : SelectionConsistent (step chess s env a) := by
  cases a with
  | setRepertoire raw => exact SelectionConsistent.of_none hsafe
  | selectChapter id => exact SelectionConsistent.of_none rfl
  | setTrainingMethod m => exact h.congr rfl rfl rfl
  | setSearchConfig config => exact h.congr rfl rfl rfl
  | jump path => exact SelectionConsistent.jump ha.2 fun _ => h
  | makeMove san => exact h.makeMove hs hsafe
  | deleteLine path => exact h.deleteLine hs ha.2.1 ha.2.2 hsafe
  | setNextTrainablePosition => exact SelectionConsistent.setNextTrainablePosition hs hsafe (Or.inr h)
  | setCommentAt comment path =>
      cases hc : s.selectedChapter with
      | none => simpa only [Client.step, TrainerState.setCommentAt, hc] using h
      | some chapter =>
          have hset : SelectionConsistent (s.startSetCommentAt chapter comment path).1 :=
            h.setData (g := TrainingData.setComment _) fun _ => rfl
          cases henv : env.isAuthenticated with
          | true =>
              rw [Client.step, setCommentAt_signedIn henv hc, send_eq]
              exact hset.congr rfl rfl rfl
          | false =>
              rw [Client.step, setCommentAt_guest henv hc]
              exact hset.congr rfl rfl rfl
  | learn =>
      cases ht : s.trainingTarget env with
      | none => simpa only [Client.step, TrainerState.learn, ht] using h
      | some t =>
          simp only [Client.step, TrainerState.learn, ht, TrainerState.putCard]
          rw [send_eq]
          have hcounts : SelectionConsistent (s.onChapter t.1.uuid (Chapter.addCounts 0 (-1))) :=
            h.congr (selectedRoot_onChapter (Counts.addCounts _ _)) rfl rfl
          exact (hcounts.setData (g := TrainingData.setCard env.currentUserKey _) fun _ => rfl).congr rfl rfl rfl
  | train correct =>
      cases ht : s.trainingTarget env with
      | none => simpa only [Client.step, TrainerState.train, ht] using h
      | some t =>
          simp only [Client.step, TrainerState.train, ht]
          split
          · exact h
          · exact h
          · rw [TrainerState.putCard, send_eq]
            exact (h.setData (g := TrainingData.setCard env.currentUserKey _) fun _ => rfl).congr rfl rfl rfl
  | addMove chapterId path node => exact h.addMove
  | deleteNodeRemote chapterId path => exact h.deleteNodeRemote hs hsafe
  | setCommentRemote chapterId path comment =>
      cases hc : s.chapter chapterId with
      | none => simpa only [Client.step, TrainerState.setCommentRemote, hc] using h
      | some chapter =>
          simp only [Client.step, TrainerState.setCommentRemote, hc]
          exact h.setData (g := TrainingData.setComment comment) fun _ => rfl
  | updateTrainingRemote chapterId path username card =>
      cases hc : s.chapter chapterId with
      | none => simpa only [Client.step, TrainerState.updateTrainingRemote, hc] using h
      | some chapter =>
          simp only [Client.step, TrainerState.updateTrainingRemote, hc]
          exact h.setData (g := TrainingData.setCard username card) fun _ => rfl
  | resyncAndRestore => exact SelectionConsistent.of_none rfl
  | finishResync i fetched =>
      simp only [Client.step, TrainerState.finishResync]
      split
      · exact h
      · have hs' : Sound { s with resyncs := s.resyncs.eraseIdx i } := hs.of_repertoire rfl rfl
        cases fetched with
        | none => exact SelectionConsistent.restore hs' hsafe
        | some raw => exact SelectionConsistent.restore (Sound.setRepertoire ha.1) (searchable_fetched hsafe)
  | finishDeleteLine i => exact h.finishDeleteLine hsafe
  | finishSetCommentAt i counters => cases ha.1
  | render =>
      simp only [Client.step, TrainerState.render]
      split
      · exact h
      · split
        · exact h
        · exact h.congr rfl rfl rfl
  | runEffect =>
      simp only [Client.step, TrainerState.runEffect]
      split
      · exact h
      · rename_i r hr
        obtain ⟨hpath, root, hroot, he⟩ := hsafe r hr
        intro r' hr'
        cases hr'
        exact ⟨root, root, hroot, by rw [show TrainerState.selectedPath _ = _ from hpath]; rfl, he⟩

end Chessrepeat.Client
