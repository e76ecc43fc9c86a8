import Chessrepeat.Lib.Siblings
import Chessrepeat.Store.Lemmas.Rebuild

/-!
# Flattening a tree and building it again

`located` puts beside every node of a posted tree the path it is stored under. A walk over the tree then collects
the labels of the located tree, and the tree built from them has the same labels.
-/

namespace Chessrepeat.Domain

open Lib

def ChapterTreeNode.id : ChapterTreeNode → Text
  | .null => []
  | .mk data _ => data.id

/-- No child is nil, the ids below the root are two code points, and no two siblings have one id. -/
inductive ChapterTreeNode.Keyed : ChapterTreeNode → Prop
  | mk {data : TrainingData} {children : List ChapterTreeNode} (keyed : ∀ c ∈ children, Keyed c)
      (ids : ∀ c ∈ children, c.id.length = 2) (distinct : (children.map ChapterTreeNode.id).Nodup) :
      Keyed (.mk data children)

/-- Equal up to the order of siblings. -/
inductive ChapterTreeNode.Reordered : ChapterTreeNode → ChapterTreeNode → Prop
  | null : Reordered .null .null
  | mk {data : TrainingData} {cs ds es : List ChapterTreeNode} (children : List.Forall₂ Reordered cs ds)
      (order : ds.Perm es) : Reordered (.mk data cs) (.mk data es)

end Chessrepeat.Domain

namespace Chessrepeat.Store

open Lib Domain

variable {moves : PathMap} {path : Text} {t : ChapterTreeNode} {u v : BuildNode}

/-- The labels spell the paths. -/
abbrev Spelling (u : BuildNode) : Prop := Rose.Spelled (fun l : Text × TrainingData => l.2.id) Prod.fst u

mutual
def located (path : Text) : ChapterTreeNode → BuildNode
  | .null => .node (path, .zero) []
  | .mk data children => .node (path, data) (locatedList path children)

def locatedList (path : Text) : List ChapterTreeNode → List BuildNode
  | [] => []
  | c :: cs => located (path ++ c.id) c :: locatedList path cs
end

theorem locatedList_eq (path : Text) (cs : List ChapterTreeNode) :
    locatedList path cs = cs.map fun c => located (path ++ c.id) c := by
  induction cs with
  | nil => rfl
  | cons c cs ih => rw [locatedList, ih, List.map_cons]

@[simp] theorem fst_label_located (path : Text) (t : ChapterTreeNode) : (located path t).label.1 = path := by
  cases t <;> rfl

@[simp] theorem id_label_located (path : Text) (t : ChapterTreeNode) : (located path t).label.2.id = t.id := by
  cases t <;> rfl

theorem responseList_eq (cs : List BuildNode) : BuildNode.responseList cs = cs.map BuildNode.response := by
  induction cs with
  | nil => rfl
  | cons c cs ih => rw [BuildNode.responseList, ih, List.map_cons]

@[simp] theorem id_response (u : BuildNode) : u.response.id = u.label.2.id := by
  cases u; rfl

/-- A tree whose labels spell the paths is its response with the paths put back. -/
theorem located_response (h : Spelling u) : located u.label.1 u.response = u := by
  induction u using Rose.ind with
  | h l cs ih =>
      have hcs : cs.map (fun c : BuildNode => located (l.1 ++ (BuildNode.response c).id) (BuildNode.response c)) = cs.map id :=
        List.map_congr_left fun c hc => by
          have hpath : c.label.1 = l.1 ++ c.label.2.id := h _ (Rose.self_mem_nodes _) c hc
          rw [id_response, ← hpath]
          exact ih c hc (h.child hc)
      rw [BuildNode.response, located, locatedList_eq, responseList_eq, List.map_map]
      simpa [Function.comp_def] using hcs

/-! ## The located tree of a posted one -/

theorem response_located (h : t.Keyed) (path : Text) : (located path t).response = t := by
  induction h generalizing path with
  | @mk data children _ _ _ ih =>
      have hcs : children.map (fun c => (located (path ++ c.id) c).response) = children.map id :=
        List.map_congr_left fun c hc => ih c hc _
      rw [located, BuildNode.response, locatedList_eq, responseList_eq, List.map_map]
      simpa [Function.comp_def] using hcs

theorem spelling_located (h : t.Keyed) (path : Text) : Spelling (located path t) := by
  induction h generalizing path with
  | @mk data children _ _ _ ih =>
      intro n hn c hc
      rcases Rose.mem_nodes.mp hn with rfl | ⟨d, hd, hn⟩
      · rw [located, locatedList_eq] at hc ⊢
        obtain ⟨d, -, rfl⟩ := List.mem_map.mp hc
        simp
      · rw [located, locatedList_eq] at hd
        obtain ⟨d, hmem, rfl⟩ := List.mem_map.mp hd
        exact ih d hmem _ n hn c hc

theorem ids_located (h : t.Keyed) (path : Text) :
    Rose.Below (fun l : Text × TrainingData => l.2.id.length = 2) (located path t) := by
  rw [Rose.below_iff]
  induction h generalizing path with
  | @mk data children _ ids _ ih =>
      intro n hn c hc
      rcases Rose.mem_nodes.mp hn with rfl | ⟨d, hd, hn⟩
      · rw [located, locatedList_eq] at hc
        obtain ⟨d, hd, rfl⟩ := List.mem_map.mp hc
        simpa using ids d hd
      · rw [located, locatedList_eq] at hd
        obtain ⟨d, hmem, rfl⟩ := List.mem_map.mp hd
        exact ih d hmem _ n hn c hc

theorem distinct_located (h : t.Keyed) (path : Text) :
    Rose.Distinct (fun l : Text × TrainingData => l.2.id) (located path t) := by
  induction h generalizing path with
  | @mk data children _ _ distinct ih =>
      intro n hn
      rcases Rose.mem_nodes.mp hn with rfl | ⟨d, hd, hn⟩
      · rw [located, locatedList_eq]
        simpa [Function.comp_def] using distinct
      · rw [located, locatedList_eq] at hd
        obtain ⟨d, hmem, rfl⟩ := List.mem_map.mp hd
        exact ih d hmem _ n hn

/-- Words of two letters are read off their concatenation. -/
theorem flatten_inj {ks ls : List Text} (hk : ∀ k ∈ ks, k.length = 2) (hl : ∀ l ∈ ls, l.length = 2)
    (h : ks.flatten = ls.flatten) : ks = ls := by
  have hlen : ∀ {js : List Text}, (∀ j ∈ js, j.length = 2) → js.map List.length = List.replicate js.length 2 :=
    fun hj => List.eq_replicate_iff.mpr ⟨by simp, fun n hn => by
      obtain ⟨j, hmem, rfl⟩ := List.mem_map.mp hn
      exact hj j hmem⟩
  have hcount : ks.length * 2 = ls.length * 2 := by
    simpa [List.length_flatten, hlen hk, hlen hl] using congrArg List.length h
  rw [List.eq_iff_flatten_eq, hlen hk, hlen hl, Nat.mul_right_cancel (by decide) hcount]
  exact ⟨h, rfl⟩

/-- No two nodes of a posted tree have one path. -/
theorem nodup_located (h : t.Keyed) (path : Text) : ((located path t).labels.map Prod.fst).Nodup := by
  have hspell : Spelling (located path t) := spelling_located h path
  rw [← Rose.Spelled.map_addresses hspell]
  refine (distinct_located h path).nodup_addresses.map_on fun ks hks ls hls he => ?_
  have hid : ∀ {ks}, ks ∈ Rose.addresses (fun l : Text × TrainingData => l.2.id) (located path t) → ∀ k ∈ ks, k.length = 2 :=
    fun hks => (ids_located h path).addresses (q := fun k : Text => k.length = 2) hks
  exact flatten_inj (hid hks) (hid hls) (List.append_cancel_left he)

/-! ## flattenTree -/

/-- The loop over the children, when the walk over each of them collects its labels. -/
theorem walkChildren_response {cs : List BuildNode} (moves : PathMap) (hspell : ∀ c ∈ cs, c.label.1 = path ++ c.label.2.id)
    (hwalk : ∀ c ∈ cs, ∀ moves : PathMap, (∀ l ∈ c.labels, l.1 ∉ moves.rows.map Prod.fst) →
      ∃ out, walk moves c.label.1 (BuildNode.response c) = some out ∧ ∀ e, e ∈ out.rows ↔ e ∈ moves.rows ∨ e ∈ c.labels)
    (hd : ((Rose.labelsList cs).map Prod.fst).Nodup) (hfresh : ∀ l ∈ Rose.labelsList cs, l.1 ∉ moves.rows.map Prod.fst) :
    ∃ out, walkChildren moves path (BuildNode.responseList cs) = some out ∧
      ∀ e, e ∈ out.rows ↔ e ∈ moves.rows ∨ e ∈ Rose.labelsList cs := by
  induction cs generalizing moves with
  | nil => exact ⟨moves, rfl, fun e => by simp⟩
  | cons c cs ih =>
      simp only [Rose.labelsList_cons, List.map_append, List.nodup_append, List.mem_append] at hd hfresh ⊢
      obtain ⟨-, hrest, hdisj⟩ := hd
      obtain ⟨mid, hmid, hrows⟩ := hwalk c List.mem_cons_self moves fun l hl => hfresh l (Or.inl hl)
      have hfresh' : ∀ l ∈ Rose.labelsList cs, l.1 ∉ mid.rows.map Prod.fst := fun l hl hmem => by
        obtain ⟨e, he, heq⟩ := List.mem_map.mp hmem
        rcases (hrows e).mp he with he | he
        · exact hfresh l (Or.inr hl) (heq ▸ List.mem_map_of_mem he)
        · exact hdisj _ (List.mem_map_of_mem he) _ (List.mem_map_of_mem hl) heq
      obtain ⟨out, hout, hrows'⟩ := ih mid (fun d hd => hspell d (List.mem_cons_of_mem _ hd))
        (fun d hd => hwalk d (List.mem_cons_of_mem _ hd)) hrest hfresh'
      refine ⟨out, ?_, fun e => by rw [hrows', hrows, or_assoc]⟩
      rw [hspell c List.mem_cons_self] at hmid
      cases c with
      | node l us =>
          rw [BuildNode.responseList, BuildNode.response, walkChildren]
          rw [BuildNode.response] at hmid
          exact Option.bind_eq_some_iff.mpr ⟨mid, hmid, hout⟩

/-- A walk over new paths collects the labels. -/
theorem walk_response (moves : PathMap) (hs : Spelling u) (hd : (u.labels.map Prod.fst).Nodup)
    (hfresh : ∀ l ∈ u.labels, l.1 ∉ moves.rows.map Prod.fst) :
    ∃ out, walk moves u.label.1 u.response = some out ∧ ∀ e, e ∈ out.rows ↔ e ∈ moves.rows ∨ e ∈ u.labels := by
  induction u using Rose.ind generalizing moves with
  | h l cs ih =>
      have hchild : ∀ c ∈ cs, (c.labels.map Prod.fst).Nodup := fun c hc => Rose.nodup_child hd hc
      rw [Rose.labels_node] at hd hfresh
      rw [List.map_cons, List.nodup_cons] at hd
      have hl : l.1 ∉ moves.rows.map Prod.fst := hfresh l List.mem_cons_self
      have hrows : ∀ e, e ∈ (moves.upsert l).rows ↔ e = l ∨ e ∈ moves.rows := fun e => by
        rw [Table.mem_upsert]
        refine or_congr_right (and_iff_left_of_imp fun he h => hl ?_)
        exact h ▸ List.mem_map_of_mem he
      obtain ⟨out, hout, hmem⟩ := walkChildren_response (moves.upsert l) (hs _ (Rose.self_mem_nodes _))
        (fun c hc moves hf => ih c hc moves (hs.child hc) (hchild c hc) hf) hd.2 fun l' hl' h => by
          obtain ⟨e, he, heq⟩ := List.mem_map.mp h
          rcases (hrows e).mp he with rfl | he
          · exact hd.1 (heq ▸ List.mem_map_of_mem hl')
          · exact hfresh l' (List.mem_cons_of_mem _ hl') (heq ▸ List.mem_map_of_mem he)
      refine ⟨out, hout, fun e => ?_⟩
      rw [hmem, hrows, Rose.labels_node, List.mem_cons]
      tauto

theorem flattenTree_response (hs : Spelling u) (hd : (u.labels.map Prod.fst).Nodup) (hroot : u.label.1 = []) :
    ∃ moves, flattenTree u.response = some moves ∧ moves.rows.Perm u.labels := by
  obtain ⟨moves, hwalk, hmem⟩ := walk_response Table.empty hs hd fun l _ h => by cases h
  rw [hroot] at hwalk
  refine ⟨moves, hwalk, (List.perm_ext_iff_of_nodup moves.nodup.of_map hd.of_map).mpr fun e => ?_⟩
  rw [hmem]
  exact or_iff_right (List.not_mem_nil)

/-! ## buildTree -/

/-- Every key but the empty one ends in its entry's id of two code points, after a key. -/
structure PathMap.Rooted (moves : PathMap) : Prop where
  root : moves.has [] = true
  parent : ∀ e ∈ moves.rows, e.1 ≠ [] → e.2.id.length = 2 ∧ ∃ parent, e.1 = parent ++ e.2.id ∧ moves.has parent = true

theorem PathMap.Rooted.closed (h : moves.Rooted) : moves.Closed := fun e he he0 =>
  (h.parent e he he0).imp_right fun ⟨parent, hp, hhas⟩ => ⟨parent, hp, Or.inr hhas⟩

theorem label_buildStep {p : Text} (h : buildStep moves u p = some v) : v.label = u.label := by
  unfold buildStep at h
  split at h
  · cases h; rfl
  split at h
  · cases h
  · cases h
    have hlabel : ∀ node n : BuildNode, (BuildNode.append node n).label = n.label := fun _ _ => rfl
    exact Rose.label_modify (g := id) (fun n _ => hlabel _ n) u

theorem label_buildNodes {paths : List Text} (h : buildNodes moves paths = some u) : u.label = ([], moves.get []) := by
  have hloop : ∀ {t : BuildNode}, paths.foldlM (buildStep moves) t = some u → u.label = t.label := by
    clear h
    induction paths with
    | nil =>
        intro t h
        cases h
        rfl
    | cons p ps ih =>
        intro t h
        rw [List.foldlM_cons] at h
        obtain ⟨t', hstep, h⟩ := Option.bind_eq_some_iff.mp h
        rw [ih h, label_buildStep hstep]
  exact hloop h

theorem Built.nodup {paths : List Text} (h : Built moves paths u) (hd : paths.Nodup) : (u.labels.map Prod.fst).Nodup := by
  rw [h.paths.nodup_iff, List.nodup_cons]
  exact ⟨fun h0 => of_decide_eq_true (List.mem_filter.mp h0).2 rfl, hd.filter _⟩

/-- The labels of the built tree are the entries. -/
theorem exists_built (order : PathOrder) (h : moves.Rooted) : ∃ u, buildNodes moves (order.paths moves) = some u ∧
    Spelling u ∧ (u.labels.map Prod.fst).Nodup ∧ u.label.1 = [] ∧ u.labels.Perm moves.rows := by
  obtain ⟨u, hu, hb⟩ := buildNodes_built order h.closed
  have hd : (u.labels.map Prod.fst).Nodup := hb.nodup ((order.perm moves).nodup_iff.mpr moves.nodup)
  have hroot : u.label ∈ moves.rows := by
    rw [label_buildNodes hu, PathMap.get]
    cases hf : moves.find? [] with
    | none =>
        have hhas := h.root
        rw [Table.has, hf] at hhas
        cases hhas
    | some e =>
        obtain ⟨he, hk⟩ := Table.find?_eq_some.mp hf
        have he' : e = ([], e.2) := Prod.ext hk rfl
        exact he' ▸ he
  have hsub : ∀ l ∈ u.labels, l ∈ moves.rows := fun l hl => by
    by_cases hl0 : l.1 = []
    · have hl' : l = u.label := List.inj_on_of_nodup_map hd hl (Rose.label_mem_labels u) (hl0.trans hb.root.symm)
      exact hl' ▸ hroot
    · exact hb.rows l hl hl0
  refine ⟨u, hu, hb.spelled, hd, hb.root, (List.perm_ext_iff_of_nodup hd.of_map moves.nodup.of_map).mpr fun e => ⟨hsub e, ?_⟩⟩
  intro he
  have hpath : e.1 ∈ u.labels.map Prod.fst := by
    rw [hb.paths.mem_iff, List.mem_cons, List.mem_filter, (order.perm moves).mem_iff, decide_eq_true_iff]
    exact or_iff_not_imp_left.mpr fun h0 => ⟨List.mem_map_of_mem he, h0⟩
  obtain ⟨l, hl, hk⟩ := List.mem_map.mp hpath
  exact List.inj_on_of_nodup_map moves.nodup (hsub l hl) he hk ▸ hl

theorem reordered_response (h : Rose.Reordered u v) : u.response.Reordered v.response := by
  induction u using Rose.ind generalizing v with
  | h l cs ih =>
      cases h with
      | @node _ _ ds es children order =>
          rw [BuildNode.response, BuildNode.response, responseList_eq, responseList_eq]
          refine ChapterTreeNode.Reordered.mk ?_ (order.map BuildNode.response)
          rw [List.forall₂_map_left_iff, List.forall₂_map_right_iff, List.forall₂_iff_zip]
          rw [List.forall₂_iff_zip] at children
          exact ⟨children.1, fun {c d} hcd => ih c (List.of_mem_zip hcd).1 (children.2 hcd)⟩

/-- A posted tree is flattened to the labels of its located tree. -/
theorem flattenTree_keyed (h : t.Keyed) : ∃ moves, flattenTree t = some moves ∧ moves.rows.Perm (located [] t).labels := by
  have hflat := flattenTree_response (spelling_located h []) (nodup_located h []) (fst_label_located [] t)
  rwa [response_located h] at hflat

theorem rooted_of_perm (hs : Spelling u) (hid : Rose.Below (fun l : Text × TrainingData => l.2.id.length = 2) u)
    (hroot : u.label.1 = []) (hp : moves.rows.Perm u.labels) : moves.Rooted := by
  have hhas : ∀ l ∈ u.labels, moves.has l.1 = true := fun l hl => Table.has_iff.mpr ⟨l, hp.mem_iff.mpr hl, rfl⟩
  refine ⟨hroot ▸ hhas _ (Rose.label_mem_labels u), fun e he he0 => ?_⟩
  rw [hp.mem_iff, ← Rose.eta u, Rose.labels_node, List.mem_cons] at he
  have hbelow : e ∈ Rose.labelsList u.children := he.resolve_left fun heq => he0 (heq ▸ hroot)
  obtain ⟨m, hm, c, hc, rfl⟩ := Rose.exists_parent hbelow
  exact ⟨hid _ hbelow, m.label.1, hs m hm c hc, hhas _ (Rose.mem_labels.mpr ⟨m, hm, rfl⟩)⟩

end Chessrepeat.Store
