import Chessrepeat.Store.Lemmas.Create

/-!
# The order of siblings

A row does not say where among its siblings a move stands. The children of a built node come in the order in which
their paths were taken up, and that order knows only how long the paths are.
-/

namespace Chessrepeat.Store

open Lib Domain

variable {moves : PathMap} {done paths : List Text} {p path : Text} {t : ChapterTreeNode} {u v : BuildNode}

/-- The children of every node are in the order of the list. -/
def InOrder (done : List Text) (u : BuildNode) : Prop :=
  ∀ n ∈ u.nodes, (n.children.map fun c => c.label.1).Sublist done

theorem InOrder.step (h : InOrder done u) (hstep : buildStep moves u p = some v) : InOrder (done ++ [p]) v := by
  have hweak : ∀ n ∈ u.nodes, (n.children.map fun c => c.label.1).Sublist (done ++ [p]) := fun n hn =>
    (h n hn).trans (List.sublist_append_left _ _)
  unfold buildStep at hstep
  split at hstep
  · cases hstep
    exact hweak
  split at hstep
  · cases hstep
  cases hstep
  intro m hm
  have hlabel : ∀ node n : BuildNode, (BuildNode.append node n).label = n.label := fun _ _ => rfl
  have hmod : ∀ (q : Text × TrainingData → Bool) (node n : BuildNode), (Rose.modify q (BuildNode.append node) n).label = n.label :=
    fun q node n => Rose.label_modify (g := id) (fun n _ => hlabel node n) n
  rcases Rose.mem_nodes_modify hm with ⟨n, hn, -, rfl⟩ | ⟨n, hn, -, hm⟩
  · rw [Rose.children_node, List.map_map]
    simp only [Function.comp_def, hmod]
    exact hweak n hn
  · rcases Rose.mem_nodes.mp hm with rfl | ⟨c, hc, hm⟩
    · change ((n.children ++ [_]).map fun c : BuildNode => c.label.1).Sublist _
      rw [List.map_append]
      exact (h n hn).append (List.Sublist.refl _)
    · rcases List.mem_append.mp hc with hc | hc
      · exact hweak m (Rose.nodes_trans hm (Rose.nodes_trans (Rose.child_mem_nodes hc) hn))
      · -- the new node has no children
        rw [List.mem_singleton.mp hc] at hm
        rcases Rose.mem_nodes.mp hm with rfl | ⟨d, hd, -⟩
        · exact List.nil_sublist _
        · cases hd

theorem inOrder_buildNodes (h : buildNodes moves paths = some u) : InOrder paths u := by
  have hloop : ∀ {done : List Text} {t : BuildNode}, InOrder done t → paths.foldlM (buildStep moves) t = some u →
      InOrder (done ++ paths) u := by
    clear h
    induction paths with
    | nil =>
        intro done t ht h
        cases h
        rwa [List.append_nil]
    | cons p ps ih =>
        intro done t ht h
        rw [List.foldlM_cons] at h
        obtain ⟨t', hstep, h⟩ := Option.bind_eq_some_iff.mp h
        have := ih (ht.step hstep) h
        rwa [List.append_assoc, List.singleton_append] at this
  have hstart : InOrder [] (.node ([], moves.get []) []) := fun n hn => by
    rcases Rose.mem_nodes.mp hn with rfl | ⟨d, hd, -⟩
    · exact List.Sublist.refl _
    · cases hd
  exact hloop hstart h

/-! ## Trees whose siblings have ids of increasing length -/

/-- The ids of every node's children get longer, in bytes, from one child to the next. -/
inductive LengthOrdered : ChapterTreeNode → Prop
  | mk {data : TrainingData} {children : List ChapterTreeNode}
      (ordered : (children.map fun c => byteLen c.id).Pairwise (· < ·)) (below : ∀ c ∈ children, LengthOrdered c) :
      LengthOrdered (.mk data children)

def LengthOrderedNodes (u : BuildNode) : Prop :=
  ∀ n ∈ u.nodes, (n.children.map fun c => byteLen c.label.2.id).Pairwise (· < ·)

theorem lengthOrdered_iff (h : t.Keyed) (path : Text) : LengthOrdered t ↔ LengthOrderedNodes (located path t) := by
  induction h generalizing path with
  | @mk data children _ _ _ ih =>
      have hchildren : ((located path (.mk data children)).children.map fun c => byteLen c.label.2.id) =
          children.map fun c => byteLen c.id := by
        rw [located, locatedList_eq]
        simp [Function.comp_def]
      constructor
      · rintro ⟨ordered, below⟩ n hn
        rcases Rose.mem_nodes.mp hn with rfl | ⟨d, hd, hn⟩
        · rwa [hchildren]
        · rw [located, locatedList_eq] at hd
          obtain ⟨c, hc, rfl⟩ := List.mem_map.mp hd
          exact (ih c hc _).mp (below c hc) n hn
      · intro hn
        refine .mk (hchildren ▸ hn _ (Rose.self_mem_nodes _)) fun c hc => (ih c hc (path ++ c.id)).mpr fun n hmem => hn n ?_
        refine Rose.nodes_trans hmem (Rose.child_mem_nodes ?_)
        rw [located, locatedList_eq]
        exact List.mem_map_of_mem hc

theorem lengthOrdered_untrained (h : t.Keyed) : LengthOrdered t.untrained ↔ LengthOrdered t := by
  rw [lengthOrdered_iff (keyed_untrained h) [], lengthOrdered_iff h [], located_untrained h]
  unfold LengthOrderedNodes
  rw [Rose.nodes_map]
  simp only [List.mem_map, forall_exists_index, and_imp, forall_apply_eq_imp_iff₂]
  refine forall₂_congr fun n _ => ?_
  cases n with
  | node l cs =>
      rw [Rose.map, Rose.mapList_eq]
      simp [Function.comp_def, untrainedEntry]

/-- Where the lengths of the ids tell siblings apart, a tree built in the order of lengths is given by its labels. -/
theorem eq_of_lengthOrdered (hs : Spelling u) (hs' : Spelling v) (hd : (v.labels.map Prod.fst).Nodup)
    (hroot : u.label = v.label) (hp : u.labels.Perm v.labels) (hv : LengthOrderedNodes v)
    (hpaths : paths.Pairwise fun p q => byteLen p ≤ byteLen q) (hu : InOrder paths u) : u = v := by
  have hd' : (u.labels.map Prod.fst).Nodup := (hp.map Prod.fst).nodup_iff.mpr hd
  have hbelow : (Rose.labelsList u.children).Perm (Rose.labelsList v.children) := by
    rw [← Rose.eta u, ← Rose.eta v, Rose.labels_node, Rose.labels_node, hroot] at hp
    exact hp.cons_inv
  refine Rose.eq_of_children hroot fun n hn m hm he => ?_
  have hperm : (n.children.map Rose.label).Perm (m.children.map Rose.label) := by
    rw [List.perm_ext_iff_of_nodup (Rose.nodup_children_labels hd' hn) (Rose.nodup_children_labels hd hm)]
    intro l
    rw [Rose.Spelled.mem_children hs hd' hn, Rose.Spelled.mem_children hs' hd hm, hbelow.mem_iff, he]
  have hsorted : (n.children.map Rose.label).Pairwise fun a b => byteLen a.1 ≤ byteLen b.1 := by
    have := hpaths.sublist (hu n hn)
    rw [List.pairwise_map] at this ⊢
    exact this
  have hposted : (m.children.map Rose.label).Pairwise fun a b => byteLen a.1 < byteLen b.1 := by
    have := hv m hm
    rw [List.pairwise_map] at this ⊢
    refine this.imp_of_mem fun {c d} hc hd hlt => ?_
    have hc : c.label.1 = m.label.1 ++ c.label.2.id := hs' m hm c hc
    have hd : d.label.1 = m.label.1 ++ d.label.2.id := hs' m hm d hd
    rw [hc, hd, byteLen_append, byteLen_append]
    omega
  refine List.Perm.eq_of_pairwise (fun a b ha hb hab hba => ?_) hsorted (hposted.imp Nat.le_of_lt) hperm
  -- two children of one node with paths of one length are one child
  have hlens : ((m.children.map Rose.label).map fun l => byteLen l.1).Nodup :=
    List.pairwise_map.mpr (hposted.imp fun h => Nat.ne_of_lt h)
  exact List.inj_on_of_nodup_map hlens (hperm.mem_iff.mp ha) hb (Nat.le_antisymm hab hba)

/-! ## An order that puts one path first among those of its length -/

def preferKey (first p : Text) : Nat := 2 * byteLen p + if p = first then 0 else 1

def PathOrder.preferring (first : Text) : PathOrder where
  paths m := (m.rows.map Prod.fst).insertionSort fun p q => preferKey first p ≤ preferKey first q
  perm _ := List.perm_insertionSort _ _
  sorted m := by
    have : Std.Total fun p q : Text => preferKey first p ≤ preferKey first q := ⟨fun _ _ => Nat.le_total _ _⟩
    have : IsTrans Text fun p q => preferKey first p ≤ preferKey first q := ⟨fun _ _ _ => Nat.le_trans⟩
    refine (List.pairwise_insertionSort (fun p q => preferKey first p ≤ preferKey first q) _).imp fun {p q} h => ?_
    unfold preferKey at h
    split at h <;> split at h <;> omega

theorem pairwise_preferring (first : Text) (moves : PathMap) :
    ((PathOrder.preferring first).paths moves).Pairwise fun p q => preferKey first p ≤ preferKey first q :=
  have : Std.Total fun p q : Text => preferKey first p ≤ preferKey first q := ⟨fun _ _ => Nat.le_total _ _⟩
  have : IsTrans Text fun p q => preferKey first p ≤ preferKey first q := ⟨fun _ _ _ => Nat.le_trans⟩
  List.pairwise_insertionSort _ _

/-- A tree that every order builds has siblings of increasing length. -/
theorem lengthOrderedNodes_of_orders (moves : PathMap) (hs : Spelling v) (hd : (v.labels.map Prod.fst).Nodup)
    (h : ∀ order : PathOrder, InOrder (order.paths moves) v) : LengthOrderedNodes v := by
  intro n hn
  have hnodup : (n.children.map fun c => c.label.1).Nodup := by
    have := (Rose.nodup_of_mem_nodes hd hn)
    rw [← Rose.eta n, Rose.labels_node, List.map_cons, List.nodup_cons] at this
    have hsub := (Rose.map_label_sublist n.children).map Prod.fst
    rw [List.map_map] at hsub
    exact hsub.nodup this.2
  rw [List.pairwise_iff_getElem]
  intro i j hi hj hij
  simp only [List.length_map] at hi hj
  have hpath : ∀ c ∈ n.children, byteLen c.label.1 = byteLen n.label.1 + byteLen c.label.2.id := fun c hc => by
    have hspell : c.label.1 = n.label.1 ++ c.label.2.id := hs n hn c hc
    rw [hspell, byteLen_append]
  have hi' := hpath _ (List.getElem_mem hi)
  have hj' := hpath _ (List.getElem_mem hj)
  have hne : n.children[i].label.1 ≠ n.children[j].label.1 := by
    have := (List.pairwise_iff_getElem.mp hnodup) i j (by simpa) (by simpa) hij
    simpa using this
  -- the order that prefers the later of the two still has the earlier one first
  have hsorted := (pairwise_preferring n.children[j].label.1 moves).sublist (h (.preferring n.children[j].label.1) n hn)
  have hle := (List.pairwise_iff_getElem.mp hsorted) i j (by simpa) (by simpa) hij
  simp only [List.getElem_map, preferKey, if_true, if_neg hne] at hle ⊢
  omega

/-- What every order reads back is the posted tree, exactly when its siblings have ids of increasing length. -/
theorem reads_posted_iff {db db' : Db} {event : ChapterEvent} (hr : Referenced db) (hk : event.root.Keyed)
    (h : db.createChapter event = some (.ok db')) :
    (∀ order, db'.readChapterAsTree order event.chapterID =
        some (some ⟨event.chapterID, event.name, event.trainAs, event.root.untrained⟩)) ↔
      LengthOrdered event.root := by
  have hk' := keyed_untrained hk
  have hspell := spelling_located hk' []
  have hd := nodup_located hk' []
  rw [← lengthOrdered_untrained hk, lengthOrdered_iff hk' []]
  constructor
  · intro hread
    refine lengthOrderedNodes_of_orders
      (mergeCardsIntoMoves (db'.loadMoves event.chapterID) (db'.loadCards event.chapterID)) hspell hd fun order => ?_
    obtain ⟨u, hu, hs, hroot, -, hread'⟩ := readChapterAsTree_createChapter hr hk h order
    have hresp : u.response = event.root.untrained :=
      (ChapterTreeResponse.mk.inj (Option.some.inj (Option.some.inj (hread'.symm.trans (hread order))))).2.2.2
    have heq : u = located [] event.root.untrained := by
      rw [← located_response hs, hresp, hroot, fst_label_located]
    exact heq ▸ inOrder_buildNodes hu
  · intro hlen order
    obtain ⟨u, hu, hs, hroot, hp, hread⟩ := readChapterAsTree_createChapter hr hk h order
    have heq : u = located [] event.root.untrained :=
      eq_of_lengthOrdered hs hspell hd hroot hp hlen (order.sorted _) (inOrder_buildNodes hu)
    rw [hread, heq, response_located hk']

end Chessrepeat.Store
