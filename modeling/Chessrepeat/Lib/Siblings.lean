import Mathlib.Data.List.Forall2
import Chessrepeat.Lib.Rose

/-!
# Trees up to the order of siblings

A tree is given by its root and by the labels of every node's children. Where the labels spell the way to their
node, the set of labels says which labels those are.
-/

namespace Chessrepeat.Lib

theorem exists_of_mem_forall₂ {α β : Type*} {R : α → β → Prop} {xs : List α} {ys : List β} {y : β} (h : List.Forall₂ R xs ys)
    (hy : y ∈ ys) : ∃ x ∈ xs, R x y := by
  induction h with
  | nil => cases hy
  | cons hx _ ih =>
      rcases List.mem_cons.mp hy with rfl | hy
      · exact ⟨_, List.mem_cons_self, hx⟩
      · obtain ⟨x, hxs, hx⟩ := ih hy
        exact ⟨x, List.mem_cons_of_mem _ hxs, hx⟩

namespace Rose

variable {α β : Type*} {t u n : Rose α}

inductive Reordered : Rose α → Rose α → Prop
  | node {a : α} {cs ds es : List (Rose α)} (children : List.Forall₂ Reordered cs ds) (order : ds.Perm es) :
      Reordered (.node a cs) (.node a es)

/-- Trees that agree on the labels of every node's children, up to their order. -/
theorem reordered_of_children (h : t.label = u.label)
    (hc : ∀ n ∈ t.nodes, ∀ m ∈ u.nodes, n.label = m.label → (n.children.map label).Perm (m.children.map label)) :
    Reordered t u := by
  induction t using ind generalizing u with
  | h a cs ih =>
      cases u with
      | node b ds =>
          obtain rfl : a = b := h
          have hperm : (cs.map label).Perm (ds.map label) :=
            hc _ (self_mem_nodes _) _ (self_mem_nodes _) rfl
          obtain ⟨es, hes, hp⟩ := List.perm_comp_forall₂ hperm (r := fun l d => l = label d)
            (List.forall₂_map_left_iff.mpr (List.forall₂_same.mpr fun _ _ => rfl))
          rw [List.forall₂_map_left_iff, List.forall₂_iff_zip] at hes
          refine .node (List.forall₂_iff_zip.mpr ⟨hes.1, fun {c e} hce => ?_⟩) hp
          obtain ⟨hmem, hmem'⟩ := List.of_mem_zip hce
          refine ih c hmem (hes.2 hce) fun n hn m hm => hc n ?_ m ?_
          · exact nodes_trans hn (child_mem_nodes hmem)
          · exact nodes_trans hm (child_mem_nodes (hp.mem_iff.mp hmem'))

/-- Trees that agree on the labels of every node's children and their order. -/
theorem eq_of_children (h : t.label = u.label)
    (hc : ∀ n ∈ t.nodes, ∀ m ∈ u.nodes, n.label = m.label → n.children.map label = m.children.map label) : t = u := by
  induction t using ind generalizing u with
  | h a cs ih =>
      cases u with
      | node b ds =>
          obtain rfl : a = b := h
          have hmap : cs.map label = ds.map label := hc _ (self_mem_nodes _) _ (self_mem_nodes _) rfl
          have heq : cs = ds := by
            have hlen : cs.length = ds.length := by simpa using congrArg List.length hmap
            refine List.ext_getElem hlen fun i hi hi' => ?_
            refine ih _ (List.getElem_mem hi) ?_ fun n hn m hm => hc n ?_ m ?_
            · simpa [hi, hi'] using congrArg (fun ls => ls[i]?) hmap
            · exact nodes_trans hn (child_mem_nodes (List.getElem_mem hi))
            · exact nodes_trans hm (child_mem_nodes (List.getElem_mem hi'))
          rw [heq]

/-! ## The children named by the labels -/

/-- Every label below the root is the label of a child. -/
theorem exists_parent {a : α} (h : a ∈ labelsList t.children) : ∃ m ∈ t.nodes, ∃ c ∈ m.children, c.label = a :=
  (below_iff (p := fun a => ∃ m ∈ t.nodes, ∃ c ∈ m.children, c.label = a)).mpr
    (fun m hm c hc => ⟨m, hm, c, hc, rfl⟩) a h

theorem eq_of_label {g : α → β} (h : (t.labels.map g).Nodup) {m : Rose α} (hm : m ∈ t.nodes) (hn : n ∈ t.nodes)
    (he : g m.label = g n.label) : m = n := by
  rw [labels, List.map_map] at h
  exact List.inj_on_of_nodup_map h hm hn he

theorem child_mem_labelsList {c : Rose α} (hn : n ∈ t.nodes) (hc : c ∈ n.children) : c.label ∈ labelsList t.children :=
  below_iff.mp (fun _ h => h : Below (· ∈ labelsList t.children) t) n hn c hc

variable {key full : α → List β}

theorem Spelled.mem_children (h : Spelled key full t) (hd : (t.labels.map full).Nodup) (hn : n ∈ t.nodes) {a : α} :
    a ∈ n.children.map label ↔ a ∈ labelsList t.children ∧ full a = full n.label ++ key a := by
  constructor
  · rintro ha
    obtain ⟨c, hc, rfl⟩ := List.mem_map.mp ha
    exact ⟨child_mem_labelsList hn hc, h n hn c hc⟩
  · rintro ⟨ha, hfull⟩
    obtain ⟨m, hm, c, hc, rfl⟩ := exists_parent ha
    have hparent : full m.label = full n.label := List.append_cancel_right ((h m hm c hc).symm.trans hfull)
    rw [eq_of_label hd hm hn hparent] at hc
    exact List.mem_map_of_mem hc

theorem nodup_children_labels (hd : (t.labels.map full).Nodup) (hn : n ∈ t.nodes) : (n.children.map label).Nodup := by
  have hlabels := (nodup_of_mem_nodes hd hn).of_map
  rw [← eta n, labels_node, List.nodup_cons] at hlabels
  exact (map_label_sublist n.children).nodup hlabels.2

/-- Trees with the same root and the same labels are equal up to the order of siblings. -/
theorem Spelled.reordered (ht : Spelled key full t) (hu : Spelled key full u) (hd : (t.labels.map full).Nodup)
    (hroot : t.label = u.label) (hl : t.labels.Perm u.labels) : Reordered t u := by
  have hd' : (u.labels.map full).Nodup := (hl.map full).nodup_iff.mp hd
  have hbelow : (labelsList t.children).Perm (labelsList u.children) := by
    rw [← eta t, ← eta u, labels_node, labels_node, hroot] at hl
    exact hl.cons_inv
  refine reordered_of_children hroot fun n hn m hm he => ?_
  rw [List.perm_ext_iff_of_nodup (nodup_children_labels hd hn) (nodup_children_labels hd' hm)]
  intro a
  rw [ht.mem_children hd hn, hu.mem_children hd' hm, hbelow.mem_iff, he]

end Rose

end Chessrepeat.Lib
