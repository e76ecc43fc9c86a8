import Mathlib.Data.List.Nodup
import Mathlib.Data.List.Perm.Basic

/-!
# Rose trees addressed by the keys of their nodes

A node is reached from the root by the keys of the nodes below it. `at?` follows an address exactly,
`reach` follows it as far as it goes. An edit names its node by a property of the label, as a program
edits an object it holds a reference to; `at?_modify` says what the edit is when seen from the addresses.
-/

namespace Chessrepeat.Lib

inductive Rose (α : Type*) where
  | node (label : α) (children : List (Rose α))

namespace Rose

variable {α κ : Type*}

def label : Rose α → α
  | node a _ => a

def children : Rose α → List (Rose α)
  | node _ cs => cs

@[simp] theorem label_node (a : α) (cs : List (Rose α)) : (node a cs).label = a := rfl

@[simp] theorem children_node (a : α) (cs : List (Rose α)) : (node a cs).children = cs := rfl

theorem eta (t : Rose α) : node t.label t.children = t := by cases t; rfl

/-- Induction over a tree, with the hypothesis for every child. -/
@[elab_as_elim]
theorem ind {motive : Rose α → Prop} (h : ∀ a cs, (∀ c ∈ cs, motive c) → motive (node a cs)) (t : Rose α) :
    motive t :=
  @Rose.rec α motive (fun cs => ∀ c ∈ cs, motive c) h (fun _ hc => by cases hc)
    (fun _ _ hc hcs _ hd => (List.mem_cons.mp hd).elim (fun he => he ▸ hc) (hcs _)) t

/-! ## Nodes -/

mutual
/-- The nodes of a tree, each given by its subtree, in the order a depth-first walk meets them. -/
def nodes : Rose α → List (Rose α)
  | node a cs => node a cs :: nodesList cs

def nodesList : List (Rose α) → List (Rose α)
  | [] => []
  | c :: cs => nodes c ++ nodesList cs
end

theorem mem_nodesList {n : Rose α} {cs : List (Rose α)} : n ∈ nodesList cs ↔ ∃ c ∈ cs, n ∈ c.nodes := by
  induction cs with
  | nil => simp [nodesList]
  | cons c cs ih => simp [nodesList, ih]

theorem mem_nodes {n t : Rose α} : n ∈ t.nodes ↔ n = t ∨ ∃ c ∈ t.children, n ∈ c.nodes := by
  cases t with
  | node a cs => simp [nodes, mem_nodesList]

theorem self_mem_nodes (t : Rose α) : t ∈ t.nodes := mem_nodes.mpr (Or.inl rfl)

theorem child_mem_nodes {c t : Rose α} (h : c ∈ t.children) : c ∈ t.nodes :=
  mem_nodes.mpr (Or.inr ⟨c, h, self_mem_nodes c⟩)

theorem nodes_trans {m n t : Rose α} (hm : m ∈ n.nodes) (hn : n ∈ t.nodes) : m ∈ t.nodes := by
  induction t using ind with
  | h a cs ih =>
      rcases mem_nodes.mp hn with rfl | ⟨c, hc, hn⟩
      · exact hm
      · exact mem_nodes.mpr (Or.inr ⟨c, hc, ih c hc hn⟩)

/-- The labels of a tree, one for each node. -/
def labels (t : Rose α) : List α := t.nodes.map label

def labelsList (cs : List (Rose α)) : List α := (nodesList cs).map label

@[simp] theorem labels_node (a : α) (cs : List (Rose α)) : (node a cs).labels = a :: labelsList cs := rfl

@[simp] theorem labelsList_nil : labelsList ([] : List (Rose α)) = [] := rfl

@[simp] theorem labelsList_cons (c : Rose α) (cs : List (Rose α)) :
    labelsList (c :: cs) = c.labels ++ labelsList cs := by
  simp [labelsList, labels, nodesList]

theorem labelsList_append (cs ds : List (Rose α)) : labelsList (cs ++ ds) = labelsList cs ++ labelsList ds := by
  induction cs with
  | nil => rfl
  | cons c cs ih => simp [ih]

theorem mem_labels {a : α} {t : Rose α} : a ∈ t.labels ↔ ∃ n ∈ t.nodes, n.label = a := by
  simp [labels]

theorem mem_labelsList {a : α} {cs : List (Rose α)} : a ∈ labelsList cs ↔ ∃ c ∈ cs, a ∈ c.labels := by
  induction cs with
  | nil => simp
  | cons c cs ih => simp [ih]

theorem label_mem_labels (t : Rose α) : t.label ∈ t.labels := mem_labels.mpr ⟨t, self_mem_nodes t, rfl⟩

/-- Every label below the root. -/
def Below (p : α → Prop) (t : Rose α) : Prop := ∀ a ∈ labelsList t.children, p a

theorem Below.label {p : α → Prop} {t c : Rose α} (h : Below p t) (hc : c ∈ t.children) : p c.label :=
  h _ (mem_labelsList.mpr ⟨c, hc, label_mem_labels c⟩)

theorem Below.child {p : α → Prop} {t c : Rose α} (h : Below p t) (hc : c ∈ t.children) : Below p c := by
  intro a ha
  refine h a (mem_labelsList.mpr ⟨c, hc, ?_⟩)
  rw [← eta c, labels_node]
  exact List.mem_cons_of_mem _ ha

theorem Below.node {p : α → Prop} {t n : Rose α} (h : Below p t) (hn : n ∈ t.nodes) : Below p n := by
  induction t using ind with
  | h a cs ih =>
      rcases mem_nodes.mp hn with rfl | ⟨c, hc, hn⟩
      · exact h
      · exact ih c hc (h.child hc) hn

theorem below_iff {p : α → Prop} {t : Rose α} : Below p t ↔ ∀ n ∈ t.nodes, ∀ c ∈ n.children, p c.label := by
  constructor
  · exact fun h n hn c hc => (h.node hn).label hc
  · intro h
    induction t using ind with
    | h a cs ih =>
        intro b hb
        obtain ⟨c, hc, hb⟩ := mem_labelsList.mp hb
        have hbelow : Below p c := ih c hc fun n hn => h n (mem_nodes.mpr (Or.inr ⟨c, hc, hn⟩))
        rw [← eta c, labels_node] at hb
        rcases List.mem_cons.mp hb with rfl | hb
        · exact h _ (self_mem_nodes _) c hc
        · exact hbelow b hb

/-! ## Places -/

/-- The node at a place, which says at each step how many siblings of the next node come before it. -/
def get? : Rose α → List Nat → Option (Rose α)
  | t, [] => some t
  | t, i :: place => t.children[i]?.bind fun c => c.get? place

theorem get?_cons {t n : Rose α} {i : Nat} {place : List Nat} :
    t.get? (i :: place) = some n ↔ ∃ c, t.children[i]? = some c ∧ c.get? place = some n := Option.bind_eq_some_iff

theorem get?_mem_nodes {t n : Rose α} {place : List Nat} (h : t.get? place = some n) : n ∈ t.nodes := by
  induction place generalizing t with
  | nil => cases h; exact self_mem_nodes _
  | cons i place ih =>
      obtain ⟨c, hc, hn⟩ := get?_cons.mp h
      exact nodes_trans (ih hn) (child_mem_nodes (List.mem_of_getElem? hc))

/-! ## Labels that name their node -/

section Unique

variable {β : Type*} {g : α → β}

theorem nodup_child {t c : Rose α} (h : (t.labels.map g).Nodup) (hc : c ∈ t.children) :
    (c.labels.map g).Nodup := by
  cases t with
  | node a cs =>
      rw [labels_node, List.map_cons, List.nodup_cons] at h
      refine ((List.Sublist.map g ?_).nodup h.2)
      rw [children_node] at hc
      clear h
      induction cs with
      | nil => cases hc
      | cons d cs ih =>
          rw [labelsList_cons]
          rcases List.mem_cons.mp hc with rfl | hc
          · exact List.sublist_append_left _ _
          · exact (ih hc).trans (List.sublist_append_right _ _)

theorem ne_of_below {t c n : Rose α} (h : (t.labels.map g).Nodup) (hc : c ∈ t.children) (hn : n ∈ c.nodes) :
    g t.label ≠ g n.label := by
  cases t with
  | node a cs =>
      rw [labels_node, List.map_cons, List.nodup_cons] at h
      intro he
      exact h.1 (List.mem_map.mpr ⟨n.label, mem_labelsList.mpr ⟨c, hc, mem_labels.mpr ⟨n, hn, rfl⟩⟩, he.symm⟩)

/-- Two children that share a value of `g` are the same child. -/
theorem eq_of_shared {t c d m n : Rose α} (h : (t.labels.map g).Nodup) (hc : c ∈ t.children)
    (hd : d ∈ t.children) (hm : m ∈ c.nodes) (hn : n ∈ d.nodes) (he : g m.label = g n.label) : c = d := by
  cases t with
  | node a cs =>
      rw [labels_node, List.map_cons, List.nodup_cons] at h
      rw [children_node] at hc hd
      have hcs := h.2
      have hmem : ∀ {x y : Rose α} {ds : List (Rose α)}, x ∈ ds → y ∈ x.nodes →
          g y.label ∈ (labelsList ds).map g := fun hx hy =>
        List.mem_map.mpr ⟨_, mem_labelsList.mpr ⟨_, hx, mem_labels.mpr ⟨_, hy, rfl⟩⟩, rfl⟩
      have hmem' : ∀ {x y : Rose α}, y ∈ x.nodes → g y.label ∈ x.labels.map g := fun hy =>
        List.mem_map.mpr ⟨_, mem_labels.mpr ⟨_, hy, rfl⟩, rfl⟩
      clear h
      induction cs with
      | nil => cases hc
      | cons e cs ih =>
          rw [labelsList_cons, List.map_append, List.nodup_append] at hcs
          obtain ⟨-, hrest, hdisj⟩ := hcs
          rcases List.mem_cons.mp hc with rfl | hc' <;> rcases List.mem_cons.mp hd with rfl | hd'
          · rfl
          · exact absurd he (hdisj _ (hmem' hm) _ (hmem hd' hn))
          · exact absurd he.symm (hdisj _ (hmem' hn) _ (hmem hc' hm))
          · exact ih hc' hd' hrest

end Unique

/-- Two nodes with one value of `g` are one node. -/
theorem eq_of_map_eq {β : Type*} {g : α → β} {ts : List (Rose α)} (h : ((labelsList ts).map g).Nodup)
    {m n : Rose α} (hm : m ∈ nodesList ts) (hn : n ∈ nodesList ts) (he : g m.label = g n.label) : m = n := by
  rw [labelsList, List.map_map] at h
  exact List.inj_on_of_nodup_map h hm hn he

/-! ## Editing the nodes with a property -/

mutual
/-- Put `f n` in the place of every topmost node `n` whose label satisfies `p`. -/
def modify (p : α → Bool) (f : Rose α → Rose α) : Rose α → Rose α
  | node a cs => if p a then f (node a cs) else node a (modifyList p f cs)

def modifyList (p : α → Bool) (f : Rose α → Rose α) : List (Rose α) → List (Rose α)
  | [] => []
  | c :: cs => modify p f c :: modifyList p f cs
end

theorem modifyList_eq (p : α → Bool) (f : Rose α → Rose α) (cs : List (Rose α)) :
    modifyList p f cs = cs.map (modify p f) := by
  induction cs with
  | nil => rfl
  | cons c cs ih => simp [modifyList, ih]

theorem modify_of_pos {p : α → Bool} {f : Rose α → Rose α} {t : Rose α} (h : p t.label = true) :
    modify p f t = f t := by
  cases t with
  | node a cs => rw [label_node] at h; rw [modify, if_pos h]

theorem modify_of_neg {p : α → Bool} {f : Rose α → Rose α} {t : Rose α} (h : p t.label = false) :
    modify p f t = node t.label (t.children.map (modify p f)) := by
  cases t with
  | node a cs => rw [label_node] at h; simp [modify, h, modifyList_eq]

theorem label_modify {g : α → κ} {p : α → Bool} {f : Rose α → Rose α}
    (hf : ∀ n, p n.label = true → g (f n).label = g n.label) (t : Rose α) :
    g (modify p f t).label = g t.label := by
  cases hp : p t.label with
  | true => rw [modify_of_pos hp, hf t hp]
  | false => rw [modify_of_neg hp, label_node]

/-- A tree without such a node stays as it is. -/
theorem modify_of_none {p : α → Bool} {f : Rose α → Rose α} {t : Rose α}
    (h : ∀ a ∈ t.labels, p a = false) : modify p f t = t := by
  induction t using ind with
  | h a cs ih =>
      have hcs : cs.map (modify p f) = cs := calc
        cs.map (modify p f) = cs.map id := List.map_congr_left fun c hc => ih c hc fun b hb =>
          h b (List.mem_cons_of_mem _ (mem_labelsList.mpr ⟨c, hc, hb⟩))
        _ = cs := List.map_id cs
      rw [modify_of_neg (h _ (label_mem_labels _))]
      simp [hcs]

theorem modifyList_of_none {p : α → Bool} {f : Rose α → Rose α} {cs : List (Rose α)}
    (h : ∀ a ∈ labelsList cs, p a = false) : modifyList p f cs = cs := by
  rw [modifyList_eq]
  conv_rhs => rw [← List.map_id cs]
  exact List.map_congr_left fun c hc => modify_of_none fun a ha => h a (mem_labelsList.mpr ⟨c, hc, ha⟩)

/-- An edit of a single node `n` leaves the tree as it is if and only if it leaves `n` as it is. -/
theorem modify_eq_self {p : α → Bool} {f : Rose α → Rose α} {t n : Rose α}
    (hu : ∀ m ∈ t.nodes, p m.label = true → m = n) (hn : n ∈ t.nodes) (hp : p n.label = true) :
    modify p f t = t ↔ f n = n := by
  induction t using ind with
  | h a cs ih =>
      cases ha : p a with
      | true =>
          rw [modify_of_pos ha, hu _ (self_mem_nodes _) ha]
      | false =>
          have hne : n ≠ node a cs := fun he => by rw [he, label_node, ha] at hp; cases hp
          obtain ⟨c, hc, hn⟩ := (mem_nodes.mp hn).resolve_left hne
          rw [children_node] at hc
          have hsub : ∀ d ∈ cs, ∀ m ∈ d.nodes, p m.label = true → m = n := fun d hd m hm =>
            hu m (mem_nodes.mpr (Or.inr ⟨d, hd, hm⟩))
          rw [modify_of_neg ha, label_node, children_node]
          constructor
          · intro h
            have hcs : cs.map (modify p f) = cs.map id := by
              rw [List.map_id]; exact (node.inj h).2
            exact (ih c hc (hsub c hc) hn).mp (List.map_inj_left.mp hcs c hc)
          · intro h
            congr 1
            conv_rhs => rw [← List.map_id cs]
            refine List.map_congr_left fun d hd => ?_
            by_cases hd' : n ∈ d.nodes
            · exact (ih d hd (hsub d hd) hd').mpr h
            · refine modify_of_none fun b hb => ?_
              obtain ⟨m, hm, rfl⟩ := mem_labels.mp hb
              cases hpm : p m.label with
              | false => rfl
              | true => exact absurd (hsub d hd m hm hpm ▸ hm) hd'

/-- A node of the edited tree is an old node with its children edited, or lies in an edited node. -/
theorem mem_nodes_modify {p : α → Bool} {f : Rose α → Rose α} {t m : Rose α} (h : m ∈ (modify p f t).nodes) :
    (∃ n ∈ t.nodes, p n.label = false ∧ m = node n.label (n.children.map (modify p f))) ∨
      ∃ n ∈ t.nodes, p n.label = true ∧ m ∈ (f n).nodes := by
  induction t using ind with
  | h a cs ih =>
      cases hp : p a with
      | true =>
          rw [modify_of_pos hp] at h
          exact Or.inr ⟨_, self_mem_nodes _, hp, h⟩
      | false =>
          rw [modify_of_neg hp] at h
          rcases mem_nodes.mp h with rfl | ⟨c', hc', hm⟩
          · exact Or.inl ⟨_, self_mem_nodes _, hp, rfl⟩
          · obtain ⟨c, hc, rfl⟩ := List.mem_map.mp hc'
            have up : ∀ {n}, n ∈ c.nodes → n ∈ (node a cs).nodes := fun hn =>
              mem_nodes.mpr (Or.inr ⟨c, hc, hn⟩)
            rcases ih c hc hm with ⟨n, hn, hpn, he⟩ | ⟨n, hn, hpn, he⟩
            · exact Or.inl ⟨n, up hn, hpn, he⟩
            · exact Or.inr ⟨n, up hn, hpn, he⟩

theorem Below.modify {q : α → Prop} {p : α → Bool} {f : Rose α → Rose α} {t : Rose α}
    (hl : ∀ n, p n.label = true → q n.label → q (f n).label) (hf : ∀ n, Below q n → Below q (f n)) (h : Below q t) :
    Below q (modify p f t) := by
  rw [below_iff]
  intro m hm c hc
  rcases mem_nodes_modify hm with ⟨n, hn, -, rfl⟩ | ⟨n, hn, -, hm⟩
  · obtain ⟨d, hd, rfl⟩ := List.mem_map.mp hc
    have hlabel : q d.label := (h.node hn).label hd
    cases hp : p d.label with
    | true =>
        rw [modify_of_pos hp]
        exact hl d hp hlabel
    | false => rwa [modify_of_neg hp]
  · exact ((hf n (h.node hn)).node hm).label hc

/-- An edit of labels, of which none lies below another, leaves every node in its place. -/
theorem get?_relabel {p : α → Bool} {u : α → α} {t : Rose α} {place : List Nat}
    (hp : ∀ n ∈ t.nodes, p n.label = true → Below (fun a => p a = false) n) :
    ((modify p (fun n => node (u n.label) n.children) t).get? place).map label =
      (t.get? place).map fun n => if p n.label then u n.label else n.label := by
  induction place generalizing t with
  | nil =>
      cases h : p t.label with
      | true => simp only [get?, modify_of_pos h, Option.map_some, label_node, h, if_true]
      | false => simp only [get?, modify_of_neg h, Option.map_some, label_node, h, Bool.false_eq_true, if_false]
  | cons i place ih =>
      cases h : p t.label with
      | true =>
          rw [modify_of_pos h]
          refine Option.map_congr fun n hn => ?_
          obtain ⟨c, hc, hn⟩ := get?_cons.mp hn
          have hlabel : p n.label = false := hp t (self_mem_nodes t) h _
            (mem_labelsList.mpr ⟨c, List.mem_of_getElem? hc, mem_labels.mpr ⟨n, get?_mem_nodes hn, rfl⟩⟩)
          rw [hlabel]
          rfl
      | false =>
          rw [modify_of_neg h, get?, get?, children_node, List.getElem?_map]
          cases hc : t.children[i]? with
          | none => rfl
          | some c => exact ih fun n hn => hp n (nodes_trans hn (child_mem_nodes (List.mem_of_getElem? hc)))

/-- A new last child leaves every other node in its place. -/
theorem get?_push {p : α → Bool} {d t n : Rose α} {place : List Nat} (h : t.get? place = some n) :
    ∃ n', (modify p (fun m => node m.label (m.children ++ [d])) t).get? place = some n' ∧ n'.label = n.label := by
  induction place generalizing t with
  | nil =>
      cases h
      refine ⟨_, rfl, label_modify (g := id) (fun m _ => ?_) n⟩
      rfl
  | cons i place ih =>
      obtain ⟨c, hc, hn⟩ := get?_cons.mp h
      cases hp : p t.label with
      | true =>
          rw [modify_of_pos hp]
          refine ⟨n, get?_cons.mpr ⟨c, ?_, hn⟩, rfl⟩
          rw [children_node, List.getElem?_append_left (List.getElem?_eq_some_iff.mp hc).1]
          exact hc
      | false =>
          rw [modify_of_neg hp]
          obtain ⟨n', hn', hlabel⟩ := ih hn
          refine ⟨n', get?_cons.mpr ⟨_, ?_, hn'⟩, hlabel⟩
          rw [children_node, List.getElem?_map, hc]
          rfl

/-- After such an edit a place has its old node or the new child, if that is a leaf. -/
theorem of_get?_push {p : α → Bool} {a : α} {t n' : Rose α} {place : List Nat}
    (h : (modify p (fun m => node m.label (m.children ++ [node a []])) t).get? place = some n') :
    (∃ n, t.get? place = some n ∧ n'.label = n.label) ∨ n' = node a [] := by
  induction place generalizing t with
  | nil =>
      cases h
      refine Or.inl ⟨t, rfl, label_modify (g := id) (fun m _ => ?_) t⟩
      rfl
  | cons i place ih =>
      obtain ⟨c', hc', hn⟩ := get?_cons.mp h
      cases hp : p t.label with
      | true =>
          rw [modify_of_pos hp, children_node] at hc'
          rw [List.getElem?_append] at hc'
          split at hc'
          · exact Or.inl ⟨n', get?_cons.mpr ⟨c', hc', hn⟩, rfl⟩
          · obtain rfl : c' = node a [] := List.mem_singleton.mp (List.mem_of_getElem? hc')
            cases place with
            | nil => exact Or.inr (Option.some.inj hn).symm
            | cons j place => cases hn
      | false =>
          rw [modify_of_neg hp, children_node, List.getElem?_map] at hc'
          obtain ⟨c, hc, rfl⟩ := Option.map_eq_some_iff.mp hc'
          exact (ih hn).imp_left fun ⟨n, hn, hlabel⟩ => ⟨n, get?_cons.mpr ⟨c, hc, hn⟩, hlabel⟩

mutual
/-- An edit that makes no new values of `g` below the edited nodes makes none in the tree. -/
theorem map_labels_modify_sublist {β : Type*} {g : α → β} {p : α → Bool} {f : Rose α → Rose α}
    (hf : ∀ n, p n.label = true → ((f n).labels.map g).Sublist (n.labels.map g)) :
    (t : Rose α) → ((modify p f t).labels.map g).Sublist (t.labels.map g)
  | node a cs => by
      rw [modify]
      split
      · exact hf _ ‹_›
      · exact (map_labelsList_modify_sublist hf cs).cons_cons (g a)

theorem map_labelsList_modify_sublist {β : Type*} {g : α → β} {p : α → Bool} {f : Rose α → Rose α}
    (hf : ∀ n, p n.label = true → ((f n).labels.map g).Sublist (n.labels.map g)) :
    (cs : List (Rose α)) → ((labelsList (modifyList p f cs)).map g).Sublist ((labelsList cs).map g)
  | [] => List.Sublist.refl _
  | c :: cs => by
      rw [modifyList, labelsList_cons, labelsList_cons, List.map_append, List.map_append]
      exact (map_labels_modify_sublist hf c).append (map_labelsList_modify_sublist hf cs)
end

mutual
/-- An edit of exactly one node that puts the labels `new` for the labels `old` there does so in the tree. -/
theorem labels_modify_exchange {p : α → Bool} {f : Rose α → Rose α} {old new : List α} :
    (t : Rose α) → (∀ n ∈ t.nodes, p n.label = true → ((f n).labels ++ old).Perm (new ++ n.labels)) →
      t.labels.countP p = 1 → ((modify p f t).labels ++ old).Perm (new ++ t.labels)
  | node a cs, hf, h => by
      rw [modify]
      split
      · exact hf _ (self_mem_nodes _) ‹_›
      · rename_i hp
        rw [labels_node, List.countP_cons_of_neg (by simpa using hp)] at h
        have hcs : ∀ n ∈ nodesList cs, p n.label = true → ((f n).labels ++ old).Perm (new ++ n.labels) :=
          fun n hn => hf n (List.mem_cons_of_mem _ hn)
        rw [labels_node, labels_node, List.cons_append]
        exact ((labelsList_modify_exchange cs hcs h).cons a).trans List.perm_middle.symm

theorem labelsList_modify_exchange {p : α → Bool} {f : Rose α → Rose α} {old new : List α} :
    (cs : List (Rose α)) → (∀ n ∈ nodesList cs, p n.label = true → ((f n).labels ++ old).Perm (new ++ n.labels)) →
      (labelsList cs).countP p = 1 → (labelsList (modifyList p f cs) ++ old).Perm (new ++ labelsList cs)
  | [], _, h => by simp at h
  | c :: cs, hf, h => by
      rw [labelsList_cons, List.countP_append] at h
      rw [modifyList, labelsList_cons, labelsList_cons]
      by_cases hc : c.labels.countP p = 0
      · have hn : ∀ a ∈ c.labels, p a = false := by
          simpa [List.countP_eq_zero] using hc
        have ih : (labelsList (modifyList p f cs) ++ old).Perm (new ++ labelsList cs) :=
          labelsList_modify_exchange cs (fun n hn => hf n (List.mem_append_right _ hn)) (by omega)
        rw [modify_of_none hn, List.append_assoc]
        have h2 : (c.labels ++ (new ++ labelsList cs)).Perm (new ++ (c.labels ++ labelsList cs)) := by
          rw [← List.append_assoc, ← List.append_assoc]
          exact List.perm_append_comm.append_right _
        exact (ih.append_left _).trans h2
      · have hn : ∀ a ∈ labelsList cs, p a = false := by
          simpa [List.countP_eq_zero] using (show (labelsList cs).countP p = 0 by omega)
        have ih : ((modify p f c).labels ++ old).Perm (new ++ c.labels) :=
          labels_modify_exchange c (fun n hn => hf n (List.mem_append_left _ hn)) (by omega)
        rw [modifyList_of_none hn, ← List.append_assoc]
        have h1 : ((modify p f c).labels ++ labelsList cs ++ old).Perm ((modify p f c).labels ++ old ++ labelsList cs) := by
          rw [List.append_assoc, List.append_assoc]
          exact List.perm_append_comm.append_left _
        exact h1.trans (ih.append_right _)
end

/-- An edit of exactly one node that adds the labels `new` there adds them to the tree. -/
theorem labels_modify_perm {p : α → Bool} {f : Rose α → Rose α} {new : List α}
    (hf : ∀ n, p n.label = true → (f n).labels.Perm (new ++ n.labels)) (t : Rose α) (h : t.labels.countP p = 1) :
    (modify p f t).labels.Perm (new ++ t.labels) := by
  have hx := @labels_modify_exchange _ p f [] new t (fun n _ hp => by rw [List.append_nil]; exact hf n hp) h
  rwa [List.append_nil] at hx

theorem labelsList_modify_perm {p : α → Bool} {f : Rose α → Rose α} {new : List α}
    (hf : ∀ n, p n.label = true → (f n).labels.Perm (new ++ n.labels)) (cs : List (Rose α))
    (h : (labelsList cs).countP p = 1) : (labelsList (modifyList p f cs)).Perm (new ++ labelsList cs) := by
  have hx := @labelsList_modify_exchange _ p f [] new cs (fun n _ hp => by rw [List.append_nil]; exact hf n hp) h
  rwa [List.append_nil] at hx

/-- How an edit of exactly one node changes the number of labels with a property. -/
theorem countP_modify {p : α → Bool} {f : Rose α → Rose α} {t n : Rose α} (h : t.labels.countP p = 1)
    (hu : ∀ m ∈ t.nodes, p m.label = true → m = n) (q : α → Bool) :
    (modify p f t).labels.countP q + n.labels.countP q = (f n).labels.countP q + t.labels.countP q := by
  have hx := @labels_modify_exchange _ p f n.labels (f n).labels t (fun m hm hp => by rw [hu m hm hp]) h
  simpa only [List.countP_append] using hx.countP_eq q

/-! ## Addresses -/

section Addresses

variable (key : α → κ)

/-- The children of every node have distinct keys. -/
def Distinct (t : Rose α) : Prop := ∀ n ∈ t.nodes, (n.children.map (fun c => key c.label)).Nodup

mutual
/-- The addresses of all nodes of a tree. -/
def addresses : Rose α → List (List κ)
  | node _ cs => [] :: addressesList cs

def addressesList : List (Rose α) → List (List κ)
  | [] => []
  | c :: cs => (addresses c).map (key c.label :: ·) ++ addressesList cs
end

variable {key}

mutual
theorem length_addresses : (t : Rose α) → (addresses key t).length = t.labels.length
  | node a cs => by rw [addresses, labels_node, List.length_cons, List.length_cons, length_addressesList cs]

theorem length_addressesList : (cs : List (Rose α)) → (addressesList key cs).length = (labelsList cs).length
  | [] => rfl
  | c :: cs => by
      rw [addressesList, labelsList_cons, List.length_append, List.length_append, List.length_map, length_addresses c,
        length_addressesList cs]
end

theorem Distinct.sub {t n : Rose α} (h : Distinct key t) (hn : n ∈ t.nodes) : Distinct key n :=
  fun m hm => h m (nodes_trans hm hn)

theorem mem_addressesList {cs : List (Rose α)} {ks : List κ} : ks ∈ addressesList key cs ↔
    ∃ c ∈ cs, ∃ ls ∈ addresses key c, ks = key c.label :: ls := by
  induction cs with
  | nil => simp [addressesList]
  | cons c cs ih => simp [addressesList, ih, eq_comm]

theorem mem_addresses {t : Rose α} {ks : List κ} : ks ∈ addresses key t ↔
    ks = [] ∨ ∃ c ∈ t.children, ∃ ls ∈ addresses key c, ks = key c.label :: ls := by
  cases t with
  | node a cs => rw [addresses, List.mem_cons, children_node, mem_addressesList]

theorem Below.addresses {q : κ → Prop} {t : Rose α} {ks : List κ} (h : Below (fun a => q (key a)) t)
    (hk : ks ∈ addresses key t) : ∀ k ∈ ks, q k := by
  induction t using ind generalizing ks with
  | h a cs ih =>
      rcases mem_addresses.mp hk with rfl | ⟨c, hc, ls, hls, rfl⟩
      · simp
      · intro k hk'
        rcases List.mem_cons.mp hk' with rfl | hk'
        · exact h.label hc
        · exact ih c hc (h.child hc) hls k hk'

theorem nodup_addressesList {cs : List (Rose α)} (hk : (cs.map (fun c => key c.label)).Nodup)
    (hn : ∀ c ∈ cs, (addresses key c).Nodup) : (addressesList key cs).Nodup := by
  induction cs with
  | nil => exact List.nodup_nil
  | cons c cs ih =>
      rw [List.map_cons, List.nodup_cons] at hk
      rw [addressesList, List.nodup_append]
      refine ⟨(hn c List.mem_cons_self).map List.cons_injective,
        ih hk.2 fun d hd => hn d (List.mem_cons_of_mem _ hd), ?_⟩
      rintro ks hks ls hls rfl
      obtain ⟨ks', -, rfl⟩ := List.mem_map.mp hks
      obtain ⟨d, hd, ls', -, he⟩ := mem_addressesList.mp hls
      exact hk.1 (List.mem_map.mpr ⟨d, hd, (List.cons.inj he).1.symm⟩)

theorem Distinct.modify {p : α → Bool} {f : Rose α → Rose α} {t : Rose α}
    (hf : ∀ n, p n.label = true → key (f n).label = key n.label)
    (hd : ∀ n ∈ t.nodes, p n.label = true → Distinct key n → Distinct key (f n)) (h : Distinct key t) :
    Distinct key (modify p f t) := by
  intro m hm
  rcases mem_nodes_modify hm with ⟨n, hn, -, rfl⟩ | ⟨n, hn, hp, hm⟩
  · have hkeys : ((n.children.map (Rose.modify p f)).map fun c => key c.label) =
        n.children.map fun c => key c.label := by
      rw [List.map_map]
      exact List.map_congr_left fun c _ => label_modify hf c
    rw [children_node, hkeys]
    exact h n hn
  · exact hd n hn hp (h.sub hn) m hm

/-- With distinct keys no address occurs twice. -/
theorem Distinct.nodup_addresses {t : Rose α} (h : Distinct key t) : (addresses key t).Nodup := by
  induction t using ind with
  | h a cs ih =>
      rw [addresses, List.nodup_cons]
      refine ⟨fun hm => ?_, nodup_addressesList (h _ (self_mem_nodes _)) fun c hc =>
        ih c hc (h.sub (child_mem_nodes hc))⟩
      obtain ⟨_, _, _, _, he⟩ := mem_addressesList.mp hm
      cases he

variable [DecidableEq κ] (key)

/-- The first child with key `k`. -/
def child? (t : Rose α) (k : κ) : Option (Rose α) := t.children.find? (fun c => key c.label = k)

/-- The node at an address. -/
def at? : Rose α → List κ → Option (Rose α)
  | t, [] => some t
  | t, k :: ks => (child? key t k).bind (fun c => at? c ks)

/-- The last node on the way to an address. -/
def reach : Rose α → List κ → Rose α
  | t, [] => t
  | t, k :: ks => match child? key t k with
    | none => t
    | some c => reach c ks

/-- All nodes on the way to an address. -/
def chain : Rose α → List κ → List (Rose α)
  | t, [] => [t]
  | t, k :: ks => t :: match child? key t k with
    | none => []
    | some c => chain c ks

variable {key}

theorem child?_eq_some {t c : Rose α} {k : κ} (h : child? key t k = some c) :
    c ∈ t.children ∧ key c.label = k :=
  ⟨List.mem_of_find?_eq_some h, by simpa using List.find?_some h⟩

theorem Distinct.child?_key {t c : Rose α} (h : Distinct key t) (hc : c ∈ t.children) :
    child? key t (key c.label) = some c := by
  cases hf : child? key t (key c.label) with
  | none =>
      have := List.find?_eq_none.mp hf c hc
      simp at this
  | some d =>
      obtain ⟨hd, hk⟩ := child?_eq_some hf
      rw [List.inj_on_of_nodup_map (h t (self_mem_nodes t)) hd hc hk]

@[simp] theorem at?_nil (t : Rose α) : at? key t [] = some t := rfl

theorem at?_cons (t : Rose α) (k : κ) (ks : List κ) :
    at? key t (k :: ks) = (child? key t k).bind (fun c => at? key c ks) := rfl

theorem at?_append (t : Rose α) (ks ls : List κ) :
    at? key t (ks ++ ls) = (at? key t ks).bind (fun n => at? key n ls) := by
  induction ks generalizing t with
  | nil => rfl
  | cons k ks ih => simp only [List.cons_append, at?_cons, ih, Option.bind_assoc]

theorem at?_mem_nodes {t n : Rose α} {ks : List κ} (h : at? key t ks = some n) : n ∈ t.nodes := by
  induction ks generalizing t with
  | nil => cases h; exact self_mem_nodes _
  | cons k ks ih =>
      obtain ⟨c, hc, hn⟩ := Option.bind_eq_some_iff.mp h
      exact nodes_trans (ih hn) (child_mem_nodes (child?_eq_some hc).1)

/-- With distinct keys an address leads to every node. -/
theorem Distinct.exists_at? {t n : Rose α} (h : Distinct key t) (hn : n ∈ t.nodes) : ∃ ks, at? key t ks = some n := by
  induction t using ind with
  | h a cs ih =>
      rcases mem_nodes.mp hn with rfl | ⟨c, hc, hn⟩
      · exact ⟨[], rfl⟩
      · obtain ⟨ks, hks⟩ := ih c hc (h.sub (child_mem_nodes hc)) hn
        refine ⟨key c.label :: ks, ?_⟩
        rw [at?_cons, h.child?_key hc]
        exact hks

theorem Below.keys {q : κ → Prop} {t n : Rose α} {ks : List κ} (h : Below (fun a => q (key a)) t)
    (hn : at? key t ks = some n) : ∀ k ∈ ks, q k := by
  induction ks generalizing t with
  | nil => simp
  | cons k ks ih =>
      obtain ⟨c, hc, hn'⟩ := Option.bind_eq_some_iff.mp hn
      obtain ⟨hmem, rfl⟩ := child?_eq_some hc
      intro j hj
      rcases List.mem_cons.mp hj with rfl | hj
      · exact h.label hmem
      · exact ih (h.child hmem) hn' j hj

theorem reach_of_at? {t n : Rose α} {ks : List κ} (h : at? key t ks = some n) : reach key t ks = n := by
  induction ks generalizing t with
  | nil => exact Option.some.inj h
  | cons k ks ih =>
      obtain ⟨c, hc, hn⟩ := Option.bind_eq_some_iff.mp h
      rw [reach, hc]; exact ih hn

theorem reach_mem_nodes (t : Rose α) (ks : List κ) : reach key t ks ∈ t.nodes := by
  induction ks generalizing t with
  | nil => exact self_mem_nodes t
  | cons k ks ih =>
      cases hc : child? key t k with
      | none => simp only [reach, hc]; exact self_mem_nodes t
      | some c =>
          simp only [reach, hc]
          exact nodes_trans (ih c) (child_mem_nodes (child?_eq_some hc).1)

/-- The chain ends in the node `reach` returns. -/
theorem chain_getLast (t : Rose α) (ks : List κ) : (chain key t ks).getLast? = some (reach key t ks) := by
  induction ks generalizing t with
  | nil => rfl
  | cons k ks ih =>
      cases hc : child? key t k with
      | none => simp [chain, reach, hc]
      | some c => simp [chain, reach, hc, List.getLast?_cons, ih]

/-- A node found on the way is on the chain. -/
theorem mem_chain {t n : Rose α} {ls ks : List κ} (hp : ls <+: ks) (h : at? key t ls = some n) :
    n ∈ chain key t ks := by
  induction ls generalizing t ks with
  | nil =>
      cases h
      cases ks <;> simp [chain]
  | cons k ls ih =>
      obtain ⟨ks, rfl⟩ := hp
      obtain ⟨c, hc, hn⟩ := Option.bind_eq_some_iff.mp h
      simp only [List.cons_append, chain, hc]
      exact List.mem_cons_of_mem _ (ih (List.prefix_append _ _) hn)

/-- With distinct keys the addresses are those that lead to a node. -/
theorem Distinct.mem_addresses_iff {t : Rose α} (h : Distinct key t) {ks : List κ} :
    ks ∈ addresses key t ↔ (at? key t ks).isSome := by
  induction ks generalizing t with
  | nil => exact ⟨fun _ => rfl, fun _ => mem_addresses.mpr (Or.inl rfl)⟩
  | cons k ks ih =>
      rw [mem_addresses, at?_cons]
      constructor
      · rintro (h' | ⟨c, hc, ls, hls, he⟩)
        · cases h'
        · cases he
          rw [h.child?_key hc]
          change (at? key c ks).isSome
          exact (ih (h.sub (child_mem_nodes hc))).mp hls
      · intro h'
        obtain ⟨n, hn⟩ := Option.isSome_iff_exists.mp h'
        obtain ⟨c, hc', hn'⟩ := Option.bind_eq_some_iff.mp hn
        obtain ⟨hc, rfl⟩ := child?_eq_some hc'
        have hks : (at? key c ks).isSome := Option.isSome_iff_exists.mpr ⟨n, hn'⟩
        exact Or.inr ⟨c, hc, ks, (ih (h.sub (child_mem_nodes hc))).mpr hks, rfl⟩

/-- Nodes found under two addresses have different values of `g` when no two nodes share one. -/
theorem at?_inj {β : Type*} {g : α → β} {t m n : Rose α} {ps qs : List κ} (hg : (t.labels.map g).Nodup)
    (hm : at? key t ps = some m) (hn : at? key t qs = some n) (he : g m.label = g n.label) : ps = qs := by
  induction ps generalizing t qs with
  | nil =>
      cases qs with
      | nil => rfl
      | cons k qs =>
          cases hm
          obtain ⟨c, hc, hn'⟩ := Option.bind_eq_some_iff.mp hn
          exact absurd he (ne_of_below hg (child?_eq_some hc).1 (at?_mem_nodes hn'))
  | cons j ps ih =>
      obtain ⟨c, hc, hm'⟩ := Option.bind_eq_some_iff.mp hm
      cases qs with
      | nil =>
          cases hn
          exact absurd he.symm (ne_of_below hg (child?_eq_some hc).1 (at?_mem_nodes hm'))
      | cons k qs =>
          obtain ⟨d, hd, hn'⟩ := Option.bind_eq_some_iff.mp hn
          have hcd : c = d := eq_of_shared hg (child?_eq_some hc).1 (child?_eq_some hd).1
            (at?_mem_nodes hm') (at?_mem_nodes hn') he
          subst hcd
          have hjk : j = k := (child?_eq_some hc).2.symm.trans (child?_eq_some hd).2
          rw [hjk, ih (nodup_child hg (child?_eq_some hc).1) hm' hn']

/-! ## Edits seen from the addresses -/

theorem child?_map_modify {p : α → Bool} {f : Rose α → Rose α}
    (hf : ∀ n, p n.label = true → key (f n).label = key n.label) (a : α) (cs : List (Rose α)) (k : κ) :
    child? key (node a (cs.map (modify p f))) k = (child? key (node a cs) k).map (modify p f) := by
  have hpred : ((fun c : Rose α => decide (key c.label = k)) ∘ modify p f) =
      fun c : Rose α => decide (key c.label = k) := by
    funext c; simp only [Function.comp_apply, label_modify hf]
  rw [child?, child?, children_node, children_node, List.find?_map, hpred]

/-- An edit that takes no child away from the nodes on the way to `ks` leaves a node there. -/
theorem at?_modify_keep {β : Type*} {g : α → β} {p : α → Bool} {f : Rose α → Rose α}
    (hf : ∀ n, p n.label = true → key (f n).label = key n.label)
    (hg : ∀ n, p n.label = true → g (f n).label = g n.label) {t m : Rose α} {ks : List κ}
    (hm : at? key t ks = some m)
    (hc : ∀ ls k n c, ls ++ [k] <+: ks → at? key t ls = some n → p n.label = true → child? key n k = some c →
      child? key (f n) k = some c) :
    ∃ m', at? key (modify p f t) ks = some m' ∧ g m'.label = g m.label := by
  induction ks generalizing t with
  | nil =>
      cases hm
      exact ⟨_, rfl, label_modify hg _⟩
  | cons k ks ih =>
      obtain ⟨c, hk, hm'⟩ := Option.bind_eq_some_iff.mp hm
      cases hp : p t.label with
      | true =>
          have := hc [] k t c (by simp) rfl hp hk
          exact ⟨m, by rw [modify_of_pos hp, at?_cons, this]; exact hm', rfl⟩
      | false =>
          obtain ⟨m', h1, h2⟩ := ih hm' fun ls j n d hls hn => hc (k :: ls) j n d
            (by simpa using hls) (by rw [at?_cons, hk]; exact hn)
          refine ⟨m', ?_, h2⟩
          rw [modify_of_neg hp, at?_cons, child?_map_modify hf, eta, hk]
          exact h1

/-- Below a node the edit does not reach, the addresses lead to the edited nodes. -/
theorem at?_modify_of_none {p : α → Bool} {f : Rose α → Rose α}
    (hf : ∀ n, p n.label = true → key (f n).label = key n.label) {t : Rose α} {ks : List κ}
    (h : ∀ ls n, ls <+: ks → at? key t ls = some n → p n.label = false) :
    at? key (modify p f t) ks = (at? key t ks).map (modify p f) := by
  induction ks generalizing t with
  | nil => rfl
  | cons k ks ih =>
      have ht : p t.label = false := h [] t List.nil_prefix rfl
      rw [modify_of_neg ht, at?_cons, at?_cons, child?_map_modify hf, eta]
      cases hc : child? key t k with
      | none => rfl
      | some c =>
          exact ih fun ls n hls hn => h (k :: ls) n (List.cons_prefix_cons.mpr ⟨rfl, hls⟩) (by
            rw [at?_cons, hc]; exact hn)

/-- An edit of the one node at `ps`: an address through `ps` goes on in the edited node, any other leads
where it led before. -/
theorem at?_modify {p : α → Bool} {f : Rose α → Rose α}
    (hf : ∀ n, p n.label = true → key (f n).label = key n.label) {t n : Rose α} {ps : List κ}
    (hn : at? key t ps = some n) (hp : p n.label = true)
    (honly : ∀ qs m, at? key t qs = some m → p m.label = true → qs = ps) (ks : List κ) :
    at? key (modify p f t) ks =
      if ps <+: ks then at? key (f n) (ks.drop ps.length) else (at? key t ks).map (modify p f) := by
  induction ps generalizing t ks with
  | nil =>
      cases hn
      rw [if_pos List.nil_prefix, modify_of_pos hp]; rfl
  | cons k ps ih =>
      obtain ⟨c, hc, hn⟩ := Option.bind_eq_some_iff.mp hn
      have ht : p t.label = false := by
        cases hpt : p t.label with
        | false => rfl
        | true => exact absurd (honly [] t rfl hpt) (by simp)
      cases ks with
      | nil => rw [if_neg (by simp)]; rfl
      | cons j ks =>
          by_cases hjk : k = j
          · subst hjk
            have hon : ∀ qs m, at? key c qs = some m → p m.label = true → qs = ps := fun qs m hm hpm =>
              (List.cons.inj (honly (k :: qs) m (by rw [at?_cons, hc]; exact hm) hpm)).2
            rw [modify_of_neg ht, at?_cons, child?_map_modify hf, eta, hc, at?_cons, hc]
            simpa using ih hn hon ks
          · rw [if_neg (by simp [hjk])]
            refine at?_modify_of_none hf fun ls m hls hm => ?_
            cases hpm : p m.label with
            | false => rfl
            | true =>
                rw [honly ls m hm hpm] at hls
                exact absurd (List.cons_prefix_cons.mp hls).1 hjk

end Addresses

/-! ## Labels that spell the way to their node -/

section Spelled

variable {β : Type*} (key full : α → List β)

/-- The label of a child goes on where the label of its parent ends. -/
def Spelled (t : Rose α) : Prop := ∀ n ∈ t.nodes, ∀ c ∈ n.children, full c.label = full n.label ++ key c.label

variable {key full}

theorem Spelled.child {t c : Rose α} (h : Spelled key full t) (hc : c ∈ t.children) : Spelled key full c :=
  fun n hn => h n (nodes_trans hn (child_mem_nodes hc))

theorem map_addressesList {cs : List (Rose α)} {pre : List β} (hc : ∀ c ∈ cs, full c.label = pre ++ key c.label)
    (ih : ∀ c ∈ cs, (addresses key c).map (fun ks => full c.label ++ ks.flatten) = c.labels.map full) :
    (addressesList key cs).map (fun ks => pre ++ ks.flatten) = (labelsList cs).map full := by
  induction cs with
  | nil => rfl
  | cons c cs ihcs =>
      rw [addressesList, labelsList_cons, List.map_append, List.map_append, List.map_map,
        ihcs (fun d hd => hc d (List.mem_cons_of_mem _ hd)) fun d hd => ih d (List.mem_cons_of_mem _ hd),
        ← ih c List.mem_cons_self, hc c List.mem_cons_self]
      simp [Function.comp_def]

/-- The addresses are spelled by the labels. -/
theorem Spelled.map_addresses {t : Rose α} (h : Spelled key full t) :
    (addresses key t).map (fun ks => full t.label ++ ks.flatten) = t.labels.map full := by
  induction t using ind with
  | h a cs ih =>
      have hc : ∀ c ∈ cs, full c.label = full a ++ key c.label := h _ (self_mem_nodes _)
      rw [addresses, labels_node, label_node, List.map_cons, List.map_cons,
        map_addressesList hc fun c hc => ih c hc (h.child hc)]
      simp

theorem nodup_of_mem_nodes {g : α → κ} {t n : Rose α} (h : (t.labels.map g).Nodup) (hn : n ∈ t.nodes) :
    (n.labels.map g).Nodup := by
  induction t using ind with
  | h a cs ih =>
      rcases mem_nodes.mp hn with rfl | ⟨c, hc, hn⟩
      · exact h
      · exact ih c hc (nodup_child h hc) hn

theorem map_label_sublist (cs : List (Rose α)) : (cs.map label).Sublist (labelsList cs) := by
  induction cs with
  | nil => exact List.Sublist.refl _
  | cons c cs ih =>
      rw [List.map_cons, labelsList_cons, ← eta c, labels_node, label_node]
      exact (ih.trans (List.sublist_append_right _ _)).cons_cons c.label

/-- Where no two labels spell the same, no two children of a node have one key. -/
theorem Spelled.distinct {t : Rose α} (h : Spelled key full t) (hn : (t.labels.map full).Nodup) : Distinct key t := by
  intro n hmem
  have hnodup : (n.children.map fun c => full c.label).Nodup := by
    have hlabels := nodup_of_mem_nodes hn hmem
    rw [← eta n, labels_node, List.map_cons, List.nodup_cons] at hlabels
    have hsub := (map_label_sublist n.children).map full
    rw [List.map_map] at hsub
    exact hsub.nodup hlabels.2
  refine List.Nodup.of_map (fun k => full n.label ++ k) ?_
  rw [List.map_map]
  refine (List.map_congr_left fun c hc => ?_ : n.children.map _ = _) ▸ hnodup
  exact h n hmem c hc

theorem Spelled.modify {p : α → Bool} {f : Rose α → Rose α} {t : Rose α} (hf : ∀ n, p n.label = true → (f n).label = n.label)
    (hs : ∀ n, p n.label = true → Spelled key full n → Spelled key full (f n)) (h : Spelled key full t) :
    Spelled key full (modify p f t) := by
  intro m hm
  rcases mem_nodes_modify hm with ⟨n, hn, -, rfl⟩ | ⟨n, hn, hp, hm⟩
  · intro c' hc'
    obtain ⟨c, hc, rfl⟩ := List.mem_map.mp hc'
    have hlabel : (Rose.modify p f c).label = c.label := label_modify (g := id) hf c
    rw [hlabel]
    exact h n hn c hc
  · exact hs n hp (fun k hk => h k (nodes_trans hk hn)) m hm

end Spelled

/-! ## Relabelling -/

section Map

variable {β : Type*}

mutual
def map (f : α → β) : Rose α → Rose β
  | node a cs => node (f a) (mapList f cs)

def mapList (f : α → β) : List (Rose α) → List (Rose β)
  | [] => []
  | c :: cs => map f c :: mapList f cs
end

theorem mapList_eq (f : α → β) (cs : List (Rose α)) : mapList f cs = cs.map (map f) := by
  induction cs with
  | nil => rfl
  | cons c cs ih => simp [mapList, ih]

@[simp] theorem label_map (f : α → β) (t : Rose α) : (map f t).label = f t.label := by
  cases t; simp [map]

@[simp] theorem children_map (f : α → β) (t : Rose α) : (map f t).children = t.children.map (map f) := by
  cases t; simp [map, mapList_eq]

mutual
theorem labels_map (f : α → β) : (t : Rose α) → (map f t).labels = t.labels.map f
  | node a cs => by rw [map, labels_node, labels_node, List.map_cons, labelsList_map f cs]

theorem labelsList_map (f : α → β) : (cs : List (Rose α)) → labelsList (mapList f cs) = (labelsList cs).map f
  | [] => rfl
  | c :: cs => by
      rw [mapList, labelsList_cons, labelsList_cons, List.map_append, labels_map f c, labelsList_map f cs]
end

mutual
theorem map_map {γ : Type*} (g : β → γ) (f : α → β) : (t : Rose α) → map g (map f t) = map (g ∘ f) t
  | node a cs => by rw [map, map, map, mapList_mapList g f cs, Function.comp_apply]

theorem mapList_mapList {γ : Type*} (g : β → γ) (f : α → β) :
    (cs : List (Rose α)) → mapList g (mapList f cs) = mapList (g ∘ f) cs
  | [] => rfl
  | c :: cs => by rw [mapList, mapList, mapList, map_map g f c, mapList_mapList g f cs]
end

theorem below_map {p : β → Prop} {f : α → β} {t : Rose α} : Below p (map f t) ↔ Below (fun a => p (f a)) t := by
  rw [Below, Below, children_map, ← mapList_eq, labelsList_map]
  simp

mutual
theorem nodes_map (f : α → β) : (t : Rose α) → (map f t).nodes = t.nodes.map (map f)
  | node a cs => by rw [map, nodes, nodes, List.map_cons, map, nodesList_map f cs]

theorem nodesList_map (f : α → β) : (cs : List (Rose α)) → nodesList (mapList f cs) = (nodesList cs).map (map f)
  | [] => rfl
  | c :: cs => by rw [mapList, nodesList, nodesList, List.map_append, nodes_map f c, nodesList_map f cs]
end

theorem Spelled.map {key : β → List κ} {full : β → List κ} {f : α → β} {t : Rose α}
    (h : Spelled (key ∘ f) (full ∘ f) t) : Spelled key full (map f t) := by
  intro n hn c hc
  rw [nodes_map] at hn
  obtain ⟨m, hm, rfl⟩ := List.mem_map.mp hn
  rw [children_map] at hc
  obtain ⟨d, hd, rfl⟩ := List.mem_map.mp hc
  simpa using h m hm d hd

theorem distinct_map {key : β → κ} {f : α → β} {t : Rose α} :
    Distinct key (map f t) ↔ Distinct (key ∘ f) t := by
  simp [Distinct, nodes_map, Function.comp_def]

mutual
theorem addresses_map {key : β → κ} {f : α → β} : (t : Rose α) → addresses key (map f t) = addresses (key ∘ f) t
  | node a cs => by rw [map, addresses, addresses, addressesList_map cs]

theorem addressesList_map {key : β → κ} {f : α → β} :
    (cs : List (Rose α)) → addressesList key (mapList f cs) = addressesList (key ∘ f) cs
  | [] => rfl
  | c :: cs => by
      rw [mapList, addressesList, addressesList, addresses_map c, addressesList_map cs, label_map, Function.comp_apply]
end

end Map

end Rose

end Chessrepeat.Lib
