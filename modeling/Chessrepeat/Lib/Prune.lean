import Chessrepeat.Lib.Rose

/-!
# Trees of which some children are left out

A walk meets the nodes that are reached through the children that are kept, each with the keys on the way to it strung
together.
-/

namespace Chessrepeat.Lib.Rose

variable {α β : Type*}

/-- The children that are kept. -/
structure Pruning (α : Type*) where
  children : Rose α → List (Rose α)
  sublist : ∀ t, (children t).Sublist t.children

/-! ## Sizes -/

def size (ts : List (Rose α)) : Nat := (nodesList ts).length

theorem size_cons (t : Rose α) (ts : List (Rose α)) : size (t :: ts) = size t.children + 1 + size ts := by
  cases t with
  | node a cs => rw [size, nodesList, nodes, List.length_append, List.length_cons]; rfl

theorem size_le_of_sublist {ts us : List (Rose α)} (h : ts.Sublist us) : size ts ≤ size us := by
  induction h with
  | slnil => exact Nat.le_refl _
  | cons t _ ih => rw [size_cons]; omega
  | cons_cons t _ ih => rw [size_cons, size_cons]; omega

theorem size_tail_lt (t : Rose α) (ts : List (Rose α)) : size ts < size (t :: ts) := by
  rw [size_cons]; omega

theorem size_singleton_le {t : Rose α} {ts : List (Rose α)} (h : t ∈ ts) : size [t] ≤ size ts :=
  size_le_of_sublist (List.singleton_sublist.mpr h)

namespace Pruning

variable (keep : Pruning α) (key : α → List β)

theorem size_children_lt (t : Rose α) (ts : List (Rose α)) : size (keep.children t) < size (t :: ts) := by
  have := size_le_of_sublist (keep.sublist t)
  rw [size_cons]; omega

/-! ## Walks -/

/-- The trees and what is kept below them, depth first. -/
def walk : List β → List (Rose α) → List (Rose α × List β)
  | _, [] => []
  | path, t :: ts => (t, path ++ key t.label) :: (walk (path ++ key t.label) (keep.children t) ++ walk path ts)
termination_by _ ts => size ts
decreasing_by
  · exact keep.size_children_lt t ts
  · exact size_tail_lt t ts

/-- The first of the trees, the first of what is kept below it, and so on. -/
def firsts : List β → List (Rose α) → List (Rose α × List β)
  | _, [] => []
  | path, t :: _ => (t, path ++ key t.label) :: firsts (path ++ key t.label) (keep.children t)
termination_by _ ts => size ts
decreasing_by exact keep.size_children_lt t _

/-- Every node is a kept child of the one before it, the first of them of `t`. -/
def Line : Rose α → List (Rose α) → Prop
  | _, [] => True
  | t, c :: cs => c ∈ keep.children t ∧ Line c cs

theorem walk_append (path : List β) (ts us : List (Rose α)) :
    keep.walk key path (ts ++ us) = keep.walk key path ts ++ keep.walk key path us := by
  induction ts with
  | nil => rw [List.nil_append, walk, List.nil_append]
  | cons t ts ih => rw [List.cons_append, walk, walk, ih, List.cons_append, List.append_assoc]

/-- The walk meets the ends of the lines. -/
theorem mem_walk (path : List β) (ts : List (Rose α)) (n : Rose α) (p : List β) : (n, p) ∈ keep.walk key path ts ↔
    ∃ t ∈ ts, ∃ line, keep.Line t line ∧ (t :: line).getLast? = some n ∧ p = path ++ (t :: line).flatMap fun m => key m.label := by
  fun_induction walk keep key path ts with
  | case1 path => simp
  | case2 path t ts ihBelow ihBeside =>
      rw [List.mem_cons, List.mem_append, ihBelow, ihBeside]
      constructor
      · rintro (h | ⟨c, hc, line, hline, hlast, rfl⟩ | ⟨u, hu, line, hline, hlast, rfl⟩)
        · obtain ⟨rfl, rfl⟩ := Prod.mk.inj h
          exact ⟨n, List.mem_cons_self, [], trivial, rfl, by simp⟩
        · exact ⟨t, List.mem_cons_self, c :: line, ⟨hc, hline⟩, hlast, by simp⟩
        · exact ⟨u, List.mem_cons_of_mem _ hu, line, hline, hlast, rfl⟩
      · rintro ⟨u, hu, line, hline, hlast, rfl⟩
        rcases List.mem_cons.mp hu with rfl | hu
        · cases line with
          | nil => exact .inl (by simpa using hlast.symm)
          | cons c line => exact .inr (.inl ⟨c, hline.1, line, hline.2, hlast, by simp⟩)
        · exact .inr (.inr ⟨u, hu, line, hline, hlast, rfl⟩)

/-- What the walk of the kept children meets are the ends of the lines from a tree. -/
theorem mem_walk_children (path : List β) (t n : Rose α) (p : List β) : (n, p) ∈ keep.walk key path (keep.children t) ↔
    ∃ line, keep.Line t line ∧ line.getLast? = some n ∧ p = path ++ line.flatMap fun m => key m.label := by
  rw [mem_walk]
  constructor
  · rintro ⟨c, hc, line, hline, hlast, hp⟩
    exact ⟨c :: line, ⟨hc, hline⟩, hlast, hp⟩
  · rintro ⟨line, hline, hlast, hp⟩
    cases line with
    | nil => cases hlast
    | cons c line => exact ⟨c, hline.1, line, hline.2, hlast, hp⟩

theorem nodesList_sublist {ts us : List (Rose α)} (h : ts.Sublist us) : (nodesList ts).Sublist (nodesList us) := by
  induction h with
  | slnil => exact List.Sublist.refl _
  | cons t _ ih => exact ih.trans (List.sublist_append_right _ _)
  | cons_cons t _ ih => exact (List.Sublist.refl _).append ih

/-- No node is met twice. -/
theorem walk_sublist (path : List β) (ts : List (Rose α)) : ((keep.walk key path ts).map Prod.fst).Sublist (nodesList ts) := by
  fun_induction walk keep key path ts with
  | case1 path => exact List.Sublist.refl _
  | case2 path t ts ihBelow ihBeside =>
      have hnodes : t.nodes = t :: nodesList t.children := by cases t; rfl
      rw [List.map_cons, List.map_append, nodesList, hnodes, List.cons_append]
      exact ((ihBelow.trans (nodesList_sublist (keep.sublist t))).append ihBeside).cons_cons t

end Pruning

end Chessrepeat.Lib.Rose
