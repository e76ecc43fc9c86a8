import Chessrepeat.Lib.Siblings
import Chessrepeat.Store.Chapters

/-!
# Where flattening and rebuilding a tree panic
-/

namespace Chessrepeat.Store

open Lib Domain

/-! ## flattenTree -/

mutual
/-- Some children list of the tree has a nil entry. -/
def hasNullChild : ChapterTreeNode → Bool
  | .null => false
  | .mk _ children => hasNullChildList children

def hasNullChildList : List ChapterTreeNode → Bool
  | [] => false
  | .null :: _ => true
  | .mk data children :: rest => hasNullChild (.mk data children) || hasNullChildList rest
end

mutual
/-- The concatenated paths of a tree whose root is at `path`. -/
def treePaths (path : Text) : ChapterTreeNode → List Text
  | .null => []
  | .mk _ children => path :: treePathsList path children

def treePathsList (path : Text) : List ChapterTreeNode → List Text
  | [] => []
  | .null :: rest => treePathsList path rest
  | .mk data children :: rest =>
      treePaths (path ++ data.id) (.mk data children) ++ treePathsList path rest
end

mutual
/-- The walk panics exactly on a tree with a nil child. -/
theorem walk_eq_none : (t : ChapterTreeNode) → (moves : PathMap) → (path : Text) →
    (walk moves path t = none ↔ hasNullChild t = true)
  | .null, moves, path => by simp [walk, hasNullChild]
  | .mk data children, moves, path => by
      rw [walk, hasNullChild]
      exact walkChildren_eq_none children _ path

theorem walkChildren_eq_none : (cs : List ChapterTreeNode) → (moves : PathMap) → (path : Text) →
    (walkChildren moves path cs = none ↔ hasNullChildList cs = true)
  | [], moves, path => by simp [walkChildren, hasNullChildList]
  | .null :: _, moves, path => by simp [walkChildren, hasNullChildList]
  | .mk data children :: rest, moves, path => by
      have hc := walk_eq_none (.mk data children) moves (path ++ data.id)
      rw [walkChildren, hasNullChildList, Bool.or_eq_true]
      cases hw : walk moves (path ++ data.id) (.mk data children) with
      | none => simp only [Option.bind_none, true_iff]; exact Or.inl (hc.mp hw)
      | some moves' =>
          have hn : ¬ hasNullChild (.mk data children) = true := fun h => by
            rw [hc.mpr h] at hw; cases hw
          simp only [Option.bind_some, hn, Bool.false_eq_true, false_or]
          exact walkChildren_eq_none rest moves' path
end

theorem flattenTree_eq_none {root : ChapterTreeNode} : flattenTree root = none ↔ hasNullChild root = true :=
  walk_eq_none root Table.empty []

theorem PathMap.mem_upsert {moves : PathMap} {e : Text × TrainingData} {q : Text} :
    q ∈ ((moves.upsert e).rows.map Prod.fst) ↔ q = e.1 ∨ q ∈ moves.rows.map Prod.fst := by
  simp only [List.mem_map]
  constructor
  · rintro ⟨x, hx, rfl⟩
    rcases Table.mem_upsert.mp hx with rfl | ⟨hx, -⟩
    · exact Or.inl rfl
    · exact Or.inr ⟨x, hx, rfl⟩
  · rintro (rfl | ⟨x, hx, rfl⟩)
    · exact ⟨e, Table.mem_upsert.mpr (Or.inl rfl), rfl⟩
    · by_cases he : x.1 = e.1
      · exact ⟨e, Table.mem_upsert.mpr (Or.inl rfl), he.symm⟩
      · exact ⟨x, Table.mem_upsert.mpr (Or.inr ⟨hx, he⟩), rfl⟩

mutual
/-- The walk adds the paths of the tree. -/
theorem mem_walk : (t : ChapterTreeNode) → {moves out : PathMap} → {path : Text} → walk moves path t = some out →
    ∀ q, q ∈ out.rows.map Prod.fst ↔ q ∈ moves.rows.map Prod.fst ∨ q ∈ treePaths path t
  | .null, moves, out, path, h => by
      rw [walk, Option.some.injEq] at h
      subst h
      simp [treePaths]
  | .mk data children, moves, out, path, h => by
      intro q
      rw [walk] at h
      rw [mem_walkChildren children h q, PathMap.mem_upsert, treePaths, List.mem_cons]
      tauto

theorem mem_walkChildren : (cs : List ChapterTreeNode) → {moves out : PathMap} → {path : Text} →
    walkChildren moves path cs = some out →
    ∀ q, q ∈ out.rows.map Prod.fst ↔ q ∈ moves.rows.map Prod.fst ∨ q ∈ treePathsList path cs
  | [], moves, out, path, h => by
      rw [walkChildren, Option.some.injEq] at h
      subst h
      simp [treePathsList]
  | .null :: _, moves, out, path, h => by simp [walkChildren] at h
  | .mk data children :: rest, moves, out, path, h => by
      intro q
      rw [walkChildren] at h
      obtain ⟨mid, hmid, hrest⟩ := Option.bind_eq_some_iff.mp h
      rw [mem_walkChildren rest hrest q, mem_walk (.mk data children) hmid q, treePathsList, List.mem_append,
        or_assoc]
end

theorem mem_flattenTree {root : ChapterTreeNode} {moves : PathMap} (h : flattenTree root = some moves) (q : Text) :
    q ∈ moves.rows.map Prod.fst ↔ q ∈ treePaths [] root := by
  rw [mem_walk root h q]
  simp [Table.empty]

/-! ## buildTree -/

/-- One turn of the loop panics exactly at a path of one code point. -/
theorem buildStep_eq_none {moves : PathMap} {root : BuildNode} {p : Text} :
    buildStep moves root p = none ↔ p.length = 1 := by
  unfold buildStep
  split
  · rename_i hp; simp [hp]
  · rename_i hp
    have hpos : 0 < p.length := List.length_pos_iff.mpr hp
    split
    · exact iff_of_true rfl (by omega)
    · exact iff_of_false (fun h => by cases h) (by omega)

theorem buildNodes_eq_none {moves : PathMap} {paths : List Text} :
    buildNodes moves paths = none ↔ ∃ p ∈ paths, p.length = 1 := by
  unfold buildNodes
  generalize (Rose.node ([], moves.get []) [] : BuildNode) = root
  induction paths generalizing root with
  | nil => simp
  | cons p ps ih =>
      rw [List.foldlM_cons]
      cases hs : buildStep moves root p with
      | none =>
          refine iff_of_true rfl ⟨p, List.mem_cons_self, buildStep_eq_none.mp hs⟩
      | some root' =>
          have hp : p.length ≠ 1 := fun h => by rw [buildStep_eq_none.mpr h] at hs; cases hs
          refine (ih root').trans ?_
          simp [hp]

theorem buildTree_eq_none {order : PathOrder} {moves : PathMap} :
    buildTree order moves = none ↔ ∃ p ∈ moves.rows.map Prod.fst, p.length = 1 := by
  rw [buildTree, Option.map_eq_none_iff, buildNodes_eq_none]
  simp only [(order.perm moves).mem_iff]

/-! ## Reading chapters -/

/-- The paths of a chapter's rows are the keys of the map read from them. -/
theorem mem_loadMoves {db : Db} {chapterID q : Text} : q ∈ (db.loadMoves chapterID).rows.map Prod.fst ↔
    ∃ m ∈ db.moves.rows, m.chapterId = chapterID ∧ m.path = q := by
  have hfold : ∀ (ms : List MoveRow) (out : PathMap),
      q ∈ (ms.foldl (fun out m => out.upsert (m.path, m.trainingData)) out).rows.map Prod.fst ↔
        q ∈ out.rows.map Prod.fst ∨ ∃ m ∈ ms, m.path = q := by
    intro ms
    induction ms with
    | nil => simp
    | cons m ms ih =>
        intro out
        rw [List.foldl_cons, ih, PathMap.mem_upsert]
        simp only [List.mem_cons, exists_eq_or_imp]
        tauto
  rw [Db.loadMoves, hfold]
  simp [Table.empty, and_assoc]

theorem map_fst_mergeCards {moves : PathMap} {cards : List CardRow} :
    (mergeCardsIntoMoves moves cards).rows.map Prod.fst = moves.rows.map Prod.fst := by
  have h : (mergeCardsIntoMoves moves cards).rows =
      moves.rows.map fun e => if cards.any (fun c => c.path = e.1) then setTraining cards e else e := rfl
  rw [h, List.map_map]
  refine List.map_congr_left fun e _ => ?_
  simp only [Function.comp_apply]
  split <;> rfl

/-- A chapter cannot be rebuilt exactly when a move is stored at a path of one code point. -/
theorem chapterTree_eq_none {db : Db} {order : PathOrder} {c : ChapterRow} :
    db.chapterTree order c = none ↔ ∃ m ∈ db.moves.rows, m.chapterId = c.uuid ∧ m.path.length = 1 := by
  rw [Db.chapterTree, Option.map_eq_none_iff, buildTree_eq_none, map_fst_mergeCards]
  simp only [mem_loadMoves]
  constructor
  · rintro ⟨_, ⟨m, hm, hc, rfl⟩, hl⟩
    exact ⟨m, hm, hc, hl⟩
  · rintro ⟨m, hm, hc, hl⟩
    exact ⟨_, ⟨m, hm, hc, rfl⟩, hl⟩

theorem mapM_forall₂ {α β : Type} {f : α → Option β} {xs : List α} {ys : List β} (h : xs.mapM f = some ys) :
    List.Forall₂ (fun x y => f x = some y) xs ys := by
  induction xs generalizing ys with
  | nil =>
      cases h
      exact .nil
  | cons x xs ih =>
      rw [List.mapM_cons] at h
      obtain ⟨y, hy, h⟩ := Option.bind_eq_some_iff.mp h
      obtain ⟨ys', hys, h⟩ := Option.bind_eq_some_iff.mp h
      cases h
      exact .cons hy (ih hys)

theorem mem_fetchChaptersByOwner {db : Db} {order : PathOrder} {ownerID : Text} {rs : List ChapterTreeResponse}
    {r : ChapterTreeResponse} (h : db.fetchChaptersByOwner order ownerID = some rs) (hr : r ∈ rs) :
    ∃ c ∈ db.chapters.rows, c.ownerId = ownerID ∧ db.chapterTree order c = some r := by
  obtain ⟨c, hc, hread⟩ := exists_of_mem_forall₂ (mapM_forall₂ h) hr
  obtain ⟨hc, howner⟩ := List.mem_filter.mp hc
  exact ⟨c, hc, of_decide_eq_true howner, hread⟩

theorem fetchChaptersByOwner_eq_none {db : Db} {order : PathOrder} {ownerID : Text} :
    db.fetchChaptersByOwner order ownerID = none ↔
      ∃ c ∈ db.chapters.rows, c.ownerId = ownerID ∧ db.chapterTree order c = none := by
  have hmap : ∀ cs : List ChapterRow, cs.mapM (db.chapterTree order) = none ↔
      ∃ c ∈ cs, db.chapterTree order c = none := by
    intro cs
    induction cs with
    | nil => simp
    | cons c cs ih =>
        rw [List.mapM_cons]
        cases hc : db.chapterTree order c with
        | none => exact iff_of_true rfl ⟨c, List.mem_cons_self, hc⟩
        | some t =>
            cases hcs : cs.mapM (db.chapterTree order) with
            | none =>
                obtain ⟨d, hd, hn⟩ := ih.mp hcs
                exact iff_of_true rfl ⟨d, List.mem_cons_of_mem _ hd, hn⟩
            | some ts =>
                refine iff_of_false (fun h => by cases h) ?_
                rintro ⟨d, hd, hn⟩
                rcases List.mem_cons.mp hd with rfl | hd
                · rw [hc] at hn; cases hn
                · rw [ih.mpr ⟨d, hd, hn⟩] at hcs; cases hcs
  rw [Db.fetchChaptersByOwner, hmap]
  simp [and_assoc]

end Chessrepeat.Store
