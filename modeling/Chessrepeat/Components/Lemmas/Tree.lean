import Chessrepeat.Components.Tree

/-!
# The moves that the move list shows
-/

namespace Chessrepeat.Components

open Lib Client

variable {Card : Type} {ctx : Ctx Card} {args : Args Card} {nodes : List (TrainableNode Card)}

/-! ## Moves and places -/

mutual
/-- The `MoveNode`s of an element, from top to bottom. -/
def Element.moves : Element Card → List (Move Card)
  | .index _ => []
  | .emptyMove => []
  | .move m => [m]
  | .comment _ _ => []
  | .interrupt content => movesList content
  | .inline content => movesList content
  | .lines _ content => movesList content
  | .line content => movesList content

def movesList : List (Element Card) → List (Move Card)
  | [] => []
  | e :: es => e.moves ++ movesList es
end

theorem movesList_append (es fs : List (Element Card)) : movesList (es ++ fs) = movesList es ++ movesList fs := by
  induction es with
  | nil => rfl
  | cons e es ih => rw [List.cons_append, movesList, movesList, ih, List.append_assoc]

theorem movesList_renderCommentsOf (maxLength : Nat) (node : TrainableNode Card) (path : JsString) :
    movesList (renderCommentsOf maxLength ctx node path) = [] := by
  rw [renderCommentsOf]
  split
  · rfl
  · rfl

/-- A node, and the path that it is labelled with. -/
def places (es : List (Element Card)) : List (TrainableNode Card × JsString) := (movesList es).map fun m => (m.node, m.path)

theorem places_append (es fs : List (Element Card)) : places (es ++ fs) = places es ++ places fs := by
  rw [places, movesList_append, List.map_append]
  rfl

/-! ## Sidelines -/

/-- What is shown of the nodes below a path: each of them once, none on the mainline. -/
structure Sidelines (ctx : Ctx Card) (path : JsString) (nodes : List (TrainableNode Card)) (es : List (Element Card)) : Prop where
  places : (places es).Perm (ctx.visibleChildren.walk Object.id path nodes)
  aside : ∀ m ∈ movesList es, m.isMainline = false

theorem Sidelines.nil (path : JsString) : Sidelines ctx path [] [] :=
  { places := by rw [Rose.Pruning.walk]; exact List.Perm.refl _, aside := nofun }

/-- An element around them shows the same moves. -/
theorem Sidelines.wrap {path : JsString} {es : List (Element Card)} (h : Sidelines ctx path nodes es) {e : Element Card}
    (he : e.moves = movesList es) : Sidelines ctx path nodes [e] := by
  have hmoves : movesList [e] = movesList es := by rw [movesList, movesList, List.append_nil, he]
  exact { places := by rw [Components.places, hmoves]; exact h.places, aside := hmoves ▸ h.aside }

theorem Sidelines.append {path : JsString} {more : List (TrainableNode Card)} {es fs : List (Element Card)}
    (h : Sidelines ctx path nodes es) (h' : Sidelines ctx path more fs) : Sidelines ctx path (nodes ++ more) (es ++ fs) := by
  refine { places := ?_, aside := fun m hm => ?_ }
  · rw [places_append, Rose.Pruning.walk_append]
    exact h.places.append h'.places
  · rw [movesList_append] at hm
    rcases List.mem_append.mp hm with hm | hm
    · exact h.aside m hm
    · exact h'.aside m hm

theorem Sidelines.rows {path : JsString} {f : TrainableNode Card → List (Element Card)}
    (h : ∀ n ∈ nodes, Sidelines ctx path [n] (f n)) : Sidelines ctx path nodes (nodes.map fun n => .line (f n)) := by
  induction nodes with
  | nil => exact .nil path
  | cons n nodes ih =>
      have hn := (h n List.mem_cons_self).wrap (e := .line (f n)) rfl
      exact hn.append (ih fun m hm => h m (List.mem_cons_of_mem _ hm))

/-- Both ways to lay out a block show its sidelines. -/
theorem Sidelines.lines (args : Args Card)
    (h : ∀ us, Rose.size us ≤ Rose.size nodes → ∀ args' : Args Card, args'.isMainline = false →
      Sidelines ctx args'.parentPath us (sidelineNodes ctx us args')) :
    Sidelines ctx args.parentPath nodes (lines ctx nodes args) := by
  rw [Components.lines]
  split
  · rename_i hnil
    rw [hnil]
    exact .nil args.parentPath
  · split
    · exact (h nodes (Nat.le_refl _) { parentPath := args.parentPath, parentNode := args.parentNode, isMainline := false } rfl).wrap rfl
    · exact (Sidelines.rows fun n hn => h [n] (Rose.size_singleton_le hn)
        { parentPath := args.parentPath, parentNode := args.parentNode, isMainline := false } rfl).wrap rfl

/-- A move and its comment. -/
theorem movesList_moveNode (child : TrainableNode Card) (args : Args Card) {comments : List (Element Card)}
    (h : movesList comments = []) : ∃ index, movesList (moveNode child args :: comments) =
      [⟨args.parentPath ++ child.data.id, child, args.isMainline, index⟩] := by
  rw [movesList, h, List.append_nil]
  exact ⟨_, rfl⟩

/-- After the head come its continuation and its siblings, in either order. -/
theorem Sidelines.sideline {child : TrainableNode Card} {siblings : List (TrainableNode Card)}
    {comments beside below : List (Element Card)} (hmain : args.isMainline = false) (hcomments : movesList comments = [])
    (hbeside : Sidelines ctx args.parentPath siblings beside)
    (hbelow : Sidelines ctx (args.parentPath ++ child.data.id) (ctx.visibleChildren.children child) below) (first : Bool) :
    Sidelines ctx args.parentPath (child :: siblings)
      (moveNode child args :: comments ++ (if first then beside else []) ++ below ++ if !first then beside else []) := by
  obtain ⟨index, hhead⟩ := movesList_moveNode child args hcomments
  have hrest : (movesList ((if first then beside else []) ++ (below ++ if !first then beside else []))).Perm
      (movesList below ++ movesList beside) := by
    cases first with
    | true => simpa [movesList_append] using List.perm_append_comm
    | false => simp [movesList_append]
  rw [List.append_assoc, List.append_assoc]
  refine { places := ?_, aside := fun n hn => ?_ }
  · rw [Components.places, movesList_append, hhead, List.singleton_append, List.map_cons, Rose.Pruning.walk]
    have hperm := hrest.map fun n : Move Card => (n.node, n.path)
    rw [List.map_append] at hperm
    exact (hperm.trans (hbelow.places.append hbeside.places)).cons _
  · rw [movesList_append, hhead, List.singleton_append] at hn
    rcases List.mem_cons.mp hn with rfl | hn
    · exact hmain
    · rcases List.mem_append.mp (hrest.mem_iff.mp hn) with hn | hn
      · exact hbelow.aside n hn
      · exact hbeside.aside n hn

theorem sidelines_sidelineNodes (nodes : List (TrainableNode Card)) (args : Args Card) (h : args.isMainline = false) :
    Sidelines ctx args.parentPath nodes (sidelineNodes ctx nodes args) := by
  induction hsize : Rose.size nodes using Nat.strong_induction_on generalizing nodes args with
  | h size ih =>
      subst hsize
      cases nodes with
      | nil =>
          rw [sidelineNodes]
          exact .nil args.parentPath
      | cons child siblings =>
          have hless : ∀ us, Rose.size us < Rose.size (child :: siblings) → ∀ args' : Args Card, args'.isMainline = false →
              Sidelines ctx args'.parentPath us (sidelineNodes ctx us args') :=
            fun us hus args' hargs => ih _ hus us args' hargs rfl
          have hsiblings := Rose.size_tail_lt child siblings
          have hchildren := ctx.visibleChildren.size_children_lt child siblings
          have hbeside : Sidelines ctx args.parentPath siblings (lines ctx siblings args) :=
            Sidelines.lines args fun us hus => hless us (Nat.lt_of_le_of_lt hus hsiblings)
          rw [sidelineNodes]
          refine hbeside.sideline h (movesList_renderCommentsOf _ child _) ?_ args.parenthetical
          split
          · exact hless _ hchildren ⟨_, _, _, _⟩ rfl
          · exact Sidelines.lines ⟨_, _, _, _⟩ fun us hus => hless us (Nat.lt_of_le_of_lt hus hchildren)

theorem sidelines_lines (nodes : List (TrainableNode Card)) (args : Args Card) :
    Sidelines ctx args.parentPath nodes (lines ctx nodes args) :=
  Sidelines.lines args fun us _ args' h => sidelines_sidelineNodes us args' h

/-! ## The mainline -/

theorem movesList_cells (b : Bool) (ply : Int) :
    movesList (if b then [indexCell ply] else [] : List (Element Card)) = [] ∧
      movesList (if b then [.emptyMove] else [] : List (Element Card)) = [] ∧
      movesList (if b then [indexCell ply, .emptyMove] else [] : List (Element Card)) = [] := by
  cases b <;> exact ⟨rfl, rfl, rfl⟩

/-- A mainline move that is not interrupted has no siblings. -/
theorem Sidelines.interrupt {path : JsString} {siblings : List (TrainableNode Card)} {before comments after beside : List (Element Card)}
    (hbefore : movesList before = []) (hcomments : movesList comments = []) (hafter : movesList after = [])
    (hbeside : Sidelines ctx path siblings beside) (commented : Bool) :
    Sidelines ctx path siblings
      (if siblings ≠ [] || commented then before ++ .interrupt (comments ++ beside) :: after else []) := by
  split
  · have hmoves : movesList (before ++ .interrupt (comments ++ beside) :: after) = movesList beside := by
      rw [movesList_append, movesList, Element.moves, movesList_append, hbefore, hcomments, hafter, List.nil_append,
        List.nil_append, List.append_nil]
    exact { places := by rw [Components.places, hmoves]; exact hbeside.places, aside := hmoves ▸ hbeside.aside }
  · rename_i hnot
    have hnil : siblings = [] := by
      by_contra hne
      exact hnot (by simp [hne])
    rw [hnil]
    exact .nil path

/-- What is shown of the mainline and the nodes below it. -/
structure Column (ctx : Ctx Card) (path : JsString) (nodes : List (TrainableNode Card)) (es : List (Element Card)) : Prop where
  places : (places es).Perm (ctx.visibleChildren.walk Object.id path nodes)
  mainline : ((movesList es).filter Move.isMainline).map (fun m => (m.node, m.path)) =
    ctx.visibleChildren.firsts Object.id path nodes

/-- A mainline move, its sidelines and the rest of the mainline. -/
theorem Column.cons {child : TrainableNode Card} {siblings : List (TrainableNode Card)} {before aside below : List (Element Card)}
    (hmain : args.isMainline = true) (hbefore : movesList before = []) (haside : Sidelines ctx args.parentPath siblings aside)
    (hbelow : Column ctx (args.parentPath ++ child.data.id) (ctx.visibleChildren.children child) below) :
    Column ctx args.parentPath (child :: siblings) (before ++ moveNode child args :: aside ++ below) := by
  obtain ⟨index, hhead⟩ := @movesList_moveNode Card child args [] rfl
  have hmoves : movesList (before ++ moveNode child args :: aside ++ below) =
      ⟨args.parentPath ++ child.data.id, child, args.isMainline, index⟩ :: (movesList aside ++ movesList below) := by
    rw [movesList_append, movesList_append, hbefore, List.nil_append, ← List.singleton_append, movesList_append, hhead,
      List.singleton_append, List.cons_append]
  have hnone : (movesList aside).filter Move.isMainline = [] :=
    List.filter_eq_nil_iff.mpr fun m hm => by rw [haside.aside m hm]; exact Bool.false_ne_true
  refine { places := ?_, mainline := ?_ }
  · rw [Components.places, hmoves, List.map_cons, List.map_append, Rose.Pruning.walk]
    exact ((haside.places.append hbelow.places).trans List.perm_append_comm).cons _
  · have hhead' : Move.isMainline ⟨args.parentPath ++ child.data.id, child, args.isMainline, index⟩ = true := hmain
    rw [hmoves, List.filter_cons_of_pos hhead', List.filter_append, hnone, List.nil_append, List.map_cons, hbelow.mainline,
      Rose.Pruning.firsts]
    rfl

theorem column_columnNodes (nodes : List (TrainableNode Card)) (args : Args Card) (h : args.isMainline = true) :
    Column ctx args.parentPath nodes (columnNodes ctx nodes args) := by
  fun_induction columnNodes ctx nodes args with
  | case1 args =>
      exact { places := by rw [Rose.Pruning.walk]; exact List.Perm.refl _, mainline := by rw [Rose.Pruning.firsts]; rfl }
  | case2 args child siblings childPath isWhite children interrupted ih =>
      have haside : Sidelines ctx args.parentPath siblings _ :=
        Sidelines.interrupt (movesList_cells isWhite child.data.ply).2.1
          (@movesList_renderCommentsOf Card ctx maxLenMainlineComment child childPath)
          (movesList_cells (isWhite && children ≠ []) child.data.ply).2.2 (sidelines_lines siblings args)
          (ctx.showComments && child.data.comment ≠ [])
      exact Column.cons h (movesList_cells isWhite child.data.ply).1 haside (ih rfl)

theorem column_treeBody (ctx : Ctx Card) (root : TrainableNode Card) :
    Column ctx [] (ctx.visibleChildren.children root) (treeBody ctx root) := by
  have hcolumn := @column_columnNodes Card ctx (ctx.visibleChildren.children root)
    { parentPath := [], parentNode := root, isMainline := true } rfl
  have hmoves : movesList (treeBody ctx root) = movesList (columnNodes ctx (ctx.visibleChildren.children root)
      { parentPath := [], parentNode := root, isMainline := true }) := by
    have hcomments := @movesList_renderCommentsOf Card ctx maxLenMainlineComment root []
    have hroot : movesList (if ctx.showComments && root.data.comment ≠ [] then
        [.interrupt (renderMainlineCommentsOf ctx root [])] else [] : List (Element Card)) = [] := by
      split
      · rw [movesList, Element.moves, renderMainlineCommentsOf, hcomments]
        rfl
      · rfl
    have hcells : movesList (if root.data.ply % 2 = 1 then [indexCell root.data.ply, .emptyMove] else [] :
        List (Element Card)) = [] := by
      split
      · rfl
      · rfl
    rw [treeBody, movesList_append, movesList_append, hroot, hcells]
    rfl
  exact { places := by rw [Components.places, hmoves]; exact hcolumn.places, mainline := hmoves ▸ hcolumn.mainline }

end Chessrepeat.Components
