import Chessrepeat.Lib.Utf16
import Chessrepeat.Store.Lemmas.Closed
import Chessrepeat.Store.Lemmas.Tree

/-!
# The tree built from rows that are closed under parents

The paths are taken up by their length, so the parent of a move is there before the move. The tree then has one node
for each row, at the path of the row.
-/

namespace Chessrepeat.Store

open Lib Domain

/-- Every entry below the root is its parent's path and its own id, and the parent is the root or an entry. -/
def PathMap.Closed (moves : PathMap) : Prop :=
  ∀ e ∈ moves.rows, e.1 ≠ [] → e.2.id.length = 2 ∧ ∃ parent, e.1 = parent ++ e.2.id ∧ (parent = [] ∨ moves.has parent = true)

/-- The tree after the paths `done`. -/
structure Built (moves : PathMap) (done : List Text) (t : BuildNode) : Prop where
  root : t.label.1 = []
  spelled : Rose.Spelled (fun l : Text × TrainingData => l.2.id) Prod.fst t
  paths : (t.labels.map Prod.fst).Perm ([] :: done.filter (· ≠ []))
  rows : ∀ l ∈ t.labels, l.1 ≠ [] → l ∈ moves.rows

variable {moves : PathMap} {done rest : List Text} {t : BuildNode} {p : Text}

theorem byteLen_append (p q : Text) : byteLen (p ++ q) = byteLen p + byteLen q := by
  simp [byteLen]

theorem byteLen_pos (h : p ≠ []) : 0 < byteLen p := by
  cases p with
  | nil => exact absurd rfl h
  | cons c cs =>
      have := c.utf8Size_pos
      simp only [byteLen, List.map_cons, List.sum_cons]
      omega

/-! ## One turn of the loop -/

theorem labels_append (node n : BuildNode) : (BuildNode.append node n).labels = n.labels ++ node.labels := by
  conv_rhs => rw [← Rose.eta n]
  simp [BuildNode.append, Rose.labelsList_append]

theorem spelled_append {d : TrainingData} {n : BuildNode} (hp : p = n.label.1 ++ d.id)
    (h : Rose.Spelled (fun l : Text × TrainingData => l.2.id) Prod.fst n) :
    Rose.Spelled (fun l : Text × TrainingData => l.2.id) Prod.fst (BuildNode.append (.node (p, d) []) n) := by
  have hchildren : (BuildNode.append (.node (p, d) []) n).children = n.children ++ [.node (p, d) []] := rfl
  intro m hm c hc
  rcases Rose.mem_nodes.mp hm with rfl | ⟨k, hk, hm⟩
  · rw [hchildren] at hc
    rcases List.mem_append.mp hc with hc | hc
    · exact h n (Rose.self_mem_nodes n) c hc
    · rw [List.mem_singleton.mp hc]
      exact hp
  · rw [hchildren] at hk
    rcases List.mem_append.mp hk with hk | hk
    · exact h m (Rose.nodes_trans hm (Rose.child_mem_nodes hk)) c hc
    · -- the new node has no children
      rw [List.mem_singleton.mp hk] at hm
      rcases Rose.mem_nodes.mp hm with rfl | ⟨d, hd, -⟩
      · cases hc
      · cases hd

/-- A new path is appended to exactly one node, whatever its parent is. -/
theorem labels_buildStep {t' : BuildNode} (hroot : [] ∈ t.labels.map Prod.fst) (hd : (t.labels.map Prod.fst).Nodup)
    (hp0 : p ≠ []) (h : buildStep moves t p = some t') : t'.labels.Perm ((p, moves.get p) :: t.labels) := by
  rw [buildStep, if_neg hp0] at h
  split at h
  · cases h
  · simp only [Option.some.injEq] at h
    subst h
    have hone : ∀ parent, parent ∈ t.labels.map Prod.fst → t.labels.countP (fun l => l.1 = parent) = 1 := fun parent hmem => by
      have hcount := List.count_eq_one_of_mem hd hmem
      rw [List.count, List.countP_map] at hcount
      rw [← hcount]
      exact List.countP_congr fun l _ => by simp
    have happend : ∀ n : BuildNode,
        (BuildNode.append (.node (p, moves.get p) []) n).labels.Perm ([(p, moves.get p)] ++ n.labels) := fun n => by
      rw [labels_append]
      exact List.perm_append_comm
    refine Rose.labels_modify_perm (fun n _ => happend n) t (hone _ ?_)
    split
    · rename_i hany
      obtain ⟨l, hl, he⟩ := List.any_eq_true.mp hany
      exact List.mem_map.mpr ⟨l, hl, of_decide_eq_true he⟩
    · exact hroot

/-- The built tree has a node for the root and one for every other path. -/
theorem labels_buildNodes {paths : List Text} (hd : paths.Nodup) (h : buildNodes moves paths = some t) :
    t.labels.Perm (([], moves.get []) :: (paths.filter (· ≠ [])).map fun p => (p, moves.get p)) := by
  have hloop : ∀ (done rest : List Text) (u : BuildNode), (done ++ rest).Nodup →
      u.labels.Perm (([], moves.get []) :: (done.filter (· ≠ [])).map fun p => (p, moves.get p)) →
      rest.foldlM (buildStep moves) u = some t →
      t.labels.Perm (([], moves.get []) :: ((done ++ rest).filter (· ≠ [])).map fun p => (p, moves.get p)) := by
    intro done rest
    induction rest generalizing done with
    | nil =>
        intro u _ hu h
        cases h
        rwa [List.append_nil]
    | cons p rest ih =>
        intro u hdone hu h
        obtain ⟨u', hstep, h⟩ := Option.bind_eq_some_iff.mp h
        have hassoc : done ++ p :: rest = (done ++ [p]) ++ rest := by simp
        rw [hassoc] at hdone ⊢
        refine ih (done ++ [p]) u' hdone ?_ h
        by_cases hp0 : p = []
        · subst hp0
          rw [buildStep, if_pos rfl] at hstep
          cases hstep
          simpa using hu
        · have hfst := hu.map Prod.fst
          rw [List.map_cons, List.map_map] at hfst
          have hnodup : (u.labels.map Prod.fst).Nodup := by
            refine hfst.nodup_iff.mpr (List.nodup_cons.mpr ⟨fun h0 => ?_, ?_⟩)
            · obtain ⟨q, hq, he⟩ := List.mem_map.mp h0
              exact of_decide_eq_true (List.mem_filter.mp hq).2 he
            · have hid : (Prod.fst ∘ fun q : Text => (q, moves.get q)) = id := rfl
              rw [hid, List.map_id]
              exact (List.Nodup.of_append_left (List.Nodup.of_append_left hdone)).filter _
          have hroot : [] ∈ u.labels.map Prod.fst := hfst.mem_iff.mpr List.mem_cons_self
          refine (labels_buildStep hroot hnodup hp0 hstep).trans ?_
          have hnew : [p].filter (· ≠ []) = [p] := by simp [hp0]
          rw [List.filter_append, hnew, List.map_append, ← List.cons_append]
          exact (hu.cons _).trans (List.perm_append_singleton _ _).symm
  refine hloop [] paths _ hd ?_ h
  exact List.Perm.refl _

theorem paths_buildNodes {paths : List Text} (hd : paths.Nodup) (h : buildNodes moves paths = some t) :
    (t.labels.map Prod.fst).Perm ([] :: paths.filter (· ≠ [])) := by
  have hperm := (labels_buildNodes hd h).map Prod.fst
  have hid : (Prod.fst ∘ fun p : Text => (p, moves.get p)) = id := rfl
  rwa [List.map_cons, List.map_map, hid, List.map_id] at hperm

/-- A path whose parent has been taken up. -/
theorem Built.step {parent : Text} {d : TrainingData} (h : Built moves done t) (hd : done.Nodup) (hrow : (p, d) ∈ moves.rows)
    (hid : d.id.length = 2) (hp : p = parent ++ d.id) (hparent : parent = [] ∨ parent ∈ done) :
    ∃ t', buildStep moves t p = some t' ∧ Built moves (done ++ [p]) t' := by
  have hlen : p.length = parent.length + 2 := by rw [hp, List.length_append, hid]
  have hp0 : p ≠ [] := by
    rintro rfl
    simp at hlen
  have htake : p.take (p.length - 2) = parent := by
    rw [hlen, Nat.add_sub_cancel, hp, List.take_left]
  have hget : moves.get p = d := by
    rw [PathMap.get, Table.find?_eq_some.mpr ⟨hrow, rfl⟩]
  have hmem : parent ∈ t.labels.map Prod.fst := by
    rw [h.paths.mem_iff, List.mem_cons]
    by_cases h0 : parent = []
    · exact Or.inl h0
    · exact Or.inr (List.mem_filter.mpr ⟨hparent.resolve_left h0, decide_eq_true h0⟩)
  have hany : t.labels.any (fun l => l.1 = parent) = true := by
    obtain ⟨l, hl, he⟩ := List.mem_map.mp hmem
    exact List.any_eq_true.mpr ⟨l, hl, decide_eq_true he⟩
  have hnodup : (t.labels.map Prod.fst).Nodup := by
    rw [h.paths.nodup_iff, List.nodup_cons]
    exact ⟨fun h0 => of_decide_eq_true (List.mem_filter.mp h0).2 rfl, hd.filter _⟩
  have hstep : buildStep moves t p = some (t.modify (fun l => l.1 = parent) (BuildNode.append (.node (p, d) []))) := by
    rw [buildStep, if_neg hp0, if_neg (by omega)]
    simp only [htake, hany, if_true, hget]
  have hperm := labels_buildStep (h.paths.mem_iff.mpr List.mem_cons_self) hnodup hp0 hstep
  rw [hget] at hperm
  refine ⟨_, hstep, ?_, ?_, ?_, fun l hl hl0 => ?_⟩
  · have hlabel : ∀ n : BuildNode, (BuildNode.append (.node (p, d) []) n).label = n.label := fun _ => rfl
    have hroot : (t.modify (fun l => l.1 = parent) (BuildNode.append (.node (p, d) []))).label = t.label :=
      Rose.label_modify (g := id) (fun n _ => hlabel n) t
    rw [hroot]
    exact h.root
  · refine h.spelled.modify (fun n _ => rfl) fun n hn hs => spelled_append ?_ hs
    rw [of_decide_eq_true hn]
    exact hp
  · refine (hperm.map Prod.fst).trans ?_
    have hnew : [p].filter (· ≠ []) = [p] := by simp [hp0]
    rw [List.map_cons, List.filter_append, hnew]
    exact (h.paths.cons p).trans (List.perm_append_singleton p _).symm
  · rcases List.mem_cons.mp (hperm.mem_iff.mp hl) with rfl | hl
    · exact hrow
    · exact h.rows l hl hl0

/-- The path of the root is passed over. -/
theorem Built.skip (h : Built moves done t) : Built moves (done ++ [[]]) t := by
  refine ⟨h.root, h.spelled, ?_, h.rows⟩
  simpa using h.paths

/-! ## The loop -/

theorem Built.loop (hc : moves.Closed) (hkeys : ∀ q, q ∈ done ++ rest ↔ moves.has q = true) (hd : (done ++ rest).Nodup)
    (hs : (done ++ rest).Pairwise fun p q => byteLen p ≤ byteLen q) (h : Built moves done t) :
    ∃ t', rest.foldlM (buildStep moves) t = some t' ∧ Built moves (done ++ rest) t' := by
  induction rest generalizing done t with
  | nil => exact ⟨t, rfl, by rwa [List.append_nil]⟩
  | cons p rest ih =>
      have hassoc : done ++ p :: rest = (done ++ [p]) ++ rest := by simp
      have hstep : ∃ t', buildStep moves t p = some t' ∧ Built moves (done ++ [p]) t' := by
        by_cases hp0 : p = []
        · subst hp0
          exact ⟨t, if_pos rfl, h.skip⟩
        · obtain ⟨⟨q, d⟩, hrow, hq⟩ := Table.has_iff.mp ((hkeys p).mp (List.mem_append_right _ List.mem_cons_self))
          change q = p at hq
          subst hq
          obtain ⟨hid, parent, hp, hparent⟩ := hc _ hrow hp0
          change q = parent ++ d.id at hp
          refine h.step (List.nodup_append.mp hd).1 hrow hid hp (hparent.imp_right fun hhas => ?_)
          -- the parent is shorter, so it comes first
          refine (List.mem_append.mp ((hkeys parent).mpr hhas)).resolve_right fun hrest => ?_
          have hlt : byteLen parent < byteLen (parent ++ d.id) := by
            have := byteLen_pos (p := d.id) (List.ne_nil_of_length_eq_add_one hid)
            rw [byteLen_append]
            omega
          rw [← hp] at hlt
          rcases List.mem_cons.mp hrest with rfl | hrest
          · exact Nat.lt_irrefl _ hlt
          · have hle := (List.pairwise_cons.mp (List.pairwise_append.mp hs).2.1).1 parent hrest
            omega
      obtain ⟨t', hstep, ht'⟩ := hstep
      rw [List.foldlM_cons, hstep]
      rw [hassoc] at hkeys hd hs ⊢
      exact ih hkeys hd hs ht'

theorem buildNodes_built (order : PathOrder) (h : moves.Closed) :
    ∃ t, buildNodes moves (order.paths moves) = some t ∧ Built moves (order.paths moves) t := by
  have hkeys : ∀ q, q ∈ [] ++ order.paths moves ↔ moves.has q = true := by
    intro q
    rw [List.nil_append, (order.perm moves).mem_iff, List.mem_map, Table.has_iff]
  refine Built.loop h hkeys ?_ (order.sorted moves) ⟨rfl, ?_, List.Perm.refl _, ?_⟩
  · exact (order.perm moves).nodup_iff.mpr moves.nodup
  · intro n hn c hc
    rcases Rose.mem_nodes.mp hn with rfl | ⟨d, hd, -⟩
    · cases hc
    · cases hd
  · intro l hl hl0
    rw [List.mem_singleton.mp hl] at hl0
    exact absurd rfl hl0

/-! ## Chapters -/

/-- The moves are closed under parents, and their ids have two characters that are code units of their own. -/
structure Kept (db : Db) (chapterID : Text) : Prop where
  closed : Closed chapterID db
  ids : ∀ m ∈ db.moves.rows, m.chapterId = chapterID → m.path ≠ [] → m.id.length = 2 ∧ Utf16.Plain (Utf16.encode m.id)

theorem Kept.congr {db db' : Db} {chapterID : Text} (h : db'.moves = db.moves) (hk : Kept db chapterID) :
    Kept db' chapterID :=
  ⟨(Closed.congr h).mpr hk.closed, by rw [h]; exact hk.ids⟩

theorem Kept.upsert {db : Db} {chapterID c path : Text} {d : TrainingData} (h : Kept db chapterID)
    (hparent : path = [] ∨ db.moves.has (c, path) = true) (hid : d.id.length = 2 ∧ Utf16.Plain (Utf16.encode d.id)) :
    Kept { db with moves := db.moves.upsert (moveRow c (path ++ d.id, d)) } chapterID := by
  refine ⟨(Closed.upsert_iff h.closed).mpr fun hc => hparent.imp_right fun hhas => Or.inr (hc ▸ hhas), fun m hm hc hp => ?_⟩
  rcases Table.mem_upsert.mp hm with rfl | ⟨hm, -⟩
  · exact hid
  · exact h.ids m hm hc hp

theorem Kept.deleteSubtree {db : Db} {chapterID c path : Text} (h : Kept db chapterID) :
    Kept (db.deleteSubtree c path) chapterID :=
  ⟨h.closed.deleteSubtree, fun m hm => h.ids m (Db.mem_deleteSubtree.mp hm).1⟩

/-- Every entry read from the rows of a chapter is one of them. -/
theorem exists_row_loadMoves {db : Db} {chapterID : Text} {e : Text × TrainingData}
    (h : e ∈ (db.loadMoves chapterID).rows) :
    ∃ m ∈ db.moves.rows, m.chapterId = chapterID ∧ e = (m.path, m.trainingData) := by
  have hfold : ∀ (ms : List MoveRow) (out : PathMap),
      e ∈ (ms.foldl (fun out m => out.upsert (m.path, m.trainingData)) out).rows →
        e ∈ out.rows ∨ ∃ m ∈ ms, e = (m.path, m.trainingData) := by
    intro ms
    induction ms with
    | nil => exact fun _ he => Or.inl he
    | cons m ms ih =>
        intro out he
        rcases ih _ he with he | ⟨m', hm', he⟩
        · rcases Table.mem_upsert.mp he with rfl | ⟨he, -⟩
          · exact Or.inr ⟨m, List.mem_cons_self, rfl⟩
          · exact Or.inl he
        · exact Or.inr ⟨m', List.mem_cons_of_mem _ hm', he⟩
  rcases hfold _ _ h with h | ⟨m, hm, rfl⟩
  · cases h
  · obtain ⟨hm, hc⟩ := List.mem_filter.mp hm
    exact ⟨m, hm, of_decide_eq_true hc, rfl⟩

theorem exists_row_mergeCards {db : Db} {chapterID : Text} {cards : List CardRow} {e : Text × TrainingData}
    (h : e ∈ (mergeCardsIntoMoves (db.loadMoves chapterID) cards).rows) :
    ∃ m ∈ db.moves.rows, m.chapterId = chapterID ∧ e.1 = m.path ∧ e.2.id = m.id := by
  obtain ⟨e₀, he₀, rfl⟩ := Table.mem_update.mp h
  obtain ⟨m, hm, hc, rfl⟩ := exists_row_loadMoves he₀
  refine ⟨m, hm, hc, ?_, ?_⟩ <;> split <;> rfl

theorem has_mergeCards {db : Db} {chapterID p : Text} {cards : List CardRow} :
    (mergeCardsIntoMoves (db.loadMoves chapterID) cards).has p = true ↔ db.moves.has (chapterID, p) = true := by
  rw [mergeCardsIntoMoves, Table.has_update, Table.has_iff, ← List.mem_map, mem_loadMoves, Db.has_move_iff]

/-- What is read of a closed chapter is closed. -/
theorem Closed.mergeCards {db : Db} {chapterID : Text} (h : Closed chapterID db)
    (hids : ∀ m ∈ db.moves.rows, m.chapterId = chapterID → m.path ≠ [] → m.id.length = 2) (cards : List CardRow) :
    (mergeCardsIntoMoves (db.loadMoves chapterID) cards).Closed := by
  intro e he he0
  obtain ⟨m, hm, hc, hpath, hid⟩ := exists_row_mergeCards he
  rw [hpath] at he0
  obtain ⟨parent, hp, hparent⟩ := h m hm hc he0
  rw [hpath, hid]
  exact ⟨hids m hm hc he0, parent, hp, hparent.imp_right has_mergeCards.mpr⟩

theorem Kept.closed_mergeCards {db : Db} {chapterID : Text} (h : Kept db chapterID) (cards : List CardRow) :
    (mergeCardsIntoMoves (db.loadMoves chapterID) cards).Closed :=
  h.closed.mergeCards (fun m hm hc he0 => (h.ids m hm hc he0).1) cards

/-- The tree of a chapter whose moves are kept. -/
structure TreeOf (db : Db) (chapterID : Text) (t : BuildNode) : Prop where
  root : t.label.1 = []
  spelled : Rose.Spelled (fun l : Text × TrainingData => l.2.id) Prod.fst t
  nodup : (t.labels.map Prod.fst).Nodup
  paths : ∀ p, p ∈ t.labels.map Prod.fst ↔ p = [] ∨ db.moves.has (chapterID, p) = true
  ids : ∀ l ∈ t.labels, l.1 ≠ [] → l.2.id.length = 2 ∧ Utf16.Plain (Utf16.encode l.2.id)

theorem Kept.chapterTree {db : Db} {row : ChapterRow} (h : Kept db row.uuid) (order : PathOrder) :
    ∃ t, TreeOf db row.uuid t ∧ db.chapterTree order row = some ⟨row.uuid, row.name, row.trainAs, t.response⟩ := by
  obtain ⟨t, ht, hb⟩ := buildNodes_built order (h.closed_mergeCards (db.loadCards row.uuid))
  refine ⟨t, ⟨hb.root, hb.spelled, ?_, fun p => ?_, fun l hl hl0 => ?_⟩, ?_⟩
  · rw [hb.paths.nodup_iff, List.nodup_cons]
    refine ⟨fun h0 => of_decide_eq_true (List.mem_filter.mp h0).2 rfl, List.Nodup.filter _ ?_⟩
    exact (order.perm _).nodup_iff.mpr (Table.nodup _)
  · rw [hb.paths.mem_iff, List.mem_cons, List.mem_filter, (order.perm _).mem_iff, List.mem_map, ← Table.has_iff,
      has_mergeCards]
    by_cases hp : p = [] <;> simp [hp]
  · obtain ⟨m, hm, hc, hpath, hid⟩ := exists_row_mergeCards (hb.rows l hl hl0)
    rw [hid]
    exact h.ids m hm hc (hpath ▸ hl0)
  · rw [Db.chapterTree, buildTree, ht]
    rfl

end Chessrepeat.Store
