import Chessrepeat.Client.Lemmas.Frame

/-!
# Every action keeps the objects sound
-/

namespace Chessrepeat.Client

open Lib TrainerState

variable {Card : Type} {s s' : TrainerState Card} {env : Env Card} {chess : Chessops}

/-- The ids of new nodes have two units. The chapters that `setCommentAt` puts back after it waited for IndexedDB are
left out. -/
def Action.TwoUnits : Action Card → Prop
  | .setRepertoire raw => RawTwoUnits raw
  | .finishResync _ (some raw) => RawTwoUnits raw
  | .addMove _ _ node => ∀ d ∈ node.labels, d.id.length = 2
  | .finishSetCommentAt _ _ => False
  | _ => True

theorem Sound.send (h : Sound s) (msg : Outgoing Card) : Sound (s.send env msg) := by
  rw [send_eq]
  exact h.of_repertoire rfl rfl

theorem Sound.jump (h : Sound s) (path : JsString) : Sound (s.jump path) :=
  h.of_repertoire (repertoire_jump path) (nextRef_jump path)

theorem Sound.onChapter {uuid : JsString} {f : Chapter Card → Chapter Card} (h : Sound s) (hf : Counts f) :
    Sound (s.onChapter uuid f) :=
  h.congr (roots_onChapter hf) (Nat.le_refl _)

theorem Sound.setNextTrainablePosition (h : Sound s) : Sound (s.setNextTrainablePosition env) :=
  h.of_repertoire repertoire_setNextTrainablePosition nextRef_setNextTrainablePosition

theorem Sound.deleteLine (h : Sound s) (path : JsString) : Sound (s.deleteLine env path) := by
  cases hc : s.selectedChapter with
  | none => simpa only [TrainerState.deleteLine, hc] using h
  | some chapter =>
      cases henv : env.isAuthenticated with
      | true =>
          rw [deleteLine_signedIn henv hc]
          exact (h.removeLine.send _).jump _
      | false =>
          rw [deleteLine_guest henv hc]
          exact h.removeLine.of_repertoire rfl rfl

theorem Sound.deleteNodeRemote (h : Sound s) (chapterId path : JsString) :
    Sound (s.deleteNodeRemote env chapterId path) := by
  cases hc : s.chapter chapterId with
  | none => simpa only [TrainerState.deleteNodeRemote, hc] using h
  | some chapter =>
      simp only [TrainerState.deleteNodeRemote, hc]
      split
      · exact (h.removeLine.jump _).setNextTrainablePosition
      · exact h.removeLine

theorem Sound.addMove {node : Rose (TrainingData Card)} (h : Sound s) (chapterId path : JsString)
    (h2 : ∀ d ∈ node.labels, d.id.length = 2) : Sound (s.addMove env chapterId path node) := by
  rw [TrainerState.addMove]
  split
  · exact h
  · split
    · exact h.of_repertoire rfl rfl
    · obtain ⟨h1, hn, -⟩ := allocate_spec s.nextRef node
      refine Sound.onChapter (h.push ?_ ?_ ?_ ?_) (Counts.addCounts _ _)
      · omega
      · rw [h1]
        exact List.nodup_range'
      · intro l hl
        exact ⟨(allocate_label hl).1, (allocate_label hl).2.1⟩
      · intro l hl
        exact h2 _ (allocate_label hl).2.2

theorem Sound.pushNew {r : Nat} {d : TrainingData Card} (h : Sound s) (h2 : d.id.length = 2) :
    Sound (s.pushNew r d) := by
  refine h.push (Nat.le_succ _) ?_ ?_ ?_
  · simp
  · intro l hl
    simp only [Rose.labels_node, Rose.labelsList_nil, List.mem_singleton] at hl
    subst hl
    exact ⟨Nat.le_refl _, Nat.lt_succ_self _⟩
  · intro l hl
    simp only [Rose.labels_node, Rose.labelsList_nil, List.mem_singleton] at hl
    subst hl
    exact h2

theorem newMove_id {trainAs san : JsString} {d e : TrainingData Card} (h : newMove chess trainAs d san = some e) :
    e.id.length = 2 := by
  obtain ⟨pos, -, h⟩ := Option.bind_eq_some_iff.mp h
  obtain ⟨move, -, rfl⟩ := Option.map_eq_some_iff.mp h
  exact chess.length_scalachessCharPair move

/-- What the first half of `makeMove` can do. -/
theorem extend_cases {chapter : Chapter Card} {node : TrainableNode Card} {san : JsString}
    (h : s.extend chess env chapter node san = some s') :
    (∃ c ∈ node.children, c.label.data.san = san) ∧ s' = s ∨
    (∀ c ∈ node.children, c.label.data.san ≠ san) ∧ ∃ d, newMove chess chapter.trainAs node.data san = some d ∧
      ∃ n : Int, (n = if d.enabled then 1 else 0) ∧
        s' = ((s.onChapter chapter.uuid (Chapter.addCounts n n)).pushNew node.ref d).send env
          (.moveCreated chapter.uuid s.selectedPath d) := by
  rw [extend] at h
  split at h
  · rename_i hany
    obtain ⟨c, hc, he⟩ := List.any_eq_true.mp hany
    exact Or.inl ⟨⟨c, hc, of_decide_eq_true he⟩, (Option.some.inj h).symm⟩
  · rename_i hany
    obtain ⟨d, hd, rfl⟩ := Option.map_eq_some_iff.mp h
    refine Or.inr ⟨fun c hc he => hany ?_, d, hd, _, rfl, rfl⟩
    exact List.any_eq_true.mpr ⟨c, hc, decide_eq_true he⟩

theorem follow_eq (r : Nat) (san : JsString) : s.follow r san =
    { s with selectedNode := (s.follow r san).selectedNode, selectedPath := (s.follow r san).selectedPath } := by
  rw [follow]
  split
  · split <;> rfl
  · rfl

theorem Sound.follow (h : Sound s) (r : Nat) (san : JsString) : Sound (s.follow r san) := by
  rw [follow_eq]
  exact h.of_repertoire rfl rfl

theorem Sound.extend {chapter : Chapter Card} {node : TrainableNode Card} {san : JsString} (h : Sound s)
    (he : s.extend chess env chapter node san = some s') : Sound s' := by
  rcases extend_cases he with ⟨-, rfl⟩ | ⟨-, d, hd, n, -, rfl⟩
  · exact h
  · exact ((h.onChapter (Counts.addCounts n n)).pushNew (newMove_id hd)).send _

theorem Sound.makeMove (h : Sound s) (san : JsString) : Sound (s.makeMove chess env san) := by
  rw [TrainerState.makeMove]
  split
  · split
    · exact h
    · rename_i he
      exact (h.extend he).follow _ _
  · exact h

theorem Sound.putCard {chapter : Chapter Card} {target : TrainableNode Card} {path : JsString} {card : Card}
    (h : Sound s) : Sound (s.putCard env chapter target path card) := by
  rw [TrainerState.putCard]
  exact (h.setData (g := TrainingData.setCard env.currentUserKey card) fun _ => rfl).send _

theorem Sound.fetchRepertoire {fetched : Option (List (RawChapter Card))} (h : Sound s)
    (h2 : ∀ raw, fetched = some raw → RawTwoUnits raw) : Sound (s.fetchRepertoire env fetched) := by
  cases fetched with
  | none => exact h
  | some raw => exact Sound.setRepertoire (h2 raw rfl)

/-- What becomes of the saved path. -/
theorem recoverPath_cases (s : TrainerState Card) (savedPath : JsString) :
    (∃ root n, s.selectedRoot = some root ∧ nodeAtPathOrNull root savedPath = some n ∧
      s.recoverPath savedPath = s.jump savedPath) ∨
    s.recoverPath savedPath = { s with selectedPath := [], selectedNode := none } := by
  cases hc : s.selectedChapter with
  | none => exact Or.inr (by simp [recoverPath, hc])
  | some chapter =>
      by_cases hf : (savedPath ≠ [] && (nodeAtPathOrNull chapter.root savedPath).isSome) = true
      · obtain ⟨n, hn⟩ := Option.isSome_iff_exists.mp (Bool.and_eq_true_iff.mp hf).2
        refine Or.inl ⟨chapter.root, n, selectedChapter_root hc, hn, ?_⟩
        simp only [recoverPath, hc]
        rw [if_pos hf]
      · refine Or.inr ?_
        simp only [recoverPath, hc]
        rw [if_neg hf]

theorem Sound.restore {savedPath : JsString} {fetched : Option (List (RawChapter Card))} (h : Sound s)
    (h2 : ∀ raw, fetched = some raw → RawTwoUnits raw) : Sound (s.restore env savedPath fetched) := by
  apply Sound.setNextTrainablePosition
  rcases recoverPath_cases (s.fetchRepertoire env fetched) savedPath with ⟨_, _, _, _, hr⟩ | hr <;> rw [hr]
  · exact (h.fetchRepertoire h2).jump _
  · exact (h.fetchRepertoire h2).of_repertoire rfl rfl

/-- Every action keeps the references unique and the ids of two units. -/
theorem Sound.step (h : Sound s) {a : Action Card} (h2 : a.TwoUnits) : Sound (step chess s env a) := by
  cases a with
  | setRepertoire raw => exact Sound.setRepertoire h2
  | jump path => exact h.jump path
  | makeMove san => exact h.makeMove san
  | deleteLine path => exact h.deleteLine path
  | setNextTrainablePosition => exact h.setNextTrainablePosition
  | setCommentAt comment path =>
      simp only [Client.step, TrainerState.setCommentAt]
      split
      · exact h
      · rename_i chapter _
        have hr : Sound (s.startSetCommentAt chapter comment path).1 := h.setData (g := TrainingData.setComment _) fun _ => rfl
        split
        · exact hr.send _
        · exact hr.of_repertoire rfl rfl
  | learn =>
      simp only [Client.step, TrainerState.learn]
      split
      · exact h
      · exact (h.onChapter (Counts.addCounts _ _)).putCard
  | train correct =>
      simp only [Client.step, TrainerState.train]
      split
      · exact h
      · split
        · exact h
        · exact h
        · exact h.putCard
  | addMove chapterId path node => exact h.addMove chapterId path h2
  | deleteNodeRemote chapterId path => exact h.deleteNodeRemote chapterId path
  | setCommentRemote chapterId path comment =>
      simp only [Client.step, TrainerState.setCommentRemote]
      split
      · exact h
      · exact h.setData fun _ => rfl
  | updateTrainingRemote chapterId path username card =>
      simp only [Client.step, TrainerState.updateTrainingRemote]
      split
      · exact h
      · exact h.setData fun _ => rfl
  | finishResync i fetched =>
      simp only [Client.step, TrainerState.finishResync]
      split
      · exact h
      · refine Sound.restore (h.of_repertoire rfl rfl) fun raw hraw => ?_
        subst hraw
        exact h2
  | finishDeleteLine i =>
      rcases finishDeleteLine_cases s env i with he | ⟨msg, path, -, he⟩ <;> rw [Client.step, he]
      · exact h
      · have hs : Sound { s with awaits := s.awaits.eraseIdx i } := h.of_repertoire rfl rfl
        exact (hs.send msg).jump path
  | finishSetCommentAt i counters => cases h2
  | render =>
      simp only [Client.step, TrainerState.render]
      split
      · exact h
      · split
        · exact h
        · exact h.of_repertoire rfl rfl
  | runEffect =>
      simp only [Client.step, TrainerState.runEffect]
      split
      · exact h
      · exact h.of_repertoire rfl rfl
  | selectChapter id => exact h.of_repertoire rfl rfl
  | setTrainingMethod m => exact h.of_repertoire rfl rfl
  | setSearchConfig config => exact h.of_repertoire rfl rfl
  | resyncAndRestore => exact h.of_repertoire rfl rfl

end Chessrepeat.Client
