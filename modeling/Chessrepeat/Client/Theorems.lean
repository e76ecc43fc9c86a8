import Chessrepeat.Lib.Run
import Chessrepeat.Client.Lemmas.Counters
import Chessrepeat.Client.Lemmas.Durable
import Chessrepeat.Client.Lemmas.Loaders
import Chessrepeat.Client.Lemmas.Lookups
import Chessrepeat.Client.Lemmas.Navigation
import Chessrepeat.Client.Lemmas.Pgn
import Chessrepeat.Client.Lemmas.Remote
import Chessrepeat.Client.Lemmas.Shelf

/-!
# What the client guarantees

The selected path and the selected node stay together in every run whose steps are safe. An operation aimed at a
missing path is never rejected; it leaves the repertoire as it is only where the node it falls back to happens to
be as the operation leaves it.
-/

namespace Chessrepeat.Client

open Lib TrainerState

variable {Card : Type}

/-- A run is a list of actions, each with what it reads outside the store. -/
def act (chess : Chessops) (s : TrainerState Card) (a : Env Card × Action Card) : TrainerState Card :=
  step chess s a.1 a.2

/-! ## A first move -/

/-- The rows of a board from the eighth to the fifth, before any of its pieces has moved. -/
def blackHalf : List Char :=
  ['r', 'n', 'b', 'q', 'k', 'b', 'n', 'r', '/', 'p', 'p', 'p', 'p', 'p', 'p', 'p', 'p', '/', '8', '/', '8', '/']

def whiteRow : List Char := ['R', 'N', 'B', 'Q', 'K', 'B', 'N', 'R']

def initialBoard : JsString :=
  Utf16.encode (blackHalf ++ ['8', '/', '8', '/', 'P', 'P', 'P', 'P', 'P', 'P', 'P', 'P', '/'] ++ whiteRow)

def afterE4 : JsString :=
  Utf16.encode (blackHalf ++ ['4', 'P', '3', '/', '8', '/', 'P', 'P', 'P', 'P', '1', 'P', 'P', 'P', '/'] ++ whiteRow ++
    [' ', 'b', ' ', 'K', 'Q', 'k', 'q', ' ', '-', ' ', '0', ' ', '1'])

def sanE4 : JsString := Utf16.encode ['e', '4']

def idE4 : JsString := Utf16.encode ['/', '?']

/-- Chessops, as far as the first move e4 goes: a move is a pair of squares. -/
def firstMove : Chessops where
  Position := JsString
  Move := UInt16 × UInt16
  positionFromFen fen := if fen = initialBoard then some fen else none
  parseSan _ san := if san = sanE4 then some (12, 28) else none
  scalachessCharPair m := [35 + m.1, 35 + m.2]
  makeSanAndPlay _ _ := (sanE4, afterE4)
  makeFen pos := pos
  length_scalachessCharPair _ := rfl

/-- Someone who is not signed in and has no cards. -/
def guest : Env Unit where
  user := none
  socketOpen := false
  now := 0
  due _ := 0
  createCard := ()
  reviewCard c _ := c

def signedIn : Env Unit := { guest with user := some (Utf16.encode ['a', 'n', 'n']) }

def startData : TrainingData Unit := ⟨[], initialBoard, 0, [], [], false, some []⟩

def dataE4 : TrainingData Unit := ⟨idE4, afterE4, 1, sanE4, [], true, some []⟩

def emptyChapter : RawChapter Unit := ⟨[99], [], white, .node startData []⟩

def oneMove : RawChapter Unit := ⟨[99], [], white, .node startData [.node dataE4 []]⟩

/-! ## The selected position -/

/-- No operation of the user starts a resync. -/
theorem resyncs_local (chess : Chessops) (env : Env Card) (s : TrainerState Card) {a : Action Card}
    (h : isLocal a = true) : (step chess s env a).resyncs = s.resyncs := by
  cases a with
  | deleteLine path =>
      cases hc : s.selectedChapter with
      | none => simp only [step, deleteLine, hc]
      | some chapter =>
          cases henv : env.isAuthenticated with
          | true => rw [step, deleteLine_signedIn henv hc, resyncs_jump, resyncs_send, resyncs_of_rest rest_removeLine]
          | false =>
              rw [step, deleteLine_guest henv hc]
              exact (resyncs_of_rest rest_removeLine : (s.removeLine env chapter path).resyncs = s.resyncs)
  | setCommentAt comment path =>
      cases hc : s.selectedChapter with
      | none => simp only [step, setCommentAt, hc]
      | some chapter =>
          simp only [step, setCommentAt, hc]
          split
          · rw [resyncs_send]
            rfl
          · rfl
  | learn =>
      cases ht : s.trainingTarget env with
      | none => simp only [step, learn, ht]
      | some t =>
          simp only [step, learn, ht, putCard]
          rw [resyncs_send]
          rfl
  | train correct =>
      cases ht : s.trainingTarget env with
      | none => simp only [step, train, ht]
      | some t =>
          simp only [step, train, ht]
          split
          · rfl
          · rfl
          · rw [putCard, resyncs_send]
            rfl
  | _ => cases h

/-- An operation aimed at a path that leads nowhere is rejected if and only if it is an event from a peer and leaves
the node it falls back to as it was. -/
theorem rejects_iff {chess : Chessops} {env : Env Card} {s : TrainerState Card} {a : Action Card}
    {chapter : Chapter Card} {path : JsString} (hs : Sound s) (hm : Misses env s a chapter path) :
    Rejects chess env s a ↔ Harmless chapter path a := by
  have haim := hm.aim
  have hlocal : isLocal a = true → ¬Rejects chess env s a := fun hl h => by
    have := h.resyncs hl
    rw [resyncs_local chess env s hl] at this
    exact absurd this (by simp)
  cases a with
  | deleteLine | setCommentAt | learn | train => exact iff_of_false (hlocal rfl) id
  | deleteNodeRemote chapterId p =>
      obtain ⟨c, hc, he⟩ := Option.map_eq_some_iff.mp haim
      cases he
      have hc' : s.chapter chapter.uuid = some chapter := (chapter_mem hc).2.symm ▸ hc
      obtain ⟨hrep, hsent, -⟩ : (step chess s env (.deleteNodeRemote chapterId path)).repertoire = _ ∧ _ :=
        deleteNodeRemote_eq env path hc
      constructor
      · intro h
        constructor
        · exact (repertoire_removeLine_roots hs hc').mp (by rw [roots, ← hrep]; exact h.roots)
        · exact (repertoire_removeLine_counts hc').mp (by rw [← hrep]; exact h.counts)
      · intro h
        refine ⟨?_, ?_, hsent, fun hl => absurd hl Bool.false_ne_true⟩
        · rw [roots, hrep]
          exact (repertoire_removeLine_roots hs hc').mpr h.1
        · rw [hrep]
          exact (repertoire_removeLine_counts hc').mpr h.2
  | setCommentRemote chapterId p comment =>
      obtain ⟨c, hc, he⟩ := Option.map_eq_some_iff.mp haim
      cases he
      have hroots := roots_mutate_eq_iff hs (rootOf_mem (chapter_root hc)) (nodeAtPath_mem_nodes chapter.root path)
        fun n => n.setData (TrainingData.setComment comment n.data)
      rw [setData_eq_self, setComment_eq_self] at hroots
      refine ⟨fun h => hroots.mp ?_, fun h => ⟨?_, ?_, ?_, fun hl => absurd hl Bool.false_ne_true⟩⟩
      · simpa only [step, setCommentRemote, hc, TrainableNode.ref] using h.roots
      · simpa only [step, setCommentRemote, hc, TrainableNode.ref] using hroots.mpr h
      · simpa only [step, setCommentRemote, hc] using counts_mutate _ _
      · simp only [step, setCommentRemote, hc]
        rfl
  | updateTrainingRemote chapterId p username card =>
      obtain ⟨c, hc, he⟩ := Option.map_eq_some_iff.mp haim
      cases he
      have hroots := roots_mutate_eq_iff hs (rootOf_mem (chapter_root hc)) (nodeAtPath_mem_nodes chapter.root path)
        fun n => n.setData (TrainingData.setCard username card n.data)
      rw [setData_eq_self, setCard_eq_self] at hroots
      refine ⟨fun h => hroots.mp ?_, fun h => ⟨?_, ?_, ?_, fun hl => absurd hl Bool.false_ne_true⟩⟩
      · simpa only [step, updateTrainingRemote, hc, TrainableNode.ref] using h.roots
      · simpa only [step, updateTrainingRemote, hc, TrainableNode.ref] using hroots.mpr h
      · simpa only [step, updateTrainingRemote, hc] using counts_mutate _ _
      · simp only [step, updateTrainingRemote, hc]
        rfl
  | _ => cases haim

/-- The store after a chapter with the move e4 was loaded. -/
def loaded : TrainerState Unit := TrainerState.initial.setRepertoire guest [oneMove]

def loadedChapter : Chapter Unit := (parseChapter guest 0 oneMove).1

/-- The path of a move e4 after another move, which the chapter does not have. -/
def pathGone : JsString := Utf16.encode ['W', 'G'] ++ idE4

/-- A peer's comment for it is the comment the root already has. -/
theorem sameComment_rejected : Rejects firstMove guest loaded (.setCommentRemote [99] pathGone []) := by
  have hm : Misses guest loaded (.setCommentRemote [99] pathGone []) loadedChapter pathGone := ⟨rfl, rfl⟩
  have hcomment : (nodeAtPath loadedChapter.root pathGone).data.comment = [] := by decide
  exact (rejects_iff (Sound.setRepertoire (by decide)) hm).mpr hcomment

/-- Deleting the missing line deletes the move that is there. -/
theorem deleteLine_deletesOther :
    Misses guest loaded (.deleteLine pathGone) loadedChapter pathGone ∧
      loaded.roots.map paths = [[[], idE4]] ∧ (loaded.deleteLine guest pathGone).roots.map paths = [[[]]] ∧
      ¬Rejects firstMove guest loaded (.deleteLine pathGone) := by
  refine ⟨⟨rfl, rfl⟩, by decide, by decide, fun h => ?_⟩
  have hstart := h.resyncs rfl
  cases hstart

/-! ## Counters -/

def afterE5 : JsString :=
  Utf16.encode (['r', 'n', 'b', 'q', 'k', 'b', 'n', 'r', '/', 'p', 'p', 'p', 'p', '1', 'p', 'p', 'p', '/', '8', '/', '4',
    'p', '3', '/', '4', 'P', '3', '/', '8', '/', 'P', 'P', 'P', 'P', '1', 'P', 'P', 'P', '/'] ++ whiteRow ++
    [' ', 'w', ' ', 'K', 'Q', 'k', 'q', ' ', '-', ' ', '0', ' ', '2'])

/-- The reply e5, which is not trained with white. -/
def dataE5 : TrainingData Unit :=
  ⟨Utf16.encode ['W', 'G'], afterE5, 2, Utf16.encode ['e', '5'], [], false, some []⟩

/-- While every call that installs chapters does so for the author there is, the chapters are those of the author
whenever no request is outstanding. -/
theorem always_belongs {Raw C : Type} (loader : Loader Raw C) (idb : Idb C) (as : List (LoadAction Raw))
    (h : Meets (Loading.step loader) (Loading.InTurn loader) (.initial idb) as) :
    Always (Loading.step loader) (fun s => s.Idle → s.Belongs) (.initial idb) as := by
  have hkept : Always (Loading.step loader) Loading.Kept (.initial idb) as :=
    Meets.always (fun _ _ hs hc => hs.step hc) (Loading.Kept.initial idb) h
  exact hkept.mono fun _ hs hidle => hs.belongs hidle.not_switching

def ann : JsString := Utf16.encode ['a', 'n', 'n']

def bob : JsString := Utf16.encode ['b', 'o', 'b']

def loader : Loader (List (RawChapter Unit)) (Chapter Unit) := trainerLoader guest (fun _ _ => 0) none

/-- Ann has a session and then looks at what Bob has. -/
def lookedAround : List (LoadAction (List (RawChapter Unit))) :=
  [.fetchRepertoire, .resume 0 (some ⟨some ann, [oneMove]⟩), .resume 0 none, .viewUserRepertoire bob,
    .resume 0 (some ⟨some ann, []⟩), .resume 0 none]

theorem lookedAround_belongs :
    Meets (Loading.step loader) (Loading.InTurn loader) (.initial .empty) lookedAround ∧
      Always (Loading.step loader) (fun s => s.Idle → s.Belongs) (.initial .empty) lookedAround := by
  have h : Meets (Loading.step loader) (Loading.InTurn loader) (.initial .empty) lookedAround := by
    refine ⟨trivial, ⟨?_, rfl⟩, trivial, trivial, ?_, trivial, trivial⟩
    · exact fun ⟨_, _, hmem⟩ => nomatch List.mem_singleton.mp hmem
    · exact fun ⟨_, _, hmem⟩ => nomatch List.mem_singleton.mp hmem
  exact ⟨h, always_belongs loader .empty lookedAround h⟩

/-- Ann's repertoire is fetched once more, but the response comes after that for Bob. -/
def lateResponse : List (LoadAction (List (RawChapter Unit))) :=
  [.fetchRepertoire, .resume 0 (some ⟨some ann, [oneMove]⟩), .resume 0 none, .fetchRepertoire, .viewUserRepertoire bob,
    .resume 1 (some ⟨some ann, []⟩), .resume 1 none, .resume 0 (some ⟨some ann, [oneMove]⟩), .resume 0 none]

/-- In the end Bob is the author of Ann's chapters. -/
theorem lateResponse_strays :
    ¬Always (Loading.step loader) (fun s => s.Idle → s.Belongs) (.initial .empty) lateResponse := by
  intro h
  have hidle : Loading.Idle (run (Loading.step loader) (.initial .empty) lateResponse) := nofun
  have hmem := List.mem_map_of_mem (f := fun r => (r.1, r.2.length)) (h.last hidle).1
  exact absurd hmem (by decide)

/-! ## The playground -/

/-- While no action comes between the writes of another, what is stored restores the chapters of the store whenever
nothing is left to write. -/
theorem always_restored {s : Playground Card} (chess : Chessops) (exampleChapter : Option (RawChapter Card))
    (as : List (Env Card × PlayAction Card)) (h0 : s.Stored) (hj : s.jobs = [])
    (h : Meets (Playground.step chess) (Playground.InTurn chess) s as) :
    Always (Playground.step chess) (fun s => s.Written → (s.hydrated exampleChapter).Perm (s.held exampleChapter)) s as := by
  have hkept : Always (Playground.step chess) Playground.Kept s as :=
    Meets.always (fun _ _ hs hc => hs.step hc) (h0.kept hj) h
  exact hkept.mono fun _ hs hw => (hs.stored_of_written hw).hydrated exampleChapter

def newPlayground : Playground Unit := ⟨.initial, .empty, []⟩

/-- A chapter is added, e4 is made, a comment is set while the move has still to be written, and the chapter gets a
name. -/
def playedAround : List (Env Unit × PlayAction Unit) :=
  [.addNewChapter emptyChapter, .resume 0, .resume 0, .resume 0, .navigate .render, .navigate .runEffect,
    .makeMove sanE4, .setCommentAt [104] [], .resume 1, .resume 1, .resume 1, .resume 0, .renameChapter [99] [100],
    .resume 1, .resume 0].map fun a => (guest, a)

theorem playedAround_restored :
    Meets (Playground.step firstMove) (Playground.InTurn firstMove) newPlayground playedAround ∧
      Always (Playground.step firstMove) (fun s => s.Written → (s.hydrated none).Perm (s.held none)) newPlayground
        playedAround := by
  have h : Meets (Playground.step firstMove) (Playground.InTurn firstMove) newPlayground playedAround := by
    refine ⟨⟨by decide, nofun, rfl, nofun⟩, trivial, trivial, trivial, trivial, trivial, ⟨?_, ?_⟩, ?_, trivial, trivial,
      trivial, trivial, ⟨?_, ?_⟩, trivial, trivial, trivial⟩
    · rintro chapter ⟨⟩
      decide
    · rintro chapter n d ⟨⟩ ⟨⟩
      exact Rose.self_mem_nodes _
    · rintro chapter ⟨⟩
      decide
    · intro j hmem cs
      rw [List.mem_singleton.mp hmem]
      exact nofun
    · intro j hmem c hc
      rw [List.mem_singleton.mp hmem] at hc
      cases hc
  exact ⟨h, always_restored firstMove none playedAround Playground.Stored.initial rfl h⟩

/-- Two chapters are added at once, and each is put into the list of ids that was read before the other. -/
def addedAtOnce : List (Env Unit × PlayAction Unit) :=
  [.addNewChapter emptyChapter, .addNewChapter { emptyChapter with uuid := [100] }, .resume 0, .resume 1, .resume 0,
    .resume 1, .resume 0, .resume 0].map fun a => (guest, a)

/-- One of them is lost. -/
theorem addedAtOnce_lost :
    ¬Always (Playground.step firstMove) (fun s => s.Written → (s.hydrated none).Perm (s.held none)) newPlayground
      addedAtOnce := by
  intro h
  exact absurd (h.last nofun).length_eq (by decide)

/-! ## The search for a move to train -/

/-- The context names the move `target`, which is a child of `n` at the starting path, and which its own path leads to.
The method asks for this move, and it is no deeper than twice the limit. -/
structure Trains (env : Env Card) (root : TrainableNode Card) (method : TrainingMethod) (limit : Int)
    (context : TrainableContext) (n target : TrainableNode Card) : Prop where
  start : nodeAtPathOrNull root context.startingPath = some n
  child : target ∈ n.children
  ref : target.ref = context.targetMove
  found : nodeAtPathOrNull root (context.startingPath ++ target.data.id) = some target
  enabled : target.data.enabled = true
  wanted : Wanted env method target.data
  within : (depth (context.startingPath ++ target.data.id) : Int) ≤ 2 * limit

/-- Whatever the search returns is a move to train. -/
theorem computeNextTrainableNode_sound (env : Env Card) (root : TrainableNode Card) (method : TrainingMethod)
    (search : NodeSearch) (context : TrainableContext) (hd : DistinctIds root) (h2 : TwoUnits root)
    (hlimit : 1 ≤ search.limit) (h : computeNextTrainableNode env root method search = some context) :
    ∃ n target, Trains env root method search.limit context n target := by
  have hentry := computeNextTrainableNode_entry (p := fun e => e.At root ∧ e.Layered search.limit)
    (fun c hc => ⟨DequeEntry.At.first hc, DequeEntry.Layered.first hlimit c⟩)
    (fun e he e' he' => ⟨he.1.below hd h2 e' he', he.2.below h2 he.1 e' he'⟩) h
  obtain ⟨e, ⟨hat, hlayered⟩, htarget, rfl⟩ := hentry
  obtain ⟨henabled, hwanted⟩ := isTarget_iff.mp htarget
  have hfound := hat.target hd h2
  obtain ⟨n, hn, hmem⟩ := hat
  have hdepth : depth (e.pathToHere ++ e.targetNode.data.id) = depth e.pathToHere + 1 :=
    depth_append (h2.even hn) ((h2.node (nodeAtPathOrNull_mem_nodes hn)).id_child hmem)
  refine ⟨n, e.targetNode, hn, hmem, rfl, hfound, henabled, hwanted, ?_⟩
  rw [hdepth, Int.natCast_add]
  exact hlayered.limit

/-- `e4` has been learned. -/
def learnedE4 : TrainingData Unit := { dataE4 with training := some [(playgroundKey, ())] }

/-- The card of `e4` is due. -/
def dueE4 : TrainableNode Unit := .node ⟨0, startData⟩ [.node ⟨1, learnedE4⟩ []]

theorem dueE4_trained : (DistinctIds dueE4 ∧ TwoUnits dueE4) ∧
    ∃ n target, Trains guest dueE4 .recall 1 ⟨[], 1⟩ n target := by
  have hd : DistinctIds dueE4 := by decide
  have h2 : TwoUnits dueE4 := by decide
  refine ⟨⟨hd, h2⟩, computeNextTrainableNode_sound guest dueE4 .recall ⟨.dfs, 1⟩ ⟨[], 1⟩ hd h2 (by decide) ?_⟩
  rw [computeNextTrainableNode, searchFrom]
  rfl

/-- A move to train that is no deeper than twice the limit. The children of the root have depth 1. -/
def Within (limit : Int) (place : List Nat) : Prop := place ≠ [] ∧ (place.length : Int) ≤ limit * 2

/-- Its ancestors below the first move, each counted with the siblings before it, stay under the limit. -/
def Reached (limit : Int) (place : List Nat) : Prop := place ≠ [] ∧ layers place.tail.dropLast < limit * 2 - 1

def MatchesAt (env : Env Card) (method : TrainingMethod) (root : TrainableNode Card) (place : List Nat) : Prop :=
  ∃ n : TrainableNode Card, root.get? place = some n ∧ Matches env method n.data

/-- A move that matches, and whose `training` does not inherit something under the user's name. -/
def IsTargetAt (env : Env Card) (method : TrainingMethod) (root : TrainableNode Card) (place : List Nat) : Prop :=
  ∃ n : TrainableNode Card, root.get? place = some n ∧ Matches env method n.data ∧ ¬ Hides env method n.data

/-- The search comes back empty only where no move within the limit is to be trained. -/
def SearchComplete (env : Env Card) (root : TrainableNode Card) (method : TrainingMethod) (search : NodeSearch) : Prop :=
  computeNextTrainableNode env root method search = none →
    ∀ place, Within search.limit place → ¬ MatchesAt env method root place

/-- It does exactly when, should there be a move to train within the limit, one of them has few enough siblings before
its ancestors, and the user's name does not hide it. -/
theorem searchComplete_iff (env : Env Card) (root : TrainableNode Card) (method : TrainingMethod) (search : NodeSearch)
    (hlimit : 1 ≤ search.limit) : SearchComplete env root method search ↔
      ((∃ place, Within search.limit place ∧ MatchesAt env method root place) →
        ∃ place, Reached search.limit place ∧ IsTargetAt env method root place) := by
  have hnone : computeNextTrainableNode env root method search = none ↔
      ∀ place, Reached search.limit place → ¬ IsTargetAt env method root place := by
    rw [computeNextTrainableNode_eq_none]
    constructor
    · rintro h place ⟨hne, hlayers⟩ ⟨n, hn, htarget⟩
      obtain ⟨i, place, rfl⟩ := List.exists_cons_of_ne_nil hne
      rw [← isTarget_iff_matches, h i place n hn ((opened_zero hlimit).mpr hlayers)] at htarget
      cases htarget
    · intro h i place n hn hopen
      refine Bool.eq_false_iff.mpr fun htarget =>
        h (i :: place) ⟨List.cons_ne_nil i place, ?_⟩ ⟨n, hn, isTarget_iff_matches.mp htarget⟩
      exact (opened_zero hlimit).mp hopen
  rw [SearchComplete, hnone]
  constructor
  · rintro h ⟨place, hwithin, hmatches⟩
    by_contra hno
    exact h (fun p hp ht => hno ⟨p, hp, ht⟩) place hwithin hmatches
  · intro h hall place hwithin hmatches
    obtain ⟨p, hp, ht⟩ := h ⟨place, hwithin, hmatches⟩
    exact hall p hp ht

/-- A move the opponent may make. -/
def reply : TrainingData Unit := ⟨[], [], 2, [], [], false, some []⟩

/-- Three replies to `e4`, and a move that is still to be learned after the reply with `i` siblings before it. -/
def repliesToE4 (answered : Fin 3) : TrainableNode Unit :=
  let answer : TrainableNode Unit := .node ⟨5, dataE4⟩ []
  .node ⟨0, startData⟩ [.node ⟨1, learnedE4⟩ [
    .node ⟨2, reply⟩ (if answered = 0 then [answer] else []),
    .node ⟨3, reply⟩ (if answered = 1 then [answer] else []),
    .node ⟨4, reply⟩ (if answered = 2 then [answer] else [])]]

theorem secondReply_complete : (1 : Int) ≤ 2 ∧ SearchComplete guest (repliesToE4 1) .learn ⟨.bfs, 2⟩ := by
  refine ⟨by decide, (searchComplete_iff guest (repliesToE4 1) .learn ⟨.bfs, 2⟩ (by decide)).mpr fun _ => ?_⟩
  exact ⟨[0, 1, 0], ⟨by decide, by decide⟩, _, rfl, ⟨rfl, rfl⟩, by decide⟩

/-- The third reply is the third to be counted, so what comes after it, at depth 3 of 4, is not looked at. -/
theorem thirdReply_missed : ¬ SearchComplete guest (repliesToE4 2) .learn ⟨.bfs, 2⟩ := by
  intro h
  have hnone : computeNextTrainableNode guest (repliesToE4 2) .learn ⟨.bfs, 2⟩ = none := by
    rw [computeNextTrainableNode]
    iterate 4 rw [searchFrom_skip rfl rfl]
    rw [searchFrom]
    rfl
  exact h hnone [0, 2, 0] ⟨by decide, by decide⟩ ⟨_, rfl, rfl, rfl⟩

/-! ## Events on other chapters -/

/-- Of the events on a chapter in the background only the deletion of a node may be seen, where its path is one of the
selected chapter as well. -/
theorem invisible_iff {s : TrainerState Card} (env : Env Card) {e : RemoteEvent Card} {chapter : Chapter Card}
    (hs : Separate s) (he : Background s e chapter) : Invisible s (s.remote env e) e.chapterId ↔ Undisturbed env s e := by
  obtain ⟨hc, hne, hpath⟩ := he
  cases e with
  | addMove chapterId path node =>
      refine ⟨fun _ => trivial, fun _ => ⟨?_, others_addMove hs hc⟩⟩
      obtain ⟨parent, hparent⟩ := Option.isSome_iff_exists.mp (hpath path rfl)
      have hc : s.chapter chapterId = some chapter := hc
      simp only [remote, addMove, hc, hparent]
      rfl
  | deleteNodeRemote chapterId path =>
      refine Iff.trans ⟨Invisible.view, fun hview => ⟨hview, others_deleteNodeRemote hs hc⟩⟩ ?_
      exact view_deleteNodeRemote hs hc hne
  | setCommentRemote chapterId path comment =>
      have hc : s.chapter chapterId = some chapter := hc
      simp only [remote, setCommentRemote, hc]
      exact ⟨fun _ => trivial, fun _ => ⟨rfl, others_mutate hs hc (nodeAtPath_mem_nodes _ _) _⟩⟩
  | updateTrainingRemote chapterId path username card =>
      have hc : s.chapter chapterId = some chapter := hc
      simp only [remote, updateTrainingRemote, hc]
      exact ⟨fun _ => trivial, fun _ => ⟨rfl, others_mutate hs hc (nodeAtPath_mem_nodes _ _) _⟩⟩
  | deleteChapterRemote chapterId =>
      exact ⟨fun _ => trivial, fun _ => ⟨view_deleteChapterRemote hne, others_deleteChapterRemote⟩⟩

/-- Two repertoires in which e4 is the first move. The first chapter is selected. -/
def twoLoaded : TrainerState Unit := TrainerState.initial.setRepertoire guest [oneMove, { oneMove with uuid := [100] }]

theorem twoLoaded_separate : Separate twoLoaded := by decide

def secondChapter : Chapter Unit := (parseChapter guest 2 { oneMove with uuid := [100] }).1

theorem deletedInBackground_invisible : Separate twoLoaded ∧
    Background twoLoaded (.deleteNodeRemote [100] idE4) secondChapter ∧
      Invisible twoLoaded (twoLoaded.remote guest (.deleteNodeRemote [100] idE4)) [100] := by
  have hb : Background twoLoaded (.deleteNodeRemote [100] idE4) secondChapter := by
    refine ⟨rfl, by decide, ?_⟩
    rintro path ⟨⟩
    decide
  exact ⟨twoLoaded_separate, hb, (invisible_iff guest twoLoaded_separate hb).mpr fun h => absurd h (by decide)⟩

/-- Where e4 is selected in the first chapter, deleting it from the second selects the root of the first. -/
theorem deletedInBackground_strays : Separate (twoLoaded.jump idE4) ∧
    Background (twoLoaded.jump idE4) (.deleteNodeRemote [100] idE4) secondChapter ∧
      ¬ Invisible (twoLoaded.jump idE4) ((twoLoaded.jump idE4).remote guest (.deleteNodeRemote [100] idE4)) [100] := by
  refine ⟨by decide, ⟨rfl, by decide, ?_⟩, fun h => ?_⟩
  · rintro path ⟨⟩
    decide
  · exact absurd (congrArg View.selectedPath h.view) (by decide)

/-! ## Imported games -/

section Imported

variable {lib : ChessLib} {pgn : PgnLibrary} {next next' : Nat} {rawPgn color name uuid : JsString} {c : Chapter Card}

/-- The moves of an imported chapter are known when they are played, if and only if the PGN writes all its moves as
chessops does. -/
theorem recognised_iff (h : lib.Lawful) (hcolor : color = white ∨ color = black) {game : Game} {games : List Game}
    (hparse : pgn.parsePgn rawPgn = some (game :: games))
    (hc : chapterFromPgn (pgn.toPgn lib) next rawPgn color name uuid = some (c, next')) :
    Recognised lib c ↔ game.Canonical lib := by
  obtain ⟨game', games', hparse', hmade, -⟩ := exists_madeFrom hcolor hc
  rw [hparse] at hparse'
  cases hparse'
  have hplayed := hmade.playedSan h hcolor
  constructor
  · intro hrec f hf data hdata move hmove
    obtain ⟨parent, hparent, hchildren⟩ := exists_of_mem_forall₂ hplayed hf
    obtain ⟨n, hn, move', hmove', hsan, hiff⟩ := exists_of_mem_forall₂ hchildren.flip hdata
    obtain rfl : move = move' := Option.some.inj (hmove.symm.trans hmove')
    rw [← hsan]
    exact hrec.canonical parent hparent n hn _ ((hiff _).mpr rfl)
  · intro hcanonical
    have hsame : ∀ parent ∈ c.root.nodes, ∀ n ∈ parent.children, ∀ san, PlayedSan lib parent n san →
        san = n.label.data.san := by
      intro parent hparent n hn san hsan
      obtain ⟨f, hf, hchildren⟩ := exists_of_mem_forall₂ hplayed.flip hparent
      obtain ⟨data, hdata, move, hmove, hdatasan, hiff⟩ := exists_of_mem_forall₂ hchildren hn
      rw [(hiff san).mp hsan, hdatasan]
      exact hcanonical f hf data hdata move hmove
    refine ⟨hsame, fun parent hparent n hn san hsan s path hs hmethod hpath hcontext hderef => ?_,
      fun parent hparent n hn san hsan s env hs hselected => ?_⟩
    · rw [hsame parent hparent n hn san hsan]
      exact guess_target hs hmethod hpath hcontext hderef hn
    · rw [hsame parent hparent n hn san hsan]
      exact makeMove_known _ env hs hselected hn

end Imported

/-- The initial position. -/
def startFen : JsString :=
  initialBoard ++ Utf16.encode [' ', 'w', ' ', 'K', 'Q', 'k', 'q', ' ', '-', ' ', '0', ' ', '1']

/-- What is read of the board alone. -/
def boardFen : JsString := initialBoard ++ Utf16.encode [' ', 'w', ' ', '-', ' ', '-', ' ', '0', ' ', '1']

def afterNf3 : JsString :=
  Utf16.encode (blackHalf ++ ['8', '/', '5', 'N', '2', '/', 'P', 'P', 'P', 'P', 'P', 'P', 'P', 'P', '/',
    'R', 'N', 'B', 'Q', 'K', 'B', '1', 'R', ' ', 'b', ' ', 'K', 'Q', 'k', 'q', ' ', '-', ' ', '1', ' ', '1'])

def sanNf3 : JsString := Utf16.encode ['N', 'f', '3']

def sanE5 : JsString := Utf16.encode ['e', '5']

/-- The same move, with the square the knight comes from. -/
def sanNg1f3 : JsString := Utf16.encode ['N', 'g', '1', 'f', '3']

/-- From e2 to e4. -/
def squaresE4 : Fin 64 × Fin 64 := (12, 28)

/-- From g1 to f3. -/
def squaresNf3 : Fin 64 × Fin 64 := (6, 21)

/-- Chessops, as far as the first moves e4 and Nf3 and the reply e5 go: a move is a pair of squares. -/
abbrev opening : ChessLib where
  Position := JsString
  Move := Fin 64 × Fin 64
  Setup := JsString
  initialFen := startFen
  initialBoardFen := initialBoard
  defaultPosition := startFen
  parseFen fen := if fen = initialBoard then some boardFen else if fen ∈ [startFen, afterE4, afterNf3, afterE5] then some fen else none
  makeFen setup := setup
  fromSetup setup := some setup
  toSetup pos := pos
  play _ move := if move = (6, 21) then afterNf3 else if move = (52, 36) then afterE5 else afterE4
  parseSan pos san :=
    if pos = startFen then
      if san = sanE4 then some (12, 28) else if san = sanNf3 ∨ san = sanNg1f3 then some (6, 21) else none
    else if pos = afterE4 ∧ san = sanE5 then some (52, 36) else none
  makeSanAndPlay _ move :=
    if move = (6, 21) then (sanNf3, afterNf3) else if move = (52, 36) then (sanE5, afterE5) else (sanE4, afterE4)
  parseUci uci :=
    if uci = Utf16.encode ['e', '2', 'e', '4'] then some (12, 28)
    else if uci = Utf16.encode ['g', '1', 'f', '3'] then some (6, 21)
    else if uci = Utf16.encode ['e', '7', 'e', '5'] then some (52, 36) else none
  scalachessCharPair move := [UInt16.ofNat (35 + move.1), UInt16.ofNat (35 + move.2)]
  length_scalachessCharPair _ := rfl

theorem parseSan_opening {pos san : JsString} {move : Fin 64 × Fin 64} (h : opening.parseSan pos san = some move) :
    pos = startFen ∧ (move = (12, 28) ∨ move = (6, 21)) ∨ pos = afterE4 ∧ move = (52, 36) := by
  change (if pos = startFen then
      if san = sanE4 then some (12, 28) else if san = sanNf3 ∨ san = sanNg1f3 then some (6, 21) else none
    else if pos = afterE4 ∧ san = sanE5 then some (52, 36) else none) = some move at h
  split at h
  · refine .inl ⟨‹_›, ?_⟩
    split at h
    · exact .inl (Option.some.inj h).symm
    · split at h
      · exact .inr (Option.some.inj h).symm
      · cases h
  · split at h
    · exact .inr ⟨And.left ‹_›, (Option.some.inj h).symm⟩
    · cases h

theorem reached_opening {pos : opening.Position} (h : opening.Reached pos) :
    pos ∈ [startFen, afterE4, afterNf3, afterE5] := by
  cases h with
  | start => exact List.mem_cons_self
  | play _ legal =>
      rcases parseSan_opening legal with ⟨-, rfl | rfl⟩ | ⟨-, rfl⟩
      · exact List.mem_cons_of_mem _ List.mem_cons_self
      · exact List.mem_cons_of_mem _ (List.mem_cons_of_mem _ List.mem_cons_self)
      · exact List.mem_cons_of_mem _ (List.mem_cons_of_mem _ (List.mem_cons_of_mem _ List.mem_cons_self))

theorem opening_lawful : opening.Lawful where
  initial := ⟨startFen, by decide, rfl⟩
  board := ⟨boardFen, by decide, fun _ _ _ => rfl⟩
  trimmed := by decide
  printed := by
    intro pos hpos
    refine ⟨pos, ?_, rfl⟩
    have hset : ∀ pos ∈ [startFen, afterE4, afterNf3, afterE5], opening.setUp (opening.fen pos) = some pos := by decide
    exact hset pos (reached_opening hpos)
  whole := by
    intro pos hpos
    have htrim : ∀ pos ∈ [startFen, afterE4, afterNf3, afterE5], trim (opening.fen pos) ≠ opening.initialBoardFen := by decide
    exact htrim pos (reached_opening hpos)
  parseSan := by
    intro pos pos' _ hfen
    exact congrArg opening.parseSan hfen
  makeSan := fun _ _ _ => rfl
  played := by
    intro pos pos' san move _ _ hmove
    rcases parseSan_opening hmove with ⟨-, rfl | rfl⟩ | ⟨-, rfl⟩
    · rfl
    · rfl
    · rfl
  uci := by
    intro pos san move _ hmove
    rcases parseSan_opening hmove with ⟨-, rfl | rfl⟩ | ⟨-, rfl⟩
    · exact ⟨Utf16.encode ['e', '2'], Utf16.encode ['e', '4'], none, by decide⟩
    · exact ⟨Utf16.encode ['g', '1'], Utf16.encode ['f', '3'], none, by decide⟩
    · exact ⟨Utf16.encode ['e', '7'], Utf16.encode ['e', '5'], none, by decide⟩
  plain := by
    intro move u hu
    have hplain : ∀ i : Fin 64, Utf16.isSurrogate (UInt16.ofNat (35 + i)) = false := by decide
    rcases List.mem_cons.mp hu with rfl | hu
    · exact hplain _
    · rw [List.mem_singleton.mp hu]
      exact hplain _

/-- The headers of a PGN that has none. -/
def defaultHeaders : List (JsString × JsString) :=
  [(['E', 'v', 'e', 'n', 't'], ['?']), (['S', 'i', 't', 'e'], ['?']),
    (['D', 'a', 't', 'e'], ['?', '?', '?', '?', '.', '?', '?', '.', '?', '?']), (['R', 'o', 'u', 'n', 'd'], ['?']),
    (['W', 'h', 'i', 't', 'e'], ['?']), (['B', 'l', 'a', 'c', 'k'], ['?']),
    (['R', 'e', 's', 'u', 'l', 't'], ['*'])].map fun h => (Utf16.encode h.1, Utf16.encode h.2)

/-- A game of first moves. -/
def firstMoves (sans : List JsString) : Game :=
  ⟨defaultHeaders, none, sans.map fun san => .node ⟨⟨san, none⟩, none, none⟩ []⟩

def pgnE4 : JsString := Utf16.encode ['1', '.', ' ', 'e', '4', ' ', '*']

def pgnNg1f3 : JsString := Utf16.encode ['1', '.', ' ', 'N', 'g', '1', 'f', '3', ' ', '*']

/-- A variation that begins with the move it is a variation of. -/
def pgnTwice : JsString := Utf16.encode ['1', '.', ' ', 'e', '4', ' ', '(', ' ', '1', '.', ' ', 'e', '4', ' ', ')', ' ', '*']

/-- A comment before the first move. -/
def pgnCommented : JsString := Utf16.encode ['{', ' ', 'c', ' ', '}', ' '] ++ pgnE4

/-- The PGN of a chapter without a name. -/
def exportedE4 : JsString :=
  Utf16.encode ['['] ++ PgnLibrary.chapterNameHeader ++ Utf16.encode [' ', '"', '"', ']', '\n', '\n'] ++ pgnE4 ++
    Utf16.encode ['\n']

/-- A reply, a comment after e4, and a variation with a comment before its first move. -/
def sideline : Game :=
  ⟨defaultHeaders, none,
    [.node ⟨⟨sanE4, some [Utf16.encode ['x']]⟩, none, none⟩ [.node ⟨⟨sanE5, none⟩, none, none⟩ []],
      .node ⟨⟨sanNf3, none⟩, some [Utf16.encode ['y']], none⟩ []]⟩

def pgnSideline : JsString :=
  Utf16.encode (['1', '.', ' ', 'e', '4', ' ', '{', ' ', 'x', ' ', '}', ' ', '(', ' ', '{', ' ', 'y', ' ', '}', ' ',
    '1', '.', ' ', 'N', 'f', '3', ' ', ')', ' ', '1', '.', '.', '.', ' ', 'e', '5', ' ', '*'])

def exportedSideline : JsString :=
  Utf16.encode ['['] ++ PgnLibrary.chapterNameHeader ++ Utf16.encode [' ', '"', '"', ']', '\n', '\n'] ++ pgnSideline ++
    Utf16.encode ['\n']

/-- The games of some PGNs. -/
def openingGames : List (JsString × Game) :=
  [(pgnE4, firstMoves [sanE4]), (pgnNg1f3, firstMoves [sanNg1f3]), (pgnTwice, firstMoves [sanE4, sanE4]),
    (pgnCommented, { firstMoves [sanE4] with comments := some [Utf16.encode ['c']] }),
    (exportedE4, { firstMoves [sanE4] with headers := defaultHeaders ++ [(PgnLibrary.chapterNameHeader, [])] }),
    (pgnSideline, sideline),
    (exportedSideline, { sideline with headers := defaultHeaders ++ [(PgnLibrary.chapterNameHeader, [])] })]

/-- A chapter with e4, and one with the sideline, are all that is written. -/
def openingPgn : PgnLibrary :=
  depthFirst (fun text => (openingGames.lookup text).map fun game => [game]) fun game =>
    if game.moves.length = 1 then exportedE4 else exportedSideline

/-- The chapter with e4. -/
def importedE4 : Chapter Unit := ⟨[99], [], white, (allocate 0 (.node startData [.node dataE4 []])).1, 1, 1, 0⟩

/-- The chapter with the sideline. -/
def importedSideline : Chapter Unit :=
  ⟨[99], [], white, (allocate 0 (.node startData
    [.node { dataE4 with comment := Utf16.encode ['x'] } [.node dataE5 []],
      .node ⟨Utf16.encode [')', '8'], afterNf3, 1, sanNf3, [], true, some []⟩ []])).1, 2, 2, 0⟩

theorem parsePgn_pgnSideline : openingPgn.parsePgn pgnSideline = some [sideline] := by
  rfl

theorem chapterFromPgn_pgnSideline :
    chapterFromPgn (openingPgn.toPgn opening) 0 pgnSideline white [] [99] = some (importedSideline, 4) := by
  rfl

theorem siblings_sideline : sideline.siblings opening =
    [(startFen, sideline.moves.map Rose.label), (afterE4, [⟨⟨sanE5, none⟩, none, none⟩]), (afterE5, []), (afterNf3, [])] := by
  rfl

theorem parsePgn_pgnE4 : openingPgn.parsePgn pgnE4 = some [firstMoves [sanE4]] := by
  rfl

theorem chapterFromPgn_pgnE4 : chapterFromPgn (openingPgn.toPgn opening) 0 pgnE4 white [] [99] = some (importedE4, 2) := by
  rfl

theorem siblings_e4 : (firstMoves [sanE4]).siblings opening = [(startFen, [⟨⟨sanE4, none⟩, none, none⟩]), (afterE4, [])] := by
  rfl

theorem forall_siblings_e4 {p : opening.Position × List GameNodeData → Prop}
    (first : p (startFen, [⟨⟨sanE4, none⟩, none, none⟩])) (last : p (afterE4, [])) :
    ∀ f ∈ (firstMoves [sanE4]).siblings opening, p f := by
  intro f hf
  rw [siblings_e4] at hf
  rcases List.mem_cons.mp hf with rfl | hf
  · exact first
  · rw [List.mem_singleton.mp hf]
    exact last

theorem importedE4_recognised : Recognised opening importedE4 := by
  have hcanonical : (firstMoves [sanE4]).Canonical opening := by
    refine forall_siblings_e4 (fun data hdata move hmove => ?_) nofun
    cases List.mem_singleton.mp hdata
    cases hmove
    rfl
  exact (recognised_iff opening_lawful (.inl rfl) parsePgn_pgnE4 chapterFromPgn_pgnE4).mpr hcanonical

/-- The chapter with Nf3, in the spelling of its PGN. -/
def importedNf3 : Chapter Unit :=
  ⟨[99], [], white, (allocate 0 (.node startData
    [.node ⟨Utf16.encode [')', '8'], afterNf3, 1, sanNg1f3, [], true, some []⟩ []])).1, 1, 1, 0⟩

/-- Played on the board, the move is spelled Nf3. -/
theorem importedNf3_unrecognised : opening.Lawful ∧
    chapterFromPgn (openingPgn.toPgn opening) 0 pgnNg1f3 white [] [99] = some (importedNf3, 2) ∧
      ¬Recognised opening importedNf3 := by
  refine ⟨opening_lawful, rfl, fun h => ?_⟩
  have hplayed : PlayedSan opening importedNf3.root
      (.node ⟨1, ⟨Utf16.encode [')', '8'], afterNf3, 1, sanNg1f3, [], true, some []⟩⟩ []) sanNf3 :=
    ⟨(6, 21), Utf16.encode ['g', '1'], Utf16.encode ['f', '3'], none, rfl, rfl, rfl⟩
  have hsan := h.canonical _ (Rose.self_mem_nodes _) _ List.mem_cons_self _ hplayed
  exact absurd hsan (by decide)

section Imported

variable {lib : ChessLib} {pgn : PgnLibrary} {next next' : Nat} {rawPgn color name uuid : JsString} {c : Chapter Card}

/-- A line that is entered on the board gives the moves that the import has made of it; a move is as deep as its ply says,
and enabled where the trained side plays it. -/
theorem import_agrees (h : lib.Lawful) (hcolor : color = white ∨ color = black)
    (hc : chapterFromPgn (pgn.toPgn lib) next rawPgn color name uuid = some (c, next')) :
    (∀ n d, Entered lib.chessops c.trainAs c.root n d → SameMove n.label.data d ∧
      ∀ m ∈ n.children, ∃ d', newMove lib.chessops c.trainAs d m.label.data.san = some d' ∧
        Entered lib.chessops c.trainAs c.root m d') ∧
    (∀ place n, c.root.get? place = some n → n.label.data.ply = place.length ∧
      (n.label.data.enabled = true ↔ place ≠ [] ∧ mover place.length = c.trainAs)) ∧
    c.enabledCount = countEnabled c.root := by
  obtain ⟨game, games, -, hmade, rfl, hcount⟩ := exists_madeFrom hcolor hc
  refine ⟨fun n d hd => ?_, fun place n hn => ?_, ?_⟩
  · have hsame := hmade.entered h hcolor hd
    refine ⟨hsame, fun m hm => ?_⟩
    obtain ⟨d', hmade', -⟩ := hmade.newMove h hcolor hd.mem_nodes hm hsame rfl
    exact ⟨d', hmade', .move hd hm rfl hmade'⟩
  · obtain ⟨hply, henabled⟩ := hmade.ply h hcolor (Rose.self_mem_nodes c.root) hn
    rw [hmade.label, rootData, Int.zero_add] at hply
    refine ⟨hply, ?_⟩
    cases place with
    | nil =>
        cases hn
        rw [hmade.label]
        simp [rootData]
    | cons i place =>
        rw [henabled (List.cons_ne_nil i place), hply, colorFromPly_natCast]
        exact (and_iff_right (List.cons_ne_nil i place)).symm
  · exact hcount

end Imported

theorem importedSideline_agrees :
    (∀ n d, Entered opening.chessops importedSideline.trainAs importedSideline.root n d → SameMove n.label.data d ∧
      ∀ m ∈ n.children, ∃ d', newMove opening.chessops importedSideline.trainAs d m.label.data.san = some d' ∧
        Entered opening.chessops importedSideline.trainAs importedSideline.root m d') ∧
    (∀ place n, importedSideline.root.get? place = some n → n.label.data.ply = place.length ∧
      (n.label.data.enabled = true ↔ place ≠ [] ∧ mover place.length = importedSideline.trainAs)) ∧
    importedSideline.enabledCount = countEnabled importedSideline.root :=
  import_agrees opening_lawful (.inl rfl) chapterFromPgn_pgnSideline

section Exported

variable {lib : ChessLib} {pgn : PgnLibrary} {next : Nat} {rawPgn color name uuid : JsString}

/-- What is exported of a PGN and parsed again is the same game with all its texts, if and only if there is no text before
the first move. -/
theorem export_keeps_iff (Card : Type) (hcolor : color = white ∨ color = black) {game : Game} {games : List Game}
    (hparse : pgn.parsePgn rawPgn = some (game :: games)) (hlegal : game.Legal lib) (hbraces : game.Unbraced)
    (hinverse : ∀ moves : List (Rose (PgnLibrary.ImportedData Card)), pgn.importMoves lib rawPgn color = some moves →
      pgn.Inverse lib (PgnLibrary.exported name moves)) :
    (∃ game', pgn.Reparsed Card lib next rawPgn color name uuid game' ∧ game.KeptBy game') ↔
      ∀ text ∈ game.comments.getD [], text = [] := by
  have hne := color_ne_nil hcolor
  have hsome : (Rose.threadList (@importAll Card lib) ⟨color = white, 0, lib.defaultPosition⟩ game.moves).isSome := hlegal.isSome color
  obtain ⟨moves, hmoves⟩ := Option.isSome_iff_exists.mp hsome
  have himport : pgn.importMoves lib rawPgn color = some moves := (importMoves_eq hparse hne).trans hmoves
  have hexported : PgnLibrary.exported name moves =
      ⟨[(PgnLibrary.chapterNameHeader, name)], none, Rose.mapList exportData game.moves⟩ := by
    rw [PgnLibrary.exported, mapList_exportNode hmoves]
  obtain ⟨game', hgame', hcomments, hplain⟩ := hinverse moves himport (hexported ▸ hlegal.exportData _ _)
    (hexported ▸ hbraces.exportData _)
  rw [hexported] at hcomments hplain
  obtain ⟨hsans, hnodes⟩ := nodes_keptBy hplain
  have hchapter := @chapterFromPgn_eq Card lib pgn game games next rawPgn color name uuid hparse hne
  rw [importList_eq, hmoves] at hchapter
  constructor
  · rintro ⟨game'', ⟨c, next', moves', text, hc, himport', -, htext, hparse'⟩, hkept⟩ t ht
    obtain rfl : moves = moves' := Option.some.inj (himport.symm.trans himport')
    obtain rfl : name = c.name := by
      rw [hchapter] at hc
      cases hc
      rfl
    rw [pgnFromChapter_eq, hexported] at htext
    rw [hexported, Option.some.inj htext, hparse'] at hgame'
    cases hgame'
    rcases hkept.before t ht with hempty | ⟨comment, hcomment, -⟩
    · exact hempty
    · rw [hcomments] at hcomment
      cases hcomment
  · intro hnone
    refine ⟨game', ⟨_, _, moves, _, hchapter, himport, ?_, pgnFromChapter_eq name moves, hgame'⟩, hsans, fun t ht => ?_, hnodes⟩
    · have hdata := (allocate_spec next (Rose.node (rootData lib : TrainingData Card) (Rose.mapList Prod.fst moves))).2.2
      have hchildren := congrArg Rose.children hdata
      rwa [Rose.children_map] at hchildren
    · exact .inl (hnone t ht)

end Exported

/-- The moves of the chapter with e4. -/
def movesE4 : List (Rose (PgnLibrary.ImportedData Unit)) := [.node (dataE4, ⟨⟨sanE4, none⟩, none, none⟩) []]

theorem legal_e4 : (firstMoves [sanE4]).Legal opening := by
  refine forall_siblings_e4 (fun data hdata => ?_) nofun
  rw [List.mem_singleton.mp hdata]
  rfl

theorem unbraced_e4 : (firstMoves [sanE4]).Unbraced := by
  refine ⟨nofun, fun data hdata text htext => ?_, fun data hdata text htext => ?_⟩
  · cases List.mem_singleton.mp hdata
    cases htext
  · cases List.mem_singleton.mp hdata
    cases htext

theorem inverse_e4 : openingPgn.Inverse opening (PgnLibrary.exported [] movesE4) := fun _ _ => ⟨_, rfl, rfl, rfl⟩

theorem legal_sideline : sideline.Legal opening := by
  rw [Game.Legal, siblings_sideline]
  decide

theorem unbraced_sideline : sideline.Unbraced := ⟨by decide, by decide, by decide⟩

/-- Both comments are kept. -/
theorem pgnSideline_kept :
    ∃ game', openingPgn.Reparsed Unit opening 0 pgnSideline white [] [99] game' ∧ sideline.KeptBy game' := by
  refine (export_keeps_iff Unit (.inl rfl) parsePgn_pgnSideline legal_sideline unbraced_sideline fun moves hmoves => ?_).mpr nofun
  cases hmoves
  exact fun _ _ => ⟨_, rfl, rfl, rfl⟩

def commentedE4 : Game := { firstMoves [sanE4] with comments := some [Utf16.encode ['c']] }

/-- The comment is not in the export. -/
theorem pgnCommented_lost : openingPgn.parsePgn pgnCommented = some [commentedE4] ∧ commentedE4.Legal opening ∧
    commentedE4.Unbraced ∧ (∀ moves : List (Rose (PgnLibrary.ImportedData Unit)),
      openingPgn.importMoves opening pgnCommented white = some moves →
        openingPgn.Inverse opening (PgnLibrary.exported [] moves)) ∧
      ¬∃ game', openingPgn.Reparsed Unit opening 0 pgnCommented white [] [99] game' ∧ commentedE4.KeptBy game' := by
  refine ⟨rfl, legal_e4, ⟨by decide, unbraced_e4.starting, unbraced_e4.after⟩, fun moves hmoves => ?_, ?_⟩
  · cases hmoves
    exact inverse_e4
  · rintro ⟨game', ⟨c, next', moves, text, -, himport, -, htext, hparse⟩, hkept⟩
    cases himport
    rw [pgnFromChapter_eq] at htext
    obtain rfl : exportedE4 = text := Option.some.inj htext
    cases hparse
    rcases hkept.before (Utf16.encode ['c']) List.mem_cons_self with hnone | ⟨_, hcomment, -⟩
    · cases hnone
    · cases hcomment

/-! ## Lookups -/

/-- The path of a line leads along that line, and along any path the lookups go as far as it exists. -/
theorem lookups_agree {root : TrainableNode Card} (h2 : TwoUnits root) (hd : DistinctIds root) :
    (∀ nodes, Rose.Line root nodes → getNodeList root (fromNodeList nodes) = root :: nodes) ∧
      ∀ path, ∃ nodes, getNodeList root path = root :: nodes ∧ LongestPrefix root path nodes ∧
        (getNodeList root path).getLast? = some (nodeAtPath root path) ∧
          nodeAtPathOrNull root path = if fromNodeList nodes = path then some (nodeAtPath root path) else none := by
  constructor
  · intro nodes hl
    exact getNodeList_fromNodeList h2 (hd.found hl)
  · intro path
    refine ⟨(getNodeList root path).tail, Rose.chain_eq_cons root _, longestPrefix_getNodeList hd path, ?_, ?_⟩
    · exact getLast?_getNodeList root path
    · exact nodeAtPathOrNull_eq_nodeAtPath h2 path

theorem importedSideline_lookups :
    (∀ nodes, Rose.Line importedSideline.root nodes →
      getNodeList importedSideline.root (fromNodeList nodes) = importedSideline.root :: nodes) ∧
      ∀ path, ∃ nodes, getNodeList importedSideline.root path = importedSideline.root :: nodes ∧
        LongestPrefix importedSideline.root path nodes ∧
          (getNodeList importedSideline.root path).getLast? = some (nodeAtPath importedSideline.root path) ∧
            nodeAtPathOrNull importedSideline.root path =
              if fromNodeList nodes = path then some (nodeAtPath importedSideline.root path) else none :=
  lookups_agree (by decide) (by decide)

/-! ## The selected chapter -/

/-- The selected chapter is on the shelf. A deletion takes off its chapter and no other, and changes what is selected only where
that chapter was. -/
theorem always_selected (localeCompare : JsString → JsString → Int) {store : TrainerState Card} {idb : Idb (Chapter Card)}
    {as : List (Bool × ShelfAction Card)} (hempty : store.repertoire = []) (hnone : store.selectedChapterId = none)
    (hidb : Stored idb) (h : Meets (Shelf.step localeCompare) Shelf.Allowed ⟨store, idb, []⟩ as) :
    Always (Shelf.step localeCompare) (fun s => Selected s.store ∧ ∀ isAuthenticated id,
      Deletes id s.store (s.step localeCompare (isAuthenticated, .deleteChapterAt id)).store ∧
        Deletes id s.store (s.step localeCompare (isAuthenticated, .deleteChapterRemote id)).store) ⟨store, idb, []⟩ as := by
  have hinit : Orderly (⟨store, idb, []⟩ : Shelf Card) := by
    refine { selected := Selected.of_head ?_, distinct := ?_, stored := hidb, calls := nofun }
    · rw [hnone, hempty]
      rfl
    · rw [uuids, hempty]
      exact List.nodup_nil
  have hinv : Always (Shelf.step localeCompare) Orderly ⟨store, idb, []⟩ as :=
    h.always (fun s a hs ha => hs.step localeCompare ha) hinit
  exact hinv.mono fun s hs => ⟨hs.selected, hs.deletes localeCompare⟩

def blackE4 : Chapter Unit := { importedE4 with uuid := [100], trainAs := black }

/-- Two chapters are added, the second is selected, and both are deleted before IndexedDB lists any. So the example is
added. -/
def shelved : List (Bool × ShelfAction Unit) :=
  [(false, .addNewChapterLocally importedE4), (false, .addNewChapterLocally blackE4), (false, .setSelectedChapterId [100]),
    (false, .resume 0 none), (false, .deleteChapterAt [100]), (false, .deleteChapterRemote [99]),
    (false, .hydrateRepertoireFromIDB), (false, .resume 3 none), (false, .resume 3 (some importedE4))]

theorem shelved_selected :
    ((run (Shelf.step fun _ _ => 0) ⟨TrainerState.initial, Idb.empty, []⟩ shelved).store.selectedChapterId = some [99]) ∧
    Always (Shelf.step fun _ _ => 0) (fun s => Selected s.store ∧ ∀ isAuthenticated id,
      Deletes id s.store (s.step (fun _ _ => 0) (isAuthenticated, .deleteChapterAt id)).store ∧
        Deletes id s.store (s.step (fun _ _ => 0) (isAuthenticated, .deleteChapterRemote id)).store)
      ⟨TrainerState.initial, Idb.empty, []⟩ shelved := by
  refine ⟨rfl, always_selected (fun _ _ => 0) rfl rfl Stored.empty ?_⟩
  refine ⟨⟨by decide, .inl rfl⟩, ⟨by decide, .inr rfl⟩, (by decide : ([100] : JsString) ∈ _), nofun, trivial, trivial, trivial,
    nofun, fun chapter hchapter => ?_, trivial⟩
  cases hchapter
  exact ⟨by decide, rfl⟩

/-! ## Training through a chapter -/

end Chessrepeat.Client
