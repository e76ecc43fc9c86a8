import Chessrepeat.Client.Training

/-!
# store/state.ts

The trainer store and its actions. Every action runs to its end before another starts, but for
`resyncAndRestore`, which waits for the network, `deleteLine` and `setCommentAt` of someone who is not signed in,
which wait for IndexedDB, and the effect of `Chessrepeat.tsx`, which React runs after a render; those are two steps
each. What an action writes to IndexedDB is left out.
-/

namespace Chessrepeat.Client

open Lib

variable {Card : Type}

/-- The functions of chessops that `makeMove` calls. -/
structure Chessops where
  Position : Type
  Move : Type
  positionFromFen : JsString → Option Position
  parseSan : Position → JsString → Option Move
  scalachessCharPair : Move → JsString
  makeSanAndPlay : Position → Move → JsString × Position
  makeFen : Position → JsString
  length_scalachessCharPair : ∀ m, (scalachessCharPair m).length = 2

/-- The messages the store sends. -/
inductive Outgoing (Card : Type) where
  | moveCreated (chapterId path : JsString) (move : TrainingData Card)
  | nodeDeleted (chapterId path : JsString)
  | setComment (chapterId path comment : JsString)
  | trainingUpdated (chapterId path username : JsString) (card : Card)
  deriving DecidableEq

inductive UserTip where
  | init
  | empty
  | method (m : TrainingMethod)
  deriving DecidableEq, Repr

/-- What an action does after `await persistChapter(chapter)`. The chapters are those it had read before. -/
inductive After (Card : Type) where
  | nothing
  | jump (msg : Outgoing Card) (path : JsString)
  | setRepertoire (repertoire : List (Chapter Card)) (msg : Outgoing Card)

/-- The store. A node is named by its reference; `detached` holds the trees that are no longer in the
repertoire but may still be referred to. `resyncs` has the path saved by each `resyncAndRestore` that waits for
its response, `awaits` what each call does that waits for IndexedDB, `renderedRoot` the root of the last render and
`effect` the root its effect will select. -/
structure TrainerState (Card : Type) where
  trainingMethod : Option TrainingMethod
  repertoire : List (Chapter Card)
  selectedChapterId : Option JsString
  trainableContext : Option TrainableContext
  selectedPath : JsString
  selectedNode : Option Nat
  userTip : UserTip
  dueTimes : List Int
  searchConfig : NodeSearch
  sent : List (Outgoing Card)
  detached : List (TrainableNode Card)
  nextRef : Nat
  resyncs : List JsString
  awaits : List (After Card)
  renderedRoot : Option Nat
  effect : Option Nat

def TrainerState.initial : TrainerState Card where
  trainingMethod := none
  repertoire := []
  selectedChapterId := none
  trainableContext := none
  selectedPath := []
  selectedNode := none
  userTip := .init
  dueTimes := []
  searchConfig := ⟨.dfs, 30⟩
  sent := []
  detached := []
  nextRef := 0
  resyncs := []
  awaits := []
  renderedRoot := none
  effect := none

def maxCommentChars : Nat := 1000

def Chapter.addCounts (enabled unseen : Int) (c : Chapter Card) : Chapter Card :=
  { c with enabledCount := c.enabledCount + enabled, unseenCount := c.unseenCount + unseen }

/-- The counters of a chapter object: `enabledCount`, `unseenCount` and `lastDueCount`. -/
def Chapter.recount (n : Int × Int × Int) (c : Chapter Card) : Chapter Card :=
  { c with enabledCount := n.1, unseenCount := n.2.1, lastDueCount := n.2.2 }

def Chapter.setLastDueCount (n : Int) (c : Chapter Card) : Chapter Card := { c with lastDueCount := n }

def Chapter.mapRoot (f : TrainableNode Card → TrainableNode Card) (c : Chapter Card) : Chapter Card :=
  { c with root := f c.root }

/-- `training[key] = card` on a list of entries. -/
def setEntry (key : JsString) (card : Card) : List (JsString × Card) → List (JsString × Card)
  | [] => [(key, card)]
  | e :: es => if e.1 = key then (key, card) :: es else e :: setEntry key card es

def TrainingData.setCard (key : JsString) (card : Card) (d : TrainingData Card) : TrainingData Card :=
  { d with training := some (setEntry key card (d.training.getD [])) }

def TrainingData.setComment (comment : JsString) (d : TrainingData Card) : TrainingData Card :=
  { d with comment := comment }

/-- A change of the first chapter with that uuid, the one `find` returns. -/
def updateChapter (uuid : JsString) (f : Chapter Card → Chapter Card) : List (Chapter Card) → List (Chapter Card)
  | [] => []
  | c :: cs => if c.uuid = uuid then f c :: cs else c :: updateChapter uuid f cs

namespace TrainerState

variable (s : TrainerState Card)

/-! ## Objects -/

def chapter (uuid : JsString) : Option (Chapter Card) := s.repertoire.find? fun c => c.uuid = uuid

def selectedChapter : Option (Chapter Card) := s.selectedChapterId.bind s.chapter

/-- The trees on the heap. -/
def trees : List (TrainableNode Card) := s.repertoire.map Chapter.root ++ s.detached

/-- The node a reference points to. -/
def deref (r : Nat) : Option (TrainableNode Card) :=
  (Rose.nodesList s.trees).find? fun n => n.label.ref = r

/-- A change of the object `r`, wherever it is referred to. -/
def mutate (r : Nat) (f : TrainableNode Card → TrainableNode Card) : TrainerState Card :=
  { s with
    repertoire := s.repertoire.map (Chapter.mapRoot (Rose.modify (fun n => n.ref = r) f))
    detached := s.detached.map (Rose.modify (fun n => n.ref = r) f) }

/-- A new node without children, pushed onto the children of the object `r`. -/
def pushNew (r : Nat) (d : TrainingData Card) : TrainerState Card :=
  mutate { s with nextRef := s.nextRef + 1 } r (TrainableNode.push (.node ⟨s.nextRef, d⟩ []))

def onChapter (uuid : JsString) (f : Chapter Card → Chapter Card) : TrainerState Card :=
  { s with repertoire := updateChapter uuid f s.repertoire }

def send (env : Env Card) (msg : Outgoing Card) : TrainerState Card :=
  if env.isAuthenticated && env.socketOpen then { s with sent := s.sent ++ [msg] } else s

/-! ## Actions -/

/-- `setRepertoire(parseChapters(raw))`. -/
def setRepertoire (env : Env Card) (raw : List (RawChapter Card)) : TrainerState Card :=
  let out := parseChapters env s.nextRef raw
  { s with
    repertoire := out.1
    nextRef := out.2
    detached := s.detached ++ s.repertoire.map Chapter.root
    selectedChapterId :=
      if out.1.any (fun c => some c.uuid = s.selectedChapterId) then s.selectedChapterId
      else out.1.head?.map Chapter.uuid }

def setSelectedChapterId (id : Option JsString) : TrainerState Card := { s with selectedChapterId := id }

def clearChapterContext : TrainerState Card :=
  { s with
    trainingMethod := none, selectedPath := [], userTip := .empty, selectedNode := none, trainableContext := none }

def jump (path : JsString) : TrainerState Card :=
  match s.selectedChapter with
  | none => s
  | some chapter =>
      { s with
        selectedPath := path
        selectedNode := (getNodeList chapter.root path).getLast?.map TrainableNode.ref }

def updateDueCounts (env : Env Card) : TrainerState Card :=
  match s.selectedChapter with
  | none => s
  | some chapter =>
      if env.currentUserKey = [] then s
      else
        let summary := dueSummary env chapter.root
        { s.onChapter chapter.uuid (Chapter.setLastDueCount (summary.countP (· ≤ 0))) with dueTimes := summary }

/-- `deleteNodeAt(chapter.root, path)`. -/
def deleteNodeAt (chapter : Chapter Card) (path : JsString) : TrainerState Card :=
  let parent := nodeAtPath chapter.root (init path)
  let s := s.mutate parent.ref (removeChild (last path))
  { s with
    detached := s.detached ++ parent.children.filter fun n : TrainableNode Card => n.data.id = last path }

/-- What `deleteLine` and `deleteNodeRemote` do to the chapter. -/
def removeLine (env : Env Card) (chapter : Chapter Card) (path : JsString) : TrainerState Card :=
  let node := nodeAtPath chapter.root path
  let s := s.deleteNodeAt chapter path
  (s.onChapter chapter.uuid (Chapter.addCounts (-countEnabled node) (-countUnseen env node))).updateDueCounts env

/-- An object as it is now. -/
def refresh (c : Chapter Card) : Chapter Card := { c with root := (s.deref c.root.ref).getD c.root }

/-- `set({ repertoire })` with chapters that were read from the store before. -/
def setChapters (chapters : List (Chapter Card)) : TrainerState Card :=
  { s with
    repertoire := chapters.map s.refresh
    detached := s.detached ++ s.repertoire.map Chapter.root }

def await (after : After Card) : TrainerState Card := { s with awaits := s.awaits ++ [after] }

def finish (env : Env Card) : After Card → TrainerState Card
  | .nothing => s
  | .jump msg path => (s.send env msg).jump path
  | .setRepertoire repertoire msg => (s.setChapters repertoire).send env msg

/-- `deleteLine` up to its `await`, and what it does after it. `nodeAtPath` returns a node for every path, so
`if (!node)` never holds. -/
def startDeleteLine (env : Env Card) (chapter : Chapter Card) (path : JsString) : TrainerState Card × After Card :=
  (s.removeLine env chapter path,
    .jump (.nodeDeleted chapter.uuid path) (if contains s.selectedPath path then init path else path))

/-- When someone is signed in, `persistChapter` returns at once. -/
def deleteLine (env : Env Card) (path : JsString) : TrainerState Card :=
  match s.selectedChapter with
  | none => s
  | some chapter =>
      let out := s.startDeleteLine env chapter path
      if env.isAuthenticated then out.1.finish env out.2 else out.1.await out.2

def finishDeleteLine (env : Env Card) (i : Nat) : TrainerState Card :=
  match s.awaits[i]? with
  | some (.jump msg path) => finish { s with awaits := s.awaits.eraseIdx i } env (.jump msg path)
  | _ => s

def setNextTrainablePosition (env : Env Card) : TrainerState Card :=
  match s.trainingMethod with
  | none | some .edit => s
  | some method =>
      match s.selectedChapter with
      | none => s
      | some chapter =>
          match computeNextTrainableNode env chapter.root method s.searchConfig with
          | none =>
              { s with userTip := .empty, selectedPath := [], selectedNode := none, trainableContext := none }
          | some context =>
              { s with
                selectedPath := context.startingPath
                selectedNode := (getNodeList chapter.root context.startingPath).getLast?.map TrainableNode.ref
                trainableContext := some context
                userTip := .method method }

/-- `resyncAndRestore` up to the request. -/
def resyncAndRestore : TrainerState Card :=
  { s with selectedNode := none, trainableContext := none, resyncs := s.resyncs ++ [s.selectedPath] }

/-- `await fetchRepertoire()`; `none` is a failed request. -/
def fetchRepertoire (env : Env Card) (fetched : Option (List (RawChapter Card))) : TrainerState Card :=
  match fetched with
  | none => s
  | some raw => s.setRepertoire env raw

/-- The saved path is taken up again if it leads somewhere. -/
def recoverPath (savedPath : JsString) : TrainerState Card :=
  let found := match s.selectedChapter with
    | none => false
    | some chapter => savedPath ≠ [] && (nodeAtPathOrNull chapter.root savedPath).isSome
  if found then s.jump savedPath else { s with selectedPath := [], selectedNode := none }

/-- `resyncAndRestore` from the response on. -/
def restore (env : Env Card) (savedPath : JsString) (fetched : Option (List (RawChapter Card))) :
    TrainerState Card :=
  ((s.fetchRepertoire env fetched).recoverPath savedPath).setNextTrainablePosition env

def finishResync (env : Env Card) (i : Nat) (fetched : Option (List (RawChapter Card))) : TrainerState Card :=
  match s.resyncs[i]? with
  | none => s
  | some savedPath => restore { s with resyncs := s.resyncs.eraseIdx i } env savedPath fetched

/-- `setCommentAt` up to its `await`, and the message it sends after it. As in `deleteLine`, `if (!node)` never
holds. -/
def startSetCommentAt (chapter : Chapter Card) (comment path : JsString) : TrainerState Card × Outgoing Card :=
  let node := nodeAtPath chapter.root path
  let comment := if comment.length > maxCommentChars then comment.take maxCommentChars else comment
  (s.mutate node.ref fun n => n.setData (n.data.setComment comment), .setComment chapter.uuid path comment)

def setCommentAt (env : Env Card) (comment path : JsString) : TrainerState Card :=
  match s.selectedChapter with
  | none => s
  | some chapter =>
      let out := s.startSetCommentAt chapter comment path
      -- when someone is signed in, the chapters that are set once more are those there are
      if env.isAuthenticated then out.1.send env out.2 else out.1.await (.setRepertoire s.repertoire out.2)

/-- Which chapter objects the array has, those of the store or others that were replaced since, is not followed: the
counters they have by then come with the step. -/
def finishSetCommentAt (env : Env Card) (i : Nat) (counters : Nat → Int × Int × Int) : TrainerState Card :=
  match s.awaits[i]? with
  | some (.setRepertoire repertoire msg) =>
      finish { s with awaits := s.awaits.eraseIdx i } env
        (.setRepertoire (repertoire.mapIdx fun k c => c.recount (counters k)) msg)
  | _ => s

def setCommentRemote (chapterId path comment : JsString) : TrainerState Card :=
  match s.chapter chapterId with
  | none => s
  | some chapter =>
      s.mutate (nodeAtPath chapter.root path).ref fun n => n.setData (n.data.setComment comment)

/-- What `learn` and `train` do with the new card. -/
def putCard (env : Env Card) (chapter : Chapter Card) (target : TrainableNode Card) (path : JsString) (card : Card) :
    TrainerState Card :=
  (s.mutate target.ref fun n => n.setData (n.data.setCard env.currentUserKey card)).send env
    (.trainingUpdated chapter.uuid path env.currentUserKey card)

/-- The chapter, the target move and its path, where `learn` and `train` go on. -/
def trainingTarget (env : Env Card) : Option (Chapter Card × TrainableNode Card × JsString) :=
  match s.selectedChapter, s.trainableContext with
  | some chapter, some context =>
      if env.currentUserKey = [] then none
      else (s.deref context.targetMove).map fun target =>
        (chapter, target, context.startingPath ++ target.label.data.id)
  | _, _ => none

/-- `if (!nodeAtPath(chapter.root, targetPath))` never holds. -/
def learn (env : Env Card) : TrainerState Card :=
  match s.trainingTarget env with
  | none => s
  | some (chapter, target, targetPath) =>
      (s.onChapter chapter.uuid (Chapter.addCounts 0 (-1))).putCard env chapter target targetPath env.createCard

/-- `reviewCard` throws where the card is an inherited property, which has no due date. -/
def train (env : Env Card) (correct : Bool) : TrainerState Card :=
  match s.trainingTarget env with
  | none => s
  | some (chapter, target, targetPath) =>
      match userCard env target.data with
      | none | some .inherited => s
      | some (.card oldCard) => s.putCard env chapter target targetPath (env.reviewCard oldCard correct)

def addMove (env : Env Card) (chapterId path : JsString) (node : Rose (TrainingData Card)) : TrainerState Card :=
  match s.chapter chapterId with
  | none => s
  | some chapter =>
      match nodeAtPathOrNull chapter.root path with
      | none => s.resyncAndRestore
      | some parent =>
          let out := allocate s.nextRef node
          (mutate { s with nextRef := out.2 } parent.label.ref (TrainableNode.push out.1)).onChapter chapter.uuid
            (Chapter.addCounts (if node.label.enabled then 1 else 0)
              (if (userCard env node.label).isNone then 1 else 0))

def deleteNodeRemote (env : Env Card) (chapterId path : JsString) : TrainerState Card :=
  match s.chapter chapterId with
  | none => s
  | some chapter =>
      let selectedPath := s.selectedPath
      let s := s.removeLine env chapter path
      if contains selectedPath path then (s.jump (init path)).setNextTrainablePosition env else s

def updateTrainingRemote (chapterId path username : JsString) (card : Card) : TrainerState Card :=
  match s.chapter chapterId with
  | none => s
  | some chapter =>
      s.mutate (nodeAtPath chapter.root path).ref fun n => n.setData (n.data.setCard username card)

/-- No message of the server leads here: a chapter that is deleted elsewhere comes as a `reload`. -/
def deleteChapterRemote (chapterId : JsString) : TrainerState Card :=
  match s.repertoire.findIdx? fun c => c.uuid = chapterId with
  | none => s
  | some idx =>
      let nextRepertoire := s.repertoire.eraseIdx idx
      let detached := s.detached ++ (s.repertoire[idx]?.map Chapter.root).toList
      if s.selectedChapterId = some chapterId then
        { s with
          repertoire := nextRepertoire
          detached := detached
          selectedChapterId := nextRepertoire[min idx (nextRepertoire.length - 1)]?.map Chapter.uuid
          selectedPath := [], selectedNode := none, trainableContext := none, userTip := .empty }
      else { s with repertoire := nextRepertoire, detached := detached }

end TrainerState

/-! ## Making moves -/

def white : JsString := Utf16.encode ['w', 'h', 'i', 't', 'e']

def black : JsString := Utf16.encode ['b', 'l', 'a', 'c', 'k']

def colorFromPly (ply : Int) : JsString := if ply.tmod 2 = 1 then white else black

/-- The data of the new node; `none` is an exception of chessops. -/
def newMove (chess : Chessops) (trainAs : JsString) (d : TrainingData Card) (san : JsString) :
    Option (TrainingData Card) :=
  (chess.positionFromFen d.fen).bind fun pos =>
    (chess.parseSan pos san).map fun move =>
      let played := chess.makeSanAndPlay pos move
      { id := chess.scalachessCharPair move
        fen := chess.makeFen played.2
        ply := d.ply + 1
        san := played.1
        comment := []
        enabled := colorFromPly d.ply ≠ trainAs
        training := some [] }

namespace TrainerState

variable (s : TrainerState Card)

/-- The first half of `makeMove` at the selected node; `none` is an exception. -/
def extend (chess : Chessops) (env : Env Card) (chapter : Chapter Card) (node : TrainableNode Card)
    (san : JsString) : Option (TrainerState Card) :=
  if node.children.any (fun c : TrainableNode Card => c.data.san = san) then some s
  else (newMove chess chapter.trainAs node.data san).map fun d =>
    let n : Int := if d.enabled then 1 else 0
    ((s.onChapter chapter.uuid (Chapter.addCounts n n)).pushNew node.ref d).send env
      (.moveCreated chapter.uuid s.selectedPath d)

/-- The second half: in the edit mode the selection follows the move. -/
def follow (r : Nat) (san : JsString) : TrainerState Card :=
  if s.trainingMethod = some .edit then
    match (s.deref r).bind fun n => n.children.find? fun c : TrainableNode Card => c.data.san = san with
    | none => s
    | some movingTo =>
        { s with
          selectedNode := some movingTo.label.ref
          selectedPath := s.selectedPath ++ movingTo.label.data.id }
  else s

def makeMove (chess : Chessops) (env : Env Card) (san : JsString) : TrainerState Card :=
  match s.selectedChapter, s.selectedNode.bind s.deref with
  | some chapter, some node =>
      match s.extend chess env chapter node san with
      | none => s
      | some s => s.follow node.label.ref san
  | _, _ => s

/-! ## The effect of Chessrepeat.tsx -/

/-- A render with another root than the one before schedules the effect. React runs the effect of one render
before the next. -/
def render : TrainerState Card :=
  match s.effect with
  | some _ => s
  | none =>
      let root := s.selectedChapter.map fun c => c.root.ref
      if root = s.renderedRoot then s else { s with renderedRoot := root, effect := root }

def runEffect : TrainerState Card :=
  match s.effect with
  | none => s
  | some r => { s with selectedNode := some r, effect := none }

end TrainerState

/-! ## Steps -/

/-- `selectChapter` is the handler of `Repertoire.tsx`, which calls `setSelectedChapterId` and then
`clearChapterContext`. -/
inductive Action (Card : Type) where
  | setRepertoire (raw : List (RawChapter Card))
  | selectChapter (id : Option JsString)
  | setTrainingMethod (m : Option TrainingMethod)
  | setSearchConfig (config : NodeSearch)
  | jump (path : JsString)
  | makeMove (san : JsString)
  | deleteLine (path : JsString)
  | setNextTrainablePosition
  | setCommentAt (comment path : JsString)
  | learn
  | train (correct : Bool)
  | addMove (chapterId path : JsString) (node : Rose (TrainingData Card))
  | deleteNodeRemote (chapterId path : JsString)
  | setCommentRemote (chapterId path comment : JsString)
  | updateTrainingRemote (chapterId path username : JsString) (card : Card)
  | resyncAndRestore
  | finishResync (i : Nat) (fetched : Option (List (RawChapter Card)))
  | finishDeleteLine (i : Nat)
  | finishSetCommentAt (i : Nat) (counters : Nat → Int × Int × Int)
  | render
  | runEffect

def step (chess : Chessops) (s : TrainerState Card) (env : Env Card) : Action Card → TrainerState Card
  | .setRepertoire raw => s.setRepertoire env raw
  | .selectChapter id => (s.setSelectedChapterId id).clearChapterContext
  | .setTrainingMethod m => { s with trainingMethod := m }
  | .setSearchConfig config => { s with searchConfig := config }
  | .jump path => s.jump path
  | .makeMove san => s.makeMove chess env san
  | .deleteLine path => s.deleteLine env path
  | .setNextTrainablePosition => s.setNextTrainablePosition env
  | .setCommentAt comment path => s.setCommentAt env comment path
  | .learn => s.learn env
  | .train correct => s.train env correct
  | .addMove chapterId path node => s.addMove env chapterId path node
  | .deleteNodeRemote chapterId path => s.deleteNodeRemote env chapterId path
  | .setCommentRemote chapterId path comment => s.setCommentRemote chapterId path comment
  | .updateTrainingRemote chapterId path username card => s.updateTrainingRemote chapterId path username card
  | .resyncAndRestore => s.resyncAndRestore
  | .finishResync i fetched => s.finishResync env i fetched
  | .finishDeleteLine i => s.finishDeleteLine env i
  | .finishSetCommentAt i counters => s.finishSetCommentAt env i counters
  | .render => s.render
  | .runEffect => s.runEffect

end Chessrepeat.Client
