import Chessrepeat.Client.Idb
import Chessrepeat.Client.Lemmas.Edits

/-!
# The playground

Nobody is signed in and the chapters are kept in IndexedDB. An action changes the store at once; what it leaves for
after an `await` is a `Job`, and any of the jobs may go on next. A job holds on to objects, so what it writes is the
tree as it is by then. The counts of a chapter are not followed here.
-/

namespace Chessrepeat.Client

open Lib

variable {Card : Type}

/-- What IndexedDB keeps of a chapter. -/
def Chapter.stored (c : Chapter Card) : RawChapter Card := ⟨c.uuid, c.name, c.trainAs, c.root.map Object.data⟩

def Chapter.setName (name : JsString) (c : Chapter Card) : Chapter Card := { c with name }

/-- `persist` has a chapter to write and then the ids to read, where `addNewChapterLocally` does the same as
`persistChapter`; `persisted` has the ids to read, and `writeIds` to write. -/
inductive Job (Card : Type) where
  | persist (chapter : Chapter Card) (after : After Card)
  | persisted (cid : JsString) (after : After Card)
  | writeIds (ids : List JsString) (after : After Card)
  | rename (chapter : Chapter Card)
  | delete (cid : JsString) (ids : List JsString)
  | finish (after : After Card)

def After.jobs : After Card → List (Job Card)
  | .nothing => []
  | after => [.finish after]

structure Playground (Card : Type) where
  store : TrainerState Card
  idb : Idb (RawChapter Card)
  jobs : List (Job Card)

inductive PlayAction (Card : Type) where
  | addNewChapter (c : RawChapter Card)
  | renameChapter (chapterId newName : JsString)
  | deleteChapterAt (chapterId : JsString)
  | makeMove (san : JsString)
  | deleteLine (path : JsString)
  | setCommentAt (comment path : JsString)
  | learn
  | train (correct : Bool)
  /-- An action that only moves about in the repertoire. -/
  | navigate (a : Action Card)
  | resume (k : Nat)

def Env.playground (env : Env Card) : Env Card := { env with user := none }

namespace TrainerState

variable (s : TrainerState Card)

/-- `addNewChapterLocally` up to its first `await`. -/
def addNewChapterLocally (chapter : Chapter Card) : TrainerState Card :=
  { s with
    repertoire := if chapter.trainAs = white then chapter :: s.repertoire else s.repertoire ++ [chapter]
    selectedChapterId := s.selectedChapterId.or (some chapter.uuid) }

/-- The chapter is made of new objects. -/
def insertChapter (env : Env Card) (c : RawChapter Card) : TrainerState Card × Chapter Card :=
  let out := parseChapter env s.nextRef c
  (addNewChapterLocally { s with nextRef := out.2 } out.1, out.1)

/-- The part of `deleteChapterAt` that changes the store: the chapter at that place goes, and with it the selection. -/
def removeChapter (chapterId : JsString) (idx : Nat) : TrainerState Card :=
  let next := s.repertoire.eraseIdx idx
  let s' := { s with
    repertoire := next
    detached := s.detached ++ (s.repertoire[idx]?.map Chapter.root).toList }
  if s.selectedChapterId = some chapterId then
    { s' with
      selectedChapterId := next[min idx (next.length - 1)]?.map Chapter.uuid
      selectedPath := [], selectedNode := none, trainableContext := none, userTip := .empty }
  else s'

end TrainerState

namespace Playground

variable (chess : Chessops) (s : Playground Card) (env : Env Card)

def start (j : Job Card) : Playground Card := { s with jobs := s.jobs ++ [j] }

def setStore (store : TrainerState Card) : Playground Card := { s with store }

def addNewChapter (c : RawChapter Card) : Playground Card :=
  let out := s.store.insertChapter env c
  (s.setStore out.1).start (.persist out.2 .nothing)

def renameChapter (chapterId newName : JsString) : Playground Card :=
  match s.store.chapter chapterId with
  | none => s
  | some chapter =>
      (s.setStore (s.store.onChapter chapterId (Chapter.setName newName))).start (.rename (chapter.setName newName))

def deleteChapterAt (chapterId : JsString) : Playground Card :=
  match s.store.repertoire.findIdx? fun c => c.uuid = chapterId with
  | none => s
  | some idx =>
      let store := s.store.removeChapter chapterId idx
      (s.setStore store).start (.delete chapterId (store.repertoire.map Chapter.uuid))

/-- The chapter is written when there is a new move. -/
def makeMove (san : JsString) : Playground Card :=
  let s' := s.setStore (s.store.makeMove chess env san)
  match s.store.selectedChapter, nextMove chess s.store san with
  | some chapter, some _ => s'.start (.persist chapter .nothing)
  | _, _ => s'

def deleteLine (path : JsString) : Playground Card :=
  match s.store.selectedChapter with
  | none => s
  | some chapter =>
      let out := s.store.startDeleteLine env chapter path
      (s.setStore out.1).start (.persist chapter out.2)

def setCommentAt (comment path : JsString) : Playground Card :=
  match s.store.selectedChapter with
  | none => s
  | some chapter =>
      let out := s.store.startSetCommentAt chapter comment path
      (s.setStore out.1).start (.persist chapter (.setRepertoire s.store.repertoire out.2))

def learn : Playground Card :=
  match s.store.trainingTarget env with
  | none => s
  | some (chapter, _, _) => (s.setStore (s.store.learn env)).start (.persist chapter .nothing)

def train (correct : Bool) : Playground Card :=
  match s.store.trainingTarget env with
  | none => s
  | some (chapter, target, _) =>
      match userCard env target.data with
      | none | some .inherited => s
      | some (.card _) => (s.setStore (s.store.train env correct)).start (.persist chapter .nothing)

/-- A job up to its next `await`, and what it leaves. -/
def go : Job Card → Playground Card × List (Job Card)
  | .persist c after =>
      ({ s with idb := s.idb.writeChapter c.uuid (s.store.refresh c).stored }, [.persisted c.uuid after])
  | .persisted cid after =>
      (s, if cid ∈ s.idb.readChapterIds then after.jobs else [.writeIds (s.idb.readChapterIds ++ [cid]) after])
  | .writeIds ids after => ({ s with idb := s.idb.writeChapterIds ids }, after.jobs)
  | .rename c => ({ s with idb := s.idb.writeChapter c.uuid (s.store.refresh c).stored }, [])
  | .delete cid ids => ({ s with idb := s.idb.deleteChapterIDB cid }, [.writeIds ids .nothing])
  | .finish after => (s.setStore (s.store.finish env after), [])

def resume (k : Nat) : Playground Card :=
  match s.jobs[k]? with
  | none => s
  | some j =>
      let out := s.go env j
      { out.1 with jobs := s.jobs.take k ++ out.2 ++ s.jobs.drop (k + 1) }

def step (a : Env Card × PlayAction Card) : Playground Card :=
  let env := a.1.playground
  match a.2 with
  | .addNewChapter c => s.addNewChapter env c
  | .renameChapter chapterId newName => s.renameChapter chapterId newName
  | .deleteChapterAt chapterId => s.deleteChapterAt chapterId
  | .makeMove san => s.makeMove chess env san
  | .deleteLine path => s.deleteLine env path
  | .setCommentAt comment path => s.setCommentAt comment path
  | .learn => s.learn env
  | .train correct => s.train env correct
  | .navigate a => if isNavigation a then s.setStore (Client.step chess s.store env a) else s
  | .resume k => s.resume env k

/-- The chapters `hydrateRepertoireFromIDB` makes of what is stored, before it sorts them. Without ids there is
the example. -/
def hydrated (exampleChapter : Option (RawChapter Card)) : List (RawChapter Card) :=
  match s.idb.readChapterIds with
  | [] => exampleChapter.toList
  | ids => ids.filterMap s.idb.readChapter

end Playground

end Chessrepeat.Client
