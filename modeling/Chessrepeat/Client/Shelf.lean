import Chessrepeat.Client.Loaders
import Chessrepeat.Client.Playground

/-!
# The repertoire and the selected chapter

The actions that put chapters on the shelf, take them off it and select them, with the reads and writes of IndexedDB that
they leave for after an `await`. Any of the calls that wait may go on next. What is sent to the server is left out, and so is
what is in a tree.
-/

namespace Chessrepeat.Client

open Lib

variable {Card : Type}

inductive ShelfCall (Card : Type) where
  /-- `persistAllChapters` with the chapters that are left to write and the ids of the others. -/
  | persistAll (repertoire : List (Chapter Card)) (ids : List JsString)
  /-- `addNewChapterLocally` before its first write, and before it reads the ids. -/
  | add (chapter : Chapter Card)
  | added (cid : JsString)
  | delete (cid : JsString) (ids : List JsString)
  | writeIds (ids : List JsString)
  /-- `hydrateRepertoireFromIDB` before it reads the ids, before it adds the example, and with the ids that are left to read
  and the chapters that were read. -/
  | hydrate
  | seed
  | hydrating (ids : List JsString) (chapters : List (Chapter Card))

structure Shelf (Card : Type) where
  store : TrainerState Card
  idb : Idb (Chapter Card)
  calls : List (ShelfCall Card)

/-- A call that adds the example is given what `chapterFromPgn` makes of it. -/
inductive ShelfAction (Card : Type) where
  | setRepertoire (repertoire : List (Chapter Card))
  | addNewChapterLocally (chapter : Chapter Card)
  | setSelectedChapterId (id : JsString)
  | deleteChapterAt (chapterId : JsString)
  | deleteChapterRemote (chapterId : JsString)
  | hydrateRepertoireFromIDB
  | resume (k : Nat) (exampleChapter : Option (Chapter Card))

namespace Shelf

variable (localeCompare : JsString → JsString → Int) (s : Shelf Card)

def setStore (store : TrainerState Card) : Shelf Card := { s with store }

def call (c : ShelfCall Card) : Shelf Card := { s with calls := s.calls ++ [c] }

/-- A call that only somebody makes who is not signed in. -/
def callUnless (isAuthenticated : Bool) (c : ShelfCall Card) : Shelf Card := if isAuthenticated then s else s.call c

/-- The first half of `setRepertoire`. -/
def install (store : TrainerState Card) (repertoire : List (Chapter Card)) : TrainerState Card :=
  { store with
    repertoire := repertoire
    detached := store.detached ++ store.repertoire.map Chapter.root
    selectedChapterId :=
      if repertoire.any (fun c => some c.uuid = store.selectedChapterId) then store.selectedChapterId
      else repertoire.head?.map Chapter.uuid }

def setRepertoire (isAuthenticated : Bool) (repertoire : List (Chapter Card)) : Shelf Card :=
  (s.setStore (install s.store repertoire)).callUnless isAuthenticated (.persistAll repertoire [])

def addNewChapterLocally (isAuthenticated : Bool) (chapter : Chapter Card) : Shelf Card :=
  (s.setStore (s.store.addNewChapterLocally chapter)).callUnless isAuthenticated (.add chapter)

def deleteChapterAt (isAuthenticated : Bool) (chapterId : JsString) : Shelf Card :=
  match s.store.repertoire.findIdx? fun c => c.uuid = chapterId with
  | none => s
  | some idx =>
      let store := s.store.removeChapter chapterId idx
      (s.setStore store).callUnless isAuthenticated (.delete chapterId (store.repertoire.map Chapter.uuid))

def hydrateRepertoireFromIDB : Shelf Card :=
  match s.store.repertoire with
  | [] => s.call .hydrate
  | _ :: _ => s

/-- The end of `hydrateRepertoireFromIDB`. -/
def hydrated (store : TrainerState Card) (chapters : List (Chapter Card)) : TrainerState Card :=
  let chapters := sortChapters localeCompare chapters
  { store with
    repertoire := chapters
    detached := store.detached ++ store.repertoire.map Chapter.root
    selectedChapterId := chapters.head?.map Chapter.uuid }

/-- A call up to its next `await` or its end. -/
def go (isAuthenticated : Bool) (exampleChapter : Option (Chapter Card)) : ShelfCall Card → Shelf Card
  | .persistAll [] ids => { s with idb := s.idb.writeChapterIds ids }
  | .persistAll (ch :: rest) ids =>
      call { s with idb := s.idb.writeChapter ch.uuid ch } (.persistAll rest (ids ++ [ch.uuid]))
  | .add chapter => call { s with idb := s.idb.writeChapter chapter.uuid chapter } (.added chapter.uuid)
  | .added cid => if cid ∈ s.idb.readChapterIds then s else s.call (.writeIds (s.idb.readChapterIds ++ [cid]))
  | .delete cid ids => call { s with idb := s.idb.deleteChapterIDB cid } (.writeIds ids)
  | .writeIds ids => { s with idb := s.idb.writeChapterIds ids }
  | .hydrate => s.call (if s.idb.readChapterIds = [] then .seed else .hydrating s.idb.readChapterIds [])
  | .seed => match exampleChapter with
    | none => s
    | some chapter => s.addNewChapterLocally isAuthenticated chapter
  | .hydrating [] chapters => s.setStore (hydrated localeCompare s.store chapters)
  | .hydrating (id :: ids) chapters => s.call (.hydrating ids (chapters ++ (s.idb.readChapter id).toList))

/-- The action is taken while somebody is signed in, or nobody is. -/
def step (a : Bool × ShelfAction Card) : Shelf Card :=
  match a.2 with
  | .setRepertoire repertoire => s.setRepertoire a.1 repertoire
  | .addNewChapterLocally chapter => s.addNewChapterLocally a.1 chapter
  | .setSelectedChapterId id => s.setStore (s.store.setSelectedChapterId (some id))
  | .deleteChapterAt chapterId => s.deleteChapterAt a.1 chapterId
  | .deleteChapterRemote chapterId => s.setStore (s.store.deleteChapterRemote chapterId)
  | .hydrateRepertoireFromIDB => s.hydrateRepertoireFromIDB
  | .resume k exampleChapter => match s.calls[k]? with
    | none => s
    | some c => go localeCompare { s with calls := s.calls.eraseIdx k } a.1 exampleChapter c

end Shelf

end Chessrepeat.Client
