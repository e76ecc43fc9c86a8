import Mathlib.Logic.Function.Basic
import Chessrepeat.Lib.Utf16

/-!
# The IndexedDB of the playground

`store/state.ts` keeps the ids of the chapters under one key and every chapter under a key of its own. Each read
and write of a key is one step.
-/

namespace Chessrepeat.Client

open Lib

variable {Blob : Type}

/-- `chapterIds` is `none` before the list was written for the first time. -/
structure Idb (Blob : Type) where
  chapterIds : Option (List JsString)
  chapter : JsString → Option Blob

namespace Idb

variable (db : Idb Blob)

def empty : Idb Blob := ⟨none, fun _ => none⟩

def writeChapterIds (ids : List JsString) : Idb Blob := { db with chapterIds := some ids }

def readChapterIds : List JsString := db.chapterIds.getD []

def writeChapter (cid : JsString) (chapter : Blob) : Idb Blob :=
  { db with chapter := Function.update db.chapter cid (some chapter) }

def readChapter (cid : JsString) : Option Blob := db.chapter cid

def deleteChapterIDB (cid : JsString) : Idb Blob := { db with chapter := Function.update db.chapter cid none }

theorem readChapter_writeChapter (cid : JsString) (chapter : Blob) (id : JsString) :
    (db.writeChapter cid chapter).readChapter id = if id = cid then some chapter else db.readChapter id :=
  Function.update_apply _ _ _ _

theorem readChapter_deleteChapterIDB (cid id : JsString) :
    (db.deleteChapterIDB cid).readChapter id = if id = cid then none else db.readChapter id :=
  Function.update_apply _ _ _ _

end Idb

end Chessrepeat.Client
