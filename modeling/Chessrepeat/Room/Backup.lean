import Chessrepeat.Api.Serve
import Chessrepeat.Client.Playground
import Chessrepeat.Room.System

/-!
# Backups

`repertoireAsJson`, `chapterFromImport` and `addNewChapter` of someone who is signed in. A JSON text is the value it
stands for.
-/

namespace Chessrepeat.Room

open Lib Client Store

variable {Card : Type}

/-- A chapter in a backup has no uuid. -/
structure ExportedChapter (Card : Type) where
  name : JsString
  trainAs : JsString
  root : Rose (TrainingData Card)
  enabledCount : Int
  unseenCount : Int
  lastDueCount : Int

def exportChapter (c : Chapter Card) : ExportedChapter Card :=
  ⟨c.name, c.trainAs, c.root.map Object.data, c.enabledCount, c.unseenCount, c.lastDueCount⟩

def repertoireAsJson (chapters : List (Chapter Card)) : List (ExportedChapter Card) := chapters.map exportChapter

/-- The chapter gets a fresh uuid, and its tree is made of new objects. -/
def chapterFromImport (next : Nat) (uuid : JsString) (raw : ExportedChapter Card) : Chapter Card × Nat :=
  let out := allocate next raw.root
  (⟨uuid, raw.name, raw.trainAs, out.1, raw.enabledCount, raw.unseenCount, raw.lastDueCount⟩, out.2)

/-! ## The request -/

def maxChapterBody : Nat := 4 * 2 ^ 20

mutual
/-- A node as the server decodes it. -/
def toNode (cards : CardCodec Card) : Rose (TrainingData Card) → Domain.ChapterTreeNode
  | .node d cs => .mk (toMove cards d) (toNodes cards cs)

def toNodes (cards : CardCodec Card) : List (Rose (TrainingData Card)) → List Domain.ChapterTreeNode
  | [] => []
  | c :: cs => toNode cards c :: toNodes cards cs
end

/-- The body names no owner. -/
def chapterEvent (cards : CardCodec Card) (body : RawChapter Card) : Domain.ChapterEvent :=
  ⟨Utf16.decode body.uuid, [], Utf16.decode body.name, Utf16.decode body.trainAs, toNode cards body.root⟩

/-- A client with its session and the database. `bodyBytes` is the length of the JSON text of a body. -/
structure Account (Card : Type) where
  userID : Domain.Text
  username : Domain.Text
  store : TrainerState Card
  db : Db

namespace Account

variable (cards : CardCodec Card) (bodyBytes : RawChapter Card → Nat) (a : Account Card)

/-- `postChapter` for the own repertoire, with the database after it. A body that is too long is not decoded. -/
def postChapter (c : Chapter Card) : Db :=
  if a.username = [] then a.db
  else Api.servePost .none a.db
    ⟨a.userID, a.username, if bodyBytes c.stored ≤ maxChapterBody then some (chapterEvent cards c.stored) else none⟩

/-- `addNewChapter(chapterFromImport(raw))`. -/
def importChapter (uuid : JsString) (raw : ExportedChapter Card) : Account Card :=
  let out := chapterFromImport a.store.nextRef uuid raw
  { a with
    store := TrainerState.addNewChapterLocally { a.store with nextRef := out.2 } out.1
    db := a.postChapter cards bodyBytes out.1 }

/-- One entry after the other. -/
def importBackup (entries : List (JsString × ExportedChapter Card)) : Account Card :=
  entries.foldl (fun a e => a.importChapter cards bodyBytes e.1 e.2) a

/-- `fetchRepertoire` of the own repertoire. -/
def reload (env : Env Card) (order : PathOrder) : Account Card :=
  { a with store := a.store.fetchRepertoire env (fetch cards a.db order a.userID) }

/-- A chapter is exported, imported again and fetched. -/
def restore (env : Env Card) (order : PathOrder) (uuid : JsString) (c : Chapter Card) : Account Card :=
  (a.importBackup cards bodyBytes ([uuid].zip (repertoireAsJson [c]))).reload cards env order

end Account

end Chessrepeat.Room
