import Mathlib.Data.List.Sort
import Chessrepeat.Lib.Like
import Chessrepeat.Lib.Rose
import Chessrepeat.Store.Schema

/-!
# store/chapters.go

Each SQL statement is a definition on `Db`, each store method is written with them as in the source.
A method that returns an error leaves the database as it was: it makes at most one writing statement or
one transaction. `StoreError.sql` stands for every error of the driver or of PostgreSQL itself.
-/

namespace Chessrepeat.Store

open Lib Domain

inductive StoreError where
  | pathNotFound
  | chapterMoveLimit
  | chapterLimit
  | sql
  deriving DecidableEq, Repr

def maxMovesPerChapter : Nat := 5000

def maxChaptersPerUser : Nat := 20

def maxCommentChars : Nat := 1000

/-! ## Statements -/

/-- A multiplier below 1 counts as 1. -/
def clampMultiplier (mult : Int) : Nat := if mult < 1 then 1 else mult.toNat

def Db.ownerLimitMultiplier (db : Db) (ownerID : Text) : Nat :=
  match db.users.table.find? ownerID with
  | none => 1
  | some u => clampMultiplier u.limitMultiplier

/-- The join of chapters and users: a missing chapter or owner row falls back to 1. -/
def Db.chapterOwnerMultiplier (db : Db) (chapterID : Text) : Nat :=
  match db.chapters.find? chapterID with
  | none => 1
  | some c => db.ownerLimitMultiplier c.ownerId

def Db.chapterCountByOwner (db : Db) (ownerID : Text) : Nat :=
  db.chapters.countWhere (fun c => c.ownerId = ownerID)

def Db.chapterMoveCount (db : Db) (chapterID : Text) : Nat :=
  db.moves.countWhere (fun m => m.chapterId = chapterID && m.path ≠ [])

def Db.pathExists (db : Db) (chapterID path : Text) : Bool :=
  if path = [] then false else db.moves.has (chapterID, path)

/-- The upsert of `AddMoveToChapter`; a chapter that is gone violates the foreign key. -/
def Db.upsertMove (db : Db) (row : MoveRow) : Except StoreError Db :=
  if db.chapters.has row.chapterId then .ok { db with moves := db.moves.upsert row } else .error .sql

/-- The backslash, the escape character of the `LIKE` pattern. -/
def backslash : Char := Char.ofNat 92

def escapeLike (s : Text) : Text :=
  s.flatMap fun c => if c = backslash ∨ c = '%' ∨ c = '_' then [backslash, c] else [c]

/-- The `WHERE` clause of `DeleteNodeFromChapter`. -/
def inSubtree (chapterID path : Text) (m : MoveRow) : Bool :=
  m.chapterId = chapterID &&
    (m.path = path || Like.like backslash (escapeLike path ++ ['%']) m.path)

/-- `ON DELETE CASCADE` of training_cards: the cards of the deleted moves go with them. -/
def Db.cascade (db : Db) (gone : MoveRow → Bool) : Db :=
  { db with
    moves := db.moves.deleteWhere gone
    trainingCards := db.trainingCards.deleteWhere fun c =>
      db.moves.rows.any fun m => gone m && m.key = (c.chapterId, c.path) }

def Db.deleteSubtree (db : Db) (chapterID path : Text) : Db := db.cascade (inSubtree chapterID path)

/-! ## Moves -/

def Db.addMoveToChapter (db : Db) (event : MoveEvent) : Except StoreError Db :=
  if event.path ≠ [] ∧ db.pathExists event.chapterID event.path = false then .error .pathNotFound
  else
    let movePath := event.path ++ event.move.id
    if db.pathExists event.chapterID movePath = false ∧
        db.chapterMoveCount event.chapterID ≥ maxMovesPerChapter * db.chapterOwnerMultiplier event.chapterID then
      .error .chapterMoveLimit
    else
      db.upsertMove ⟨event.chapterID, movePath, event.move.id, event.move.fen, event.move.ply, event.move.san,
        event.move.comment, event.move.enabled⟩

/-- The guard in the statement makes a missing move row an update of no rows. -/
def Db.updateTrainingState (db : Db) (event : TrainingUpdatedEvent) : Except StoreError Db :=
  if db.moves.has (event.chapterID, event.path) then
    .ok { db with trainingCards := db.trainingCards.upsert ⟨event.chapterID, event.path, event.username, event.card⟩ }
  else .error .pathNotFound

def Db.deleteNodeFromChapter (db : Db) (event : NodeDeleteEvent) : Except StoreError Db :=
  if db.pathExists event.chapterID event.path then .ok (db.deleteSubtree event.chapterID event.path)
  else if event.path = [] then .ok db
  else .error .pathNotFound

def MoveRow.setComment (comment : Text) (m : MoveRow) : MoveRow := { m with comment := comment }

theorem MoveRow.key_setComment (comment : Text) (m : MoveRow) : (m.setComment comment).key = m.key := rfl

def Db.updateComment (db : Db) (chapterID path comment : Text) : Db :=
  { db with
    moves := db.moves.update (fun m => m.key = (chapterID, path)) (MoveRow.setComment comment)
      (MoveRow.key_setComment comment) }

def Db.setComment (db : Db) (chapterID path comment : Text) : Except StoreError Db :=
  if db.moves.has (chapterID, path) then .ok (db.updateComment chapterID path comment)
  else .error .pathNotFound

/-! ## Chapters -/

def ChapterRow.rename (name : Text) (c : ChapterRow) : ChapterRow := { c with name := name }

theorem ChapterRow.uuid_rename (name : Text) (c : ChapterRow) : (c.rename name).uuid = c.uuid := rfl

def Db.renameChapter (db : Db) (chapterID name : Text) : Db :=
  { db with
    chapters := db.chapters.update (fun c => c.uuid = chapterID) (ChapterRow.rename name)
      (ChapterRow.uuid_rename name) }

/-- Moves and training cards go with the chapter. -/
def Db.deleteChapter (db : Db) (chapterID : Text) : Db :=
  { db.cascade (fun m => m.chapterId = chapterID) with
    chapters := db.chapters.deleteWhere (fun c => c.uuid = chapterID) }

/-- A Go map from paths. -/
abbrev PathMap := Table (Prod.fst : Text × TrainingData → Text)

/-- The value a missing key reads as is the zero value. -/
def PathMap.get (moves : PathMap) (path : Text) : TrainingData :=
  match moves.find? path with
  | none => TrainingData.zero
  | some e => e.2

mutual
/-- The recursive closure of `flattenTree`; `none` is a panic. -/
def walk (moves : PathMap) (path : Text) : ChapterTreeNode → Option PathMap
  | .null => some moves
  | .mk data children => walkChildren (moves.upsert (path, data)) path children

/-- The loop over the children reads `child.Data.ID` before `walk` looks for nil. -/
def walkChildren (moves : PathMap) (path : Text) : List ChapterTreeNode → Option PathMap
  | [] => some moves
  | .null :: _ => none
  | .mk data children :: rest =>
      (walk moves (path ++ data.id) (.mk data children)).bind fun moves => walkChildren moves path rest
end

def flattenTree (root : ChapterTreeNode) : Option PathMap := walk Table.empty [] root

def moveRow (chapterID : Text) (e : Text × TrainingData) : MoveRow :=
  ⟨chapterID, e.1, e.2.id, e.2.fen, e.2.ply, e.2.san, e.2.comment, e.2.enabled⟩

/-- The transaction of `CreateChapter`: the chapter row, then its moves in one `COPY`. -/
def Db.insertChapter (db : Db) (event : ChapterEvent) (moves : PathMap) : Except StoreError Db :=
  if db.users.table.has event.ownerID then
    match db.chapters.insert? ⟨event.chapterID, event.ownerID, event.name, event.trainAs⟩,
        Table.insertAll? (moves.rows.map (moveRow event.chapterID)) db.moves with
    | some chapters, some moves => .ok { db with chapters := chapters, moves := moves }
    | _, _ => .error .sql
  else .error .sql

/-- The root placeholder at the empty path is no move. -/
def PathMap.moveCount (moves : PathMap) : Nat :=
  if moves.has [] then moves.rows.length - 1 else moves.rows.length

/-- `none` is a panic of `flattenTree`, which runs after the chapter cap was checked. -/
def Db.createChapter (db : Db) (event : ChapterEvent) : Option (Except StoreError Db) :=
  let mult := db.ownerLimitMultiplier event.ownerID
  if db.chapterCountByOwner event.ownerID ≥ maxChaptersPerUser * mult then some (.error .chapterLimit)
  else (flattenTree event.root).map fun moves =>
    if moves.moveCount > maxMovesPerChapter * mult then .error .chapterMoveLimit
    else db.insertChapter event moves

/-! ## Rebuilding trees -/

/-- The length of a Go string in bytes. -/
def byteLen (p : Text) : Nat := (p.map Char.utf8Size).sum

/-- The order in which Go hands out the keys of a map and `sort.Slice`, which is not stable, leaves them. -/
structure PathOrder where
  paths : PathMap → List Text
  perm : ∀ m, (paths m).Perm (m.rows.map Prod.fst)
  sorted : ∀ m, (paths m).Pairwise (fun p q => byteLen p ≤ byteLen q)

/-- One such order: insert the keys one after the other. -/
def PathOrder.insertion : PathOrder where
  paths m := (m.rows.map Prod.fst).insertionSort fun p q => byteLen p ≤ byteLen q
  perm _ := List.perm_insertionSort _ _
  sorted _ :=
    have : Std.Total fun p q : Text => byteLen p ≤ byteLen q := ⟨fun _ _ => Nat.le_total _ _⟩
    have : IsTrans Text fun p q => byteLen p ≤ byteLen q := ⟨fun _ _ _ => Nat.le_trans⟩
    List.pairwise_insertionSort _ _

/-- A node of the tree under construction, with the key `nodeMap` has it under. -/
abbrev BuildNode := Rose (Text × TrainingData)

/-- `parent.Children = append(parent.Children, node)`. -/
def BuildNode.append (node parent : BuildNode) : BuildNode := .node parent.label (parent.children ++ [node])

/-- One turn of the loop; `none` is the panic of a slice bound below zero. -/
def buildStep (moves : PathMap) (root : BuildNode) (p : Text) : Option BuildNode :=
  if p = [] then some root
  else if p.length < 2 then none
  else
    let parentPath := p.take (p.length - 2)
    let node : BuildNode := .node (p, moves.get p) []
    -- a parent that is not in `nodeMap` is replaced by the root
    let parent := if root.labels.any (fun l => l.1 = parentPath) then parentPath else []
    some (root.modify (fun l => l.1 = parent) (BuildNode.append node))

mutual
def BuildNode.response : BuildNode → ChapterTreeNode
  | .node label children => .mk label.2 (BuildNode.responseList children)

def BuildNode.responseList : List BuildNode → List ChapterTreeNode
  | [] => []
  | c :: cs => BuildNode.response c :: BuildNode.responseList cs
end

/-- The loop of `buildTree` over the sorted paths. -/
def buildNodes (moves : PathMap) (paths : List Text) : Option BuildNode :=
  paths.foldlM (buildStep moves) (.node ([], moves.get []) [])

def buildTree (order : PathOrder) (moves : PathMap) : Option ChapterTreeNode :=
  (buildNodes moves (order.paths moves)).map BuildNode.response

/-! ## Reading chapters -/

def MoveRow.trainingData (m : MoveRow) : TrainingData :=
  ⟨m.id, m.fen, m.ply, m.san, m.comment, m.enabled, none⟩

def Db.loadMoves (db : Db) (chapterID : Text) : PathMap :=
  (db.moves.rows.filter (fun m => m.chapterId = chapterID)).foldl
    (fun out m => out.upsert (m.path, m.trainingData)) Table.empty

def Db.loadCards (db : Db) (chapterID : Text) : List CardRow :=
  db.trainingCards.rows.filter (fun c => c.chapterId = chapterID)

/-- The cards of one path, by user. -/
def cardsAt (cards : List CardRow) (path : Text) : List (Text × Option CardData) :=
  (cards.filter (fun c => c.path = path)).map fun c => (c.username, some c.card)

def setTraining (cards : List CardRow) (e : Text × TrainingData) : Text × TrainingData :=
  (e.1, { e.2 with training := some (cardsAt cards e.1) })

theorem fst_setTraining (cards : List CardRow) (e : Text × TrainingData) : (setTraining cards e).1 = e.1 := rfl

def mergeCardsIntoMoves (moves : PathMap) (cards : List CardRow) : PathMap :=
  moves.update (fun e => cards.any (fun c => c.path = e.1)) (setTraining cards) (fst_setTraining cards)

def Db.chapterTree (db : Db) (order : PathOrder) (c : ChapterRow) : Option ChapterTreeResponse :=
  (buildTree order (mergeCardsIntoMoves (db.loadMoves c.uuid) (db.loadCards c.uuid))).map fun root =>
    ⟨c.uuid, c.name, c.trainAs, root⟩

/-- `none` is a panic; a chapter that does not exist is `some none`. -/
def Db.readChapterAsTree (db : Db) (order : PathOrder) (chapterID : Text) : Option (Option ChapterTreeResponse) :=
  match db.chapters.find? chapterID with
  | none => some none
  | some c => (db.chapterTree order c).map some

def Db.fetchChaptersByOwner (db : Db) (order : PathOrder) (ownerID : Text) : Option (List ChapterTreeResponse) :=
  (db.chapters.rows.filter (fun c => c.ownerId = ownerID)).mapM (db.chapterTree order)

end Chessrepeat.Store
