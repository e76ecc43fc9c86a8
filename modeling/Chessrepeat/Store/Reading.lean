import Chessrepeat.Store.Chapters

/-!
# FetchChaptersByOwner one query at a time

Three queries outside a transaction: the chapters of the owner, their moves, their cards. The trees are put together from
whatever each of the three has found.
-/

namespace Chessrepeat.Store

open Lib Domain

variable {db : Db} {order : PathOrder} {ownerID : Text}

def Db.chaptersByOwner (db : Db) (ownerID : Text) : List ChapterRow :=
  db.chapters.rows.filter fun c => c.ownerId = ownerID

/-- `loadMoves`: a chapter that has gone since its row was read is one without moves. -/
def Db.withMoves (db : Db) (rows : List ChapterRow) : List (ChapterRow × PathMap) :=
  rows.map fun c => (c, db.loadMoves c.uuid)

/-- `loadCards` and the loop after it. A card whose move was not there is left out. `none` is a panic. -/
def Db.withCards (db : Db) (order : PathOrder) (read : List (ChapterRow × PathMap)) : Option (List ChapterTreeResponse) :=
  read.mapM fun e => (buildTree order (mergeCardsIntoMoves e.2 (db.loadCards e.1.uuid))).map fun root =>
    ⟨e.1.uuid, e.1.name, e.1.trainAs, root⟩

/-- The tables of the repertoires are the same. -/
def SameChapters (db db' : Db) : Prop :=
  db'.chapters = db.chapters ∧ db'.moves = db.moves ∧ db'.trainingCards = db.trainingCards

/-- With no other statement in between, the three queries are the method. -/
theorem withCards_withMoves (db : Db) (order : PathOrder) (ownerID : Text) :
    db.withCards order (db.withMoves (db.chaptersByOwner ownerID)) = db.fetchChaptersByOwner order ownerID := by
  unfold Db.withCards Db.withMoves
  rw [List.mapM_map]
  rfl

/-- So they are with statements in between that write no repertoire. -/
theorem withCards_same {db₂ db₃ : Db} (h₂ : SameChapters db db₂) (h₃ : SameChapters db db₃) :
    db₃.withCards order (db₂.withMoves (db.chaptersByOwner ownerID)) = db.fetchChaptersByOwner order ownerID := by
  have hmoves : db₂.withMoves (db.chaptersByOwner ownerID) = db.withMoves (db.chaptersByOwner ownerID) := by
    simp only [Db.withMoves, Db.loadMoves, h₂.2.1]
  have hcards : db₃.loadCards = db.loadCards := funext fun id => by rw [Db.loadCards, Db.loadCards, h₃.2.2]
  rw [hmoves, ← withCards_withMoves]
  simp only [Db.withCards, hcards]

end Chessrepeat.Store
