import Chessrepeat.Lib.Table

/-!
# The domain package

The events a client sends and the shapes the store reads and writes. Text that came through
`encoding/json` or PostgreSQL is valid UTF-8, so it is a list of code points (`[]rune`). The `type` field
of an event is the one the dispatcher has already matched and is left out.
-/

namespace Chessrepeat.Domain

open Lib

abbrev Text := List Char

/-- The bits of a `float64`. -/
abbrev Float64 := BitVec 64

structure CardData where
  due : Text
  stability : Float64
  difficulty : Float64
  elapsedDays : Int
  scheduledDays : Int
  reps : Int
  lapses : Int
  state : Int
  lastReview : Text
  deriving DecidableEq, Repr

/-- The training map is `none` when nil; a user's entry may be a nil pointer. -/
structure TrainingData where
  id : Text
  fen : Text
  ply : Int
  san : Text
  comment : Text
  enabled : Bool
  training : Option (List (Text × Option CardData))
  deriving DecidableEq, Repr

/-- The zero value of the struct, which a missing map entry reads as. -/
def TrainingData.zero : TrainingData := ⟨[], [], 0, [], [], false, none⟩

/-- A `*ChapterTreeNode`: JSON `null` in a children list decodes to the nil pointer. -/
inductive ChapterTreeNode where
  | null
  | mk (data : TrainingData) (children : List ChapterTreeNode)

structure ChapterTreeResponse where
  uuid : Text
  name : Text
  trainAs : Text
  root : ChapterTreeNode

structure MoveEvent where
  chapterID : Text
  move : TrainingData
  path : Text
  deriving DecidableEq, Repr

structure NodeDeleteEvent where
  chapterID : Text
  path : Text
  deriving DecidableEq, Repr

structure TrainingUpdatedEvent where
  chapterID : Text
  path : Text
  username : Text
  card : CardData
  deriving DecidableEq, Repr

structure CommentEvent where
  chapterID : Text
  path : Text
  comment : Text
  deriving DecidableEq, Repr

structure ChapterRenameEvent where
  chapterID : Text
  name : Text
  deriving DecidableEq, Repr

structure ChapterDeleteEvent where
  chapterID : Text
  deriving DecidableEq, Repr

structure ChapterEvent where
  chapterID : Text
  ownerID : Text
  name : Text
  trainAs : Text
  root : ChapterTreeNode

/-- What a collaborators row may grant (the `CHECK` on its `permission` column). -/
inductive Grant where
  | edit
  | train
  deriving DecidableEq, Repr

/-- What a user is allowed to do on a repertoire; Go's `""` is `none : Option Permission`. -/
inductive Permission where
  | owner
  | edit
  | train
  deriving DecidableEq, Repr

def Grant.permission : Grant → Permission
  | .edit => .edit
  | .train => .train

def canEdit (perm : Option Permission) : Bool := perm = some .owner || perm = some .edit

structure PeerInfo where
  username : Text
  picture : Text
  permission : Permission
  deriving DecidableEq, Repr

end Chessrepeat.Domain
