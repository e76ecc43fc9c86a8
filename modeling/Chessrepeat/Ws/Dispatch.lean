import Chessrepeat.Store.Chapters
import Chessrepeat.Store.Collaborators
import Chessrepeat.Ws.Server

/-!
# ws/dispatch.go

`handleMessage` decodes a message, checks the permission, writes, and fans out or answers. The first three
concern the database and are `dispatch`; what it decides to send is a `Reaction`, which the rooms carry out.
How JSON is read and written is a parameter, so that a statement about every `Codec` and every raw message is
one about any JSON.
-/

namespace Chessrepeat.Ws

open Lib Domain Store

variable {Raw α : Type}

/-- The values of the `type` field the switch knows, and any other. -/
inductive Op where
  | ping
  | moveCreated
  | setComment
  | trainingUpdated
  | nodeDeleted
  | chapterRenamed
  | chapterDeleted
  | unknown
  deriving DecidableEq, Repr

/-- `json.Unmarshal` and `json.Marshal` at the types of the dispatcher, and its two constant messages. -/
structure Codec (Raw : Type) where
  envelope : Raw → Option Op
  moveEvent : Raw → Option MoveEvent
  commentEvent : Raw → Option CommentEvent
  trainingUpdatedEvent : Raw → Option TrainingUpdatedEvent
  nodeDeleteEvent : Raw → Option NodeDeleteEvent
  chapterRenameEvent : Raw → Option ChapterRenameEvent
  chapterDeleteEvent : Raw → Option ChapterDeleteEvent
  marshalComment : CommentEvent → Raw
  marshalTrainingUpdated : TrainingUpdatedEvent → Raw
  reloadMessage : Raw
  pongMessage : Raw

inductive Reaction (Raw : Type) where
  | drop
  | reply (msg : Raw)
  | broadcast (msg : Raw)
  deriving DecidableEq

def authorizeChapter (faults : Faults) (db : Db) (sub : Session) (chapterID : Text) (requireEdit : Bool) : Bool :=
  if faults.authz then false
  else
    let perm := db.effectivePermissionOnChapter chapterID sub.userID
    if perm = none then false
    else if requireEdit && !canEdit perm then false
    else true

/-- What the branches of the switch have in common. `reloads` are the errors that make the sender fetch the
repertoire again; the others are logged. -/
def mutate (json : Codec Raw) (faults : Faults) (db : Db) (sub : Session) (event : Option α)
    (chapterID : α → Text) (requireEdit : Bool) (write : α → Except StoreError Db) (reloads : List StoreError)
    (out : α → Raw) : Db × Reaction Raw :=
  match event with
  | none => (db, .drop)
  | some event =>
      if authorizeChapter faults db sub (chapterID event) requireEdit then
        if faults.store then (db, .drop)
        else match write event with
          | .ok db' => (db', .broadcast (out event))
          | .error e => (db, if e ∈ reloads then .reply json.reloadMessage else .drop)
      else (db, .drop)

/-! ## The branches of the switch -/

section Branches

variable (json : Codec Raw) (faults : Faults) (db : Db) (sub : Session) (raw : Raw)

def moveCreated : Db × Reaction Raw :=
  mutate json faults db sub (json.moveEvent raw) MoveEvent.chapterID true db.addMoveToChapter
    [.pathNotFound, .chapterMoveLimit] fun _ => raw

/-- A comment is cut to its first thousand runes before it is stored and sent on. -/
def truncateComment (event : CommentEvent) : CommentEvent :=
  if event.comment.length > maxCommentChars then { event with comment := event.comment.take maxCommentChars }
  else event

def setComment : Db × Reaction Raw :=
  mutate json faults db sub ((json.commentEvent raw).map truncateComment) CommentEvent.chapterID true
    (fun event => db.setComment event.chapterID event.path event.comment) [.pathNotFound] json.marshalComment

/-- The username is the one of the session, whatever the message says. -/
def stampUsername (sub : Session) (event : TrainingUpdatedEvent) : TrainingUpdatedEvent :=
  { event with username := sub.username }

def trainingUpdated : Db × Reaction Raw :=
  mutate json faults db sub ((json.trainingUpdatedEvent raw).map (stampUsername sub))
    TrainingUpdatedEvent.chapterID false db.updateTrainingState [.pathNotFound] json.marshalTrainingUpdated

def nodeDeleted : Db × Reaction Raw :=
  mutate json faults db sub (json.nodeDeleteEvent raw) NodeDeleteEvent.chapterID true db.deleteNodeFromChapter
    [.pathNotFound] fun _ => raw

def chapterRenamed : Db × Reaction Raw :=
  mutate json faults db sub (json.chapterRenameEvent raw) ChapterRenameEvent.chapterID true
    (fun event => .ok (db.renameChapter event.chapterID event.name)) [] fun _ => json.reloadMessage

def chapterDeleted : Db × Reaction Raw :=
  mutate json faults db sub (json.chapterDeleteEvent raw) ChapterDeleteEvent.chapterID true
    (fun event => .ok (db.deleteChapter event.chapterID)) [] fun _ => json.reloadMessage

/-- The switch. -/
def dispatch : Db × Reaction Raw :=
  match json.envelope raw with
  | none => (db, .drop)
  | some .ping => (db, .reply json.pongMessage)
  | some .moveCreated => moveCreated json faults db sub raw
  | some .setComment => setComment json faults db sub raw
  | some .trainingUpdated => trainingUpdated json faults db sub raw
  | some .nodeDeleted => nodeDeleted json faults db sub raw
  | some .chapterRenamed => chapterRenamed json faults db sub raw
  | some .chapterDeleted => chapterDeleted json faults db sub raw
  | some .unknown => (db, .drop)

end Branches

/-! ## Sending -/

/-- A reply goes to the sender, an event to the room the sender is in. -/
def Server.react (w : Server Raw) (i : Nat) (sub : Subscriber Raw) : Reaction Raw → Server Raw
  | .drop => w
  | .reply msg => w.sendTo i msg
  | .broadcast msg => w.publishRoom sub.room msg (some i)

/-- A message of the subscriber `i`. -/
def handleMessage (json : Codec Raw) (faults : Faults) (db : Db) (w : Server Raw) (i : Nat) (raw : Raw) :
    Db × Server Raw :=
  match w.subs[i]? with
  | none => (db, w)
  | some sub =>
      let out := dispatch json faults db sub.session raw
      (out.1, w.react i sub out.2)

/-! ## An encoding -/

/-- The messages of the protocol, as a reader of their JSON sees them. -/
inductive Message where
  | ping
  | pong
  | reload
  | moveCreated (event : MoveEvent)
  | setComment (event : CommentEvent)
  | trainingUpdated (event : TrainingUpdatedEvent)
  | nodeDeleted (event : NodeDeleteEvent)
  | chapterRenamed (event : ChapterRenameEvent)
  | chapterDeleted (event : ChapterDeleteEvent)
  deriving DecidableEq

def Message.op : Message → Op
  | .ping => .ping
  | .pong | .reload => .unknown
  | .moveCreated _ => .moveCreated
  | .setComment _ => .setComment
  | .trainingUpdated _ => .trainingUpdated
  | .nodeDeleted _ => .nodeDeleted
  | .chapterRenamed _ => .chapterRenamed
  | .chapterDeleted _ => .chapterDeleted

/-- The codec that loses nothing: every event decodes to itself. -/
def Message.codec : Codec Message where
  envelope m := some m.op
  moveEvent | .moveCreated e => some e | _ => none
  commentEvent | .setComment e => some e | _ => none
  trainingUpdatedEvent | .trainingUpdated e => some e | _ => none
  nodeDeleteEvent | .nodeDeleted e => some e | _ => none
  chapterRenameEvent | .chapterRenamed e => some e | _ => none
  chapterDeleteEvent | .chapterDeleted e => some e | _ => none
  marshalComment := .setComment
  marshalTrainingUpdated := .trainingUpdated
  reloadMessage := .reload
  pongMessage := .pong

end Chessrepeat.Ws
