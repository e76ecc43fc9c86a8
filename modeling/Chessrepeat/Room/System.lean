import Chessrepeat.Client.State
import Chessrepeat.Ws.Dispatch

/-!
# Clients in a room

The stores of the clients, the connections, the database and what the readers of the server are doing. The client
`i` is on the other end of the subscriber `i`. A reader handles the messages of its connection one after the other,
and between the writing of one and its sending the other readers and the clients may take any step.
-/

namespace Chessrepeat.Room

open Lib Client Ws

variable {Card : Type}

/-! ## Messages -/

/-- A message as a reader of its JSON sees it. -/
inductive Wire (Card : Type) where
  | msg (m : Outgoing Card)
  | reload
  | pong
  deriving DecidableEq

/-- How a card reads on the other side. -/
structure CardCodec (Card : Type) where
  toServer : Card → Domain.CardData
  ofServer : Domain.CardData → Card

section Codec

variable (cards : CardCodec Card)

def toMove (d : TrainingData Card) : Domain.TrainingData where
  id := Utf16.decode d.id
  fen := Utf16.decode d.fen
  ply := d.ply
  san := Utf16.decode d.san
  comment := Utf16.decode d.comment
  enabled := d.enabled
  training := d.training.map fun es => es.map fun e => (Utf16.decode e.1, some (cards.toServer e.2))

/-- An entry that is `null` is as good as none. -/
def ofMove (d : Domain.TrainingData) : TrainingData Card where
  id := Utf16.encode d.id
  fen := Utf16.encode d.fen
  ply := d.ply
  san := Utf16.encode d.san
  comment := Utf16.encode d.comment
  enabled := d.enabled
  training := d.training.map fun es =>
    es.filterMap fun e => e.2.map fun card => (Utf16.encode e.1, cards.ofServer card)

/-- A move and a deletion are passed on as they came, the other events are marshalled anew. -/
def codec : Codec (Wire Card) where
  envelope
    | .msg (.moveCreated ..) => some .moveCreated
    | .msg (.nodeDeleted ..) => some .nodeDeleted
    | .msg (.setComment ..) => some .setComment
    | .msg (.trainingUpdated ..) => some .trainingUpdated
    | .reload | .pong => some .unknown
  moveEvent
    | .msg (.moveCreated c p d) => some ⟨Utf16.decode c, toMove cards d, Utf16.decode p⟩
    | _ => none
  commentEvent
    | .msg (.setComment c p t) => some ⟨Utf16.decode c, Utf16.decode p, Utf16.decode t⟩
    | _ => none
  trainingUpdatedEvent
    | .msg (.trainingUpdated c p u card) =>
        some ⟨Utf16.decode c, Utf16.decode p, Utf16.decode u, cards.toServer card⟩
    | _ => none
  nodeDeleteEvent
    | .msg (.nodeDeleted c p) => some ⟨Utf16.decode c, Utf16.decode p⟩
    | _ => none
  chapterRenameEvent _ := none
  chapterDeleteEvent _ := none
  marshalComment e := .msg (.setComment (Utf16.encode e.chapterID) (Utf16.encode e.path) (Utf16.encode e.comment))
  marshalTrainingUpdated e :=
    .msg (.trainingUpdated (Utf16.encode e.chapterID) (Utf16.encode e.path) (Utf16.encode e.username)
      (cards.ofServer e.card))
  reloadMessage := .reload
  pongMessage := .pong

mutual
/-- A tree of a response; `none` is an exception at a child that is `null`. -/
def ofNode : Domain.ChapterTreeNode → Option (Rose (TrainingData Card))
  | .null => none
  | .mk data children => (ofNodes children).map (Rose.node (ofMove cards data))

def ofNodes : List Domain.ChapterTreeNode → Option (List (Rose (TrainingData Card)))
  | [] => some []
  | c :: cs => (ofNode c).bind fun c => (ofNodes cs).map (c :: ·)
end

def ofResponse (r : Domain.ChapterTreeResponse) : Option (RawChapter Card) :=
  (ofNode cards r.root).map fun root => ⟨Utf16.encode r.uuid, Utf16.encode r.name, Utf16.encode r.trainAs, root⟩

/-- What `GET /repertoire` answers; `none` is a failed request. -/
def fetch (db : Store.Db) (order : Store.PathOrder) (owner : Domain.Text) : Option (List (RawChapter Card)) :=
  (db.fetchChaptersByOwner order owner).bind fun rs => rs.mapM (ofResponse cards)

end Codec

/-- `ws.onmessage`. -/
def receive (env : Env Card) (s : TrainerState Card) : Frame (Wire Card) → TrainerState Card
  | .raw (.msg (.moveCreated c p d)) => s.addMove env c p (.node d [])
  | .raw (.msg (.nodeDeleted c p)) => s.deleteNodeRemote env c p
  | .raw (.msg (.setComment c p t)) => s.setCommentRemote c p t
  | .raw (.msg (.trainingUpdated c p u card)) => s.updateTrainingRemote c p u card
  | .raw .reload => s.resyncAndRestore
  | .raw .pong | .crowd _ | .userJoined _ | .userLeft _ => s

/-- PostgreSQL has no NUL in a text. -/
def textFaults (text : Domain.Text) : Store.Faults := { Store.Faults.none with store := Char.ofNat 0 ∈ text }

/-- The messages that the database refuses. The texts of a move are those of chessops, which have no NUL, and no move
has a path with one. -/
def messageFaults : Outgoing Card → Store.Faults
  | .setComment c p t => textFaults (truncateComment ⟨Utf16.decode c, Utf16.decode p, Utf16.decode t⟩).comment
  | _ => .none

/-! ## Steps -/

/-- The messages in the `sent` of a client are those the server has not read. `handled` has what a reader has decided
to send and not sent yet. -/
structure System (Card : Type) where
  db : Store.Db
  ws : Server (Wire Card)
  clients : Nat → TrainerState Card
  handled : List (Nat × Reaction (Wire Card))

inductive Action (Card : Type) where
  | user (i : Nat) (env : Env Card) (a : Client.Action Card)
  /-- The reader of `i` reads the next message and writes to the database. -/
  | handle (i : Nat)
  /-- One of the readers sends what it has decided. -/
  | publish (k : Nat)
  /-- The writer loop of `i` takes a message off the channel, and the client reads it. -/
  | deliver (i : Nat) (env : Env Card)
  /-- The `k`-th `resyncAndRestore` of `i` gets its response. -/
  | reload (i k : Nat) (env : Env Card) (order : Store.PathOrder)

namespace System

variable (chess : Chessops) (cards : CardCodec Card) (owner : Domain.Text) (s : System Card)

def setClient (i : Nat) (client : TrainerState Card) : System Card :=
  { s with clients := Function.update s.clients i client }

/-- The messages on the channel of a subscriber. -/
def channel (i : Nat) : List (Frame (Wire Card)) := (s.ws.subs[i]?.map Subscriber.msgs).getD []

/-- The reader of `i` has not sent what it decided last. -/
def busy (i : Nat) : Bool := s.handled.any fun e => e.1 = i

def handle (i : Nat) : System Card :=
  match s.ws.subs[i]?, (s.clients i).sent with
  | some sub, msg :: rest =>
      if s.busy i then s
      else
        let out := dispatch (codec cards) (messageFaults msg) s.db sub.session (.msg msg)
        setClient { s with db := out.1, handled := s.handled ++ [(i, out.2)] } i { s.clients i with sent := rest }
  | _, _ => s

def publish (k : Nat) : System Card :=
  match s.handled[k]? with
  | none => s
  | some (i, reaction) =>
      match s.ws.subs[i]? with
      | none => s
      | some sub => { s with ws := s.ws.react i sub reaction, handled := s.handled.eraseIdx k }

def deliver (i : Nat) (env : Env Card) : System Card :=
  match s.channel i with
  | [] => s
  | f :: _ => setClient { s with ws := s.ws.step (.drain i) } i (receive env (s.clients i) f)

def step : Action Card → System Card
  | .user i env a => s.setClient i (Client.step chess (s.clients i) env a)
  | .handle i => s.handle cards i
  | .publish k => s.publish k
  | .deliver i env => s.deliver i env
  | .reload i k env order => s.setClient i ((s.clients i).finishResync env k (fetch cards s.db order owner))

/-- A reload of `i` was asked for and has not been done. -/
def Reloading (i : Nat) : Prop :=
  (s.clients i).resyncs ≠ [] ∨ Frame.raw Wire.reload ∈ s.channel i ∨ (i, Reaction.reply Wire.reload) ∈ s.handled

/-- Nothing is in flight between the members of the room `r`. -/
structure Quiescent (r : Nat) : Prop where
  sent : ∀ i ∈ s.ws.members r, (s.clients i).sent = []
  handled : s.handled = []
  channel : ∀ i ∈ s.ws.members r, ∀ m, Frame.raw m ∉ s.channel i
  resyncs : ∀ i ∈ s.ws.members r, (s.clients i).resyncs = []

end System

end Chessrepeat.Room
