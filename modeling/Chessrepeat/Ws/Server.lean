import Mathlib.Data.Finset.Basic
import Mathlib.Logic.Function.Basic
import Chessrepeat.Lib.Run
import Chessrepeat.Store.Domain

/-!
# ws/server.go

The rooms of the server and the connections in them. Room and subscriber objects live on heaps and are
named by their position there, as Go names them by pointer. Every method holds the server's mutex from its
first access to its last, so it is one step; what happens between two of them is any order of steps.
-/

namespace Chessrepeat.Ws

open Lib Domain

variable {Raw : Type}

/-- A message on a subscriber's channel. Go marshals the users of a room in the order of a map iteration. -/
inductive Frame (Raw : Type) where
  | crowd (users : Multiset PeerInfo)
  | userJoined (user : PeerInfo)
  | userLeft (user : PeerInfo)
  | raw (msg : Raw)
  deriving DecidableEq

/-- What the handshake pins on a connection. -/
structure Session where
  userID : Text
  username : Text
  picture : Text
  permission : Permission
  deriving DecidableEq, Repr

structure Room where
  id : Text
  subscribers : Finset Nat
  deriving DecidableEq

/-- `evictions` counts the `go s.leave(sub)` that have not run yet. A connection is `connected` until its
context is cancelled or a write fails, and `returned` when the deferred `leave` of `subscribe` has run.
`joinedAt` is a history variable: how many messages had been published when it joined. -/
structure Subscriber (Raw : Type) where
  session : Session
  room : Nat
  msgs : List (Frame Raw)
  connected : Bool
  returned : Bool
  evictions : Nat
  joinedAt : Nat
  deriving DecidableEq

def Subscriber.peerInfo (s : Subscriber Raw) : PeerInfo :=
  ⟨s.session.username, s.session.picture, s.session.permission⟩

/-- A call of `publishRoom`, with the subscribers on whose channels it put the message. -/
structure Publication (Raw : Type) where
  room : Nat
  msg : Raw
  sender : Option Nat
  enqueued : Finset Nat
  deriving DecidableEq

/-- `published` is a history variable. -/
structure Server (Raw : Type) where
  subscriberMessageBuffer : Nat
  rooms : Text → Option Nat
  roomHeap : List Room
  subs : List (Subscriber Raw)
  published : List (Publication Raw)

def Server.new (buffer : Nat) : Server Raw := ⟨buffer, fun _ => none, [], [], []⟩

/-! ## Sending on a channel -/

def Subscriber.full (buffer : Nat) (s : Subscriber Raw) : Prop := buffer ≤ s.msgs.length

instance (buffer : Nat) (s : Subscriber Raw) : Decidable (s.full buffer) := by
  delta Subscriber.full; infer_instance

/-- A `select` with an empty default: a full channel misses the frame. -/
def Subscriber.offer (buffer : Nat) (f : Frame Raw) (s : Subscriber Raw) : Subscriber Raw :=
  if s.full buffer then s else { s with msgs := s.msgs ++ [f] }

/-- A `select` whose default spawns `leave`. -/
def Subscriber.send (buffer : Nat) (f : Frame Raw) (s : Subscriber Raw) : Subscriber Raw :=
  if s.full buffer then { s with evictions := s.evictions + 1 } else { s with msgs := s.msgs ++ [f] }

/-- One change for every subscriber in a set. -/
def Server.mapSubs (w : Server Raw) (is : Finset Nat) (f : Subscriber Raw → Subscriber Raw) : Server Raw :=
  { w with subs := w.subs.mapIdx fun i s => if i ∈ is then f s else s }

/-! ## Methods -/

/-- The room registered for an owner, created on first use. -/
def Server.openRoom (w : Server Raw) (ownerID : Text) : Server Raw × Nat :=
  match w.rooms ownerID with
  | some r => (w, r)
  | none =>
      ({ w with
        rooms := Function.update w.rooms ownerID (some w.roomHeap.length)
        roomHeap := w.roomHeap ++ [⟨ownerID, ∅⟩] }, w.roomHeap.length)

/-- The members of a room object. -/
def Server.members (w : Server Raw) (r : Nat) : Finset Nat :=
  match w.roomHeap[r]? with
  | none => ∅
  | some R => R.subscribers

def Server.peers (w : Server Raw) (is : Finset Nat) : Multiset PeerInfo :=
  is.val.filterMap fun i => w.subs[i]?.map Subscriber.peerInfo

def Server.setMembers (w : Server Raw) (r : Nat) (is : Finset Nat) : Server Raw :=
  { w with roomHeap := w.roomHeap.modify r fun R => { R with subscribers := is } }

/-- The subscriber object of a connection, before its channel has been used. -/
def Server.newSubscriber (w : Server Raw) (r : Nat) (session : Session) : Subscriber Raw :=
  ⟨session, r, [], true, false, 0, w.published.length⟩

/-- The rest of `join`, once the room is open: the joiner gets the crowd, the others hear of it. -/
def Server.enter (w : Server Raw) (r : Nat) (session : Session) : Server Raw :=
  let sub := w.newSubscriber r session
  let crowd : Frame Raw := .crowd (w.peers (w.members r) + {sub.peerInfo})
  let told := w.mapSubs (w.members r) (Subscriber.offer w.subscriberMessageBuffer (.userJoined sub.peerInfo))
  { told.setMembers r (insert w.subs.length (w.members r)) with
    subs := told.subs ++ [sub.offer w.subscriberMessageBuffer crowd] }

def Server.join (w : Server Raw) (ownerID : Text) (session : Session) : Server Raw :=
  (w.openRoom ownerID).1.enter (w.openRoom ownerID).2 session

def Server.leave (w : Server Raw) (i : Nat) : Server Raw :=
  match w.subs[i]? with
  | none => w
  | some sub =>
      match w.roomHeap[sub.room]? with
      | none => w
      | some R =>
          let w₁ := w.setMembers sub.room (R.subscribers.erase i)
          if R.subscribers.erase i = ∅ then { w₁ with rooms := Function.update w₁.rooms R.id none }
          else w₁.mapSubs (R.subscribers.erase i)
            (Subscriber.offer w.subscriberMessageBuffer (.userLeft sub.peerInfo))

/-- The members a message goes to: all but the sender. -/
def Server.recipients (w : Server Raw) (r : Nat) (sender : Option Nat) : Finset Nat :=
  (w.members r).filter fun i => some i ≠ sender

/-- Whether the channel of a subscriber has no room for another message. -/
def Server.isFull (w : Server Raw) (i : Nat) : Bool :=
  match w.subs[i]? with
  | none => true
  | some s => s.full w.subscriberMessageBuffer

def Server.publishRoom (w : Server Raw) (r : Nat) (msg : Raw) (sender : Option Nat) : Server Raw :=
  { w.mapSubs (w.recipients r sender) (Subscriber.send w.subscriberMessageBuffer (.raw msg)) with
    published := w.published ++
      [⟨r, msg, sender, (w.recipients r sender).filter fun i => w.isFull i = false⟩] }

def Server.sendTo (w : Server Raw) (i : Nat) (msg : Raw) : Server Raw :=
  w.mapSubs {i} (Subscriber.send w.subscriberMessageBuffer (.raw msg))

/-! ## Steps -/

inductive Action (Raw : Type) where
  | join (ownerID : Text) (session : Session)
  /-- A call of `publishRoom` on a room object some caller holds. -/
  | publishRoom (r : Nat) (msg : Raw) (sender : Option Nat)
  | sendTo (i : Nat) (msg : Raw)
  /-- The writer loop takes a message off the channel. -/
  | drain (i : Nat)
  /-- The reader fails, the liveness watcher fires, a write fails or the request is cancelled. -/
  | disconnect (i : Nat)
  /-- A spawned `go s.leave(sub)` runs. -/
  | evict (i : Nat)
  /-- `subscribe` returns and its deferred `leave` runs. -/
  | teardown (i : Nat)

def Subscriber.drain (s : Subscriber Raw) : Subscriber Raw := { s with msgs := s.msgs.tail }

def Subscriber.disconnect (s : Subscriber Raw) : Subscriber Raw := { s with connected := false }

def Subscriber.evicted (s : Subscriber Raw) : Subscriber Raw := { s with evictions := s.evictions - 1 }

def Subscriber.torn (s : Subscriber Raw) : Subscriber Raw := { s with returned := true }

/-- The subscriber whose `leave` an action runs, if there is one to run. -/
def Server.leaver (w : Server Raw) : Action Raw → Option Nat
  | .evict i => if w.subs[i]?.any (fun s => 0 < s.evictions) then some i else none
  | .teardown i => if w.subs[i]?.any (fun s => !s.connected && !s.returned) then some i else none
  | _ => none

def Server.step (w : Server Raw) (a : Action Raw) : Server Raw :=
  match a with
  | .join ownerID session => w.join ownerID session
  | .publishRoom r msg sender => w.publishRoom r msg sender
  | .sendTo i msg => w.sendTo i msg
  | .drain i => w.mapSubs {i} Subscriber.drain
  | .disconnect i => w.mapSubs {i} Subscriber.disconnect
  | .evict _ => match w.leaver a with
    | none => w
    | some i => (w.mapSubs {i} Subscriber.evicted).leave i
  | .teardown _ => match w.leaver a with
    | none => w
    | some i => (w.mapSubs {i} Subscriber.torn).leave i

end Chessrepeat.Ws
