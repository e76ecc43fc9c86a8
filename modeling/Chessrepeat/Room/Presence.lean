import Chessrepeat.Lib.Replication
import Chessrepeat.Ws.Server
import Mathlib.Data.Multiset.Filter

/-!
# Who is connected

`connectedUsers` of the store, and what `onmessage` does to it. The client `i` is on the other end of the connection
`i`; a message is on the channel of its subscriber, then on the wire, then read. What a client shows once its
connection is closed is left out.
-/

namespace Chessrepeat.Room

open Lib Domain Ws

variable {Raw : Type}

/-! ## connectedUsers -/

def setConnectedUsers (users : Multiset PeerInfo) (_ : Multiset PeerInfo) : Multiset PeerInfo := users

def addConnectedUser (user : PeerInfo) (connectedUsers : Multiset PeerInfo) : Multiset PeerInfo :=
  if user.username ∈ connectedUsers.map PeerInfo.username then connectedUsers else connectedUsers + {user}

def removeConnectedUser (username : Text) (connectedUsers : Multiset PeerInfo) : Multiset PeerInfo :=
  connectedUsers.filter fun u => u.username ≠ username

/-- The presence cases of `onmessage`. -/
def onmessage : Frame Raw → Multiset PeerInfo → Multiset PeerInfo
  | .crowd users => setConnectedUsers users
  | .userJoined user => addConnectedUser user
  | .userLeft user => removeConnectedUser user.username
  | .raw _ => id

/-! ## Steps -/

structure Presence (Raw : Type) where
  ws : Server Raw
  wire : Nat → List (Frame Raw)
  connectedUsers : Nat → Multiset PeerInfo

def Presence.new (buffer : Nat) : Presence Raw := ⟨Server.new buffer, fun _ => [], fun _ => 0⟩

inductive PresenceAction (Raw : Type) where
  | server (a : Ws.Action Raw)
  /-- The client reads the next message. -/
  | receive (i : Nat)

/-- The messages on the channel of a subscriber. -/
def channel (w : Server Raw) (i : Nat) : List (Frame Raw) := (w.subs[i]?.map Subscriber.msgs).getD []

/-- What the writer loop takes off a channel in this step. -/
def written (w : Server Raw) (i : Nat) : Ws.Action Raw → List (Frame Raw)
  | .drain j => if i = j then (channel w i).take 1 else []
  | _ => []

namespace Presence

def step (w : Presence Raw) : PresenceAction Raw → Presence Raw
  | .server a => { w with ws := w.ws.step a, wire := fun i => w.wire i ++ written w.ws i a }
  | .receive i => match w.wire i with
    | [] => w
    | f :: rest =>
        { w with
          wire := Function.update w.wire i rest
          connectedUsers := Function.update w.connectedUsers i (onmessage f (w.connectedUsers i)) }

/-- What the client has not read yet. -/
def pending (w : Presence Raw) (i : Nat) : List (Frame Raw) := w.wire i ++ channel w.ws i

end Presence

/-! ## What the clients should show -/

/-- The usernames of a room's members. -/
def present (w : Server Raw) (r : Nat) : Set Text :=
  {name | ∃ i ∈ w.members r, ∃ s, w.subs[i]? = some s ∧ s.session.username = name}

def usernames (users : Multiset PeerInfo) : Set Text := {name | ∃ u ∈ users, u.username = name}

def isPresence : Frame Raw → Bool
  | .crowd _ | .userJoined _ | .userLeft _ => true
  | .raw _ => false

/-- Every crowd, user_joined and user_left for a connected client has been read. -/
def AllRead (w : Presence Raw) : Prop :=
  ∀ (i : Nat) s, w.ws.subs[i]? = some s → s.connected = true → ∀ f ∈ w.pending i, isPresence f = false

/-- When all has been read, every connected client shows the users that are in its room. -/
def Presence.Agrees (w : Presence Raw) : Prop :=
  AllRead w → ∀ (i : Nat) s, w.ws.subs[i]? = some s → s.connected = true →
    usernames (w.connectedUsers i) = present w.ws s.room

/-- No channel is full. -/
def NoneFull (w : Server Raw) : Prop := ∀ s ∈ w.subs, ¬ s.full w.subscriberMessageBuffer

instance (w : Server Raw) : Decidable (NoneFull w) :=
  inferInstanceAs (Decidable (∀ s ∈ w.subs, ¬ s.full w.subscriberMessageBuffer))

/-- A `leave` that runs finds no other connection of its user in the room. -/
def LastLeaves (w : Server Raw) (a : Ws.Action Raw) : Prop :=
  ∀ i ∈ w.leaver a, ∀ sub ∈ w.subs[i]?, ∀ j ∈ w.members sub.room, j ≠ i →
    ∀ s ∈ w.subs[j]?, s.session.username ≠ sub.session.username

instance (w : Server Raw) (a : Ws.Action Raw) : Decidable (LastLeaves w a) :=
  inferInstanceAs (Decidable (∀ i ∈ w.leaver a, ∀ sub ∈ w.subs[i]?, ∀ j ∈ w.members sub.room, j ≠ i →
    ∀ s ∈ w.subs[j]?, s.session.username ≠ sub.session.username))

def Presence.LastLeaves (w : Presence Raw) : PresenceAction Raw → Prop
  | .server a => Room.LastLeaves w.ws a
  | .receive _ => True

instance (w : Presence Raw) (a : PresenceAction Raw) : Decidable (w.LastLeaves a) :=
  match a with
  | .server a => inferInstanceAs (Decidable (LastLeaves w.ws a))
  | .receive _ => isTrue trivial

end Chessrepeat.Room
