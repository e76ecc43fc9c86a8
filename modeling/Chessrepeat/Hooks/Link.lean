import Chessrepeat.Hooks.Websocket
import Chessrepeat.Ws.Reader

/-!
# The page and the server

The heartbeat between the page and `subscribe` in ws/server.go, whose watcher stops when nothing has come from the
client for a while. Pings share the wire, which keeps the order, and the read budget with all the page sends. Times are
in milliseconds.
-/

namespace Chessrepeat.Hooks

open Lib Domain Ws

variable {Raw : Type}

def idleTimeout : Nat := 30000

def livenessCheckInterval : Nat := 10000

/-- What the page sends on a socket, with the time: a ping, or another message of `size` bytes. -/
inductive Upward where
  | ping (t : Nat)
  | other (t size : Nat)
  deriving DecidableEq, Repr

/-- The server's end of a socket, `running` until its context is cancelled. `due` is the next tick of the watcher. `up`
is what the page has sent and the server has not read, and `down` are the pongs on their way, each with the time of the
reply and that of its ping. -/
structure Subscription where
  lastSeenAt : Nat
  due : Nat
  running : Bool
  readBudget : Bucket
  up : List Upward
  down : List (Nat × Nat)

/-- The pings that are on the wire, by the time they were sent. -/
def Subscription.pings (c : Subscription) : List Nat :=
  c.up.filterMap fun
    | .ping t => some t
    | .other _ _ => none

/-- The next message to read is a ping. -/
def Subscription.pinged (c : Subscription) : Bool :=
  match c.up with
  | .ping _ :: _ => true
  | _ => false

/-- The clock of the budget. -/
def nanoseconds (t : Nat) : Int := t * 1000000

structure Link (Raw : Type) where
  page : Page Raw
  subs : Nat → Option Subscription

namespace Link

def new : Link Raw := ⟨Page.new, fun _ => none⟩

inductive Action (Raw : Type) where
  | page (a : Page.Action Raw)
  | subscribe (i : Nat)
  | watch (i : Nat)
  /-- The page sends something else. -/
  | say (i size : Nat)
  /-- The server reads a message, while the queue of the subscriber is `full` of what the others send, or not. -/
  | read (i : Nat) (full : Bool)
  /-- The page reads a pong. -/
  | receive (i : Nat)

def setSub (l : Link Raw) (i : Nat) (c : Subscription) : Link Raw :=
  { l with subs := Function.update l.subs i (some c) }

def subscribe (l : Link Raw) (i : Nat) : Link Raw :=
  match l.page.sockets[i]?, l.subs i with
  | some s, none =>
      if s.readyState = .connecting then
        l.setSub i ⟨l.page.now, l.page.now + livenessCheckInterval, true,
          Bucket.new wsBucketCapacity wsRefillPerSec (nanoseconds l.page.now), [], []⟩
      else l
  | _, _ => l

/-- A tick of the watcher. -/
def watch (l : Link Raw) (i : Nat) : Link Raw :=
  match l.subs i with
  | none => l
  | some c =>
      if c.running = false ∨ l.page.now < c.due then l
      else if idleTimeout < l.page.now - c.lastSeenAt then l.setSub i { c with running := false }
      else l.setSub i { c with due := c.due + livenessCheckInterval }

/-- Messages are sent only on an open socket. -/
def say (l : Link Raw) (i size : Nat) : Link Raw :=
  match l.subs i with
  | none => l
  | some c =>
      if (l.page.sockets[i]?).map Socket.readyState = some .opened then
        l.setSub i { c with up := c.up ++ [.other l.page.now size] }
      else l

/-- A turn of the reader: a message over the limit ends the connection, one over the budget is dropped, and so is the
pong for a queue that is full. -/
def read (l : Link Raw) (i : Nat) (full : Bool) : Link Raw :=
  match l.subs i with
  | none => l
  | some c =>
      if c.running = false then l
      else
        let allowed := c.readBudget.allow (nanoseconds l.page.now)
        match c.up with
        | [] => l
        | .other _ size :: up =>
            if readLimitBytes < size then l.setSub i { c with running := false, up := up }
            else l.setSub i { c with lastSeenAt := l.page.now, readBudget := allowed.1, up := up }
        | .ping t :: up =>
            l.setSub i
              { c with
                lastSeenAt := l.page.now
                readBudget := allowed.1
                up := up
                down := if allowed.2 && !full then c.down ++ [(l.page.now, t)] else c.down }

def receive (l : Link Raw) (i : Nat) : Link Raw :=
  match l.subs i with
  | none => l
  | some c => match c.down with
    | [] => l
    | _ :: down => { l.setSub i { c with down := down } with page := l.page.message i .pong }

/-- The ping of a firing timer goes on the wire. -/
def send (l : Link Raw) (t : Nat) : Link Raw :=
  match l.page.sends t with
  | none => l
  | some i => match l.subs i with
    | none => l
    | some c => l.setSub i { c with up := c.up ++ [.ping l.page.now] }

/-- A socket opens only after the server has subscribed it, and a pong comes only over the wire. -/
def step (l : Link Raw) : Action Raw → Link Raw
  | .page (.opened i) => if (l.subs i).isSome then { l with page := l.page.opened i } else l
  | .page (.message _ .pong) => l
  | .page (.fire t) => { l.send t with page := l.page.fire t }
  | .page a => { l with page := l.page.step a }
  | .subscribe i => l.subscribe i
  | .watch i => l.watch i
  | .say i size => l.say i size
  | .read i full => l.read i full
  | .receive i => l.receive i

/-! ## What should hold -/

/-- At time `t` nothing has been on the wire for more than `delay`: no handshake, ping or pong. -/
def Delivered (delay t : Nat) (c : Subscription) : ReadyState → Prop
  | .connecting => t ≤ c.lastSeenAt + delay
  | .opened => (∀ u ∈ c.pings, t ≤ u + delay) ∧ ∀ m ∈ c.down, t ≤ m.1 + delay
  | .closing | .closed => True

instance (delay t : Nat) (c : Subscription) (r : ReadyState) : Decidable (Delivered delay t c r) :=
  match r with
  | .connecting => inferInstanceAs (Decidable (t ≤ c.lastSeenAt + delay))
  | .opened => inferInstanceAs (Decidable ((∀ u ∈ c.pings, t ≤ u + delay) ∧ ∀ m ∈ c.down, t ≤ m.1 + delay))
  | .closing | .closed => isTrue trivial

/-- Time passes only while no timer and no watcher is overdue by more than `slack`. -/
def OnTick (slack : Nat) (l : Link Raw) : Action Raw → Prop
  | .page (.wait d) => l.page.Prompt slack (.wait d) ∧
      ∀ i < l.page.sockets.length, ∀ c ∈ l.subs i, c.running = true → l.page.now + d ≤ c.due + slack
  | _ => True

/-- And only while no handshake, ping or pong has been on the wire for more than `delay`. -/
def Delivers (delay : Nat) (l : Link Raw) : Action Raw → Prop
  | .page (.wait d) => ∀ i < l.page.sockets.length, ∀ s ∈ l.page.sockets[i]?, ∀ c ∈ l.subs i,
      Delivered delay (l.page.now + d) c s.readyState
  | _ => True

/-- No ping that is read is dropped, and nothing is sent over the limit of the reader. -/
def Answers (l : Link Raw) : Action Raw → Prop
  | .say _ size => size ≤ readLimitBytes
  | .read i full => ∀ c ∈ l.subs i, c.pinged = true →
      (c.readBudget.allow (nanoseconds l.page.now)).2 = true ∧ full = false
  | _ => True

instance (slack : Nat) (l : Link Raw) (a : Action Raw) : Decidable (OnTick slack l a) :=
  match a with
  | .page (.wait d) => inferInstanceAs (Decidable (l.page.Prompt slack (.wait d) ∧
      ∀ i < l.page.sockets.length, ∀ c ∈ l.subs i, c.running = true → l.page.now + d ≤ c.due + slack))
  | .page (.setRepertoireAuthor _) | .page .commit | .page .unmount | .page .viewUserRepertoire | .page (.opened _)
  | .page (.message _ _) | .page (.closed _) | .page (.fire _) | .subscribe _ | .watch _ | .say _ _ | .read _ _
  | .receive _ => isTrue trivial

instance (delay : Nat) (l : Link Raw) (a : Action Raw) : Decidable (Delivers delay l a) :=
  match a with
  | .page (.wait d) => inferInstanceAs (Decidable (∀ i < l.page.sockets.length, ∀ s ∈ l.page.sockets[i]?,
      ∀ c ∈ l.subs i, Delivered delay (l.page.now + d) c s.readyState))
  | .page (.setRepertoireAuthor _) | .page .commit | .page .unmount | .page .viewUserRepertoire | .page (.opened _)
  | .page (.message _ _) | .page (.closed _) | .page (.fire _) | .subscribe _ | .watch _ | .say _ _ | .read _ _
  | .receive _ => isTrue trivial

instance (l : Link Raw) (a : Action Raw) : Decidable (Answers l a) :=
  match a with
  | .say _ size => inferInstanceAs (Decidable (size ≤ readLimitBytes))
  | .read i full => inferInstanceAs (Decidable (∀ c ∈ l.subs i, c.pinged = true →
      (c.readBudget.allow (nanoseconds l.page.now)).2 = true ∧ full = false))
  | .page _ | .subscribe _ | .watch _ | .receive _ => isTrue trivial

/-- The server is there for an open socket, whose last pong is recent. -/
def Healthy (l : Link Raw) : Prop :=
  ∀ (i : Nat) s, l.page.sockets[i]? = some s → s.readyState = .opened →
    (∃ c, l.subs i = some c ∧ c.running = true) ∧ l.page.now ≤ s.pongAt + pongTimeoutMs

/-- A timer of the page closes the open socket `i`. -/
def TimesOut (l : Link Raw) (a : Action Raw) (i : Nat) (s : Socket) : Prop :=
  (∃ t, a = .page (.fire t)) ∧ l.page.sockets[i]? = some s ∧ s.readyState = .opened ∧
    ∀ s', (l.step a).page.sockets[i]? = some s' → s'.readyState ≠ .opened

/-- A running server has heard from the client in the last 40 seconds. -/
def Heard (slack : Nat) (l : Link Raw) : Prop :=
  ∀ i c, l.subs i = some c → c.running = true →
    l.page.now ≤ c.lastSeenAt + idleTimeout + livenessCheckInterval + slack

/-- When the page times out a socket on which the server has read nothing since the page read the last pong, the server
has stopped before. -/
def ServerFirst (l : Link Raw) (a : Action Raw) : Prop :=
  ∀ i s c, TimesOut l a i s → l.subs i = some c → c.lastSeenAt ≤ s.pongAt → c.running = false

end Link

end Chessrepeat.Hooks
