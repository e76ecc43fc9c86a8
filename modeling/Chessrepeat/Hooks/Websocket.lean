import Chessrepeat.Room.Presence

/-!
# hooks/useWebsocket.ts

The websocket of the page. Sockets and timers belong to the browser and are named by their position, as the page
names them by reference. A run of the effect is a value of `Effect`: the variables its closures share. The browser
calls back in any order; times are in milliseconds.
-/

namespace Chessrepeat.Hooks

open Lib Domain Ws Room

variable {Raw : Type}

def pingIntervalMs : Nat := 5000

def pongTimeoutMs : Nat := 45000

def initialBackoffMs : Nat := 1000

def maxBackoffMs : Nat := 30000

/-! ## The browser -/

inductive ReadyState where
  | connecting
  | opened
  | closing
  | closed
  deriving DecidableEq, Repr

/-- A `WebSocket` to the room in its URL, with the run of the effect whose handlers are on it. The rest are history
variables: when `readyState` last changed, when it opened or a ping was last sent on it, and when it opened or last
brought a pong. -/
structure Socket where
  room : Text
  readyState : ReadyState
  handlers : Option Nat
  since : Nat
  pingedAt : Nat
  pongAt : Nat
  deriving DecidableEq, Repr

def Socket.close (now : Nat) (s : Socket) : Socket :=
  match s.readyState with
  | .connecting | .opened => { s with readyState := .closing, since := now }
  | .closing | .closed => s

def Socket.accept (now : Nat) (s : Socket) : Socket :=
  { s with readyState := .opened, since := now, pingedAt := now, pongAt := now }

/-- The function given to `setInterval`, or to `setTimeout`. -/
inductive Callback where
  | ping
  | connect
  deriving DecidableEq, Repr

/-- A timer is `active` until it is cleared, a timeout until it has fired. -/
structure Timer where
  effect : Nat
  callback : Callback
  due : Nat
  active : Bool
  deriving DecidableEq, Repr

/-- `closes` is a history variable: how many sockets have closed since the effect ran or one of them opened. -/
structure Effect where
  repertoireAuthor : Text
  cancelled : Bool
  ws : Option Nat
  pingTimer : Option Nat
  reconnectTimer : Option Nat
  backoff : Nat
  lastPongAt : Nat
  closes : Nat
  deriving DecidableEq, Repr

/-- `rendered` is the dependency React ran the effect for last, `mounted` the run it will clean up. `socket` and
`connectedUsers` are the store's. -/
structure Page (Raw : Type) where
  now : Nat
  sockets : List Socket
  timers : List Timer
  effects : List Effect
  rendered : Option (Option Text)
  mounted : Option Nat
  repertoireAuthor : Option Text
  socket : Option Nat
  connectedUsers : Multiset PeerInfo

def Page.new : Page Raw := ⟨0, [], [], [], none, none, none, none, 0⟩

inductive Message (Raw : Type) where
  | pong
  | frame (f : Frame Raw)

namespace Page

def setEffect (p : Page Raw) (e : Nat) (f : Effect → Effect) : Page Raw := { p with effects := p.effects.modify e f }

def setSocket (p : Page Raw) (i : Nat) (f : Socket → Socket) : Page Raw := { p with sockets := p.sockets.modify i f }

/-- `clearInterval` and `clearTimeout`, of a variable that may be null. -/
def clear (p : Page Raw) : Option Nat → Page Raw
  | none => p
  | some t => { p with timers := p.timers.modify t fun T => { T with active := false } }

def shut (p : Page Raw) (i : Nat) : Page Raw :=
  p.setSocket i fun s => { s with readyState := .closed, since := p.now }

def close (p : Page Raw) (i : Nat) : Page Raw := p.setSocket i (Socket.close p.now)

/-! ## The effect -/

def clearTimers (p : Page Raw) (e : Nat) : Page Raw :=
  match p.effects[e]? with
  | none => p
  | some x =>
      ((p.clear x.pingTimer).clear x.reconnectTimer).setEffect e fun x =>
        { x with pingTimer := none, reconnectTimer := none }

def scheduleReconnect (p : Page Raw) (e : Nat) : Page Raw :=
  match p.effects[e]? with
  | none => p
  | some x =>
      if x.cancelled then p
      else
        { p.setEffect e fun x =>
            { x with backoff := min (x.backoff * 2) maxBackoffMs, reconnectTimer := some p.timers.length } with
          timers := p.timers ++ [⟨e, .connect, p.now + x.backoff, true⟩] }

def connect (p : Page Raw) (e : Nat) : Page Raw :=
  match p.effects[e]? with
  | none => p
  | some x =>
      if x.cancelled then p
      else
        { p.setEffect e fun x => { x with ws := some p.sockets.length } with
          sockets := p.sockets ++ [⟨x.repertoireAuthor, .connecting, some e, p.now, 0, 0⟩]
          socket := some p.sockets.length }

def onopen (p : Page Raw) (e : Nat) : Page Raw :=
  { p.setEffect e fun x =>
      { x with backoff := initialBackoffMs, lastPongAt := p.now, pingTimer := some p.timers.length, closes := 0 } with
    timers := p.timers ++ [⟨e, .ping, p.now + pingIntervalMs, true⟩] }

/-- What a tick of the interval does: nothing, close the socket, or send a ping on it. -/
inductive Tick where
  | skip
  | timeout (i : Nat)
  | ping (i : Nat)
  deriving DecidableEq, Repr

def tick (p : Page Raw) (e : Nat) : Tick :=
  match p.effects[e]? with
  | none => .skip
  | some x => match x.ws with
    | none => .skip
    | some i =>
        if (p.sockets[i]?).map Socket.readyState ≠ some .opened then .skip
        else if pongTimeoutMs < p.now - x.lastPongAt then .timeout i
        else .ping i

def onTick (p : Page Raw) (e : Nat) : Page Raw :=
  match p.tick e with
  | .skip => p
  | .timeout i => p.close i
  | .ping i => p.setSocket i fun s => { s with pingedAt := p.now }

def onmessage (p : Page Raw) (e : Nat) : Message Raw → Page Raw
  | .pong => p.setEffect e fun x => { x with lastPongAt := p.now }
  | .frame f => { p with connectedUsers := Room.onmessage f p.connectedUsers }

def onclose (p : Page Raw) (e : Nat) : Page Raw :=
  let p := { p.clearTimers e with connectedUsers := 0 }
  (p.setEffect e fun x => { x with closes := x.closes + 1 }).scheduleReconnect e

/-- The function the effect returns. -/
def cleanup (p : Page Raw) (e : Nat) : Page Raw :=
  let p := (p.setEffect e fun x => { x with cancelled := true }).clearTimers e
  let p := match (p.effects[e]?).bind Effect.ws with
    | none => p
    | some i => ((p.setSocket i fun s => { s with handlers := none }).close i).setEffect e fun x => { x with ws := none }
  { p with connectedUsers := 0 }

def unmount (p : Page Raw) : Page Raw :=
  match p.mounted with
  | none => { p with rendered := none }
  | some e => { p.cleanup e with rendered := none, mounted := none }

/-- The body of `useEffect`. The author is falsy when it is null or empty. -/
def effect (p : Page Raw) : Page Raw :=
  let p := { p with rendered := some p.repertoireAuthor }
  match p.repertoireAuthor with
  | none | some [] => p
  | some (c :: a) =>
      let x : Effect := ⟨c :: a, false, none, none, none, initialBackoffMs, 0, 0⟩
      { p with effects := p.effects ++ [x], mounted := some p.effects.length }.connect p.effects.length

/-! ## Steps -/

inductive Action (Raw : Type) where
  | wait (d : Nat)
  | setRepertoireAuthor (author : Option Text)
  /-- React commits: an effect whose dependency has changed is cleaned up and run again. -/
  | commit
  | unmount
  /-- The first half of `viewUserRepertoire`, up to its `await`. -/
  | viewUserRepertoire
  | opened (i : Nat)
  | message (i : Nat) (m : Message Raw)
  | closed (i : Nat)
  | fire (t : Nat)

def opened (p : Page Raw) (i : Nat) : Page Raw :=
  match p.sockets[i]? with
  | none => p
  | some s =>
      if s.readyState ≠ .connecting then p
      else match s.handlers with
        | none => p.setSocket i (Socket.accept p.now)
        | some e => (p.setSocket i (Socket.accept p.now)).onopen e

/-- The browser drops a message for a socket that is not open. -/
def message (p : Page Raw) (i : Nat) (m : Message Raw) : Page Raw :=
  match p.sockets[i]? with
  | none => p
  | some s =>
      if s.readyState ≠ .opened then p
      else match s.handlers, m with
        | none, _ => p
        | some e, .pong => (p.setSocket i fun s => { s with pongAt := p.now }).onmessage e .pong
        | some e, .frame f => p.onmessage e (.frame f)

def closed (p : Page Raw) (i : Nat) : Page Raw :=
  match p.sockets[i]? with
  | none => p
  | some s =>
      if s.readyState = .closed then p
      else match s.handlers with
        | none => p.shut i
        | some e => (p.shut i).onclose e

/-- The socket a firing timer sends a ping on. -/
def sends (p : Page Raw) (t : Nat) : Option Nat :=
  match p.timers[t]? with
  | none => none
  | some T =>
      if T.active = false ∨ p.now < T.due then none
      else match T.callback with
        | .connect => none
        | .ping => match p.tick T.effect with
          | .ping i => some i
          | _ => none

/-- An interval is set again once its callback has run. -/
def fire (p : Page Raw) (t : Nat) : Page Raw :=
  match p.timers[t]? with
  | none => p
  | some T =>
      if T.active = false ∨ p.now < T.due then p
      else match T.callback with
        | .connect => { p with timers := p.timers.modify t fun T => { T with active := false } }.connect T.effect
        | .ping =>
            let p := p.onTick T.effect
            { p with timers := p.timers.modify t fun T => { T with due := p.now + pingIntervalMs } }

def viewUserRepertoire (p : Page Raw) : Page Raw :=
  { match p.socket with
    | none => p
    | some i => p.close i with
    connectedUsers := 0 }

def step (p : Page Raw) : Action Raw → Page Raw
  | .wait d => { p with now := p.now + d }
  | .setRepertoireAuthor author => { p with repertoireAuthor := author }
  | .commit => if p.rendered = some p.repertoireAuthor then p else p.unmount.effect
  | .unmount => p.unmount
  | .viewUserRepertoire => p.viewUserRepertoire
  | .opened i => p.opened i
  | .message i m => p.message i m
  | .closed i => p.closed i
  | .fire t => p.fire t

/-! ## What should hold -/

/-- The socket can still call a handler. -/
def Alert (p : Page Raw) (i : Nat) : Prop :=
  ∃ s, p.sockets[i]? = some s ∧ s.handlers ≠ none ∧ s.readyState ≠ .closed

def Armed (p : Page Raw) (t : Nat) : Prop := ∃ T, p.timers[t]? = some T ∧ T.active = true

/-- The timer will connect again. -/
def Retries (p : Page Raw) (t : Nat) : Prop := ∃ T, p.timers[t]? = some T ∧ T.active = true ∧ T.callback = .connect

/-- The socket is connecting or open. -/
def Live (p : Page Raw) (i : Nat) : Prop :=
  ∃ s, p.sockets[i]? = some s ∧ (s.readyState = .connecting ∨ s.readyState = .opened)

/-- One connection at a time, to the room the effect ran for, and one timer; a mounted effect always waits for its
socket to close or for the time to connect again, and an effect that is cleaned up for nothing. -/
structure Orderly (p : Page Raw) : Prop where
  socket : ∀ i j, p.Live i → p.Live j → i = j
  timer : ∀ t u, p.Armed t → p.Armed u → t = u
  room : ∀ i s, p.Live i → p.sockets[i]? = some s → p.rendered = some (some s.room)
  mounted : p.mounted ≠ none → ((∃ i, p.Alert i) ↔ ¬ ∃ t, p.Retries t)
  unmounted : p.mounted = none → (∀ i, ¬ p.Alert i) ∧ ∀ t, ¬ p.Armed t
  users : p.connectedUsers ≠ 0 → ∃ i, p.Alert i

/-- Time passes only while no timer is overdue by more than `slack`. -/
def Prompt (slack : Nat) (p : Page Raw) : Action Raw → Prop
  | .wait d => ∀ T ∈ p.timers, T.active = true → p.now + d ≤ T.due + slack
  | _ => True

instance (slack : Nat) (p : Page Raw) (a : Action Raw) : Decidable (p.Prompt slack a) :=
  match a with
  | .wait d => inferInstanceAs (Decidable (∀ T ∈ p.timers, T.active = true → p.now + d ≤ T.due + slack))
  | .setRepertoireAuthor _ | .commit | .unmount | .viewUserRepertoire | .opened _ | .message _ _ | .closed _ | .fire _ =>
      isTrue trivial

/-- An open socket has had a pong in the last 50 seconds, and when the mounted effect's socket has closed, its next one is
made after a delay that doubles with every socket that closes before another opens. -/
structure Timely (slack : Nat) (p : Page Raw) : Prop where
  answered : ∀ (i : Nat) s, p.sockets[i]? = some s → s.readyState = .opened →
    p.now ≤ s.pongAt + pongTimeoutMs + pingIntervalMs + slack
  retried : ∀ (e i : Nat) x s, p.mounted = some e → p.effects[e]? = some x → x.ws = some i → p.sockets[i]? = some s →
    s.readyState = .closed →
    x.closes ≠ 0 ∧ p.now ≤ s.since + min (initialBackoffMs * 2 ^ (x.closes - 1)) maxBackoffMs + slack

/-- Outside a commit a socket is made only in place of one that has been closed for the time of the backoff. -/
def Delays (p : Page Raw) (a : Action Raw) : Prop :=
  a ≠ .commit → (p.step a).sockets.length ≠ p.sockets.length → ∃ e i x s, p.mounted = some e ∧
    p.effects[e]? = some x ∧ x.ws = some i ∧ p.sockets[i]? = some s ∧ s.readyState = .closed ∧
    s.since + min (initialBackoffMs * 2 ^ (x.closes - 1)) maxBackoffMs ≤ p.now

/-- A timer closes an open socket only when the last pong is more than 45 seconds old. -/
def Spares (p : Page Raw) (a : Action Raw) : Prop :=
  ∀ (t i : Nat) s, a = .fire t → p.sockets[i]? = some s → s.readyState = .opened →
    (∀ s', (p.step a).sockets[i]? = some s' → s'.readyState ≠ .opened) → s.pongAt + pongTimeoutMs < p.now

end Page

end Chessrepeat.Hooks
