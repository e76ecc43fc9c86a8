import Chessrepeat.Hooks.Websocket
import Mathlib.Algebra.Ring.Nat

/-!
# The websocket of the page

Between two steps the page is in one of three phases: nothing is mounted, the effect has a socket that has not
closed, or its socket has closed and a timeout will connect. All that can call back is named by the variables of the
mounted effect.
-/

namespace Chessrepeat.Hooks

open Lib Domain Ws Room

variable {Raw : Type} {p : Page Raw} {e i j t u : Nat} {x : Effect} {s : Socket} {T : Timer}

@[simp] theorem Socket.close_handlers (now : Nat) (s : Socket) : (s.close now).handlers = s.handlers := by
  rw [Socket.close]; split <;> rfl

@[simp] theorem Socket.close_room (now : Nat) (s : Socket) : (s.close now).room = s.room := by
  rw [Socket.close]; split <;> rfl

theorem Socket.close_readyState (now : Nat) (s : Socket) :
    (s.close now).readyState = .closing ∨ (s.close now).readyState = .closed ∧ s.close now = s := by
  rw [Socket.close]
  split
  · exact Or.inl rfl
  · exact Or.inl rfl
  · exact Or.inl ‹_›
  · exact Or.inr ⟨‹_›, rfl⟩

theorem getElem?_snoc {α : Type} {l : List α} {a b : α} :
    (l ++ [a])[i]? = some b ↔ l[i]? = some b ∨ i = l.length ∧ a = b := by
  rw [List.getElem?_append]
  by_cases h : i < l.length
  · rw [if_pos h]
    exact ⟨Or.inl, fun h' => h'.resolve_right fun h'' => absurd h''.1 (Nat.ne_of_lt h)⟩
  · have hn : l[i]? = none := List.getElem?_eq_none (Nat.le_of_not_lt h)
    rw [if_neg h, List.getElem?_singleton, hn]
    by_cases hi : i = l.length
    · subst hi
      simp
    · have : ¬ i - l.length = 0 := by omega
      simp [hi, this]

/-- The socket is closing or closed afterwards. -/
structure Fades (f : Socket → Socket) : Prop where
  handlers : ∀ s, (f s).handlers = s.handlers
  down : ∀ s, (f s).readyState = .closing ∨ (f s).readyState = .closed
  closed : ∀ s, s.readyState = .closed → (f s).readyState = .closed

theorem fades_close (now : Nat) : Fades (Socket.close now) where
  handlers := Socket.close_handlers now
  down s := (s.close_readyState now).imp_right And.left
  closed s h := by rw [Socket.close, h, h]

theorem fades_closed (now : Nat) : Fades fun s => { s with readyState := .closed, since := now } where
  handlers _ := rfl
  down _ := Or.inr rfl
  closed _ _ := rfl

/-- What the cleanup does to a socket. -/
def Socket.dropped (now : Nat) (s : Socket) : Socket := ({ s with handlers := none } : Socket).close now

theorem Socket.dropped_handlers (now : Nat) (s : Socket) : (s.dropped now).handlers = none :=
  Socket.close_handlers now _

def Effect.untimed (x : Effect) : Effect := { x with pingTimer := none, reconnectTimer := none }

/-- The next delay doubles, up to the bound. -/
def Effect.retried (n : Nat) (x : Effect) : Effect :=
  { x with backoff := min (x.backoff * 2) maxBackoffMs, reconnectTimer := some n }

/-- Doubling up to a bound. -/
theorem min_double (b m n : Nat) : min (min (b * 2 ^ n) m * 2) m = min (b * 2 ^ (n + 1)) m := by
  rw [pow_succ, ← Nat.mul_assoc]
  omega

namespace Page

/-! ## What an operation changes -/

theorem setEffect_effect {f : Effect → Effect} (h : p.effects[e]? = some x) :
    (p.setEffect e f).effects[e]? = some (f x) := by
  simp [setEffect, h]

theorem setSocket_socket {f : Socket → Socket} :
    (p.setSocket i f).sockets[j]? = (p.sockets[j]?).map fun s => if i = j then f s else s := by
  rw [setSocket, List.getElem?_modify]
  cases p.sockets[j]? <;> rfl

theorem clear_armed {o : Option Nat} : (p.clear o).Armed t ↔ p.Armed t ∧ o ≠ some t := by
  cases o with
  | none => simp [clear]
  | some u =>
      simp only [clear, Armed, List.getElem?_modify, Option.map_eq_map, Option.map_eq_some_iff, ne_eq, Option.some.injEq]
      constructor
      · rintro ⟨_, ⟨T, hT, rfl⟩, ha⟩
        by_cases hut : u = t
        · simp [hut] at ha
        · exact ⟨⟨T, hT, by simpa [hut] using ha⟩, hut⟩
      · rintro ⟨⟨T, hT, ha⟩, hut⟩
        exact ⟨_, ⟨T, hT, rfl⟩, by simpa [hut] using ha⟩

theorem clear_eq (o : Option Nat) : ∃ ts, p.clear o = { p with timers := ts } := by
  cases o with
  | none => exact ⟨p.timers, rfl⟩
  | some t => exact ⟨_, rfl⟩

/-- When the variables name every timer, none is left. -/
theorem clearTimers_spec (hx : p.effects[e]? = some x)
    (hn : ∀ t, p.Armed t → x.pingTimer = some t ∨ x.reconnectTimer = some t) :
    ∃ ts, p.clearTimers e = { p.setEffect e Effect.untimed with timers := ts } ∧ ∀ t, ¬ (p.clearTimers e).Armed t := by
  obtain ⟨ts, hts⟩ := p.clear_eq x.pingTimer
  obtain ⟨us, hus⟩ := (p.clear x.pingTimer).clear_eq x.reconnectTimer
  have he : p.clearTimers e = ((p.clear x.pingTimer).clear x.reconnectTimer).setEffect e Effect.untimed := by
    rw [clearTimers, hx]
    rfl
  refine ⟨us, by rw [he, hus, hts]; rfl, fun t ht => ?_⟩
  rw [he] at ht
  obtain ⟨⟨ha, h1⟩, h2⟩ : (p.Armed t ∧ x.pingTimer ≠ some t) ∧ x.reconnectTimer ≠ some t := by
    rw [← clear_armed, ← clear_armed]
    exact ht
  rcases hn t ha with h | h
  · exact h1 h
  · exact h2 h

/-! ## The phases -/

/-- A socket without handlers has been closed by the page. -/
def Rest (p : Page Raw) : Prop :=
  ∀ (i : Nat) s, p.sockets[i]? = some s → s.handlers = none → s.readyState = .closing ∨ s.readyState = .closed

/-- Nothing can call back. -/
structure Silent (p : Page Raw) : Prop where
  socket : ∀ i, ¬ p.Alert i
  timer : ∀ t, ¬ p.Armed t
  users : p.connectedUsers = 0

/-- The run `e` of the effect is mounted, with these variables. -/
structure Owns (p : Page Raw) (e : Nat) (x : Effect) : Prop where
  mounted : p.mounted = some e
  effect : p.effects[e]? = some x
  cancelled : x.cancelled = false
  rendered : p.rendered = some (some x.repertoireAuthor)
  backoff : x.backoff = min (initialBackoffMs * 2 ^ x.closes) maxBackoffMs

/-- All that can call back is the mounted effect's and is named by its variables. -/
structure Held (p : Page Raw) (e : Nat) (x : Effect) : Prop extends Owns p e x where
  socket : ∀ (i : Nat) s, p.sockets[i]? = some s → s.handlers ≠ none → s.readyState ≠ .closed →
    s.handlers = some e ∧ x.ws = some i
  timer : ∀ (t : Nat) T, p.timers[t]? = some T → T.active = true → T.effect = e ∧
    (T.callback = .ping ∧ x.pingTimer = some t ∨ T.callback = .connect ∧ x.reconnectTimer = some t)

/-- Its socket has not closed. -/
structure Joined (p : Page Raw) (e i : Nat) (x : Effect) (s : Socket) : Prop extends Held p e x where
  ws : x.ws = some i
  link : p.sockets[i]? = some s
  handlers : s.handlers = some e
  unclosed : s.readyState ≠ .closed
  room : s.room = x.repertoireAuthor
  retry : ∀ t, ¬ p.Retries t
  connecting : s.readyState = .connecting → (∀ t, ¬ p.Armed t) ∧ p.connectedUsers = 0

/-- While it is open, it is pinged. -/
structure Linked (p : Page Raw) (e i : Nat) (x : Effect) (s : Socket) : Prop extends Joined p e i x s where
  opened : s.readyState = .opened → x.lastPongAt = s.pongAt ∧ s.pongAt ≤ p.now ∧
    ∃ (t : Nat) (T : Timer), p.timers[t]? = some T ∧ T.active = true ∧ T.due = s.pingedAt + pingIntervalMs ∧
      s.pingedAt ≤ s.pongAt + pongTimeoutMs

/-- Its socket has closed, and the timeout will connect. -/
structure Waiting (p : Page Raw) (e i t : Nat) (x : Effect) (s : Socket) (T : Timer) : Prop extends Held p e x where
  ws : x.ws = some i
  link : p.sockets[i]? = some s
  closed : s.readyState = .closed
  timeout : p.timers[t]? = some T
  active : T.active = true
  callback : T.callback = .connect
  only : ∀ u, p.Armed u → u = t
  users : p.connectedUsers = 0
  closes : x.closes ≠ 0
  due : T.due = s.since + min (initialBackoffMs * 2 ^ (x.closes - 1)) maxBackoffMs

/-- The phases a page can be in between two steps. -/
inductive Phase (p : Page Raw) : Prop where
  | down (h : p.mounted = none) (hs : p.Silent)
  | linked {e i : Nat} {x : Effect} {s : Socket} (h : p.Linked e i x s)
  | waiting {e i t : Nat} {x : Effect} {s : Socket} {T : Timer} (h : p.Waiting e i t x s T)

/-! ## From phase to phase -/

theorem Held.armed (h : p.Held e x) (ht : p.Armed t) : x.pingTimer = some t ∨ x.reconnectTimer = some t := by
  obtain ⟨T, hT, ha⟩ := ht
  obtain ⟨-, ⟨-, hp⟩ | ⟨-, hr⟩⟩ := h.timer t T hT ha
  · exact Or.inl hp
  · exact Or.inr hr

theorem connect_eq (h : p.Owns e x) :
    p.connect e =
      { p.setEffect e fun x => { x with ws := some p.sockets.length } with
        sockets := p.sockets ++ [⟨x.repertoireAuthor, .connecting, some e, p.now, 0, 0⟩]
        socket := some p.sockets.length } := by
  rw [connect, h.effect]
  simp only [h.cancelled, Bool.false_eq_true, ↓reduceIte]

theorem scheduleReconnect_eq (hx : p.effects[e]? = some x) (hc : x.cancelled = false) :
    p.scheduleReconnect e =
      { p.setEffect e (Effect.retried p.timers.length) with
        timers := p.timers ++ [⟨e, .connect, p.now + x.backoff, true⟩] } := by
  rw [scheduleReconnect, hx]
  simp only [hc, Bool.false_eq_true, ↓reduceIte]
  rfl

theorem Rest.connect (hr : p.Rest) (h : p.Owns e x) : (p.connect e).Rest := by
  rw [connect_eq h]
  intro i s hi hh
  rcases getElem?_snoc.mp hi with hi | ⟨-, rfl⟩
  · exact hr i s hi hh
  · exact absurd hh nofun

/-- A silent page with a mounted effect connects. -/
theorem Owns.connect (h : p.Owns e x) (hs : p.Silent) : (p.connect e).Phase := by
  have hx := connect_eq h
  refine .linked (e := e) (i := p.sockets.length) (x := { x with ws := some p.sockets.length })
    (s := ⟨x.repertoireAuthor, .connecting, some e, p.now, 0, 0⟩) ?_
  rw [hx]
  exact
    { mounted := h.mounted
      effect := setEffect_effect h.effect
      cancelled := h.cancelled
      rendered := h.rendered
      backoff := h.backoff
      socket := fun i s hi hh hc => by
        rcases getElem?_snoc.mp hi with hi | ⟨rfl, rfl⟩
        · exact absurd ⟨s, hi, hh, hc⟩ (hs.socket i)
        · exact ⟨rfl, rfl⟩
      timer := fun t T hT ha => absurd ⟨T, hT, ha⟩ (hs.timer t)
      ws := rfl
      link := List.getElem?_concat_length
      handlers := rfl
      unclosed := nofun
      room := rfl
      retry := fun t ⟨T, hT, ha, _⟩ => hs.timer t ⟨T, hT, ha⟩
      connecting := fun _ => ⟨hs.timer, hs.users⟩
      opened := nofun }

/-- A silent page whose socket has just closed will connect again. -/
theorem Owns.scheduleReconnect (h : p.Owns e x) (hs : p.Silent) (hw : x.ws = some i) (hi : p.sockets[i]? = some s)
    (hc : s.readyState = .closed) (hnow : s.since = p.now) :
    ((p.setEffect e fun x => { x with closes := x.closes + 1 }).scheduleReconnect e).Phase := by
  have hx := setEffect_effect (f := fun x => { x with closes := x.closes + 1 }) h.effect
  refine .waiting (e := e) (i := i) (t := p.timers.length) (s := s) (T := ⟨e, .connect, p.now + x.backoff, true⟩)
    (x := Effect.retried p.timers.length { x with closes := x.closes + 1 }) ?_
  rw [scheduleReconnect_eq hx h.cancelled]
  exact
    { mounted := h.mounted
      effect := setEffect_effect hx
      cancelled := h.cancelled
      rendered := h.rendered
      backoff := by
        have hb := min_double initialBackoffMs maxBackoffMs x.closes
        rwa [← h.backoff] at hb
      socket := fun j s' hj hh hc => absurd ⟨s', hj, hh, hc⟩ (hs.socket j)
      timer := fun t T hT ha => by
        rcases getElem?_snoc.mp hT with hT | ⟨rfl, rfl⟩
        · exact absurd ⟨T, hT, ha⟩ (hs.timer t)
        · exact ⟨rfl, Or.inr ⟨rfl, rfl⟩⟩
      ws := hw
      link := hi
      closed := hc
      timeout := List.getElem?_concat_length
      active := rfl
      callback := rfl
      only := fun u ⟨T, hT, ha⟩ => by
        rcases getElem?_snoc.mp hT with hT | ⟨rfl, -⟩
        · exact absurd ⟨T, hT, ha⟩ (hs.timer u)
        · rfl
      users := hs.users
      closes := Nat.succ_ne_zero x.closes
      due := by
        show p.now + x.backoff = s.since + min (initialBackoffMs * 2 ^ (x.closes + 1 - 1)) maxBackoffMs
        rw [hnow, Nat.add_sub_cancel, ← h.backoff] }

/-! ## The cleanup -/

/-- It drops the handlers of the socket and closes it. -/
def drop (p : Page Raw) (o : Option Nat) : List Socket :=
  match o with
  | none => p.sockets
  | some i => p.sockets.modify i (Socket.dropped p.now)

theorem of_drop {o : Option Nat} (h : (p.drop o)[i]? = some s) :
    (∃ s' : Socket, s = s'.dropped p.now) ∨ o ≠ some i ∧ p.sockets[i]? = some s := by
  cases o with
  | none => exact Or.inr ⟨nofun, h⟩
  | some j =>
      rw [drop, List.getElem?_modify, Option.map_eq_map, Option.map_eq_some_iff] at h
      obtain ⟨s', hs', he⟩ := h
      by_cases hj : j = i
      · exact Or.inl ⟨s', by rw [← he, if_pos hj]⟩
      · exact Or.inr ⟨fun hji => hj (Option.some.inj hji), by rw [← he, if_neg hj, hs']⟩

theorem cleanup_spec (h : p.Held e x) :
    (p.cleanup e).sockets = p.drop x.ws ∧ ∀ t, ¬ (p.cleanup e).Armed t := by
  have hx := setEffect_effect (f := fun x => { x with cancelled := true }) h.effect
  obtain ⟨ts, hts, hno⟩ := clearTimers_spec hx fun t ht => h.armed ht
  set q := (p.setEffect e fun x => { x with cancelled := true }).clearTimers e with hq
  have hqe : q.effects[e]? = some ({ x with cancelled := true } : Effect).untimed := by
    rw [hts]
    exact setEffect_effect hx
  have hc : p.cleanup e = { (match x.ws with
      | none => q
      | some i => ((q.setSocket i fun s => { s with handlers := none }).close i).setEffect e fun x =>
          { x with ws := none }) with connectedUsers := 0 } := by
    rw [cleanup, ← hq, hqe]
    rfl
  cases hw : x.ws with
  | none =>
      rw [hw] at hc
      rw [hc]
      exact ⟨by rw [hts]; rfl, hno⟩
  | some i =>
      rw [hw] at hc
      rw [hc]
      refine ⟨?_, hno⟩
      rw [hts]
      exact List.modify_modify_eq ..

/-- The cleanup leaves nothing that can call back. -/
theorem Held.cleanup (h : p.Held e x) : (p.cleanup e).Silent := by
  obtain ⟨hs, hno⟩ := cleanup_spec h
  refine ⟨fun i ⟨s, hi, hh, hc⟩ => ?_, hno, rfl⟩
  rw [hs] at hi
  rcases of_drop hi with ⟨s', rfl⟩ | ⟨hw, hi⟩
  · exact hh (s'.dropped_handlers p.now)
  · exact hw (h.socket i s hi hh hc).2

theorem Rest.cleanup (hr : p.Rest) (h : p.Held e x) : (p.cleanup e).Rest := by
  intro i s hi hh
  rw [(cleanup_spec h).1] at hi
  rcases of_drop hi with ⟨s', rfl⟩ | ⟨-, hi⟩
  · rcases Socket.close_readyState p.now { s' with handlers := none } with h | ⟨h, -⟩
    · exact Or.inl h
    · exact Or.inr h
  · exact hr i s hi hh

theorem Phase.unmount (hr : p.Rest) (h : p.Phase) : p.unmount.Rest ∧ p.unmount.mounted = none ∧ p.unmount.Silent := by
  have held : ∀ {e x}, p.Held e x → p.unmount.Rest ∧ p.unmount.mounted = none ∧ p.unmount.Silent := by
    intro e x h
    rw [Page.unmount, h.mounted]
    have hs := h.cleanup
    exact ⟨hr.cleanup h, rfl, hs.socket, hs.timer, hs.users⟩
  cases h with
  | down hm hs =>
      rw [Page.unmount, hm]
      exact ⟨hr, rfl, hs.socket, hs.timer, hs.users⟩
  | linked h => exact held h.toHeld
  | waiting h => exact held h.toHeld

theorem Silent.effect (hr : p.Rest) (hm : p.mounted = none) (hs : p.Silent) : p.effect.Rest ∧ p.effect.Phase := by
  have hoff : ({ p with rendered := some p.repertoireAuthor } : Page Raw).Phase := .down hm ⟨hs.socket, hs.timer, hs.users⟩
  match ha : p.repertoireAuthor with
  | none =>
      rw [Page.effect, ha]
      rw [ha] at hoff
      exact ⟨hr, hoff⟩
  | some [] =>
      rw [Page.effect, ha]
      rw [ha] at hoff
      exact ⟨hr, hoff⟩
  | some (c :: a) =>
      rw [Page.effect, ha]
      refine ⟨Rest.connect hr (x := ⟨c :: a, false, none, none, none, initialBackoffMs, 0, 0⟩) ?_, Owns.connect
        (x := ⟨c :: a, false, none, none, none, initialBackoffMs, 0, 0⟩) ?_ ⟨hs.socket, hs.timer, hs.users⟩⟩ <;>
      exact ⟨rfl, List.getElem?_concat_length, rfl, rfl, rfl⟩

/-! ## A socket goes down -/

theorem of_setSocket {f : Socket → Socket} (h : (p.setSocket j f).sockets[i]? = some s) :
    ∃ s', p.sockets[i]? = some s' ∧ (j = i ∧ s = f s' ∨ j ≠ i ∧ s = s') := by
  rw [setSocket_socket, Option.map_eq_some_iff] at h
  obtain ⟨s', hs', rfl⟩ := h
  by_cases hji : j = i
  · exact ⟨s', hs', Or.inl ⟨hji, if_pos hji⟩⟩
  · exact ⟨s', hs', Or.inr ⟨hji, if_neg hji⟩⟩

theorem of_alert {f : Socket → Socket} (hf : Fades f) (hi : (p.setSocket j f).sockets[i]? = some s)
    (hh : s.handlers ≠ none) (hc : s.readyState ≠ .closed) :
    ∃ s', p.sockets[i]? = some s' ∧ s'.handlers = s.handlers ∧ s'.readyState ≠ .closed := by
  obtain ⟨s', hs', ⟨-, rfl⟩ | ⟨-, rfl⟩⟩ := of_setSocket hi
  · exact ⟨s', hs', (hf.handlers s').symm, fun h => hc (hf.closed s' h)⟩
  · exact ⟨s, hs', rfl, hc⟩

theorem Rest.setSocket {f : Socket → Socket} (hf : Fades f) (hr : p.Rest) : (p.setSocket j f).Rest := by
  intro i s hi hh
  obtain ⟨s', hs', ⟨-, rfl⟩ | ⟨-, rfl⟩⟩ := of_setSocket hi
  · exact hf.down s'
  · exact hr i s hs' hh

theorem Silent.setSocket {f : Socket → Socket} (hf : Fades f) (hs : p.Silent) : (p.setSocket j f).Silent where
  socket := by
    rintro i ⟨s, hi, hh, hc⟩
    obtain ⟨s', hs', hh', hc'⟩ := of_alert hf hi hh hc
    exact hs.socket i ⟨s', hs', hh' ▸ hh, hc'⟩
  timer := hs.timer
  users := hs.users

theorem Held.setSocket {f : Socket → Socket} (hf : Fades f) (h : p.Held e x) : (p.setSocket j f).Held e x where
  toOwns := ⟨h.mounted, h.effect, h.cancelled, h.rendered, h.backoff⟩
  socket i s hi hh hc := by
    obtain ⟨s', hs', hh', hc'⟩ := of_alert hf hi hh hc
    exact hh' ▸ h.socket i s' hs' (hh' ▸ hh) hc'
  timer := h.timer

theorem Linked.setSocket {f : Socket → Socket} (hf : Fades f) (hroom : ∀ s, (f s).room = s.room)
    (hu : j = i → (f s).readyState ≠ .closed) (h : p.Linked e i x s) :
    (p.setSocket j f).Linked e i x (if j = i then f s else s) := by
  have hlink : (p.setSocket j f).sockets[i]? = some (if j = i then f s else s) := by
    rw [setSocket_socket, h.link]
    rfl
  by_cases hji : j = i
  · rw [if_pos hji] at hlink ⊢
    have hcl : (f s).readyState = .closing := (hf.down s).resolve_right (hu hji)
    exact
      { toHeld := h.toHeld.setSocket hf
        ws := h.ws
        link := hlink
        handlers := (hf.handlers s).trans h.handlers
        unclosed := hu hji
        room := (hroom s).trans h.room
        retry := h.retry
        connecting := fun hc => absurd (hcl.symm.trans hc) nofun
        opened := fun ho => absurd (hcl.symm.trans ho) nofun }
  · rw [if_neg hji] at hlink ⊢
    exact
      { toHeld := h.toHeld.setSocket hf
        ws := h.ws
        link := hlink
        handlers := h.handlers
        unclosed := h.unclosed
        room := h.room
        retry := h.retry
        connecting := h.connecting
        opened := h.opened }

theorem Waiting.setSocket {f : Socket → Socket} (hf : Fades f) (hu : j = i → f s = s) (h : p.Waiting e i t x s T) :
    (p.setSocket j f).Waiting e i t x s T where
  toHeld := h.toHeld.setSocket hf
  ws := h.ws
  link := by
    rw [setSocket_socket, h.link, Option.map_some]
    split
    · exact congrArg some (hu ‹_›)
    · rfl
  closed := h.closed
  timeout := h.timeout
  active := h.active
  callback := h.callback
  only := h.only
  users := h.users
  closes := h.closes
  due := h.due

theorem Phase.close (h : p.Phase) : (p.close j).Phase := by
  cases h with
  | down hm hs => exact .down hm (hs.setSocket (fades_close p.now))
  | @linked e i x s h =>
      refine .linked (h.setSocket (fades_close p.now) (Socket.close_room p.now) fun _ => ?_)
      rcases s.close_readyState p.now with hc | ⟨hc, he⟩
      · rw [hc]
        decide
      · rw [he] at hc
        exact absurd hc h.unclosed
  | @waiting e i t x s T h => exact .waiting (h.setSocket (fades_close p.now) fun _ => by rw [Socket.close, h.closed])

/-! ## The browser calls back -/

/-- A socket that can call back is the one the mounted effect has. -/
theorem Phase.of_alert (h : p.Phase) (hi : p.sockets[i]? = some s) (hh : s.handlers = some e)
    (hc : s.readyState ≠ .closed) : ∃ x, p.Linked e i x s := by
  have hh' : s.handlers ≠ none := fun hn => nomatch hh.symm.trans hn
  cases h with
  | down hm hs => exact absurd ⟨s, hi, hh', hc⟩ (hs.socket i)
  | @linked e' i' x s' h =>
      obtain ⟨he, hw⟩ := h.socket i s hi hh' hc
      obtain rfl : e = e' := Option.some.inj (hh.symm.trans he)
      obtain rfl : i' = i := Option.some.inj (h.ws.symm.trans hw)
      obtain rfl : s' = s := Option.some.inj (h.link.symm.trans hi)
      exact ⟨x, h⟩
  | @waiting e' i' t x s' T h =>
      obtain rfl : i' = i := Option.some.inj (h.ws.symm.trans (h.socket i s hi hh' hc).2)
      exact absurd (Option.some.inj (hi.symm.trans h.link) ▸ h.closed) hc

/-- The mounted effect's socket may change in any way that leaves its handlers. -/
theorem Linked.held {f : Socket → Socket} (h : p.Linked e i x s) (hf : ∀ s, (f s).handlers = s.handlers) :
    (p.setSocket i f).Held e x where
  toOwns := ⟨h.mounted, h.effect, h.cancelled, h.rendered, h.backoff⟩
  socket j s' hj hh hc := by
    obtain ⟨s₀, hs₀, ⟨rfl, rfl⟩ | ⟨-, rfl⟩⟩ := of_setSocket hj
    · obtain rfl : s = s₀ := Option.some.inj (h.link.symm.trans hs₀)
      exact ⟨(hf s).trans h.handlers, h.ws⟩
    · exact h.socket j s' hs₀ hh hc
  timer := h.timer

theorem Linked.rest {f : Socket → Socket} (h : p.Linked e i x s) (hf : ∀ s, (f s).handlers = s.handlers)
    (hr : p.Rest) : (p.setSocket i f).Rest := by
  intro j s' hj hh
  obtain ⟨s₀, hs₀, ⟨rfl, rfl⟩ | ⟨-, rfl⟩⟩ := of_setSocket hj
  · obtain rfl : s = s₀ := Option.some.inj (h.link.symm.trans hs₀)
    exact nomatch h.handlers.symm.trans ((hf s).symm.trans hh)
  · exact hr j s' hs₀ hh

theorem Linked.onopen (h : p.Linked e i x s) (hc : s.readyState = .connecting) :
    ((p.setSocket i (Socket.accept p.now)).onopen e).Phase := by
  obtain ⟨hno, -⟩ := h.connecting hc
  refine .linked (e := e) (i := i) (s := s.accept p.now)
    (x := { x with
      backoff := initialBackoffMs, lastPongAt := p.now, pingTimer := some p.timers.length, closes := 0 }) ?_
  exact
    { mounted := h.mounted
      effect := setEffect_effect h.effect
      cancelled := h.cancelled
      rendered := h.rendered
      backoff := rfl
      socket := (h.held (f := Socket.accept p.now) fun _ => rfl).socket
      timer := fun t T hT ha => by
        rcases getElem?_snoc.mp hT with hT | ⟨rfl, rfl⟩
        · exact absurd ⟨T, hT, ha⟩ (hno t)
        · exact ⟨rfl, Or.inl ⟨rfl, rfl⟩⟩
      ws := h.ws
      link := by
        show (p.setSocket i _).sockets[i]? = _
        rw [setSocket_socket, h.link, Option.map_some, if_pos rfl]
      handlers := h.handlers
      unclosed := nofun
      room := h.room
      retry := fun t ⟨T, hT, ha, hcb⟩ => by
        rcases getElem?_snoc.mp hT with hT | ⟨-, rfl⟩
        · exact hno t ⟨T, hT, ha⟩
        · exact nomatch hcb
      connecting := nofun
      opened := fun _ => by
        exact ⟨rfl, Nat.le_refl p.now, p.timers.length, _, List.getElem?_concat_length, rfl, rfl, Nat.le_add_right ..⟩ }

theorem Phase.opened (hr : p.Rest) (h : p.Phase) : (p.opened i).Rest ∧ (p.opened i).Phase := by
  rw [Page.opened]
  split
  · exact ⟨hr, h⟩
  · rename_i s hi
    split
    · exact ⟨hr, h⟩
    · have hc : s.readyState = .connecting := not_not.mp ‹_›
      split
      · rename_i hn
        rcases hr i s hi hn with h' | h' <;> exact nomatch hc.symm.trans h'
      · rename_i e he
        obtain ⟨x, hl⟩ := h.of_alert hi he (hc ▸ nofun)
        exact ⟨hl.rest (f := Socket.accept p.now) (fun _ => rfl) hr, hl.onopen hc⟩

theorem Linked.pong (h : p.Linked e i x s) (ho : s.readyState = .opened) :
    ((p.setSocket i fun s => { s with pongAt := p.now }).onmessage e .pong : Page Raw).Phase := by
  have hcon : s.readyState ≠ .connecting := ho ▸ nofun
  obtain ⟨-, hle, t, T, hT, ha, hd, hp⟩ := h.opened ho
  refine .linked (e := e) (i := i) (s := { s with pongAt := p.now }) (x := { x with lastPongAt := p.now }) ?_
  exact
    { mounted := h.mounted
      effect := setEffect_effect h.effect
      cancelled := h.cancelled
      rendered := h.rendered
      backoff := h.backoff
      socket := (h.held (f := fun s => { s with pongAt := p.now }) fun _ => rfl).socket
      timer := h.timer
      ws := h.ws
      link := by
        show (p.setSocket i _).sockets[i]? = _
        rw [setSocket_socket, h.link, Option.map_some, if_pos rfl]
      handlers := h.handlers
      unclosed := h.unclosed
      room := h.room
      retry := h.retry
      connecting := fun hc => absurd hc hcon
      opened := fun _ => ⟨rfl, Nat.le_refl p.now, t, T, hT, ha, hd, hp.trans (Nat.add_le_add_right hle _)⟩ }

theorem Phase.message (hr : p.Rest) (h : p.Phase) (m : Message Raw) :
    (p.message i m).Rest ∧ (p.message i m).Phase := by
  rw [Page.message]
  split
  · exact ⟨hr, h⟩
  · rename_i s hi
    split
    · exact ⟨hr, h⟩
    · have ho : s.readyState = .opened := not_not.mp ‹_›
      split
      · exact ⟨hr, h⟩
      · rename_i e he
        obtain ⟨x, hl⟩ := h.of_alert hi he (ho ▸ nofun)
        exact ⟨hl.rest (f := fun s => { s with pongAt := p.now }) (fun _ => rfl) hr, hl.pong ho⟩
      · rename_i e f he
        obtain ⟨x, hl⟩ := h.of_alert hi he (ho ▸ nofun)
        exact ⟨hr, .linked (e := e) (i := i) (x := x) (s := s)
          { hl with connecting := fun hc => nomatch ho.symm.trans hc }⟩

theorem clearTimers_sockets : (p.clearTimers e).sockets = p.sockets := by
  rw [clearTimers]
  split
  · rfl
  · rename_i x hx
    obtain ⟨ts, hts⟩ := p.clear_eq x.pingTimer
    obtain ⟨us, hus⟩ := (p.clear x.pingTimer).clear_eq x.reconnectTimer
    rw [hus, hts]
    rfl

theorem onclose_sockets : (p.onclose e).sockets = p.sockets := by
  rw [onclose, scheduleReconnect]
  split
  · exact clearTimers_sockets
  · split <;> exact clearTimers_sockets

theorem Linked.onclose (h : p.Linked e i x s) : ((p.shut i).onclose e).Phase := by
  have hf := fades_closed p.now
  have hlink : (p.shut i).sockets[i]? = some { s with readyState := .closed, since := p.now } := by
    rw [shut, setSocket_socket, h.link, Option.map_some, if_pos rfl]
  obtain ⟨ts, hts, hno⟩ := clearTimers_spec (p := p.shut i) h.effect fun t ht => h.toHeld.armed ht
  rw [Page.onclose]
  refine Owns.scheduleReconnect (x := x.untimed) (i := i) (s := { s with readyState := .closed, since := p.now })
    ?_ ?_ h.ws ?_ rfl ?_
  · rw [hts]
    exact ⟨h.mounted, setEffect_effect h.effect, h.cancelled, h.rendered, h.backoff⟩
  · refine ⟨fun j hj => ?_, hno, rfl⟩
    rw [hts] at hj
    obtain ⟨s', hs', hh, hc⟩ := hj
    have hw := (h.toHeld.setSocket (j := i) hf).socket j s' hs' hh hc
    obtain rfl : i = j := Option.some.inj (h.ws.symm.trans hw.2)
    exact hc (Option.some.inj (hs'.symm.trans hlink) ▸ rfl)
  · rw [hts]
    exact hlink
  · rw [hts]
    rfl

theorem Phase.closed (hr : p.Rest) (h : p.Phase) : (p.closed i).Rest ∧ (p.closed i).Phase := by
  have hf := fades_closed p.now
  have hrest : (p.shut i).Rest := hr.setSocket hf
  rw [Page.closed]
  split
  · exact ⟨hr, h⟩
  · rename_i s hi
    split
    · exact ⟨hr, h⟩
    · have hc : s.readyState ≠ .closed := ‹_›
      split
      · rename_i hn
        refine ⟨hrest, ?_⟩
        cases h with
        | down hm hs => exact .down hm (hs.setSocket hf)
        | @linked e j x s' h =>
            refine .linked (h.setSocket hf (fun _ => rfl) fun hij => ?_)
            subst hij
            obtain rfl : s = s' := Option.some.inj (hi.symm.trans h.link)
            exact nomatch hn.symm.trans h.handlers
        | @waiting e j t x s' T h =>
            refine .waiting (h.setSocket hf fun hij => ?_)
            subst hij
            obtain rfl : s = s' := Option.some.inj (hi.symm.trans h.link)
            exact absurd h.closed hc
      · rename_i e he
        obtain ⟨x, hl⟩ := h.of_alert hi he hc
        refine ⟨fun j s' hj => hrest j s' ?_, hl.onclose⟩
        rwa [onclose_sockets] at hj

/-! ## A timer fires -/

/-- A timer that is due at another time is the same timer otherwise. -/
theorem of_redue {d : Nat} (h : (p.timers.modify t fun T => { T with due := d })[u]? = some T) :
    ∃ T' : Timer, p.timers[u]? = some T' ∧ T.effect = T'.effect ∧ T.callback = T'.callback ∧ T.active = T'.active := by
  rw [List.getElem?_modify, Option.map_eq_map, Option.map_eq_some_iff] at h
  obtain ⟨T', hT', rfl⟩ := h
  refine ⟨T', hT', ?_⟩
  split <;> exact ⟨rfl, rfl, rfl⟩

theorem Joined.redue (h : p.Joined e i x s) (d : Nat) :
    ({ p with timers := p.timers.modify t fun T => { T with due := d } } : Page Raw).Joined e i x s :=
  { h with
    timer := fun u T hT ha => by
      obtain ⟨T', hT', he, hc, ha'⟩ := of_redue hT
      rw [he, hc]
      exact h.timer u T' hT' (ha' ▸ ha)
    retry := fun u ⟨T, hT, ha, hc⟩ => by
      obtain ⟨T', hT', -, hc', ha'⟩ := of_redue hT
      exact h.retry u ⟨T', hT', ha' ▸ ha, hc' ▸ hc⟩
    connecting := fun hcon => ⟨fun u ⟨T, hT, ha⟩ => by
      obtain ⟨T', hT', -, -, ha'⟩ := of_redue hT
      exact (h.connecting hcon).1 u ⟨T', hT', ha' ▸ ha⟩, (h.connecting hcon).2⟩ }

/-- What a tick does for the mounted effect. -/
theorem Linked.tick (h : p.Linked e i x s) :
    p.tick e = if s.readyState ≠ .opened then .skip
      else if pongTimeoutMs < p.now - x.lastPongAt then .timeout i else .ping i := by
  rw [Page.tick, h.effect]
  simp only [h.ws, h.link, Option.map_some, ne_eq, Option.some.injEq]

/-- The page after the interval's callback, the interval set again. -/
def ticked (p : Page Raw) (t e : Nat) : Page Raw :=
  { p.onTick e with
    timers := (p.onTick e).timers.modify t fun T => { T with due := (p.onTick e).now + pingIntervalMs } }

theorem Linked.ticked (h : p.Linked e i x s) (hT : p.timers[t]? = some T) (ha : T.active = true) (hr : p.Rest) :
    (p.ticked t e).Rest ∧ (p.ticked t e).Phase := by
  rw [Page.ticked, Page.onTick, h.tick]
  by_cases ho : s.readyState = .opened
  · obtain ⟨hp, hle, -⟩ := h.opened ho
    rw [if_neg (not_not.mpr ho)]
    by_cases hlate : pongTimeoutMs < p.now - x.lastPongAt
    · rw [if_pos hlate]
      have hcl : (s.close p.now).readyState = .closing := by rw [Socket.close, ho]
      have hl := h.setSocket (j := i) (fades_close p.now) (Socket.close_room p.now) fun _ => hcl ▸ nofun
      rw [if_pos rfl] at hl
      exact ⟨hr.setSocket (fades_close p.now), .linked (e := e) (i := i) (x := x) (s := s.close p.now)
        { hl.toJoined.redue _ with opened := fun h' => absurd (hcl.symm.trans h') nofun }⟩
    · rw [if_neg hlate]
      refine ⟨h.rest (f := fun s => { s with pingedAt := p.now }) (fun _ => rfl) hr,
        .linked (e := e) (i := i) (x := x) (s := { s with pingedAt := p.now }) ?_⟩
      have hheld := h.held (f := fun s => { s with pingedAt := p.now }) fun _ => rfl
      have hlink : (p.setSocket i fun s => { s with pingedAt := p.now }).sockets[i]? =
          some { s with pingedAt := p.now } := by
        rw [setSocket_socket, h.link, Option.map_some, if_pos rfl]
      have hj : (p.setSocket i fun s => { s with pingedAt := p.now }).Joined e i x { s with pingedAt := p.now } :=
        { h with
          socket := hheld.socket
          link := hlink }
      refine { hj.redue (t := t) _ with
        opened := fun _ => ⟨hp, hle, t, { T with due := p.now + pingIntervalMs }, ?_, ha, rfl, ?_⟩ }
      · show (p.timers.modify t _)[t]? = _
        rw [List.getElem?_modify, hT]
        exact congrArg some (if_pos rfl)
      · show p.now ≤ s.pongAt + pongTimeoutMs
        omega
  · rw [if_pos ho]
    exact ⟨hr, .linked (e := e) (i := i) (x := x) (s := s)
      { h.toJoined.redue _ with opened := fun h' => absurd h' ho }⟩

theorem Waiting.silent (h : p.Waiting e i t x s T) : ¬ p.Alert j := by
  rintro ⟨s', hj, hh, hc⟩
  obtain rfl : i = j := Option.some.inj (h.ws.symm.trans (h.socket j s' hj hh hc).2)
  exact hc (Option.some.inj (hj.symm.trans h.link) ▸ h.closed)

theorem Waiting.fire (h : p.Waiting e i t x s T) :
    ({ p with timers := p.timers.modify t fun T => { T with active := false } } : Page Raw).Owns e x ∧
      ({ p with timers := p.timers.modify t fun T => { T with active := false } } : Page Raw).Silent := by
  refine ⟨⟨h.mounted, h.effect, h.cancelled, h.rendered, h.backoff⟩, fun _ hj => h.silent hj,
    fun u ⟨T', hT', ha⟩ => ?_, h.users⟩
  · change (p.timers.modify t _)[u]? = _ at hT'
    rw [List.getElem?_modify, Option.map_eq_map, Option.map_eq_some_iff] at hT'
    obtain ⟨T₀, hT₀, rfl⟩ := hT'
    by_cases htu : t = u
    · rw [if_pos htu] at ha
      exact nomatch ha
    · rw [if_neg htu] at ha
      exact htu (h.only u ⟨T₀, hT₀, ha⟩).symm

theorem Phase.fire (hr : p.Rest) (h : p.Phase) : (p.fire t).Rest ∧ (p.fire t).Phase := by
  rw [Page.fire]
  split
  · exact ⟨hr, h⟩
  · rename_i T hT
    split
    · exact ⟨hr, h⟩
    · have ha : T.active = true := by
        rename_i hn
        exact Bool.not_eq_false _ ▸ fun hf => hn (Or.inl hf)
      cases h with
      | down hm hs => exact absurd ⟨T, hT, ha⟩ (hs.timer t)
      | @linked e i x s h =>
          obtain ⟨rfl, ⟨hcb, -⟩ | ⟨hcb, -⟩⟩ := h.timer t T hT ha
          · rw [hcb]
            exact h.ticked hT ha hr
          · exact absurd ⟨T, hT, ha, hcb⟩ (h.retry t)
      | @waiting e i u x s T' h =>
          obtain rfl := h.only t ⟨T, hT, ha⟩
          obtain rfl : T = T' := Option.some.inj (hT.symm.trans h.timeout)
          obtain ⟨rfl, -⟩ := h.timer t T hT ha
          rw [h.callback]
          obtain ⟨howns, hs⟩ := h.fire
          exact ⟨Rest.connect hr howns, howns.connect hs⟩

/-! ## Steps -/

theorem Phase.alone (h : p.Phase) : ({ p with connectedUsers := 0 } : Page Raw).Phase := by
  cases h with
  | down hm hs => exact .down hm ⟨hs.socket, hs.timer, rfl⟩
  | @linked e i x s h =>
      exact .linked (e := e) (i := i) (x := x) (s := s)
        { h with connecting := fun hc => ⟨(h.connecting hc).1, rfl⟩ }
  | @waiting e i t x s T h => exact .waiting (e := e) (i := i) (t := t) (x := x) (s := s) (T := T) { h with users := rfl }

theorem Phase.step (hr : p.Rest) (h : p.Phase) (a : Action Raw) : (p.step a).Rest ∧ (p.step a).Phase := by
  cases a with
  | wait d =>
      refine ⟨hr, ?_⟩
      cases h with
      | down hm hs => exact .down hm ⟨hs.socket, hs.timer, hs.users⟩
      | @linked e i x s h =>
          exact .linked (e := e) (i := i) (x := x) (s := s)
            { h with
              opened := fun ho => by
                obtain ⟨hp, hle, hT⟩ := h.opened ho
                exact ⟨hp, hle.trans (Nat.le_add_right p.now d), hT⟩ }
      | @waiting e i t x s T h => exact .waiting (e := e) (i := i) (t := t) (x := x) (s := s) (T := T) { h with }
  | setRepertoireAuthor author =>
      refine ⟨hr, ?_⟩
      cases h with
      | down hm hs => exact .down hm ⟨hs.socket, hs.timer, hs.users⟩
      | @linked e i x s h => exact .linked (e := e) (i := i) (x := x) (s := s) { h with }
      | @waiting e i t x s T h => exact .waiting (e := e) (i := i) (t := t) (x := x) (s := s) (T := T) { h with }
  | commit =>
      rw [Page.step]
      split
      · exact ⟨hr, h⟩
      · obtain ⟨hr, hm, hs⟩ := h.unmount hr
        exact hs.effect hr hm
  | unmount =>
      obtain ⟨hr, hm, hs⟩ := h.unmount hr
      exact ⟨hr, .down hm hs⟩
  | viewUserRepertoire =>
      show ({ (match p.socket with | none => p | some i => p.close i) with connectedUsers := 0 } : Page Raw).Rest ∧
        ({ (match p.socket with | none => p | some i => p.close i) with connectedUsers := 0 } : Page Raw).Phase
      split
      · exact ⟨hr, h.alone⟩
      · exact ⟨hr.setSocket (fades_close p.now), h.close.alone⟩
  | opened i => exact h.opened hr
  | message i m => exact h.message hr m
  | closed i => exact h.closed hr
  | fire t => exact h.fire hr

theorem new_phase : (Page.new : Page Raw).Rest ∧ (Page.new : Page Raw).Phase := by
  refine ⟨fun i s hi _ => ?_, .down rfl ⟨fun i ⟨s, hi, _⟩ => ?_, fun t ⟨T, hT, _⟩ => ?_, rfl⟩⟩
  · simp [Page.new] at hi
  · simp [Page.new] at hi
  · simp [Page.new] at hT

theorem always_phase (as : List (Action Raw)) : Always Page.step (fun p => p.Rest ∧ p.Phase) Page.new as := by
  have hstep : ∀ (p : Page Raw) a, p.Rest ∧ p.Phase → (p.step a).Rest ∧ (p.step a).Phase := fun _ a h => h.2.step h.1 a
  exact always_of_step hstep new_phase as

/-! ## What the phases say -/

/-- A connecting or open socket is the one the mounted effect has. -/
theorem Phase.of_live (hr : p.Rest) (h : p.Phase) (hl : p.Live i) : ∃ e x s, p.Linked e i x s := by
  obtain ⟨s, hi, hs⟩ := hl
  match hh : s.handlers with
  | none => rcases hr i s hi hh with h' | h' <;> rw [h'] at hs <;> exact absurd hs (by decide)
  | some e =>
      obtain ⟨x, hl⟩ := h.of_alert hi hh fun hc => by
        rw [hc] at hs
        exact absurd hs (by decide)
      exact ⟨e, x, s, hl⟩

theorem Linked.eq (h : p.Linked e i x s) {e' x' s'} (h' : p.Linked e' j x' s') : i = j := by
  obtain rfl : e = e' := Option.some.inj (h.mounted.symm.trans h'.mounted)
  obtain rfl : x = x' := Option.some.inj (h.effect.symm.trans h'.effect)
  exact Option.some.inj (h.ws.symm.trans h'.ws)

theorem Linked.pings (h : p.Linked e i x s) (ht : p.Armed t) : x.pingTimer = some t := by
  obtain ⟨T, hT, ha⟩ := ht
  obtain ⟨-, ⟨-, hp⟩ | ⟨hc, -⟩⟩ := h.timer t T hT ha
  · exact hp
  · exact absurd ⟨T, hT, ha, hc⟩ (h.retry t)

theorem Linked.alert (h : p.Linked e i x s) : p.Alert i :=
  ⟨s, h.link, fun hn => absurd (h.handlers.symm.trans hn) nofun, h.unclosed⟩

theorem Phase.orderly (hr : p.Rest) (h : p.Phase) : p.Orderly where
  socket i j hi hj := by
    obtain ⟨e, x, s, hli⟩ := h.of_live hr hi
    obtain ⟨e', x', s', hlj⟩ := h.of_live hr hj
    exact hli.eq hlj
  timer t u ht hu := by
    cases h with
    | down hm hs => exact absurd ht (hs.timer t)
    | linked h => exact Option.some.inj ((h.pings ht).symm.trans (h.pings hu))
    | waiting h => exact (h.only t ht).trans (h.only u hu).symm
  room i s hi hs := by
    obtain ⟨e, x, s', hl⟩ := h.of_live hr hi
    obtain rfl : s = s' := Option.some.inj (hs.symm.trans hl.link)
    rw [hl.rendered, hl.room]
  mounted hm := by
    cases h with
    | down hn hs => exact absurd hn hm
    | @linked e i x s h =>
        exact iff_of_true ⟨i, h.alert⟩ fun ⟨t, ht⟩ => h.retry t ht
    | @waiting e i t x s T h =>
        exact iff_of_false (fun ⟨j, hj⟩ => h.silent hj) fun hn => hn ⟨t, T, h.timeout, h.active, h.callback⟩
  unmounted hm := by
    cases h with
    | down _ hs => exact ⟨hs.socket, hs.timer⟩
    | linked h => exact nomatch hm.symm.trans h.mounted
    | waiting h => exact nomatch hm.symm.trans h.mounted
  users hu := by
    cases h with
    | down _ hs => exact absurd hs.users hu
    | @linked e i x s h => exact ⟨i, h.alert⟩
    | waiting h => exact absurd h.users hu

/-! ## In time -/

/-- No timer is overdue by more than `slack`. -/
def OnTime (slack : Nat) (p : Page Raw) : Prop := ∀ T ∈ p.timers, T.active = true → p.now ≤ T.due + slack

/-- Within one step the timers that are set anew are due later. -/
def Sets (p q : Page Raw) : Prop :=
  q.now = p.now ∧ ∀ T ∈ q.timers, T.active = true → T ∈ p.timers ∨ p.now ≤ T.due

theorem Sets.refl (p : Page Raw) : Sets p p := ⟨rfl, fun _ hT _ => Or.inl hT⟩

theorem Sets.trans {p q r : Page Raw} (h : Sets p q) (h' : Sets q r) : Sets p r := by
  refine ⟨h'.1.trans h.1, fun T hT ha => ?_⟩
  rcases h'.2 T hT ha with hq | hn
  · exact h.2 T hq ha
  · exact Or.inr (h.1 ▸ hn)

theorem Sets.onTime {slack : Nat} {p q : Page Raw} (h : Sets p q) (hp : p.OnTime slack) : q.OnTime slack := by
  intro T hT ha
  rw [h.1]
  rcases h.2 T hT ha with hp' | hn
  · exact hp T hp' ha
  · exact hn.trans (Nat.le_add_right _ slack)

theorem mem_modify {α : Type} {l : List α} {f : α → α} {b : α} (h : b ∈ l.modify t f) : b ∈ l ∨ ∃ a ∈ l, b = f a := by
  obtain ⟨i, hi⟩ := List.mem_iff_getElem?.mp h
  rw [List.getElem?_modify, Option.map_eq_map, Option.map_eq_some_iff] at hi
  obtain ⟨a, ha, rfl⟩ := hi
  split
  · exact Or.inr ⟨a, List.mem_of_getElem? ha, rfl⟩
  · exact Or.inl (List.mem_of_getElem? ha)

theorem sets_stop (p : Page Raw) (t : Nat) :
    Sets p { p with timers := p.timers.modify t fun T => { T with active := false } } := by
  refine ⟨rfl, fun T hT ha => ?_⟩
  rcases mem_modify hT with hT | ⟨T', -, rfl⟩
  · exact Or.inl hT
  · exact nomatch ha

theorem sets_clear (p : Page Raw) (o : Option Nat) : Sets p (p.clear o) := by
  cases o with
  | none => exact Sets.refl p
  | some t => exact sets_stop p t

theorem sets_clearTimers (p : Page Raw) (e : Nat) : Sets p (p.clearTimers e) := by
  rw [clearTimers]
  split
  · exact Sets.refl p
  · exact (sets_clear p _).trans (sets_clear _ _)

/-- One more timer, due later. -/
theorem sets_snoc {p q : Page Raw} (hn : q.now = p.now) (ht : q.timers = p.timers ++ [T]) (hd : p.now ≤ T.due) :
    Sets p q := by
  refine ⟨hn, fun T' hT' _ => ?_⟩
  rw [ht, List.mem_append, List.mem_singleton] at hT'
  rcases hT' with hT' | rfl
  · exact Or.inl hT'
  · exact Or.inr hd

theorem sets_scheduleReconnect (p : Page Raw) (e : Nat) : Sets p (p.scheduleReconnect e) := by
  rw [scheduleReconnect]
  split
  · exact Sets.refl p
  · split
    · exact Sets.refl p
    · exact sets_snoc rfl rfl (Nat.le_add_right _ _)

theorem sets_connect (p : Page Raw) (e : Nat) : Sets p (p.connect e) := by
  rw [connect]
  split
  · exact Sets.refl p
  · split <;> exact Sets.refl p

theorem sets_onclose (p : Page Raw) (e : Nat) : Sets p (p.onclose e) :=
  (sets_clearTimers p e).trans (sets_scheduleReconnect _ e)

theorem sets_onTick (p : Page Raw) (e : Nat) : Sets p (p.onTick e) := by
  rw [onTick]
  split <;> exact Sets.refl p

theorem sets_cleanup (p : Page Raw) (e : Nat) : Sets p (p.cleanup e) := by
  rw [cleanup]
  split <;> exact sets_clearTimers (p.setEffect e _) e

theorem sets_unmount (p : Page Raw) : Sets p p.unmount := by
  rw [unmount]
  split
  · exact Sets.refl p
  · exact sets_cleanup p _

theorem sets_effect (p : Page Raw) : Sets p p.effect := by
  rw [effect]
  split
  · exact Sets.refl p
  · exact Sets.refl p
  · exact sets_connect _ _

theorem sets_opened (p : Page Raw) (i : Nat) : Sets p (p.opened i) := by
  rw [opened]
  split
  · exact Sets.refl p
  · split
    · exact Sets.refl p
    · split
      · exact Sets.refl p
      · exact sets_snoc rfl rfl (Nat.le_add_right _ _)

theorem sets_message (p : Page Raw) (i : Nat) (m : Message Raw) : Sets p (p.message i m) := by
  rw [message]
  split
  · exact Sets.refl p
  · split
    · exact Sets.refl p
    · split <;> exact Sets.refl p

theorem sets_closed (p : Page Raw) (i : Nat) : Sets p (p.closed i) := by
  rw [closed]
  split
  · exact Sets.refl p
  · split
    · exact Sets.refl p
    · split
      · exact Sets.refl p
      · exact sets_onclose (p.shut i) _

theorem sets_fire (p : Page Raw) (t : Nat) : Sets p (p.fire t) := by
  rw [fire]
  split
  · exact Sets.refl p
  · split
    · exact Sets.refl p
    · split
      · exact (sets_stop p t).trans (sets_connect _ _)
      · refine (sets_onTick p _).trans ⟨rfl, fun T hT ha => ?_⟩
        rcases mem_modify hT with hT | ⟨T', -, rfl⟩
        · exact Or.inl hT
        · exact Or.inr (Nat.le_add_right _ _)

theorem OnTime.step {slack : Nat} (h : p.OnTime slack) {a : Action Raw} (ha : p.Prompt slack a) :
    (p.step a).OnTime slack := by
  cases a with
  | wait d => exact ha
  | setRepertoireAuthor author => exact h
  | commit =>
      rw [Page.step]
      split
      · exact h
      · exact ((sets_unmount p).trans (sets_effect _)).onTime h
  | unmount => exact (sets_unmount p).onTime h
  | viewUserRepertoire =>
      show OnTime slack ({ (match p.socket with | none => p | some i => p.close i) with connectedUsers := 0 } : Page Raw)
      split <;> exact h
  | opened i => exact (sets_opened p i).onTime h
  | message i m => exact (sets_message p i m).onTime h
  | closed i => exact (sets_closed p i).onTime h
  | fire t => exact (sets_fire p t).onTime h

theorem Phase.timely {slack : Nat} (hr : p.Rest) (h : p.Phase) (ht : p.OnTime slack) : p.Timely slack where
  answered i s hi ho := by
    obtain ⟨e, x, s', hl⟩ := h.of_live hr ⟨s, hi, Or.inr ho⟩
    obtain rfl : s = s' := Option.some.inj (hi.symm.trans hl.link)
    obtain ⟨-, -, t, T, hT, ha, hd, hp⟩ := hl.opened ho
    have hdue := ht T (List.mem_of_getElem? hT) ha
    omega
  retried e i x s hm hx hw hi hc := by
    cases h with
    | down hn _ => exact nomatch hm.symm.trans hn
    | @linked e' i' x' s' h =>
        obtain rfl : e = e' := Option.some.inj (hm.symm.trans h.mounted)
        obtain rfl : x = x' := Option.some.inj (hx.symm.trans h.effect)
        obtain rfl : i = i' := Option.some.inj (hw.symm.trans h.ws)
        exact absurd (Option.some.inj (hi.symm.trans h.link) ▸ hc) h.unclosed
    | @waiting e' i' t x' s' T h =>
        obtain rfl : e = e' := Option.some.inj (hm.symm.trans h.mounted)
        obtain rfl : x = x' := Option.some.inj (hx.symm.trans h.effect)
        obtain rfl : i = i' := Option.some.inj (hw.symm.trans h.ws)
        obtain rfl : s = s' := Option.some.inj (hi.symm.trans h.link)
        exact ⟨h.closes, h.due ▸ ht T (List.mem_of_getElem? h.timeout) h.active⟩

theorem length_setSocket {f : Socket → Socket} : (p.setSocket i f).sockets.length = p.sockets.length := List.length_modify ..

theorem length_cleanup : (p.cleanup e).sockets.length = p.sockets.length := by
  rw [cleanup]
  split
  · exact congrArg List.length clearTimers_sockets
  · exact length_setSocket.trans (length_setSocket.trans (congrArg List.length clearTimers_sockets))

theorem length_opened : (p.opened i).sockets.length = p.sockets.length := by
  rw [Page.opened]
  split
  · rfl
  · split
    · rfl
    · split <;> exact length_setSocket

theorem length_message (m : Message Raw) : (p.message i m).sockets.length = p.sockets.length := by
  rw [Page.message]
  split
  · rfl
  · split
    · rfl
    · split
      · rfl
      · exact length_setSocket
      · rfl

theorem length_closed : (p.closed i).sockets.length = p.sockets.length := by
  rw [Page.closed]
  split
  · rfl
  · split
    · rfl
    · split
      · exact length_setSocket
      · exact (congrArg List.length onclose_sockets).trans length_setSocket

theorem length_onTick : (p.onTick e).sockets.length = p.sockets.length := by
  rw [onTick]
  split
  · rfl
  · exact length_setSocket
  · exact length_setSocket

/-- A socket is made by the timeout, when it is due. -/
theorem Phase.delays (h : p.Phase) (a : Action Raw) : p.Delays a := by
  intro hcommit hne
  cases a with
  | wait d => exact absurd rfl hne
  | setRepertoireAuthor author => exact absurd rfl hne
  | commit => exact absurd rfl hcommit
  | unmount =>
      rw [Page.step, Page.unmount] at hne
      split at hne
      · exact absurd rfl hne
      · exact absurd length_cleanup hne
  | viewUserRepertoire =>
      rw [Page.step, Page.viewUserRepertoire] at hne
      split at hne
      · exact absurd rfl hne
      · exact absurd length_setSocket hne
  | opened i => exact absurd length_opened hne
  | message i m => exact absurd (length_message m) hne
  | closed i => exact absurd length_closed hne
  | fire t =>
      rw [Page.step, Page.fire] at hne
      split at hne
      · exact absurd rfl hne
      · rename_i T hT
        split at hne
        · exact absurd rfl hne
        · rename_i hdue
          have ha : T.active = true := Bool.not_eq_false _ ▸ fun hf => hdue (Or.inl hf)
          have hle : T.due ≤ p.now := Nat.le_of_not_lt fun hlt => hdue (Or.inr hlt)
          cases hcb : T.callback with
          | ping =>
              rw [hcb] at hne
              exact absurd length_onTick hne
          | connect =>
              cases h with
              | down hm hs => exact absurd ⟨T, hT, ha⟩ (hs.timer t)
              | @linked e i x s h => exact absurd ⟨T, hT, ha, hcb⟩ (h.retry t)
              | @waiting e i u x s T' h =>
                  obtain rfl := h.only t ⟨T, hT, ha⟩
                  obtain rfl : T = T' := Option.some.inj (hT.symm.trans h.timeout)
                  exact ⟨e, i, x, s, h.mounted, h.effect, h.ws, h.link, h.closed, h.due ▸ hle⟩

theorem Phase.spares (hr : p.Rest) (h : p.Phase) (a : Action Raw) : p.Spares a := by
  rintro t i s rfl hi ho hne
  obtain ⟨e, x, s', hl⟩ := h.of_live hr ⟨s, hi, Or.inr ho⟩
  obtain rfl : s = s' := Option.some.inj (hi.symm.trans hl.link)
  by_contra hle
  suffices hs : ∃ s', (p.fire t).sockets[i]? = some s' ∧ s'.readyState = .opened by
    obtain ⟨s', hs', ho'⟩ := hs
    exact hne s' hs' ho'
  rw [Page.fire]
  split
  · exact ⟨s, hi, ho⟩
  · rename_i T hT
    split
    · exact ⟨s, hi, ho⟩
    · rename_i hn
      have ha : T.active = true := Bool.not_eq_false _ ▸ fun hf => hn (Or.inl hf)
      obtain ⟨rfl, ⟨hcb, -⟩ | ⟨hcb, -⟩⟩ := hl.timer t T hT ha
      · have hlate : ¬ pongTimeoutMs < p.now - x.lastPongAt := by
          rw [(hl.opened ho).1]
          omega
        rw [hcb]
        dsimp only
        rw [Page.onTick, hl.tick, if_neg (not_not.mpr ho), if_neg hlate]
        refine ⟨{ s with pingedAt := p.now }, ?_, ho⟩
        show (p.setSocket i _).sockets[i]? = _
        rw [setSocket_socket, hi, Option.map_some, if_pos rfl]
      · exact absurd ⟨T, hT, ha, hcb⟩ (hl.retry t)

end Page

end Chessrepeat.Hooks
