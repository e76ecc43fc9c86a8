import Chessrepeat.Lib.Heartbeat
import Chessrepeat.Hooks.Link
import Chessrepeat.Hooks.Lemmas.Websocket

/-!
# The page and the server

What a step of the page does to its sockets, and the heartbeat as seen from both ends: the beats that are to come are
the pings on the wire, for the server, and the pongs and then the pings, for the page.
-/

namespace Chessrepeat.Hooks

open Lib Domain Ws

variable {Raw : Type}

namespace Page

variable {p q r : Page Raw} {e i j t : Nat} {s : Socket}

/-! ## Sockets -/

/-- New sockets are connecting, and a socket that changes is going down. -/
structure Ages (p q : Page Raw) : Prop where
  now : q.now = p.now
  gone : ∀ j : Nat, q.sockets[j]? = none → p.sockets[j]? = none
  here : ∀ (j : Nat) s', q.sockets[j]? = some s' → p.sockets[j]? = some s' ∨
    (s'.readyState = .closing ∨ s'.readyState = .closed) ∨ p.sockets[j]? = none ∧ s'.readyState = .connecting

theorem Ages.of_eq (hn : q.now = p.now) (h : q.sockets = p.sockets) : Ages p q :=
  ⟨hn, fun _ hi => h ▸ hi, fun _ _ hi => Or.inl (h ▸ hi)⟩

theorem Ages.trans (h : Ages p q) (h' : Ages q r) : Ages p r where
  now := h'.now.trans h.now
  gone i hi := h.gone i (h'.gone i hi)
  here i s hi := by
    rcases h'.here i s hi with hq | hd | ⟨hq, hc⟩
    · exact h.here i s hq
    · exact Or.inr (Or.inl hd)
    · exact Or.inr (Or.inr ⟨h.gone i hq, hc⟩)

theorem Ages.after (h : Ages q r) (hn : q.now = p.now) (hs : q.sockets = p.sockets) : Ages p r :=
  (Ages.of_eq hn hs).trans h

theorem ages_setSocket {f : Socket → Socket}
    (hf : ∀ s, (f s).readyState = .closing ∨ (f s).readyState = .closed) : Ages p (p.setSocket i f) where
  now := rfl
  gone j hj := by
    rw [setSocket_socket, Option.map_eq_none_iff] at hj
    exact hj
  here j s hj := by
    obtain ⟨s', hs', ⟨-, rfl⟩ | ⟨-, rfl⟩⟩ := of_setSocket hj
    · exact Or.inr (Or.inl (hf s'))
    · exact Or.inl hs'

theorem ages_close : Ages p (p.close i) := ages_setSocket (fades_close p.now).down

theorem ages_clearTimers : Ages p (p.clearTimers e) := .of_eq (sets_clearTimers p e).1 clearTimers_sockets

theorem ages_connect : Ages p (p.connect e) := by
  rw [connect]
  split
  · exact .of_eq rfl rfl
  · split
    · exact .of_eq rfl rfl
    · refine ⟨rfl, fun i hi => ?_, fun i s hi => ?_⟩
      · rw [List.getElem?_eq_none_iff] at hi ⊢
        exact Nat.le_of_succ_le (by simpa using hi)
      · rcases getElem?_snoc.mp hi with hi | ⟨rfl, rfl⟩
        · exact Or.inl hi
        · exact Or.inr (Or.inr ⟨List.getElem?_eq_none (Nat.le_refl _), rfl⟩)

theorem ages_onclose : Ages p (p.onclose e) := .of_eq (sets_onclose p e).1 onclose_sockets

theorem ages_cleanup : Ages p (p.cleanup e) := by
  have hclear : Ages p ((p.setEffect e fun x => { x with cancelled := true }).clearTimers e) :=
    ages_clearTimers.after rfl rfl
  rw [cleanup]
  refine hclear.trans ?_
  split
  · exact .of_eq rfl rfl
  · rename_i i hi
    refine ⟨rfl, fun j hj => ?_, fun j s hj => ?_⟩
    · rw [List.getElem?_eq_none_iff] at hj ⊢
      simpa [close, setSocket, setEffect] using hj
    · obtain ⟨s', hs', ⟨rfl, rfl⟩ | ⟨hij, rfl⟩⟩ := of_setSocket (i := j) (j := i) (f := Socket.close _) hj
      · exact Or.inr (Or.inl ((fades_close _).down s'))
      · obtain ⟨s₀, hs₀, ⟨h, -⟩ | ⟨-, rfl⟩⟩ := of_setSocket hs'
        · exact absurd h hij
        · exact Or.inl hs₀

theorem ages_unmount : Ages p p.unmount := by
  rw [unmount]
  split
  · exact .of_eq rfl rfl
  · exact ages_cleanup.trans (.of_eq rfl rfl)

theorem ages_effect : Ages p p.effect := by
  rw [effect]
  split
  · exact .of_eq rfl rfl
  · exact .of_eq rfl rfl
  · exact ages_connect.after rfl rfl

theorem ages_commit : Ages p (p.step .commit) := by
  rw [step]
  split
  · exact .of_eq rfl rfl
  · exact ages_unmount.trans ages_effect

theorem ages_viewUserRepertoire : Ages p p.viewUserRepertoire := by
  rw [viewUserRepertoire]
  split
  · exact .of_eq rfl rfl
  · exact ages_close.trans (.of_eq rfl rfl)

theorem ages_closed : Ages p (p.closed i) := by
  have hshut : Ages p (p.shut i) := ages_setSocket fun _ => Or.inr rfl
  rw [closed]
  split
  · exact .of_eq rfl rfl
  · split
    · exact .of_eq rfl rfl
    · split
      · exact hshut
      · exact hshut.trans ages_onclose

theorem ages_frame {f : Frame Raw} : Ages p (p.message i (.frame f)) := by
  rw [message]
  split
  · exact .of_eq rfl rfl
  · rename_i s _
    split
    · exact .of_eq rfl rfl
    · cases s.handlers <;> exact .of_eq rfl rfl

/-- A timer that fires may send a ping on one socket. -/
theorem ages_fire (h : p.sends t = none) : Ages p (p.fire t) := by
  rw [sends] at h
  rw [fire]
  split
  · exact .of_eq rfl rfl
  · rename_i T hT
    rw [hT] at h
    dsimp only at h
    split
    · exact .of_eq rfl rfl
    · rw [if_neg ‹_›] at h
      split
      · exact ages_connect.after rfl rfl
      · rename_i hcb
        rw [hcb] at h
        refine Ages.trans ?_ (.of_eq (p := p.onTick T.effect) rfl rfl)
        rw [onTick]
        split
        · exact .of_eq rfl rfl
        · exact ages_close
        · rename_i i hi
          rw [hi] at h
          cases h

theorem opened_of_ping (h : p.tick e = .ping i) : ∃ s, p.sockets[i]? = some s ∧ s.readyState = .opened := by
  rw [tick] at h
  split at h
  · cases h
  · split at h
    · cases h
    · split at h
      · cases h
      · rename_i ho
        split at h
        · cases h
        · obtain rfl := Tick.ping.inj h
          exact Option.map_eq_some_iff.mp (not_not.mp ho)

theorem fire_sends (h : p.sends t = some i) :
    (p.fire t).now = p.now ∧ (p.fire t).sockets = (p.setSocket i fun s => { s with pingedAt := p.now }).sockets ∧
      ∃ s, p.sockets[i]? = some s ∧ s.readyState = .opened := by
  rw [sends] at h
  rw [fire]
  split at h
  · cases h
  · rename_i T hT
    split at h
    · cases h
    · rename_i hdue
      split at h
      · cases h
      · rename_i hcb
        split at h
        · rename_i j hj
          obtain rfl := Option.some.inj h
          rw [if_neg hdue]
          dsimp only
          rw [onTick, hj]
          exact ⟨rfl, rfl, opened_of_ping hj⟩
        · cases h

/-- In time, the next ping of an open socket is not overdue. -/
theorem Phase.next {slack : Nat} (hr : p.Rest) (h : p.Phase) (ht : p.OnTime slack) (hi : p.sockets[i]? = some s)
    (ho : s.readyState = .opened) : p.now ≤ s.pingedAt + pingIntervalMs + slack := by
  obtain ⟨e, x, s', hl⟩ := h.of_live hr ⟨s, hi, Or.inr ho⟩
  obtain rfl : s = s' := Option.some.inj (hi.symm.trans hl.link)
  obtain ⟨-, -, t, T, hT, ha, hd, -⟩ := hl.opened ho
  have := ht T (List.mem_of_getElem? hT) ha
  omega

theorem opened_eq (hi : p.sockets[i]? = some s) (hc : s.readyState = .connecting) :
    (p.opened i).now = p.now ∧ (p.opened i).sockets = (p.setSocket i (Socket.accept p.now)).sockets := by
  rw [opened, hi]
  dsimp only
  rw [if_neg (not_not.mpr hc)]
  cases s.handlers <;> exact ⟨rfl, rfl⟩

theorem opened_of_ne (h : ∀ s, p.sockets[i]? = some s → s.readyState ≠ .connecting) : p.opened i = p := by
  rw [opened]
  split
  · rfl
  · exact if_pos (h _ ‹_›)

/-- A pong is read on an open socket. -/
theorem Phase.pong (hr : p.Rest) (h : p.Phase) (hi : p.sockets[i]? = some s) (ho : s.readyState = .opened) :
    (p.message i .pong).now = p.now ∧
      (p.message i .pong).sockets = (p.setSocket i fun s => { s with pongAt := p.now }).sockets := by
  obtain ⟨e, x, s', hl⟩ := h.of_live hr ⟨s, hi, Or.inr ho⟩
  obtain rfl : s = s' := Option.some.inj (hi.symm.trans hl.link)
  rw [Page.message, hi]
  dsimp only
  rw [if_neg (not_not.mpr ho), hl.handlers]
  exact ⟨rfl, rfl⟩

/-- No socket goes away, and no time passes. -/
def Grows (p q : Page Raw) : Prop := q.now = p.now ∧ ∀ j : Nat, q.sockets[j]? = none → p.sockets[j]? = none

theorem Ages.grows (h : Ages p q) : Grows p q := ⟨h.now, h.gone⟩

theorem grows_setSocket {f : Socket → Socket} (hn : q.now = p.now) (hq : q.sockets = (p.setSocket i f).sockets) :
    Grows p q := by
  refine ⟨hn, fun j hj => ?_⟩
  rw [hq, setSocket_socket, Option.map_eq_none_iff] at hj
  exact hj

theorem message_of_ne {m : Message Raw} (h : ∀ s, p.sockets[i]? = some s → s.readyState ≠ .opened) :
    p.message i m = p := by
  rw [message]
  split
  · rfl
  · exact if_pos (h _ ‹_›)

end Page

namespace Link

variable {slack delay : Nat} {l : Link Raw} {i j t : Nat} {s : Socket} {c : Subscription}

/-! ## Both ends of an open socket -/

/-- How long the page may take to send the next ping. -/
def late (slack : Nat) (s : Socket) : Nat := s.pingedAt + pingIntervalMs + slack

/-- The pings the page has not seen the answer to. -/
def unanswered (c : Subscription) : List Nat := c.down.map Prod.snd ++ c.pings

@[simp] theorem pings_nil {seen due : Nat} {running : Bool} {b : Bucket} {down : List (Nat × Nat)} :
    (Subscription.mk seen due running b [] down).pings = [] := rfl

@[simp] theorem pings_ping {seen due : Nat} {running : Bool} {b : Bucket} {up : List Upward} {down : List (Nat × Nat)} :
    (Subscription.mk seen due running b (.ping t :: up) down).pings = t :: (Subscription.mk seen due running b up down).pings :=
  rfl

theorem pings_append (up' : List Upward) :
    ({ c with up := c.up ++ up' } : Subscription).pings = c.pings ++ ({ c with up := up' } : Subscription).pings :=
  List.filterMap_append ..

/-- The beats are paced, for the server and for the page. -/
structure Beating (slack delay now : Nat) (s : Socket) (c : Subscription) : Prop where
  running : c.running = true
  server : Paced (pingIntervalMs + slack + delay) c.lastSeenAt c.pings (late slack s)
  client : Paced (pingIntervalMs + slack) s.pongAt (unanswered c) (late slack s)
  seen : c.lastSeenAt ≤ now
  fits : ∀ t size, Upward.other t size ∈ c.up → size ≤ readLimitBytes
  up : ∀ u ∈ c.pings, u ≤ now ∧ now ≤ u + delay
  down : ∀ m ∈ c.down, m.2 ≤ now ∧ m.1 ≤ m.2 + delay ∧ now ≤ m.1 + delay
  next : now ≤ late slack s

/-- Before the handshake is through, nothing has been sent. -/
structure Shaking (delay now : Nat) (c : Subscription) : Prop where
  running : c.running = true
  up : c.up = []
  down : c.down = []
  seen : c.lastSeenAt ≤ now
  delivered : now ≤ c.lastSeenAt + delay

theorem Beating.heard {now : Nat} (h : Beating slack delay now s c) :
    now ≤ c.lastSeenAt + (pingIntervalMs + slack + delay) + delay :=
  h.server.recent h.next fun u hu => (h.up u hu).2

theorem Beating.answered {now : Nat} (h : Beating slack delay now s c) :
    now ≤ s.pongAt + (pingIntervalMs + slack) + 2 * delay := by
  refine h.client.recent h.next fun u hu => ?_
  rcases List.mem_append.mp hu with hu | hu
  · obtain ⟨m, hm, rfl⟩ := List.mem_map.mp hu
    obtain ⟨-, h1, h2⟩ := h.down m hm
    omega
  · have := (h.up u hu).2
    omega

theorem Shaking.pings {now : Nat} (h : Shaking delay now c) : c.pings = [] := by
  rw [Subscription.pings, h.up]
  rfl

theorem Shaking.open {now : Nat} (h : Shaking delay now c) (s : Socket) :
    Beating slack delay now (s.accept now) c where
  running := h.running
  server := by
    rw [h.pings]
    show now + pingIntervalMs + slack ≤ c.lastSeenAt + (pingIntervalMs + slack + delay)
    have := h.delivered
    omega
  client := by
    rw [unanswered, h.pings, h.down]
    exact Nat.le_of_eq (Nat.add_assoc ..)
  seen := h.seen
  fits := by simp [h.up]
  up := by simp [h.pings]
  down := by simp [h.down]
  next := by
    show now ≤ now + pingIntervalMs + slack
    omega

theorem Beating.send {now : Nat} (h : Beating slack delay now s c) :
    Beating slack delay now { s with pingedAt := now } { c with up := c.up ++ [.ping now] } where
  running := h.running
  server := by
    rw [pings_append]
    exact h.server.beat h.next (by simp only [late]; omega)
  client := by
    rw [unanswered, pings_append, ← List.append_assoc]
    exact h.client.beat h.next (by simp only [late]; omega)
  seen := h.seen
  fits t size ht := by
    rcases List.mem_append.mp ht with ht | ht
    · exact h.fits t size ht
    · cases List.mem_singleton.mp ht
  up u hu := by
    rw [pings_append] at hu
    rcases List.mem_append.mp hu with hu | hu
    · exact h.up u hu
    · obtain rfl := List.mem_singleton.mp hu
      exact ⟨Nat.le_refl _, Nat.le_add_right _ _⟩
  down := h.down
  next := by
    simp only [late]
    omega

/-- Another message is sent. -/
theorem Beating.say {now size : Nat} (h : Beating slack delay now s c) (hsize : size ≤ readLimitBytes) :
    Beating slack delay now s { c with up := c.up ++ [.other now size] } := by
  have hpings : ({ c with up := c.up ++ [.other now size] } : Subscription).pings = c.pings :=
    (pings_append _).trans (List.append_nil _)
  refine { running := h.running, server := hpings ▸ h.server, client := ?_, seen := h.seen, fits := fun u size' hu => ?_,
           up := fun u hu => h.up u (hpings ▸ hu), down := h.down, next := h.next }
  · rw [unanswered, hpings]
    exact h.client
  · rcases List.mem_append.mp hu with hu | hu
    · exact h.fits u size' hu
    · cases List.mem_singleton.mp hu
      exact hsize

/-- Another message is read. -/
theorem Beating.hear {now seen due size : Nat} {running : Bool} {b b' : Bucket} {up : List Upward} {down : List (Nat × Nat)}
    (h : Beating slack delay now s ⟨seen, due, running, b, .other t size :: up, down⟩) :
    Beating slack delay now s ⟨now, due, running, b', up, down⟩ where
  running := h.running
  server := h.server.later h.seen
  client := h.client
  seen := Nat.le_refl now
  fits u size hu := h.fits u size (List.mem_cons_of_mem _ hu)
  up := h.up
  down := h.down
  next := h.next

theorem Beating.read {now seen due : Nat} {running : Bool} {b b' : Bucket} {up : List Upward} {down : List (Nat × Nat)}
    (h : Beating slack delay now s ⟨seen, due, running, b, .ping t :: up, down⟩) :
    Beating slack delay now s ⟨now, due, running, b', up, down ++ [(now, t)]⟩ where
  running := h.running
  server := h.server.arrive (h.up t List.mem_cons_self).1
  client := by
    have hu : unanswered ⟨now, due, running, b', up, down ++ [(now, t)]⟩ =
        unanswered ⟨seen, due, running, b, .ping t :: up, down⟩ := by
      rw [unanswered, unanswered, pings_ping, List.map_append, List.append_assoc]
      rfl
    rw [hu]
    exact h.client
  seen := Nat.le_refl now
  fits u size hu := h.fits u size (List.mem_cons_of_mem _ hu)
  up u hu := h.up u (List.mem_cons_of_mem t hu)
  down m hm := by
    rcases List.mem_append.mp hm with hm | hm
    · exact h.down m hm
    · obtain rfl := List.mem_singleton.mp hm
      obtain ⟨h1, h2⟩ := h.up t List.mem_cons_self
      exact ⟨h1, h2, Nat.le_add_right _ _⟩
  next := h.next

theorem Beating.receive {now seen due : Nat} {running : Bool} {b : Bucket} {up : List Upward} {m : Nat × Nat}
    {down : List (Nat × Nat)} (h : Beating slack delay now s ⟨seen, due, running, b, up, m :: down⟩) :
    Beating slack delay now { s with pongAt := now } ⟨seen, due, running, b, up, down⟩ where
  running := h.running
  server := h.server
  client := Paced.arrive (t := m.2) h.client (h.down m List.mem_cons_self).1
  seen := h.seen
  fits := h.fits
  up := h.up
  down m' hm := h.down m' (List.mem_cons_of_mem m hm)
  next := h.next

/-! ## The invariant -/

structure Inv (slack delay : Nat) (l : Link Raw) : Prop where
  rest : l.page.Rest
  phase : l.page.Phase
  onTime : l.page.OnTime slack
  fresh : ∀ i : Nat, l.page.sockets[i]? = none → l.subs i = none
  shaking : ∀ (i : Nat) s c, l.page.sockets[i]? = some s → s.readyState = .connecting → l.subs i = some c →
    Shaking delay l.page.now c
  beating : ∀ (i : Nat) s, l.page.sockets[i]? = some s → s.readyState = .opened →
    ∃ c, l.subs i = some c ∧ Beating slack delay l.page.now s c

theorem inv_new : Inv slack delay (new : Link Raw) where
  rest := Page.new_phase.1
  phase := Page.new_phase.2
  onTime T hT := absurd hT List.not_mem_nil
  fresh _ _ := rfl
  shaking i s c hi := by simp [new, Page.new] at hi
  beating i s hi := by simp [new, Page.new] at hi

/-- The page takes a step on its own. -/
theorem Inv.ages {q : Page Raw} (h : Inv slack delay l) (ha : Page.Ages l.page q) (hr : q.Rest) (hp : q.Phase)
    (ht : q.OnTime slack) : Inv slack delay { l with page := q } where
  rest := hr
  phase := hp
  onTime := ht
  fresh i hi := h.fresh i (ha.gone i hi)
  shaking i s c hi hc hs := by
    show Shaking delay q.now c
    rw [ha.now]
    rcases ha.here i s hi with hp | hd | ⟨hn, -⟩
    · exact h.shaking i s c hp hc hs
    · rw [hc] at hd
      exact absurd hd (by decide)
    · exact nomatch (h.fresh i hn).symm.trans hs
  beating i s hi ho := by
    show ∃ c, l.subs i = some c ∧ Beating slack delay q.now s c
    rw [ha.now]
    rcases ha.here i s hi with hp | hd | ⟨-, hc⟩
    · exact h.beating i s hp ho
    · rw [ho] at hd
      exact absurd hd (by decide)
    · exact nomatch ho.symm.trans hc

@[simp] theorem setSub_self : (l.setSub i c).subs i = some c := Function.update_self ..

@[simp] theorem setSub_of_ne (h : j ≠ i) : (l.setSub i c).subs j = l.subs j := Function.update_of_ne h ..

/-- Both ends of one socket change. -/
theorem Inv.both {q : Page Raw} {f : Socket → Socket} (h : Inv slack delay l) (hr : q.Rest) (hp : q.Phase)
    (ht : q.OnTime slack) (hn : q.now = l.page.now) (hq : q.sockets = (l.page.setSocket i f).sockets)
    (hi : l.page.sockets[i]? = some s) (hs : (f s).readyState = .connecting → Shaking delay l.page.now c)
    (hb : (f s).readyState = .opened → Beating slack delay l.page.now (f s) c) :
    Inv slack delay { l.setSub i c with page := q } where
  rest := hr
  phase := hp
  onTime := ht
  fresh j hj := by
    change q.sockets[j]? = none at hj
    rw [hq, Page.setSocket_socket, Option.map_eq_none_iff] at hj
    have hij : j ≠ i := by
      rintro rfl
      exact nomatch hi.symm.trans hj
    exact (setSub_of_ne hij).trans (h.fresh j hj)
  shaking j s' c' hj hc hsub := by
    show Shaking delay q.now c'
    change q.sockets[j]? = some s' at hj
    change (l.setSub i c).subs j = some c' at hsub
    rw [hq] at hj
    rw [hn]
    obtain ⟨s₀, hs₀, ⟨rfl, rfl⟩ | ⟨hij, rfl⟩⟩ := Page.of_setSocket hj
    · obtain rfl : s = s₀ := Option.some.inj (hi.symm.trans hs₀)
      rw [setSub_self] at hsub
      exact Option.some.inj hsub ▸ hs hc
    · rw [setSub_of_ne (Ne.symm hij)] at hsub
      exact h.shaking j s' c' hs₀ hc hsub
  beating j s' hj ho := by
    show ∃ c', (l.setSub i c).subs j = some c' ∧ Beating slack delay q.now s' c'
    change q.sockets[j]? = some s' at hj
    rw [hq] at hj
    rw [hn]
    obtain ⟨s₀, hs₀, ⟨rfl, rfl⟩ | ⟨hij, rfl⟩⟩ := Page.of_setSocket hj
    · obtain rfl : s = s₀ := Option.some.inj (hi.symm.trans hs₀)
      exact ⟨c, setSub_self, hb ho⟩
    · rw [setSub_of_ne (Ne.symm hij)]
      exact h.beating j s' hs₀ ho

/-- The server's end of one socket changes. -/
theorem Inv.setSub (h : Inv slack delay l) (hi : l.page.sockets[i]? = some s)
    (hs : s.readyState = .connecting → Shaking delay l.page.now c)
    (hb : s.readyState = .opened → Beating slack delay l.page.now s c) : Inv slack delay (l.setSub i c) :=
  h.both (f := id) h.rest h.phase h.onTime rfl (List.modify_id ..).symm hi hs hb

/-! ## Steps -/

theorem Inv.wait {d : Nat} (h : Inv slack delay l) (ht : OnTick slack l (.page (.wait d)))
    (hd : Delivers delay l (.page (.wait d))) : Inv slack delay { l with page := l.page.step (.wait d) } := by
  obtain ⟨hr, hp⟩ := h.phase.step h.rest (.wait d)
  have hon := h.onTime.step ht.1
  have hlt : ∀ {i : Nat} {s}, l.page.sockets[i]? = some s → i < l.page.sockets.length :=
    fun hi => (List.getElem?_eq_some_iff.mp hi).1
  exact
    { rest := hr
      phase := hp
      onTime := hon
      fresh := h.fresh
      shaking := fun i s c hi hc hs => by
        have hdel := hd i (hlt hi) s hi c hs
        rw [hc] at hdel
        have hsh := h.shaking i s c hi hc hs
        exact ⟨hsh.running, hsh.up, hsh.down, hsh.seen.trans (Nat.le_add_right _ d), hdel⟩
      beating := fun i s hi ho => by
        obtain ⟨c, hs, hb⟩ := h.beating i s hi ho
        have hdel := hd i (hlt hi) s hi c hs
        rw [ho] at hdel
        refine ⟨c, hs, hb.running, hb.server, hb.client, hb.seen.trans (Nat.le_add_right _ d), hb.fits, fun u hu => ?_,
          fun m hm => ?_, hp.next hr hon hi ho⟩
        · exact ⟨(hb.up u hu).1.trans (Nat.le_add_right _ d), hdel.1 u hu⟩
        · obtain ⟨h1, h2, -⟩ := hb.down m hm
          exact ⟨h1.trans (Nat.le_add_right _ d), h2, hdel.2 m hm⟩ }

theorem Inv.opened (h : Inv slack delay l) (hs : (l.subs i).isSome = true) :
    Inv slack delay { l with page := l.page.opened i } := by
  obtain ⟨c, hc⟩ := Option.isSome_iff_exists.mp hs
  by_cases hi : ∃ s, l.page.sockets[i]? = some s ∧ s.readyState = .connecting
  · obtain ⟨s, hi, hcon⟩ := hi
    obtain ⟨hn, hq⟩ := Page.opened_eq hi hcon
    obtain ⟨hr, hp⟩ := h.phase.opened h.rest (i := i)
    have ht := h.onTime.step (a := .opened i) trivial
    have hl : l.setSub i c = l := by
      rw [Link.setSub, ← hc, Function.update_eq_self]
    have hb := h.both (c := c) (f := Socket.accept l.page.now) hr hp ht hn hq hi nofun
      fun _ => (h.shaking i s c hi hcon hc).open s
    rwa [hl] at hb
  · rw [Page.opened_of_ne fun s hs hc => hi ⟨s, hs, hc⟩]
    exact h

theorem Inv.fire (h : Inv slack delay l) : Inv slack delay { l.send t with page := l.page.fire t } := by
  obtain ⟨hr, hp⟩ := h.phase.fire h.rest (t := t)
  have ht := h.onTime.step (a := .fire t) trivial
  rw [send]
  split
  · exact h.ages (Page.ages_fire ‹_›) hr hp ht
  · rename_i i hi
    obtain ⟨hn, hq, s, hs, ho⟩ := Page.fire_sends hi
    obtain ⟨c, hc, hb⟩ := h.beating i s hs ho
    rw [hc]
    exact h.both hr hp ht hn hq hs (fun hcon => nomatch ho.symm.trans hcon) fun _ => hb.send

theorem Inv.page (h : Inv slack delay l) {a : Page.Action Raw} (hp : l.page.Prompt slack a)
    (ha : Page.Ages l.page (l.page.step a)) : Inv slack delay { l with page := l.page.step a } :=
  h.ages ha (h.phase.step h.rest a).1 (h.phase.step h.rest a).2 (h.onTime.step hp)

theorem Inv.subscribe (h : Inv slack delay l) : Inv slack delay (l.subscribe i) := by
  rw [Link.subscribe]
  split
  · rename_i s hi hn
    split
    · rename_i hc
      exact h.setSub hi (fun _ => ⟨rfl, rfl, rfl, Nat.le_refl _, Nat.le_add_right _ _⟩)
        fun ho => nomatch hc.symm.trans ho
    · exact h
  · exact h

/-- The watcher finds that the client has been heard from. -/
theorem Inv.seen (hd : pingIntervalMs + slack + 2 * delay ≤ idleTimeout) (h : Inv slack delay l)
    (hi : l.page.sockets[i]? = some s) (hc : l.subs i = some c)
    (hs : s.readyState = .connecting ∨ s.readyState = .opened) : l.page.now - c.lastSeenAt ≤ idleTimeout := by
  rcases hs with hs | hs
  · have := (h.shaking i s c hi hs hc).delivered
    omega
  · obtain ⟨c', hc', hb⟩ := h.beating i s hi hs
    obtain rfl : c = c' := Option.some.inj (hc.symm.trans hc')
    have := hb.heard
    omega

theorem Inv.watch (hd : pingIntervalMs + slack + 2 * delay ≤ idleTimeout) (h : Inv slack delay l) :
    Inv slack delay (l.watch i) := by
  rw [Link.watch]
  split
  · exact h
  · rename_i c hc
    cases hi : l.page.sockets[i]? with
    | none => exact nomatch (h.fresh i hi).symm.trans hc
    | some s =>
        have hshake := fun hcon => h.shaking i s c hi hcon hc
        have hbeat : s.readyState = .opened → Beating slack delay l.page.now s c := by
          intro ho
          obtain ⟨c', hc', hb⟩ := h.beating i s hi ho
          exact Option.some.inj (hc.symm.trans hc') ▸ hb
        split
        · exact h
        · split
          · rename_i hidle
            exact h.setSub hi (fun hcon => absurd (h.seen hd hi hc (Or.inl hcon)) (Nat.not_le.mpr hidle))
              fun ho => absurd (h.seen hd hi hc (Or.inr ho)) (Nat.not_le.mpr hidle)
          · exact h.setSub hi (fun hcon => { hshake hcon with }) fun ho => { hbeat ho with }

theorem Inv.say {size : Nat} (h : Inv slack delay l) (hsize : size ≤ readLimitBytes) : Inv slack delay (l.say i size) := by
  rw [Link.say]
  split
  · exact h
  · rename_i c hc
    split
    · rename_i hopened
      obtain ⟨s, hi, ho⟩ := Option.map_eq_some_iff.mp hopened
      obtain ⟨c', hc', hb⟩ := h.beating i s hi ho
      obtain rfl := Option.some.inj (hc.symm.trans hc')
      exact h.setSub hi (fun hcon => nomatch ho.symm.trans hcon) fun _ => hb.say hsize
    · exact h

theorem Inv.read {full : Bool} (h : Inv slack delay l) (ha : Answers l (.read i full)) : Inv slack delay (l.read i full) := by
  rw [Link.read]
  split
  · exact h
  · rename_i c hc
    obtain ⟨seen, due, running, b, up, down⟩ := c
    split
    · exact h
    · cases hi : l.page.sockets[i]? with
      | none => exact nomatch (h.fresh i hi).symm.trans hc
      | some s =>
          have hshake : up ≠ [] → s.readyState ≠ .connecting := fun hup hcon => hup (h.shaking i s _ hi hcon hc).up
          have hbeat : s.readyState = .opened → Beating slack delay l.page.now s ⟨seen, due, running, b, up, down⟩ := fun ho => by
            obtain ⟨c, hc', hb⟩ := h.beating i s hi ho
            exact Option.some.inj (hc.symm.trans hc') ▸ hb
          match up with
          | [] => exact h
          | .other t size :: up =>
              dsimp only
              split
              · rename_i hsize
                refine h.setSub hi (fun hcon => absurd hcon (hshake (by simp))) fun ho => ?_
                exact absurd ((hbeat ho).fits t size List.mem_cons_self) (Nat.not_le.mpr hsize)
              · exact h.setSub hi (fun hcon => absurd hcon (hshake (by simp))) fun ho => (hbeat ho).hear
          | .ping t :: up =>
              obtain ⟨hallowed, hfull⟩ := ha _ hc rfl
              dsimp only at hallowed ⊢
              rw [hallowed, hfull]
              exact h.setSub hi (fun hcon => absurd hcon (hshake (by simp))) fun ho => (hbeat ho).read

theorem Inv.receive (h : Inv slack delay l) : Inv slack delay (l.receive i) := by
  obtain ⟨hr, hp⟩ := h.phase.message h.rest (i := i) .pong
  have ht := h.onTime.step (a := .message i .pong) trivial
  rw [Link.receive]
  split
  · exact h
  · rename_i c hc
    obtain ⟨seen, due, running, b, up, down⟩ := c
    match down with
    | [] => exact h
    | m :: down =>
        cases hi : l.page.sockets[i]? with
        | none => exact nomatch (h.fresh i hi).symm.trans hc
        | some s =>
            have hshake : s.readyState ≠ .connecting := fun hcon => nomatch (h.shaking i s _ hi hcon hc).down
            by_cases ho : s.readyState = .opened
            · obtain ⟨c, hc', hb⟩ := h.beating i s hi ho
              obtain rfl := Option.some.inj (hc.symm.trans hc')
              obtain ⟨hn, hq⟩ := h.phase.pong h.rest hi ho
              exact h.both hr hp ht hn hq hi (fun hcon => absurd hcon hshake) fun _ => hb.receive
            · have hq : l.page.message i .pong = l.page := Page.message_of_ne fun s' hs' ho' =>
                ho (Option.some.inj (hi.symm.trans hs') ▸ ho')
              dsimp only
              rw [hq]
              exact h.setSub hi (fun hcon => absurd hcon hshake) fun ho' => absurd ho' ho

theorem Inv.step (hd : pingIntervalMs + slack + 2 * delay ≤ idleTimeout) (h : Inv slack delay l) {a : Action Raw}
    (ht : OnTick slack l a) (hdel : Delivers delay l a) (ha : Answers l a) : Inv slack delay (l.step a) := by
  match a with
  | .page (.wait d) => exact h.wait ht hdel
  | .page (.opened i) =>
      rw [Link.step]
      split
      · exact h.opened ‹_›
      · exact h
  | .page (.message _ .pong) => exact h
  | .page (.message i (.frame f)) => exact h.page trivial Page.ages_frame
  | .page (.fire t) => exact h.fire
  | .page (.setRepertoireAuthor author) => exact h.page trivial (.of_eq rfl rfl)
  | .page .commit => exact h.page trivial Page.ages_commit
  | .page .unmount => exact h.page (a := .unmount) trivial Page.ages_unmount
  | .page .viewUserRepertoire => exact h.page (a := .viewUserRepertoire) trivial Page.ages_viewUserRepertoire
  | .page (.closed i) => exact h.page (a := .closed i) trivial Page.ages_closed
  | .subscribe i => exact h.subscribe
  | .watch i => exact h.watch hd
  | .say i size => exact h.say ha
  | .read i full => exact h.read ha
  | .receive i => exact h.receive

/-- In time, no timer closes an open socket and no watcher stops. -/
theorem Inv.healthy (hd : pingIntervalMs + slack + 2 * delay ≤ idleTimeout) (h : Inv slack delay l) : l.Healthy := by
  intro i s hi ho
  obtain ⟨c, hc, hb⟩ := h.beating i s hi ho
  refine ⟨⟨c, hc, hb.running⟩, ?_⟩
  have hle : idleTimeout ≤ pongTimeoutMs := by decide
  have := hb.answered
  omega

/-! ## Who notices first -/

/-- The watcher of a running server is in time. -/
structure Watched (slack : Nat) (l : Link Raw) : Prop where
  rest : l.page.Rest
  phase : l.page.Phase
  fresh : ∀ i : Nat, l.page.sockets[i]? = none → l.subs i = none
  watched : ∀ i c, l.subs i = some c → c.running = true → c.lastSeenAt ≤ l.page.now ∧
    c.due ≤ c.lastSeenAt + idleTimeout + livenessCheckInterval ∧ l.page.now ≤ c.due + slack

theorem watched_new : Watched slack (new : Link Raw) where
  rest := Page.new_phase.1
  phase := Page.new_phase.2
  fresh _ _ := rfl
  watched _ _ h := nomatch h

theorem Watched.grows {q : Page Raw} (h : Watched slack l) (hg : Page.Grows l.page q) (hp : q.Rest ∧ q.Phase) :
    Watched slack { l with page := q } where
  rest := hp.1
  phase := hp.2
  fresh i hi := h.fresh i (hg.2 i hi)
  watched i c hc hr := by
    show c.lastSeenAt ≤ q.now ∧ _ ∧ q.now ≤ _
    rw [hg.1]
    exact h.watched i c hc hr

theorem Watched.setSub (h : Watched slack l) (hi : l.page.sockets[i]? ≠ none)
    (hw : c.running = true → c.lastSeenAt ≤ l.page.now ∧
      c.due ≤ c.lastSeenAt + idleTimeout + livenessCheckInterval ∧ l.page.now ≤ c.due + slack) :
    Watched slack (l.setSub i c) where
  rest := h.rest
  phase := h.phase
  fresh j hj := by
    have hij : j ≠ i := by
      rintro rfl
      exact hi hj
    exact (setSub_of_ne hij).trans (h.fresh j hj)
  watched j c' hc hr := by
    by_cases hij : j = i
    · subst hij
      rw [setSub_self] at hc
      obtain rfl := Option.some.inj hc
      exact hw hr
    · rw [setSub_of_ne hij] at hc
      exact h.watched j c' hc hr

/-- A socket with a server's end is there. -/
theorem Watched.here (h : Watched slack l) (hc : l.subs i = some c) : l.page.sockets[i]? ≠ none :=
  fun hn => nomatch (h.fresh i hn).symm.trans hc

theorem Watched.fire (h : Watched slack l) : Watched slack { l.send t with page := l.page.fire t } := by
  have hp := h.phase.fire h.rest (t := t)
  rw [send]
  split
  · exact h.grows (Page.ages_fire ‹_›).grows hp
  · rename_i i hi
    obtain ⟨hn, hq, -⟩ := Page.fire_sends hi
    have hg := Page.grows_setSocket hn hq
    split
    · exact h.grows hg hp
    · rename_i c hc
      exact (h.setSub (c := { c with up := c.up ++ [.ping l.page.now] }) (h.here hc) (h.watched i c hc)).grows hg hp

theorem Watched.watch (h : Watched slack l) : Watched slack (l.watch i) := by
  rw [Link.watch]
  split
  · exact h
  · rename_i c hc
    split
    · exact h
    · rename_i hr
      split
      · exact h.setSub (h.here hc) nofun
      · rename_i hidle
        refine h.setSub (h.here hc) fun hrun => ?_
        obtain ⟨h1, -, h3⟩ := h.watched i c hc hrun
        have hdue : c.due ≤ l.page.now := Nat.not_lt.mp fun hlt => hr (Or.inr hlt)
        refine ⟨h1, ?_, ?_⟩
        · show c.due + livenessCheckInterval ≤ c.lastSeenAt + idleTimeout + livenessCheckInterval
          omega
        · show l.page.now ≤ c.due + livenessCheckInterval + slack
          omega

theorem Watched.say {size : Nat} (h : Watched slack l) : Watched slack (l.say i size) := by
  rw [Link.say]
  split
  · exact h
  · rename_i c hc
    split
    · exact h.setSub (h.here hc) (h.watched i c hc)
    · exact h

theorem Watched.read {full : Bool} (h : Watched slack l) : Watched slack (l.read i full) := by
  rw [Link.read]
  split
  · exact h
  · rename_i c hc
    -- whatever is read, the server has heard from the client just now
    have hseen : c.running = true → l.page.now ≤ l.page.now ∧
        c.due ≤ l.page.now + idleTimeout + livenessCheckInterval ∧ l.page.now ≤ c.due + slack := fun hr => by
      obtain ⟨h1, h2, h3⟩ := h.watched i c hc hr
      exact ⟨Nat.le_refl _, h2.trans (Nat.add_le_add_right (Nat.add_le_add_right h1 _) _), h3⟩
    split
    · exact h
    · dsimp only
      split
      · exact h
      · split
        · exact h.setSub (h.here hc) nofun
        · exact h.setSub (h.here hc) hseen
      · exact h.setSub (h.here hc) hseen

theorem Watched.receive (h : Watched slack l) : Watched slack (l.receive i) := by
  have hp := h.phase.message h.rest (i := i) .pong
  rw [Link.receive]
  split
  · exact h
  · rename_i c hc
    split
    · exact h
    · rename_i m down _
      refine (h.setSub (c := { c with down := down }) (h.here hc) (h.watched i c hc)).grows ?_ hp
      by_cases ho : ∃ s, l.page.sockets[i]? = some s ∧ s.readyState = .opened
      · obtain ⟨s, hi, ho⟩ := ho
        obtain ⟨hn, hq⟩ := h.phase.pong h.rest hi ho
        exact Page.grows_setSocket hn hq
      · rw [Page.message_of_ne fun s' hs' ho' => ho ⟨s', hs', ho'⟩]
        exact ⟨rfl, fun _ hj => hj⟩

theorem Watched.opened (h : Watched slack l) : Watched slack { l with page := l.page.opened i } := by
  refine h.grows ?_ (h.phase.opened h.rest)
  by_cases hi : ∃ s, l.page.sockets[i]? = some s ∧ s.readyState = .connecting
  · obtain ⟨s, hi, hcon⟩ := hi
    obtain ⟨hn, hq⟩ := Page.opened_eq hi hcon
    exact Page.grows_setSocket hn hq
  · rw [Page.opened_of_ne fun s hs hc => hi ⟨s, hs, hc⟩]
    exact ⟨rfl, fun _ hj => hj⟩

theorem Watched.page (h : Watched slack l) {a : Page.Action Raw} (ha : Page.Ages l.page (l.page.step a)) :
    Watched slack { l with page := l.page.step a } :=
  h.grows ha.grows (h.phase.step h.rest a)

theorem Watched.wait {d : Nat} (h : Watched slack l) (ht : OnTick slack l (.page (.wait d))) :
    Watched slack { l with page := l.page.step (.wait d) } where
  rest := h.rest
  phase := (h.phase.step h.rest (.wait d)).2
  fresh := h.fresh
  watched i c hc hr := by
    obtain ⟨h1, h2, -⟩ := h.watched i c hc hr
    have hlt : i < l.page.sockets.length := Nat.not_le.mp fun hle => h.here hc (List.getElem?_eq_none hle)
    exact ⟨h1.trans (Nat.le_add_right _ d), h2, ht.2 i hlt c hc hr⟩

theorem Watched.subscribe (h : Watched slack l) : Watched slack (l.subscribe i) := by
  rw [Link.subscribe]
  split
  · rename_i s hi hn
    split
    · refine h.setSub (fun hn => nomatch hi.symm.trans hn) fun _ => ⟨Nat.le_refl _, ?_, ?_⟩
      · show l.page.now + livenessCheckInterval ≤ l.page.now + idleTimeout + livenessCheckInterval
        omega
      · show l.page.now ≤ l.page.now + livenessCheckInterval + slack
        omega
    · exact h
  · exact h

theorem Watched.step (h : Watched slack l) {a : Action Raw} (ht : OnTick slack l a) : Watched slack (l.step a) := by
  match a with
  | .page (.wait d) => exact h.wait ht
  | .page (.opened i) =>
      rw [Link.step]
      split
      · exact h.opened
      · exact h
  | .page (.message _ .pong) => exact h
  | .page (.message i (.frame f)) => exact h.page Page.ages_frame
  | .page (.fire t) => exact h.fire
  | .page (.setRepertoireAuthor author) => exact h.page (.of_eq rfl rfl)
  | .page .commit => exact h.page Page.ages_commit
  | .page .unmount => exact h.page (a := .unmount) Page.ages_unmount
  | .page .viewUserRepertoire => exact h.page (a := .viewUserRepertoire) Page.ages_viewUserRepertoire
  | .page (.closed i) => exact h.page (a := .closed i) Page.ages_closed
  | .subscribe i => exact h.subscribe
  | .watch i => exact h.watch
  | .say i size => exact h.say
  | .read i full => exact h.read
  | .receive i => exact h.receive

theorem TimesOut.late {a : Action Raw} (h : TimesOut l a i s) (hr : l.page.Rest) (hp : l.page.Phase) :
    s.pongAt + pongTimeoutMs < l.page.now := by
  obtain ⟨⟨t, rfl⟩, hi, ho, hclosed⟩ := h
  exact hp.spares hr (.fire t) t i s rfl hi ho hclosed

theorem Watched.heard (h : Watched slack l) : l.Heard slack := by
  intro i c hc hr
  obtain ⟨-, h2, h3⟩ := h.watched i c hc hr
  omega

theorem Watched.serverFirst (hs : slack ≤ 5000) (h : Watched slack l) (a : Action Raw) : ServerFirst l a := by
  intro i s c hout hc hle
  by_contra hr
  have hlate := hout.late h.rest h.phase
  have hheard := h.heard i c hc (Bool.not_eq_false _ ▸ hr)
  have hlong : idleTimeout + livenessCheckInterval + 5000 = pongTimeoutMs := by decide
  omega

theorem Inv.stays (hd : pingIntervalMs + slack + 2 * delay ≤ idleTimeout) (h : Inv slack delay l) (a : Action Raw) :
    ¬ TimesOut l a i s := by
  intro hout
  have hlate := hout.late h.rest h.phase
  have hle := (h.healthy hd i s hout.2.1 hout.2.2.1).2
  omega

end Link

end Chessrepeat.Hooks
