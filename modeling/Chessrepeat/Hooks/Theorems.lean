import Chessrepeat.Client.Theorems
import Chessrepeat.Hooks.Lemmas.Explorer
import Chessrepeat.Hooks.Lemmas.Hotkeys
import Chessrepeat.Hooks.Lemmas.Link

/-!
# The hooks: results

The websocket: what holds of every run of the page, and of the page and the server together, whatever the user and the
network do. The keyboard: what a combo tells, and what every sequence of bindings keeps. The explorer: what is shown
while requests are under way.
-/

namespace Chessrepeat.Hooks

open Lib Domain Ws Client

variable {Raw : Type}

/-- At every moment the page has one connection or is about to make one, and never two. -/
theorem page_orderly (as : List (Page.Action Raw)) : Always Page.step Page.Orderly Page.new as :=
  (Page.always_phase as).mono fun _ h => h.2.orderly h.1

/-- When timers fire on time, a link that brings no pong is closed within 50 seconds and a link that is closed is
replaced within the backoff, and not before it is over; a link is never closed earlier than 45 seconds after a pong. -/
theorem page_timely (slack : Nat) (as : List (Page.Action Raw)) (h : Meets Page.step (Page.Prompt slack) Page.new as) :
    Always Page.step (Page.Timely slack) Page.new as ∧ Meets Page.step Page.Delays Page.new as ∧
      Meets Page.step Page.Spares Page.new as := by
  have hstep : ∀ (p : Page Raw) a, (p.Rest ∧ p.Phase) ∧ p.OnTime slack → p.Prompt slack a →
      ((p.step a).Rest ∧ (p.step a).Phase) ∧ (p.step a).OnTime slack :=
    fun _ a hp ha => ⟨hp.1.2.step hp.1.1 a, hp.2.step ha⟩
  have hnew : ((Page.new : Page Raw).Rest ∧ (Page.new : Page Raw).Phase) ∧ (Page.new : Page Raw).OnTime slack :=
    ⟨Page.new_phase, fun T hT => absurd hT List.not_mem_nil⟩
  have hspares : ∀ (p : Page Raw) a, (p.Rest ∧ p.Phase) ∧ (p.step a).Rest ∧ (p.step a).Phase → p.Spares a :=
    fun _ a hp => hp.1.2.spares hp.1.1 a
  exact ⟨(h.always hstep hnew).mono fun _ hp => hp.1.2.timely hp.1.1 hp.2,
    (Page.always_phase as).meets.mono fun _ a hp => hp.1.2.delays a, (Page.always_phase as).meets.mono hspares⟩

/-- The socket opens, is pinged, is closed and a second later is replaced. -/
def reconnect : List (Page.Action Unit) :=
  [.setRepertoireAuthor (some ['a']), .commit, .opened 0, .wait 5000, .fire 0, .closed 0, .wait 1000, .fire 1]

theorem reconnect_timely :
    Always Page.step (Page.Timely 0) Page.new reconnect ∧ Meets Page.step Page.Delays Page.new reconnect ∧
      Meets Page.step Page.Spares Page.new reconnect :=
  page_timely 0 reconnect (by decide)

/-! ## The heartbeat -/

/-- When timers fire on time, no ping or pong is on the wire for long and the server drops no ping, neither end gives up,
whatever else the page sends: the server keeps running while the socket is open, and no timer closes it. -/
theorem heartbeat_healthy (slack delay : Nat) (hd : pingIntervalMs + slack + 2 * delay ≤ idleTimeout)
    (as : List (Link.Action Raw))
    (h : Meets Link.step (fun l a => Link.OnTick slack l a ∧ Link.Delivers delay l a ∧ Link.Answers l a) Link.new as) :
    Always Link.step Link.Healthy Link.new as ∧
      Meets Link.step (fun l a => ∀ i s, ¬ Link.TimesOut l a i s) Link.new as := by
  have hinv : Always Link.step (Link.Inv slack delay) (Link.new : Link Raw) as :=
    h.always (fun _ _ hl ha => hl.step hd ha.1 ha.2.1 ha.2.2) Link.inv_new
  exact ⟨hinv.mono fun _ hl => hl.healthy hd, hinv.meets.mono fun _ a hl _ _ => hl.1.stays hd a⟩

/-- The socket opens. -/
def opening : List (Link.Action Unit) :=
  [.page (.setRepertoireAuthor (some ['a'])), .page .commit, .subscribe 0, .page (.opened 0)]

/-- A move, a ping and its pong, each on the wire for 100 ms. -/
def exchange : List (Link.Action Unit) :=
  [.page (.wait 5000), .say 0 200, .page (.fire 0), .page (.wait 100), .read 0 true, .read 0 false, .page (.wait 100),
    .receive 0]

theorem exchange_healthy :
    Always Link.step Link.Healthy Link.new (opening ++ exchange) ∧
      Meets Link.step (fun l a => ∀ i s, ¬ Link.TimesOut l a i s) Link.new (opening ++ exchange) :=
  heartbeat_healthy 0 100 (by decide) (opening ++ exchange) (by decide +kernel)

/-- When timers fire on time, the server gives up a client that has fallen silent within 40 seconds, and when it has
heard nothing since the page had its last pong, it does so before the page. -/
theorem server_first (slack : Nat) (hs : slack ≤ 5000) (as : List (Link.Action Raw))
    (h : Meets Link.step (Link.OnTick slack) Link.new as) :
    Always Link.step (Link.Heard slack) Link.new as ∧ Meets Link.step Link.ServerFirst Link.new as := by
  have hinv : Always Link.step (Link.Watched slack) (Link.new : Link Raw) as :=
    h.always (fun _ _ hl ha => hl.step ha) Link.watched_new
  exact ⟨hinv.mono fun _ hl => hl.heard, hinv.meets.mono fun _ a hl => hl.1.serverFirst hs a⟩

/-- Nothing comes through any more: the server stops after 40 seconds, the page closes the socket after 50. -/
def silence : List (Link.Action Unit) :=
  (List.replicate 10 [.page (.wait 5000), .page (.fire 0), .watch 0]).flatten

theorem silence_serverFirst :
    Always Link.step (Link.Heard 0) Link.new (opening ++ silence) ∧
      Meets Link.step Link.ServerFirst Link.new (opening ++ silence) :=
  server_first 0 (by decide) (opening ++ silence) (by decide)

/-! ## The keyboard -/

/-- A combo shows the modifiers that were held and the key, also where the key is a plus sign, and no other keydown has
it. -/
theorem combo_faithful (case : Casing) (hc : case.Plain) (e : KeyEvent) (he : e.Named) (combo : JsString)
    (h : e.comboFromEvent case = some combo) :
    comboParts case combo = (e.mods case ++ [e.bare case]).map (label case) ∧
      ∀ e' : KeyEvent, e'.Named → e'.key ∉ modifierKeys →
        (e'.comboFromEvent case = some combo ↔ e'.chord case = e.chord case) :=
  ⟨congrArg (List.map (label case)) (KeyEvent.splitMods_combo hc he h),
    fun _ he' hk' => KeyEvent.combo_eq_iff hc he he' hk' h⟩

/-- Letters without marks. -/
def asciiCase : Casing where
  lower := List.map fun u => if 0x41 ≤ u ∧ u ≤ 0x5A then u + 0x20 else u
  upper := List.map fun u => if 0x61 ≤ u ∧ u ≤ 0x7A then u - 0x20 else u

theorem asciiCase_plain : asciiCase.Plain := by
  intro u hu
  simp only [asciiCase, List.map_cons, List.map_nil, ne_eq, List.cons.injEq, and_true, plusUnit, List.mem_singleton] at *
  grind

/-- Ctrl and the plus key. -/
def ctrlPlus : KeyEvent := ⟨js "+", true, false, false, true, false, false, false, false, false⟩

theorem ctrlPlus_faithful :
    comboParts asciiCase (js "ctrl++") = [js "Ctrl", js "+"] ∧
      ∀ e' : KeyEvent, e'.Named → e'.key ∉ modifierKeys →
        (e'.comboFromEvent asciiCase = some (js "ctrl++") ↔ e'.chord asciiCase = ctrlPlus.chord asciiCase) :=
  combo_faithful asciiCase asciiCase_plain ctrlPlus ⟨by decide, Or.inl (by decide)⟩ (js "ctrl++") (by decide)

/-- Whatever is bound, reset and reloaded, a key runs the one action it is bound to, and binding a combo tells which
action has lost it. -/
theorem hotkeys_dispatch (case : Casing) (stored : Option Stored) (h : Distinct (loadBindings stored))
    (as : List Hotkeys.Action) :
    Always Hotkeys.step (fun s => Distinct s.bindings ∧ Dispatches case s.bindings) (Hotkeys.load stored) as ∧
      Meets Hotkeys.step Hotkeys.Reports (Hotkeys.load stored) as := by
  have hinv : Always Hotkeys.step Hotkeys.Inv (Hotkeys.load stored) as :=
    always_of_step (fun _ a hs => hs.step a) ⟨h, h⟩ as
  exact ⟨hinv.mono fun _ hs => ⟨hs.bindings, hs.bindings.dispatches case⟩,
    hinv.meets.mono fun _ a hs => Hotkeys.reports hs.1.bindings a⟩

/-- The key of one move is given to another, and the page is loaded again. -/
def rebinding : List Hotkeys.Action := [.setBinding false .nextMove (some (js "e")), .reload false]

theorem rebinding_dispatches :
    Always Hotkeys.step (fun s => Distinct s.bindings ∧ Dispatches asciiCase s.bindings) (Hotkeys.load none) rebinding ∧
      Meets Hotkeys.step Hotkeys.Reports (Hotkeys.load none) rebinding :=
  hotkeys_dispatch asciiCase none defaultBindings_distinct rebinding

/-! ## The opening explorer -/

/-- Whichever requests are slow: the moves that are shown are those of the position on the board, the most played first,
with what the cloud says of each, and the page is loading only while a request for that position is under way. -/
theorem explorer_current (lib : ChessLib) (Q : JsString → ExplorerReply → Prop) (E : JsString → CloudReply → Prop)
    (as : List UseExplorer.Action)
    (h : Meets (UseExplorer.step lib) (UseExplorer.Honest lib Q E) UseExplorer.mounting as) :
    Always (UseExplorer.step lib) (UseExplorer.Current lib Q E) UseExplorer.mounting as := by
  have hinv : Always (UseExplorer.step lib) (UseExplorer.Inv lib Q E) UseExplorer.mounting as :=
    h.always (fun _ _ hs ha => hs.step ha) UseExplorer.inv_mounting
  exact hinv.mono fun _ hs => hs.current

/-- Two first moves are known, and nothing after the first. -/
def knownMoves (fen : JsString) : ExplorerReply :=
  if fen = startFen then .body (some (some [⟨sanNf3, 1, 1, 0⟩, ⟨sanE4, 2, 1, 3⟩])) else .body none

/-- The eval of the first position comes when the second is on the board. -/
def browsing : List UseExplorer.Action :=
  [.render (some initialBoard) true, .answered 0 (knownMoves startFen), .render (some afterE4) true,
    .evaluated 0 sanE4 .refused, .answered 1 (knownMoves afterE4)]

theorem browsing_current :
    Always (UseExplorer.step Client.opening)
      (UseExplorer.Current Client.opening (fun fen reply => reply = knownMoves fen) fun _ reply => reply = .refused)
      UseExplorer.mounting browsing := by
  refine explorer_current Client.opening _ _ browsing ⟨trivial, fun t ht => ?_, trivial, fun t ht => ?_, fun t ht => ?_, trivial⟩
  · cases ht
    decide
  · exact fun _ _ => rfl
  · cases ht
    decide

end Chessrepeat.Hooks
