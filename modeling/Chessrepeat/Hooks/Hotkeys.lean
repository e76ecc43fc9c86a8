import Mathlib.Logic.Function.Basic
import Chessrepeat.Lib.Run
import Chessrepeat.Lib.Utf16

/-!
# store/hotkeys.ts and hooks/useHotkeys.ts

The keyboard shortcuts: the combo a keydown stands for, the bindings and what the listener does with a keydown.
-/

namespace Chessrepeat.Hooks

open Lib

/-! ## Combos -/

/-- `toLowerCase` and `toUpperCase`. -/
structure Casing where
  lower : JsString → JsString
  upper : JsString → JsString

/-- A `KeyboardEvent`. `typing` and `modal` are what `isTypingTarget` and the query for an open dialog find. -/
structure KeyEvent where
  key : JsString
  ctrlKey : Bool
  altKey : Bool
  metaKey : Bool
  shiftKey : Bool
  repeated : Bool
  prevented : Bool
  composing : Bool
  typing : Bool
  modal : Bool
  deriving DecidableEq, Repr

def js (s : String) : JsString := Utf16.encode s.toList

def modifierKeys : List JsString :=
  [js "Control", js "Alt", js "Shift", js "Meta", js "AltGraph", js "CapsLock", js "OS"]

/-- A plus sign. -/
def plusUnit : UInt16 := 0x2B

/-- `join('+')`. -/
def joinPlus (parts : List JsString) : JsString := [plusUnit].intercalate parts

namespace KeyEvent

variable (case : Casing) (e : KeyEvent)

def named : JsString := if e.key = js " " then js "Space" else e.key

def isChar : Bool := e.named.length = 1

def isLetter : Bool := e.isChar && case.lower e.named ≠ case.upper e.named

/-- The key as it is bound. -/
def bare : JsString := if e.isLetter case then case.lower e.named else e.named

/-- Whether shift is spelled out. -/
def marked : Bool := e.shiftKey && (!e.isChar || e.isLetter case)

def mods : List JsString :=
  (if e.ctrlKey then [js "ctrl"] else []) ++ (if e.altKey then [js "alt"] else []) ++
    (if e.metaKey then [js "meta"] else []) ++ if e.marked case then [js "shift"] else []

def comboFromEvent : Option JsString :=
  if e.key ∈ modifierKeys then none else some (joinPlus (e.mods case ++ [e.bare case]))

end KeyEvent

/-- The loop of `comboParts`. -/
def splitMods : List JsString → JsString → List JsString
  | [], rest => [rest]
  | mod :: mods, rest =>
      if (mod ++ [plusUnit]).isPrefixOf rest ∧ mod.length + 1 < rest.length then
        mod :: splitMods mods (rest.drop (mod.length + 1))
      else splitMods mods rest

def modNames : List JsString := [js "ctrl", js "alt", js "meta", js "shift"]

def keyLabels : List (JsString × JsString) :=
  [(js "ArrowLeft", js "←"), (js "ArrowRight", js "→"), (js "ArrowUp", js "↑"), (js "ArrowDown", js "↓"),
    (js "ctrl", js "Ctrl"), (js "alt", js "Alt"), (js "meta", js "Meta"), (js "shift", js "Shift"), (js "Escape", js "Esc")]

def label (case : Casing) (p : JsString) : JsString :=
  (keyLabels.lookup p).getD (if p.length = 1 then case.upper p else p)

def comboParts (case : Casing) (combo : JsString) : List JsString := (splitMods modNames combo).map (label case)

/-! ## Bindings -/

inductive HotkeyAction where
  | firstMove
  | prevMove
  | nextMove
  | lastMove
  | modeEdit
  | modeLearn
  | modeRecall
  | toggleComments
  | copyFen
  | openSettings
  | openShortcuts
  deriving DecidableEq, Repr

/-- `Object.keys` of the bindings. -/
def HotkeyAction.all : List HotkeyAction :=
  [.firstMove, .prevMove, .nextMove, .lastMove, .modeEdit, .modeLearn, .modeRecall, .toggleComments, .copyFen,
    .openSettings, .openShortcuts]

abbrev Bindings : Type := HotkeyAction → Option JsString

def defaultBindings : Bindings
  | .firstMove => some (js "ArrowUp")
  | .prevMove => some (js "ArrowLeft")
  | .nextMove => some (js "ArrowRight")
  | .lastMove => some (js "ArrowDown")
  | .modeEdit => some (js "e")
  | .modeLearn => some (js "l")
  | .modeRecall => some (js "r")
  | .toggleComments => some (js "c")
  | .copyFen => some (js "f")
  | .openSettings => some (js "s")
  | .openShortcuts => some (js "?")

/-- An item of `localStorage`: the bindings an earlier page has stored, which may know fewer actions. -/
abbrev Stored : Type := HotkeyAction → Option (Option JsString)

def loadBindings : Option Stored → Bindings
  | none => defaultBindings
  | some stored => fun id => (stored id).getD (defaultBindings id)

/-- Falsy when it is null or empty. -/
def truthyCombo (combo : Option JsString) : Option JsString := combo.filter fun c => c ≠ []

/-- The loop of `setBinding`: other actions lose the combo, and the last that does is returned. -/
def displace (action : HotkeyAction) (combo : JsString) :
    List HotkeyAction → Bindings × Option HotkeyAction → Bindings × Option HotkeyAction
  | [], out => out
  | id :: ids, out =>
      displace action combo ids
        (if id ≠ action ∧ out.1 id = some combo then (Function.update out.1 id none, some id) else out)

/-- The page and what is stored. Where storage is blocked nothing is saved and nothing loaded. -/
structure Hotkeys where
  bindings : Bindings
  stored : Option Stored

namespace Hotkeys

variable (s : Hotkeys)

def load (stored : Option Stored) : Hotkeys := ⟨loadBindings stored, stored⟩

def save (blocked : Bool) (bindings : Bindings) : Hotkeys :=
  ⟨bindings, if blocked then s.stored else some fun id => some (bindings id)⟩

def setBinding (blocked : Bool) (action : HotkeyAction) (combo : Option JsString) : Hotkeys × Option HotkeyAction :=
  let out := match truthyCombo combo with
    | none => (s.bindings, none)
    | some c => displace action c HotkeyAction.all (s.bindings, none)
  (s.save blocked (Function.update out.1 action combo), out.2)

inductive Action where
  | setBinding (blocked : Bool) (action : HotkeyAction) (combo : Option JsString)
  | resetBindings (blocked : Bool)
  | reload (blocked : Bool)

def step : Action → Hotkeys
  | .setBinding blocked action combo => (s.setBinding blocked action combo).1
  | .resetBindings blocked => s.save blocked defaultBindings
  | .reload blocked => { s with bindings := loadBindings (if blocked then none else s.stored) }

end Hotkeys

/-! ## The listener -/

def repeatable : List HotkeyAction := [.prevMove, .nextMove]

/-- `byCombo`: of two actions with the same combo, the map has the later. -/
def byCombo (bindings : Bindings) (combo : JsString) : Option HotkeyAction :=
  HotkeyAction.all.foldl (fun found id => if truthyCombo (bindings id) = some combo then some id else found) none

/-- The action `onKeyDown` calls the handler of. It listens only while the hook is `enabled`. -/
def onKeyDown (case : Casing) (bindings : Bindings) (enabled : Bool) (handled : HotkeyAction → Bool) (e : KeyEvent) :
    Option HotkeyAction :=
  if !enabled then none
  else if e.prevented || e.composing || e.typing || e.modal then none
  else match (e.comboFromEvent case).bind (byCombo bindings) with
    | none => none
    | some action =>
        if e.repeated && action ∉ repeatable then none else if handled action then some action else none

/-! ## What should hold -/

/-- No one else has handled the event or takes what is typed. -/
def KeyEvent.Heard (e : KeyEvent) : Prop :=
  e.prevented = false ∧ e.composing = false ∧ e.typing = false ∧ e.modal = false

/-- No combo is bound twice. -/
def Distinct (bindings : Bindings) : Prop :=
  ∀ a b c, truthyCombo (bindings a) = some c → truthyCombo (bindings b) = some c → a = b

/-- The listener calls the action that the combo of a keydown is bound to, where it has a handler and listens. -/
def Dispatches (case : Casing) (bindings : Bindings) : Prop :=
  ∀ enabled handled e a, onKeyDown case bindings enabled handled e = some a ↔
    enabled = true ∧ e.Heard ∧ handled a = true ∧ (e.repeated = true → a ∈ repeatable) ∧
      ∃ c, e.comboFromEvent case = some c ∧ truthyCombo (bindings a) = some c

/-- What else is changed by binding a combo is returned: at most the one action that had it. -/
def Hotkeys.Reports (s : Hotkeys) : Hotkeys.Action → Prop
  | .setBinding blocked action combo =>
      (s.setBinding blocked action combo).1.bindings action = combo ∧
        ∀ id, id ≠ action → if s.bindings id = combo ∧ truthyCombo combo ≠ none
          then (s.setBinding blocked action combo).1.bindings id = none ∧
            (s.setBinding blocked action combo).2 = some id
          else (s.setBinding blocked action combo).1.bindings id = s.bindings id ∧
            (s.setBinding blocked action combo).2 ≠ some id
  | _ => True

/-- What a combo tells of a keydown. -/
def KeyEvent.chord (case : Casing) (e : KeyEvent) : Bool × Bool × Bool × Bool × JsString :=
  (e.ctrlKey, e.altKey, e.metaKey, e.marked case, e.bare case)

/-- The case of a letter does not make a plus sign of it, nor nothing. -/
def Casing.Plain (case : Casing) : Prop :=
  ∀ u : UInt16, case.lower [u] ≠ case.upper [u] → case.lower [u] ≠ [] ∧ plusUnit ∉ case.lower [u]

/-- The key of an event is named by a word, or by the character it types. -/
def KeyEvent.Named (e : KeyEvent) : Prop := e.key ≠ [] ∧ (e.key = [plusUnit] ∨ plusUnit ∉ e.key)

end Chessrepeat.Hooks
