import Chessrepeat.Store.Chapters

/-!
# A card on its way to the database and back

What `JSON.stringify` makes of a card, what `encoding/json` makes of that, the columns of the row, and what the client
finds in the repertoire it fetches. The fields of a JSON object are listed where it is written and where it is read.
-/

namespace Chessrepeat.Room

open Lib Domain Store

/-- The fields of the card of ts-fsrs, by their names. -/
inductive CardField where
  | due
  | stability
  | difficulty
  | elapsedDays
  | scheduledDays
  | learningSteps
  | reps
  | lapses
  | state
  | lastReview
  deriving DecidableEq, Repr

/-- A date is an instant in milliseconds, and `lastReview` is missing on a new card. -/
structure FsrsCard where
  due : Int
  stability : Float64
  difficulty : Float64
  elapsedDays : Int
  scheduledDays : Int
  learningSteps : Int
  reps : Int
  lapses : Int
  state : Int
  lastReview : Option Int
  deriving DecidableEq, Repr

inductive JsonValue where
  | string (t : Text)
  | integer (n : Int)
  | double (x : Float64)
  deriving DecidableEq, Repr

/-- A field that is not there is `none`. -/
abbrev CardJson := CardField → Option JsonValue

/-- The text of an instant and the instant of a text. -/
structure DateText where
  toISOString : Int → Text
  parse : Text → Option Int

/-! ## To the server -/

variable (dates : DateText)

/-- The `card` of `training_updated`. -/
def FsrsCard.json (c : FsrsCard) : CardJson
  | .due => some (.string (dates.toISOString c.due))
  | .stability => some (.double c.stability)
  | .difficulty => some (.double c.difficulty)
  | .elapsedDays => some (.integer c.elapsedDays)
  | .scheduledDays => some (.integer c.scheduledDays)
  | .learningSteps => some (.integer c.learningSteps)
  | .reps => some (.integer c.reps)
  | .lapses => some (.integer c.lapses)
  | .state => some (.integer c.state)
  | .lastReview => c.lastReview.map fun t => .string (dates.toISOString t)

/-! A field that is missing leaves the zero value, one of another type is an error. -/

def JsonValue.text : Option JsonValue → Option Text
  | none => some []
  | some (.string t) => some t
  | some _ => none

def JsonValue.int : Option JsonValue → Option Int
  | none => some 0
  | some (.integer n) => some n
  | some _ => none

def JsonValue.float : Option JsonValue → Option Float64
  | none => some 0
  | some (.double x) => some x
  | some _ => none

/-- `json.Unmarshal` into `CardData`; fields that the struct does not have are skipped. -/
def unmarshalCard (o : CardJson) : Option CardData := do
  let due ← JsonValue.text (o .due)
  let stability ← JsonValue.float (o .stability)
  let difficulty ← JsonValue.float (o .difficulty)
  let elapsedDays ← JsonValue.int (o .elapsedDays)
  let scheduledDays ← JsonValue.int (o .scheduledDays)
  let reps ← JsonValue.int (o .reps)
  let lapses ← JsonValue.int (o .lapses)
  let state ← JsonValue.int (o .state)
  let lastReview ← JsonValue.text (o .lastReview)
  some ⟨due, stability, difficulty, elapsedDays, scheduledDays, reps, lapses, state, lastReview⟩

/-! ## And back -/

/-- `json.Marshal` of `CardData`. -/
def marshalCard (d : CardData) : CardJson
  | .due => some (.string d.due)
  | .stability => some (.double d.stability)
  | .difficulty => some (.double d.difficulty)
  | .elapsedDays => some (.integer d.elapsedDays)
  | .scheduledDays => some (.integer d.scheduledDays)
  | .learningSteps => none
  | .reps => some (.integer d.reps)
  | .lapses => some (.integer d.lapses)
  | .state => some (.integer d.state)
  | .lastReview => some (.string d.lastReview)

/-- The card that the repertoire has for the user on the move, once the update is stored. -/
def sendAndLoad (db : Db) (chapterID path username : Text) (c : FsrsCard) : Option CardJson :=
  match unmarshalCard (c.json dates) with
  | none => none
  | some data => match db.updateTrainingState ⟨chapterID, path, username, data⟩ with
    | .error _ => none
    | .ok db => ((cardsAt (db.loadCards chapterID) path).lookup username).join.map marshalCard

/-- The values are the same in every field but one. Dates are compared as instants, and a text that is empty is as good
as none. -/
structure SameApart (c : FsrsCard) (o : CardJson) : Prop where
  due : ∃ t, o .due = some (.string t) ∧ dates.parse t = some c.due
  stability : o .stability = some (.double c.stability)
  difficulty : o .difficulty = some (.double c.difficulty)
  elapsedDays : o .elapsedDays = some (.integer c.elapsedDays)
  scheduledDays : o .scheduledDays = some (.integer c.scheduledDays)
  reps : o .reps = some (.integer c.reps)
  lapses : o .lapses = some (.integer c.lapses)
  state : o .state = some (.integer c.state)
  lastReview : match c.lastReview with
    | none => o .lastReview = none ∨ o .lastReview = some (.string [])
    | some instant => ∃ t, o .lastReview = some (.string t) ∧ dates.parse t = some instant

/-- The card comes back as it was. -/
def RoundTrips (db : Db) (chapterID path username : Text) (c : FsrsCard) : Prop :=
  ∃ o, sendAndLoad dates db chapterID path username c = some o ∧ SameApart dates c o ∧
    o .learningSteps = some (.integer c.learningSteps)

end Chessrepeat.Room
