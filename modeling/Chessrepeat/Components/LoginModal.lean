import Chessrepeat.Api.Login
import Chessrepeat.Client.Board
import Chessrepeat.Hooks.Hotkeys
import Chessrepeat.Lib.Latest

/-!
# components/modals/LoginModal.tsx

Signing in and signing up. Firebase, the server and the upload of a picture are awaited, and the dialog can be dismissed
and used again in the meantime. The addresses and passwords of the forms and the messages are left out.
-/

namespace Chessrepeat.Components

open Lib Client Hooks

/-! ## Usernames -/

def usernameUnit (u : UInt16) : Bool := (0x61 ≤ u && u ≤ 0x7A) || (0x30 ≤ u && u ≤ 0x39) || u = 0x5F

/-- `USERNAME_RE`. -/
def usernameRe (s : JsString) : Bool := 3 ≤ s.length && s.length ≤ 20 && s.all usernameUnit

inductive CheckState where
  | idle
  | pending
  | available
  | taken
  | invalid
  deriving DecidableEq, Repr

/-- The timer of a check is armed, its request is under way, or it is over. -/
inductive CheckStage where
  | debouncing
  | fetching
  | settled
  deriving DecidableEq, Repr

/-- What comes of `GET /username/check`. -/
inductive CheckReply where
  | rejected
  | refused
  | body (available : Bool) (reason : JsString)
  deriving DecidableEq, Repr

/-- The state a reply sets, if any. -/
def CheckReply.state : CheckReply → Option CheckState
  | .rejected => none
  | .refused => none
  | .body available reason =>
      some (if available then .available else if reason = js "invalid" then .invalid else .taken)

/-! ## The dialog -/

variable {User : Type}

/-- What `exchangeIdToken` returns. -/
inductive ExchangeResult where
  | ok
  | needsUsername
  | usernameTaken
  | error
  deriving DecidableEq, Repr

structure Signup (User : Type) where
  user : User
  username : JsString
  picture : JsString
  deriving DecidableEq, Repr

/-- What a function given to `run` awaits: Firebase, an exchange without a username, the token for a sign-up, the
answer to the sign-up. -/
inductive Task (User : Type) where
  | authenticating
  | exchanging (user : User)
  | preparing (signup : Signup User)
  | signingUp (signup : Signup User)

/-- What is awaited turns out; each task looks at the one that it awaits. -/
structure Outcome (User : Type) where
  user : Option User
  token : Bool
  result : ExchangeResult

/-- `deps` is what the effect ran for last, `posted` a history variable: the sign-ups that were sent to the server. -/
structure LoginModal (User : Type) where
  pendingUser : Option User
  pendingUsername : JsString
  checkState : CheckState
  busy : Bool
  uploading : Bool
  uploadedPicture : JsString
  deps : Option JsString
  checks : Latest JsString CheckStage
  tasks : List (Task User)
  uploads : Nat
  posted : List (Signup User)

namespace LoginModal

variable (case : Casing) (s : LoginModal User)

/-- The username as it would be sent. -/
def name : JsString := case.lower (trim s.pendingUsername)

/-- The effect, which runs where the field has changed. -/
def commit : LoginModal User :=
  if s.deps = some s.pendingUsername then s
  else if s.name case = [] then
    { s with deps := some s.pendingUsername, checks := s.checks.abort, checkState := .idle }
  else if !usernameRe (s.name case) then
    { s with deps := some s.pendingUsername, checks := s.checks.abort, checkState := .invalid }
  else
    { s with
      deps := some s.pendingUsername
      checks := s.checks.issue (s.name case) .debouncing
      checkState := .pending }

/-- Before the effect has run. -/
def mounted : LoginModal User := ⟨none, [], .idle, false, false, [], none, Latest.empty, [], 0, []⟩

def reset : LoginModal User :=
  { s with
    pendingUser := none, pendingUsername := [], checkState := .idle, busy := false, uploading := false
    uploadedPicture := [] }

/-- It does nothing where another task is under way. -/
def start (task : Task User) : LoginModal User :=
  if s.busy then s else { s with busy := true, tasks := s.tasks ++ [task] }

/-- `finally`. -/
def settle : LoginModal User := { s with busy := false }

def await (task : Task User) : LoginModal User := { s with tasks := s.tasks ++ [task] }

/-- A task goes on to its next `await` or its end. -/
def resume (o : Outcome User) : Task User → LoginModal User
  | .authenticating => match o.user with
    | none => s.settle
    | some user => s.await (.exchanging user)
  | .exchanging user => match o.result with
    | .ok => s.reset.settle
    | .needsUsername => settle { s with pendingUser := some user, uploadedPicture := [] }
    | .usernameTaken => s.settle
    | .error => s.settle
  | .preparing signup =>
      if o.token then { s with posted := s.posted ++ [signup], tasks := s.tasks ++ [.signingUp signup] }
      else s.settle
  | .signingUp _ => match o.result with
    | .ok => s.reset.settle
    | .needsUsername => s.settle
    | .usernameTaken => settle { s with checkState := .taken }
    | .error => s.settle

inductive Action (User : Type) where
  | signIn
  | input (text : JsString)
  | submitUsername
  | chooseFile
  | uploaded (url : Option JsString)
  | removePicture
  | dismiss
  | resume (k : Nat) (o : Outcome User)
  | fire (i : Nat)
  | checked (i : Nat) (reply : CheckReply)

/-- The form of the username is shown once Firebase knows the user, and its button is disabled while a picture is
uploaded. -/
def submitUsername : LoginModal User :=
  match s.pendingUser with
  | none => s
  | some user =>
      if s.checkState ≠ .available || s.uploading then s
      else s.start (.preparing ⟨user, s.name case, s.uploadedPicture⟩)

/-- The timer of an aborted check was cleared. -/
def fire (i : Nat) : LoginModal User :=
  match s.checks.tickets[i]? with
  | none => s
  | some t =>
      if t.stage = .debouncing ∧ t.aborted = false then { s with checks := s.checks.advance i fun _ => .fetching } else s

/-- An aborted check rejects with an `AbortError`. -/
def checked (i : Nat) (reply : CheckReply) : LoginModal User :=
  match s.checks.tickets[i]? with
  | none => s
  | some t =>
      if t.stage ≠ .fetching then s
      else
        { s with
          checks := s.checks.advance i fun _ => .settled
          checkState := if t.aborted then s.checkState else reply.state.getD s.checkState }

def act : Action User → LoginModal User
  | .signIn => if s.pendingUser.isSome then s else s.start .authenticating
  | .input text => if s.pendingUser.isSome && !s.busy then { s with pendingUsername := text } else s
  | .submitUsername => s.submitUsername case
  | .chooseFile =>
      if s.pendingUser.isSome && !s.uploading then { s with uploading := true, uploads := s.uploads + 1 } else s
  | .uploaded url =>
      if s.uploads = 0 then s
      else { s with uploading := false, uploads := s.uploads - 1, uploadedPicture := url.getD s.uploadedPicture }
  | .removePicture => if s.pendingUser.isSome && !s.uploading then { s with uploadedPicture := [] } else s
  | .dismiss => s.reset
  | .resume k o => match s.tasks[k]? with
    | none => s
    | some task => resume { s with tasks := s.tasks.eraseIdx k } o task
  | .fire i => s.fire i
  | .checked i reply => s.checked i reply

/-- A render and its effect. -/
def step (a : Action User) : LoginModal User := (s.act case a).commit case

/-! ## What should hold -/

/-- A check is answered for the name it asks for. -/
def Honest (Q : JsString → CheckReply → Prop) (s : LoginModal User) : Action User → Prop
  | .checked i reply => ∀ t, s.checks.tickets[i]? = some t → Q t.key reply
  | _ => True

/-- A name that both ends accept as it is and that the server has called available when it was asked for it. -/
def Available (Q : JsString → CheckReply → Prop) (username : JsString) : Prop :=
  usernameRe username = true ∧ Api.isValidUsername (Utf16.decode username) = true ∧
    toLower (trimSpace (Utf16.decode username)) = Utf16.decode username ∧
    ∃ reply, Q username reply ∧ reply.state = some .available

/-- What the dialog says of a name, where the check that is not aborted is this one. -/
def Tells (Q : JsString → CheckReply → Prop) (name : JsString) (check : Option (Ticket JsString CheckStage)) :
    CheckState → Prop
  | .idle => name = []
  | .invalid => usernameRe name = false ∨ ∃ reply, Q name reply ∧ reply.state = some .invalid
  | .pending => ∃ t, check = some t ∧ (t.stage ≠ .settled ∨ ∃ reply, Q name reply ∧ reply.state = none)
  | .available => (∃ t, check = some t ∧ t.stage = .settled) ∧ Available Q name
  | .taken => True

/-- The only check that is not aborted was started for the name that stands in the field, the dialog says of this name what
came of it, and every sign-up that was sent had a name that was found available. -/
structure Careful (Q : JsString → CheckReply → Prop) (s : LoginModal User) : Prop where
  alive : ∀ t ∈ s.checks.tickets, t.aborted = false → s.checks.current = some t
  wanted : ∀ t, s.checks.current = some t → t.aborted = false
  check : ∀ t, s.checks.current = some t → t.key = s.name case ∧ usernameRe (s.name case) = true
  tells : Tells Q (s.name case) s.checks.current s.checkState
  posted : ∀ p ∈ s.posted, Available Q p.username

end LoginModal

end Chessrepeat.Components
