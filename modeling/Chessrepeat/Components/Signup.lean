import Chessrepeat.Components.LoginModal
import Chessrepeat.Site.Handlers

/-!
# Signing up at the server

The dialog with the handler of `GET /username/check` behind it.
-/

namespace Chessrepeat.Components

open Lib Domain Client Hooks Store Api Ws Site

variable {Raw : Type} (json : Codec Raw) (parse : Text → Option Url) (order : PathOrder) (W : Set World)

/-- What may come back for a check, where the server goes through the states of `W`. A body is what the handler answers in
one of them. -/
def Served (name : JsString) : CheckReply → Prop
  | .rejected => True
  | .refused => True
  | .body available reason =>
      ∃ w ∈ W, ∃ text, reason = js text ∧
        ((Request.checkUsername (Utf16.decode name)).start.exec json parse order w).1 =
          .answered none (.available available text)

/-- Nobody had the name in one of the states the server went through. -/
def Free (name : JsString) : Prop := ∃ w ∈ W, w.db.fetchUserByUsername (Utf16.decode name) = none

/-- What the dialog says in the server's name is so, and every sign-up asks for a name that nobody had. -/
structure Advised {User : Type} (case : Casing) (s : LoginModal User) : Prop where
  invalid : s.checkState = .invalid → usernameRe (s.name case) = false
  available : s.checkState = .available → Free W (s.name case)
  posted : ∀ p ∈ s.posted, Free W p.username

end Chessrepeat.Components
