import Chessrepeat.Components.Lemmas.LoginModal
import Chessrepeat.Components.Signup

/-!
# The server's say in a sign-up

The handler trims and lowercases what the dialog has trimmed and lowercased, and it matches the same pattern.
-/

namespace Chessrepeat.Components

open Lib Domain Client Hooks Store Api Ws Site

variable {Raw : Type} {json : Codec Raw} {parse : Text → Option Url} {order : PathOrder} {W : Set World} {name : JsString}
  {reply : CheckReply}

/-- The handler takes a name that the dialog asks for as it is. -/
theorem exec_checkUsername (hre : usernameRe name = true) (w : World) :
    ((Request.checkUsername (Utf16.decode name)).start.exec json parse order w).1 =
      .answered none (if (w.db.fetchUserByUsername (Utf16.decode name)).isNone then .available true ""
        else .available false "taken") := by
  obtain ⟨hvalid, hsame⟩ := isValidUsername_of_usernameRe hre
  rw [Request.start, hsame, if_pos hvalid]
  rfl

theorem Served.cases (h : Served json parse order W name reply) (hre : usernameRe name = true) :
    reply = .rejected ∨ reply = .refused ∨ (reply = .body true [] ∧ Free W name) ∨ reply = .body false (js "taken") := by
  cases reply with
  | rejected => exact Or.inl rfl
  | refused => exact Or.inr (Or.inl rfl)
  | body available reason =>
      obtain ⟨w, hw, text, rfl, hreply⟩ := h
      rw [exec_checkUsername hre] at hreply
      split at hreply
      · rename_i hnone
        cases hreply
        exact Or.inr (Or.inr (Or.inl ⟨rfl, w, hw, Option.isNone_iff_eq_none.mp hnone⟩))
      · cases hreply
        exact Or.inr (Or.inr (Or.inr rfl))

theorem Served.free (h : Served json parse order W name reply) (hre : usernameRe name = true)
    (hstate : reply.state = some .available) : Free W name := by
  rcases h.cases hre with rfl | rfl | ⟨-, hfree⟩ | rfl
  · cases hstate
  · cases hstate
  · exact hfree
  · exact absurd hstate (by decide)

/-- The two patterns are one. -/
theorem Served.not_invalid (h : Served json parse order W name reply) (hre : usernameRe name = true) :
    reply.state ≠ some .invalid := by
  rcases h.cases hre with rfl | rfl | ⟨rfl, -⟩ | rfl <;> decide

theorem LoginModal.Available.free (h : LoginModal.Available (Served json parse order W) name) : Free W name := by
  obtain ⟨hre, -, -, reply, hserved, hstate⟩ := h
  exact hserved.free hre hstate

theorem LoginModal.Careful.advised {User : Type} {case : Casing} {s : LoginModal User}
    (h : s.Careful case (Served json parse order W)) : Advised W case s where
  invalid := by
    intro hinvalid
    have htells := h.tells
    rw [hinvalid] at htells
    rcases htells with hre | ⟨reply, hserved, hstate⟩
    · exact hre
    · exact Bool.eq_false_iff.mpr fun hre => hserved.not_invalid hre hstate
  available := by
    intro havailable
    have htells := h.tells
    rw [havailable] at htells
    exact htells.2.free
  posted := fun p hp => (h.posted p hp).free

end Chessrepeat.Components
