import Chessrepeat.Api.Login

/-!
# What is stored while logins are in flight

A login on its way to success knows the user it has read or written. As long as sign-ups write over nobody, that
user is the one that is stored, so writing it again changes nothing.
-/

namespace Chessrepeat.Api

open Lib Domain Store Protocol

variable {parse : Text → Option Url} {order : PathOrder} {db db' : Db} {p : Login}

/-- The user the login has read or written. -/
def Login.user? : Login → Option User
  | .upsertUser (some _) user => some user
  | .createSession user => some user
  | .fetchChaptersByOwner user => some user
  | .answered (.loggedIn user _) => some user
  | _ => none

def Login.Stored (db : Db) (p : Login) : Prop := ∀ user, p.user? = some user → db.fetchUser user.tokenID = some user

theorem Login.Stored.of_none (h : p.user? = none) : p.Stored db := fun _ hu => by rw [h] at hu; cases hu

theorem Login.user?_start (req : LoginRequest) : (Login.start req).user? = none := by
  unfold Login.start
  split
  · rfl
  · split
    · rfl
    · split
      · rfl
      · split <;> rfl

theorem Login.user?_fail (h : p.Stored db) : p.fail.Stored db := by
  cases p with
  | answered resp => exact h
  | fetchUser | fetchUserByUsername | upsertUser | createSession | fetchChaptersByOwner => exact .of_none rfl

/-- Whoever is stored under the id that is written is written again. -/
theorem Login.eq_of_upsertUser {existing : Option User} {user stored : User}
    (hp : Login.Stored db (.upsertUser existing user)) (hc : FirstSignUp db (.upsertUser existing user))
    (hs : db.fetchUser user.tokenID = some stored) : stored = user := by
  cases existing with
  | none => exact hc stored hs
  | some e => exact Option.some.inj (hs.symm.trans (hp user rfl))

/-- An access leaves in place whoever is stored. -/
theorem Login.fetchUser_exec {uid : Text} {stored : User} (hs : db.fetchUser uid = some stored)
    (hp : p.Stored db) (hc : FirstSignUp db p) : (p.exec parse order db).2.fetchUser uid = some stored := by
  cases p with
  | upsertUser existing user =>
      simp only [Login.exec]
      cases hu : db.upsertUser user with
      | none => exact hs
      | some db' =>
          rw [Db.fetchUser_upsertUser hu]
          split
          · rename_i hid
            exact congrArg some (Login.eq_of_upsertUser hp hc (hid ▸ hs)).symm
          · exact hs
  | fetchUser body claims =>
      simp only [Login.exec]
      cases db.fetchUser claims.uid <;> exact hs
  | fetchUserByUsername body claims candidate =>
      simp only [Login.exec]
      cases db.fetchUserByUsername candidate <;> exact hs
  | fetchChaptersByOwner user =>
      simp only [Login.exec]
      cases db.fetchChaptersByOwner order user.tokenID <;> exact hs
  | createSession user => exact hs
  | answered resp => exact hs

/-- What a login knows after an access is what is stored. -/
theorem Login.stored_exec (hp : p.Stored db) : (p.exec parse order db).1.Stored (p.exec parse order db).2 := by
  cases p with
  | fetchUser body claims =>
      simp only [Login.exec]
      cases hu : db.fetchUser claims.uid with
      | none =>
          refine .of_none ?_
          simp only
          split
          · rfl
          · split <;> rfl
      | some existing =>
          intro user huser
          obtain rfl := Option.some.inj huser
          have hid := Db.tokenID_of_fetchUser hu
          obtain ⟨tokenID, username, picture⟩ := existing
          cases hid
          exact hu
  | fetchUserByUsername body claims candidate =>
      simp only [Login.exec]
      cases db.fetchUserByUsername candidate with
      | some _ => exact .of_none rfl
      | none =>
          refine .of_none ?_
          simp only
          split <;> rfl
  | upsertUser existing user =>
      simp only [Login.exec]
      cases hu : db.upsertUser user with
      | none => exact .of_none rfl
      | some db' =>
          intro u hu'
          obtain rfl := Option.some.inj hu'
          rw [Db.fetchUser_upsertUser hu, if_pos rfl]
  | createSession user => exact hp
  | fetchChaptersByOwner user =>
      simp only [Login.exec]
      cases db.fetchChaptersByOwner order user.tokenID with
      | none => exact .of_none rfl
      | some chapters => exact hp
  | answered resp => exact hp

theorem stable_stored (parse : Text → Option Url) (order : PathOrder) :
    (logins parse order).Stable FirstSignUp fun db p => p.Stored db where
  start _ req := .of_none (Login.user?_start req)
  exec _ _ hp _ := Login.stored_exec hp
  others _ _ _ hp hc hq := fun user hu => Login.fetchUser_exec (hq user hu) hp hc
  fail _ _ := Login.user?_fail

theorem Login.user?_of_succeeded {uid : Text} (h : p.Succeeded uid) : ∃ user, p.user? = some user ∧ user.tokenID = uid := by
  cases p with
  | answered resp =>
      cases resp with
      | loggedIn user chapters => exact ⟨user, rfl, h⟩
      | error | needsUsername | panicked => exact absurd h id
  | fetchUser | fetchUserByUsername | upsertUser | createSession | fetchChaptersByOwner => exact absurd h id

/-- The users table keeps its `UNIQUE` column. -/
theorem oneHolder (db : Db) : OneHolder db := fun _ hu _ hv _ hun hvn =>
  congrArg UserRow.tokenId (Users.eq_of_username hu hv hun hvn)

end Chessrepeat.Api
