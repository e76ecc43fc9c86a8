import Chessrepeat.Site.Lemmas.Authority

/-!
# Who is in the users table
-/

namespace Chessrepeat.Site

open Lib Domain Store Api Ws

variable {Raw : Type} {json : Codec Raw} {parse : Text → Option Url} {order : PathOrder} {now : Int} {w : World}
  {p q : Stage Raw} {ts : List (Turn (Request Raw))}

/-- What a sign-up accepts. -/
def ValidUser (parse : Text → Option Url) (user : User) : Prop :=
  isValidUsername user.username = true ∧ isValidPictureURL parse user.picture = true

def ValidUsers (parse : Text → Option Url) (db : Db) : Prop :=
  ∀ u ∈ db.users.table.rows, ValidUser parse u.user ∧ u.limitMultiplier = 1

/-- What a login that is going to write has checked. -/
def CheckedLogin (parse : Text → Option Url) : Login → Prop
  | .fetchUserByUsername _ _ candidate => isValidUsername candidate = true
  | .upsertUser _ user => ValidUser parse user
  | _ => True

def Checked (parse : Text → Option Url) : Stage Raw → Prop
  | .login _ stage _ => CheckedLogin parse stage
  | _ => True

theorem ValidUsers.fetchUser {db : Db} (h : ValidUsers parse db) {tokenID : Text} {user : User}
    (hu : db.fetchUser tokenID = some user) : ValidUser parse user := by
  obtain ⟨u, hrow, rfl⟩ := Option.map_eq_some_iff.mp hu
  exact (h u (Table.find?_eq_some.mp hrow).1).1

theorem ValidUsers.checkedLogin {db : Db} (h : ValidUsers parse db) {stage : Login} (hs : CheckedLogin parse stage) :
    CheckedLogin parse (stage.exec parse order db).1 := by
  cases stage with
  | fetchUser body claims =>
      rw [Login.exec]
      cases hf : db.fetchUser claims.uid with
      | some existing =>
          have hvalid : ValidUser parse existing := h.fetchUser hf
          exact hvalid
      | none =>
          dsimp only
          split
          · trivial
          · split
            · trivial
            · rename_i hvalid
              rw [CheckedLogin]
              simpa using hvalid
  | fetchUserByUsername body claims candidate =>
      rw [Login.exec]
      cases db.fetchUserByUsername candidate with
      | some existing => trivial
      | none =>
          dsimp only
          split
          · trivial
          · rename_i hvalid
            exact ⟨hs, by simpa using hvalid⟩
  | upsertUser existing user =>
      rw [Login.exec]
      cases db.upsertUser user <;> trivial
  | fetchChaptersByOwner user =>
      rw [Login.exec]
      cases db.fetchChaptersByOwner order user.tokenID <;> trivial
  | createSession | answered => trivial

theorem Next.checked (h : Next json parse order w p q) (hw : ValidUsers parse w.db) (hp : Checked parse p) : Checked parse q := by
  cases h with
  | login => exact hw.checkedLogin hp
  | authenticated _ opened => cases opened <;> trivial
  | _ => trivial

/-- The row a checked login writes is a valid one, and keeps the multiplier there is. -/
theorem ValidUsers.upsertUser {db db' : Db} (h : ValidUsers parse db) {user : User} (hu : ValidUser parse user)
    (hup : db.upsertUser user = some db') : ValidUsers parse db' := by
  simp only [Db.upsertUser] at hup
  split at hup
  · obtain rfl := Option.some.inj hup
    intro u hrow
    rcases Table.mem_upsert.mp hrow with rfl | ⟨hrow, -⟩
    · refine ⟨(Users.user_row db.users user).symm ▸ hu, ?_⟩
      change ((db.users.table.find? user.tokenID).map UserRow.limitMultiplier).getD 1 = 1
      cases hf : db.users.table.find? user.tokenID with
      | none => rfl
      | some old => exact (h old (Table.find?_eq_some.mp hf).1).2
    · exact h u hrow
  · cases hup

theorem ValidUsers.exec (h : ValidUsers parse w.db) (hp : Checked parse p) :
    ValidUsers parse (p.exec json parse order w).2.db := by
  rcases exec_users json parse order w p with hu | ⟨_, _, user, _, db', rfl, hup, hdb⟩
  · intro u hrow
    rw [hu] at hrow
    exact h u hrow
  · rw [hdb]
    exact h.upsertUser hp hup

theorem Request.checked (req : Request Raw) : Checked parse req.start := by
  have h : Began req req.start := req.began
  generalize req.start = p at h ⊢
  cases h with
  | @login req minted =>
      rcases login_start_cases req with ⟨resp, hstart⟩ | ⟨body, claims, hstart, -⟩ <;>
        rw [Checked, hstart] <;> trivial
  | _ => trivial

theorem stable_checked : (requests json parse order).Stable (fun w _ => ValidUsers parse w.db)
    (fun _ p => (Checked parse p : Prop)) where
  start _ req := req.checked
  exec w p hp hw := (exec_next json parse order w p).checked hw hp
  others _ _ _ _ _ hq := hq
  fail _ p hp := by
    cases p with
    | login minted stage set => cases stage <;> trivial
    | _ => trivial

theorem validUsers_after (ts : List (Turn (Request Raw))) : ValidUsers parse (after json parse order now ts).shared.db := by
  have h : Always (requests json parse order).step (fun f => ValidUsers parse f.shared.db ∧
      Protocol.Asserts (fun _ p => Checked parse p) f) ⟨World.fresh now, []⟩ ts :=
    always_of_step (fun f t hf => stable_checked.inv_step (I := fun w => ValidUsers parse w.db)
      (fun _ _ hw hp => hw.exec hp) f t hf) ⟨fun _ hu => (by cases hu), Protocol.asserts_nil _⟩ ts
  exact h.last.1

/-- Whoever is stored has come with a verified identity token. -/
theorem verified_of_stored (ts : List (Turn (Request Raw))) : ∀ u ∈ (after json parse order now ts).shared.db.users.table.rows,
    Verified u.tokenId ts := by
  induction ts using List.reverseRecOn with
  | nil => intro u hu; cases hu
  | append_singleton ts t ih =>
      intro u hu
      have hold : u ∈ (after json parse order now ts).shared.db.users.table.rows → Verified u.tokenId (ts ++ [t]) :=
        fun hu => (ih u hu).later (List.prefix_append ts [t])
      rcases db_turn json parse t with h | ⟨i, p, rfl, hi, h⟩
      · exact hold (h ▸ hu)
      · rcases exec_users json parse order (after json parse order now ts).shared p with hsame | ⟨_, _, user, _, db', rfl, hup, hdb⟩
        · exact hold (hsame ▸ h ▸ hu)
        · rw [h, hdb] at hu
          simp only [Db.upsertUser] at hup
          split at hup
          · obtain rfl := Option.some.inj hup
            rcases Table.mem_upsert.mp hu with rfl | ⟨hu, -⟩
            · exact (verified_of_claimed ts _ (List.mem_of_getElem? hi) user.tokenID rfl).later (List.prefix_append ts _)
            · exact hold hu
          · cases hup

end Chessrepeat.Site
