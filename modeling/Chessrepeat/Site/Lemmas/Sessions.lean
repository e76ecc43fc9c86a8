import Chessrepeat.Site.Lemmas.Writes

/-!
# Sessions and grants over a run

The ids of users that the rows and the requests hold are those of users, so an insert fails on no reference. With that
each access sets or takes back a session, or a grant, exactly when it says so.
-/

namespace Chessrepeat.Site

open Lib Domain Store Api Ws

variable {Raw : Type} {json : Codec Raw} {parse : Text → Option Url} {order : PathOrder} {w w' : World} {p q : Stage Raw}

/-! ## References to users -/

/-- The ids of users a stage has read or written. -/
def Stage.userIDs : Stage Raw → List Text
  | .login _ (.createSession user) set => user.tokenID :: (set.map SessionRow.userId).toList
  | .addCollaborator sess target _ => [target.tokenID, sess.userId]
  | p => (p.session?.map SessionRow.userId).toList

def Known (w : World) (p : Stage Raw) : Prop := ∀ id ∈ p.userIDs, w.db.users.table.has id = true

/-- The reference of the sessions table. -/
def Grounded (w : World) : Prop := ∀ sess ∈ w.sessions.rows, w.db.users.table.has sess.userId = true

theorem Known.of_none (hu : p.userIDs = []) : Known w p := fun id hid => by rw [hu] at hid; cases hid

theorem has_of_upsertUser {db db' : Db} {user : User} (h : db.upsertUser user = some db') (id : Text) :
    db'.users.table.has id = true ↔ user.tokenID = id ∨ db.users.table.has id = true := by
  simp only [Db.upsertUser] at h
  split at h
  · obtain rfl := Option.some.inj h
    exact Table.has_upsert
  · cases h

/-- No access deletes a user. -/
theorem has_exec {id : Text} (h : w.db.users.table.has id = true) :
    (p.exec json parse order w).2.db.users.table.has id = true := by
  rcases exec_users json parse order w p with hu | ⟨_, _, user, _, db', -, hup, hdb⟩
  · rw [hu]; exact h
  · rw [hdb]; exact (has_of_upsertUser hup id).mpr (Or.inr h)

theorem has_of_fetchUserByUsername {db : Db} {username : Text} {user : User}
    (h : db.fetchUserByUsername username = some user) : db.users.table.has user.tokenID = true := by
  obtain ⟨u, hu, rfl⟩ := Option.map_eq_some_iff.mp h
  exact Table.has_iff.mpr ⟨u, List.mem_of_find?_eq_some hu, rfl⟩

theorem Grounded.fetchSession (h : Grounded w) {cookie : Text} {sess : SessionRow}
    (hs : w.sessions.fetchSession w.now cookie = some sess) : w.db.users.table.has sess.userId = true :=
  h sess (Table.find?_eq_some.mp (Sessions.fetchSession_eq_some.mp hs).1).1

theorem Opened.userIDs {sess : SessionRow} (h : Opened sess p) : p.userIDs = [sess.userId] := by cases h <;> rfl

/-- A login goes on to its session only when it has written the user. -/
theorem has_of_createSession {db : Db} {stage : Login} {user : User} (h : (stage.exec parse order db).1 = .createSession user) :
    (stage.exec parse order db).2.users.table.has user.tokenID = true := by
  cases stage with
  | upsertUser existing user' =>
      rw [Login.exec] at h ⊢
      cases hup : db.upsertUser user' with
      | none => rw [hup] at h; cases h
      | some db' =>
          rw [hup] at h
          cases h
          exact (has_of_upsertUser hup _).mpr (Or.inl rfl)
  | fetchUser body claims =>
      rw [Login.exec] at h
      cases hf : db.fetchUser claims.uid with
      | some existing => rw [hf] at h; cases h
      | none =>
          rw [hf] at h
          dsimp only at h
          split at h
          · cases h
          · split at h <;> cases h
  | fetchUserByUsername body claims candidate =>
      rw [Login.exec] at h
      cases hf : db.fetchUserByUsername candidate with
      | some existing => rw [hf] at h; cases h
      | none =>
          rw [hf] at h
          dsimp only at h
          split at h <;> cases h
  | fetchChaptersByOwner user' =>
      rw [Login.exec] at h
      cases hf : db.fetchChaptersByOwner order user'.tokenID with
      | none => rw [hf] at h; cases h
      | some chapters => rw [hf] at h; cases h
  | createSession | answered => cases h

theorem mem_userIDs_login {minted : Option Text} {stage : Login} {set : Option SessionRow} {id : Text} :
    id ∈ (Stage.login minted stage set : Stage Raw).userIDs ↔
      (∃ user, stage = .createSession user ∧ user.tokenID = id) ∨ ∃ sess, set = some sess ∧ sess.userId = id := by
  have hset : id ∈ (set.map SessionRow.userId).toList ↔ ∃ sess, set = some sess ∧ sess.userId = id := by
    rw [Option.mem_toList, Option.map_eq_some_iff]
  cases stage with
  | createSession user => simp [Stage.userIDs, hset, eq_comm]
  | fetchUser | fetchUserByUsername | upsertUser | fetchChaptersByOwner | answered =>
      simp [Stage.userIDs, Stage.session?]

/-- The user of its session is among the users a stage knows. -/
theorem mem_userIDs_of_session {sess : SessionRow} (h : p.session? = some sess) : sess.userId ∈ p.userIDs := by
  cases p with
  | login minted stage set => exact mem_userIDs_login.mpr (Or.inr ⟨sess, h, rfl⟩)
  | addCollaborator sess' target permission =>
      obtain rfl := Option.some.inj h
      exact List.mem_cons_of_mem _ List.mem_cons_self
  | _ =>
      rw [Stage.userIDs, h]
      · exact List.mem_cons_self
      all_goals rintro _ _ _ ⟨⟩

/-- The users a stage knows after its access are those it knew and those it has read or written. -/
theorem userIDs_exec (hw : Grounded w) {id : Text} (hid : id ∈ (p.exec json parse order w).1.userIDs) :
    id ∈ p.userIDs ∨ (p.exec json parse order w).2.db.users.table.has id = true := by
  have hread : w.db.users.table.has id = true → (p.exec json parse order w).2.db.users.table.has id = true := has_exec
  have hnext : Next json parse order w p (p.exec json parse order w).1 := exec_next json parse order w p
  generalize hq : (p.exec json parse order w).1 = q at hid hnext
  cases hnext with
  | @login minted stage set =>
      rcases mem_userIDs_login.mp hid with ⟨user, hstage, rfl⟩ | hset
      · rcases @execLogin_cases Raw parse order w minted stage set with ⟨_, rfl⟩ | he
        · cases hstage
        · rw [Stage.exec, he]
          exact Or.inr (has_of_createSession hstage)
      · exact Or.inl (mem_userIDs_login.mpr (Or.inr hset))
  | refused => exact Or.inl (List.mem_cons_of_mem _ hid)
  | @signedIn minted user set sess made =>
      obtain ⟨_, _, he, hsess, -⟩ := signsIn_iff.mp made
      rw [List.mem_singleton.mp hid, hsess, ← Login.createSession.inj (Stage.login.inj he).2.1]
      exact Or.inl List.mem_cons_self
  | authenticated found opened =>
      rw [opened.userIDs, List.mem_singleton] at hid
      exact Or.inr (hread (hid ▸ hw.fetchSession found))
  | roomSession found => exact Or.inr (hread (List.mem_singleton.mp hid ▸ hw.fetchSession found))
  | add found =>
      rcases List.mem_cons.mp hid with rfl | hid
      · exact Or.inr (hread (has_of_fetchUserByUsername found))
      · exact Or.inl hid
  | ends plain =>
      obtain ⟨sess, hsess, rfl⟩ : ∃ sess, p.session? = some sess ∧ sess.userId = id := by
        simpa [Stage.userIDs, Stage.session?] using hid
      exact Or.inl (mem_userIDs_of_session hsess)
  | owner | mayView | mayEdit | creates | empty | chapters | moves | cards | remove | roomOwner | subscriber | joined | message
  | cleared | writes | written | idle => exact Or.inl hid

theorem Known.fail (hp : Known w p) : Known w p.fail := by
  cases p with
  | login minted stage set =>
      intro id hid
      rcases mem_userIDs_login.mp hid with ⟨user, hnext, -⟩ | hset
      · cases stage <;> cases hnext
      · exact hp id (mem_userIDs_login.mpr (Or.inr hset))
  | addCollaborator sess target permission => exact fun id hid => hp id (List.mem_cons_of_mem _ hid)
  | deleteSession | requireSession | checkUsername | fetchRoomOwner | fetchSession => exact .of_none rfl
  | elapse | answered | connected | writing | fetchOwner | fetchPermission | fetchChapters | loadMoves | loadCards
  | createChapter | fetchOutgoing | fetchIncoming | fetchTarget | removeCollaborator | fetchSubscriber | fetchRoomPermission =>
      exact hp

theorem Request.userIDs_start (req : Request Raw) : req.start.userIDs = [] := by
  have h : Began req req.start := req.began
  generalize req.start = p at h ⊢
  cases h with
  | @login req minted =>
      refine List.eq_nil_iff_forall_not_mem.mpr fun id hid => ?_
      rcases mem_userIDs_login.mp hid with ⟨user, hnext, -⟩ | ⟨sess, hset, -⟩
      · rcases login_start_cases req with ⟨resp, h⟩ | ⟨body, claims, h, -⟩ <;> rw [h] at hnext <;> cases hnext
      · cases hset
  | checkUsername | deleteSession | requireSession | fetchRoomOwner | elapse | refused => rfl

/-! ## What an access does to a session and to a grant -/

/-- The access a session is made by goes through, since its user is there. -/
theorem SignsIn.exec {sess : SessionRow} (hp : Known w p) (h : SignsIn sess w p) :
    (p.exec json parse order w).2 = { w with sessions := w.sessions.upsert sess } := by
  obtain ⟨user, set, rfl, he, hnone⟩ := signsIn_iff.mp h
  have hc : w.sessions.createSession w.db w.now sess.sessionId user.tokenID = some (sess, w.sessions.upsert sess) :=
    Sessions.createSession_eq_some.mpr ⟨hp _ (mem_userIDs_login.mpr (Or.inl ⟨user, rfl, rfl⟩)), he, hnone, rfl⟩
  rw [Stage.exec, execLogin, Option.bind_some, hc]

/-- A login makes one session. -/
theorem SignsIn.unique {sess sess' : SessionRow} (h : SignsIn sess w p) (h' : SignsIn sess' w p) : sess = sess' := by
  obtain ⟨user, set, rfl, he, -⟩ := signsIn_iff.mp h
  obtain ⟨user', set', hp, he', -⟩ := signsIn_iff.mp h'
  obtain ⟨hid, hstage, -⟩ := Stage.login.inj hp
  rw [he, he', Option.some.inj hid, Login.createSession.inj hstage]

theorem signsOut_iff {id : Text} : SignsOut id w p ↔ p = .deleteSession id := by
  cases p with
  | deleteSession cookie => exact ⟨congrArg _, Stage.deleteSession.inj⟩
  | _ => exact ⟨False.elim, nofun⟩

/-- Only logins and logouts touch the sessions. -/
theorem sessions_exec (hin : ∀ sess, ¬ SignsIn sess w p) (hout : ∀ id, ¬ SignsOut id w p) :
    (p.exec json parse order w).2.sessions = w.sessions := by
  rcases exec_writes json parse order w p with h | h
  · rw [h]
  · generalize (p.exec json parse order w).2 = w' at h ⊢
    cases h with
    | deleteSession => exact absurd rfl (hout _)
    | createSession write =>
        obtain ⟨-, he, hnone, -⟩ := Sessions.createSession_eq_some.mp write
        subst he
        exact absurd (signsIn_iff.mpr ⟨_, _, rfl, rfl, hnone⟩) (hin ⟨_, _, w.now, w.now + sessionLifetime⟩)
    | upsertUser | createChapter | addCollaborator | removeCollaborator | writing | elapse => rfl

theorem find?_session_exec (hp : Known w p) (sess : SessionRow) :
    (p.exec json parse order w).2.sessions.find? sess.sessionId = some sess ↔
      SignsIn sess w p ∨ w.sessions.find? sess.sessionId = some sess ∧ ¬ SignsOut sess.sessionId w p := by
  by_cases hout : ∃ id, SignsOut id w p
  · obtain ⟨id, hout⟩ := hout
    obtain rfl := signsOut_iff.mp hout
    change (w.sessions.deleteSession id).find? sess.sessionId = some sess ↔ False ∨ _ ∧ ¬ id = sess.sessionId
    rw [Sessions.find?_deleteSession, false_or]
    split <;> simp [*]
  by_cases hin : ∃ sess', SignsIn sess' w p
  · obtain ⟨sess', hin⟩ := hin
    obtain ⟨-, -, -, -, hnone⟩ := signsIn_iff.mp hin
    rw [hin.exec hp, Table.find?_upsert, and_iff_left fun h => hout ⟨_, h⟩]
    by_cases hk : sess'.sessionId = sess.sessionId
    · rw [if_pos hk, ← hk, hnone]
      constructor
      · rintro ⟨⟩
        exact Or.inl hin
      · rintro (h | h)
        · rw [hin.unique h]
        · cases h
    · rw [if_neg hk]
      exact ⟨Or.inr, fun h => h.resolve_left fun h => hk (by rw [hin.unique h])⟩
  · rw [sessions_exec (not_exists.mp hin) (not_exists.mp hout), or_iff_right fun h => hin ⟨_, h⟩,
      and_iff_left fun h => hout ⟨_, h⟩]

theorem Grounded.exec (hw : Grounded w) (hp : Known w p) : Grounded (p.exec json parse order w).2 := by
  intro sess hsess
  have hfind := (find?_session_exec hp sess).mp (Table.find?_eq_some.mpr ⟨hsess, rfl⟩)
  refine has_exec ?_
  rcases hfind with h | ⟨h, -⟩
  · obtain ⟨user, set, rfl, he, -⟩ := signsIn_iff.mp h
    rw [he]
    exact hp _ (mem_userIDs_login.mpr (Or.inl ⟨user, rfl, rfl⟩))
  · exact hw sess (Table.find?_eq_some.mp h).1

/-! ## Grants -/

theorem gives_iff {ownerID userID : Text} {permission : Grant} : Gives ownerID userID permission w p ↔
    ∃ sess target, p = .addCollaborator sess target permission ∧ sess.userId = ownerID ∧ target.tokenID = userID := by
  constructor
  · intro h
    cases p with
    | addCollaborator sess target perm =>
        obtain ⟨ho, hu, rfl⟩ := h
        exact ⟨sess, target, rfl, ho, hu⟩
    | _ => exact absurd h id
  · rintro ⟨sess, target, rfl, ho, hu⟩
    exact ⟨ho, hu, rfl⟩

/-- Only the two handlers of a collaborator touch the grants. -/
theorem collaborators_exec (hadd : ∀ sess target permission, p ≠ .addCollaborator sess target permission)
    (hrem : ∀ sess target, p ≠ .removeCollaborator sess target) :
    (p.exec json parse order w).2.db.collaborators = w.db.collaborators := by
  rcases exec_writes json parse order w p with h | h
  · rw [h]
  · generalize (p.exec json parse order w).2 = w' at h ⊢
    cases h with
    | addCollaborator => exact absurd rfl (hadd _ _ _)
    | removeCollaborator => exact absurd rfl (hrem _ _)
    | upsertUser write =>
        simp only [Db.upsertUser] at write
        split at write
        · obtain rfl := Option.some.inj write
          rfl
        · cases write
    | createChapter write =>
        obtain ⟨t, -, -, rfl⟩ := insertChapter_ok write
        rfl
    | @writing _ _ _ _ stmt => exact (stmt.changes w.db).collaborators
    | createSession | deleteSession | elapse => rfl

theorem find?_grant_exec (hp : Known w p) (ownerID userID : Text) (permission : Grant) :
    (p.exec json parse order w).2.db.collaborators.find? (ownerID, userID) = some ⟨ownerID, userID, permission⟩ ↔
      Gives ownerID userID permission w p ∨
        w.db.collaborators.find? (ownerID, userID) = some ⟨ownerID, userID, permission⟩ ∧ ¬ Decides ownerID userID w p := by
  cases p with
  | addCollaborator sess target perm =>
      have hknown : w.db.users.table.has sess.userId = true ∧ w.db.users.table.has target.tokenID = true :=
        ⟨hp _ (List.mem_cons_of_mem _ List.mem_cons_self), hp _ List.mem_cons_self⟩
      obtain ⟨db, hadd⟩ : ∃ db, w.db.addCollaborator sess.userId target.tokenID perm = some db :=
        ⟨_, if_pos (Bool.and_eq_true_iff.mpr hknown)⟩
      rw [Stage.exec, hadd]
      change db.collaborators.find? _ = _ ↔ (sess.userId = ownerID ∧ target.tokenID = userID ∧ perm = permission) ∨
        _ ∧ ¬ (sess.userId = ownerID ∧ target.tokenID = userID)
      rw [Db.find?_addCollaborator hadd]
      by_cases hk : sess.userId = ownerID ∧ target.tokenID = userID
      · obtain ⟨rfl, rfl⟩ := hk
        simp
      · rw [if_neg fun h => hk (Prod.mk.inj h), and_iff_left hk, or_iff_right fun h => hk ⟨h.1, h.2.1⟩]
  | removeCollaborator sess target =>
      change (w.db.removeCollaborator sess.userId target.tokenID).collaborators.find? _ = _ ↔
        False ∨ _ ∧ ¬ (sess.userId = ownerID ∧ target.tokenID = userID)
      rw [Db.find?_removeCollaborator, false_or]
      by_cases hk : sess.userId = ownerID ∧ target.tokenID = userID
      · obtain ⟨rfl, rfl⟩ := hk
        simp
      · rw [if_neg fun h => hk (Prod.mk.inj h), and_iff_left hk]
  | _ =>
      rw [collaborators_exec (by rintro _ _ _ ⟨⟩) (by rintro _ _ ⟨⟩)]
      exact ⟨fun h => Or.inr ⟨h, id⟩, fun h => (h.resolve_left id).1⟩

end Chessrepeat.Site
