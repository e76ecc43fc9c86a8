import Chessrepeat.Site.Lemmas.Sessions

/-!
# What a request that has got somewhere has met on its way
-/

namespace Chessrepeat.Site

open Lib Domain Store Api Ws

variable {Raw : Type} {json : Codec Raw} {parse : Text → Option Url} {order : PathOrder} {now : Int} {w : World}
  {p q : Stage Raw} {ts : List (Turn (Request Raw))} {sess : SessionRow} {ownerID userID : Text} {permission : Grant}

/-! ## The tables and the history -/

theorem stable_known : (requests json parse order).Stable (fun w _ => Grounded w) (@Known Raw) where
  start _ req := .of_none req.userIDs_start
  exec _ _ hp hw := fun id hid => (userIDs_exec hw hid).elim (fun h => has_exec (hp id h)) fun h => h
  others _ _ _ _ _ hq := fun id hid => has_exec (hq id hid)
  fail _ _ hp := hp.fail

def Consistent (f : Flight World (Stage Raw)) : Prop := Grounded f.shared ∧ Protocol.Asserts Known f

theorem Consistent.step {f : Flight World (Stage Raw)} (hf : Consistent f) (t : Turn (Request Raw)) :
    Consistent ((requests json parse order).step f t) :=
  stable_known.inv_step (fun _ _ hw hp => hw.exec hp) f t hf

theorem Consistent.fresh (now : Int) : Consistent (⟨World.fresh now, []⟩ : Flight World (Stage Raw)) :=
  ⟨fun _ h => (by cases h), Protocol.asserts_nil _⟩

theorem find?_session_iff : (after json parse order now ts).shared.sessions.find? sess.sessionId = some sess ↔
    Since (Did json parse order now (SignsIn sess)) (fun us => ¬ Did json parse order now (SignsOut sess.sessionId) us) ts :=
  iff_since_of_inv (I := Consistent) (R := fun f => f.shared.sessions.find? sess.sessionId = some sess)
    (fun _ t hf => hf.step t)
    (fun f t hf => Protocol.shared_turn (fun w => w.sessions.find? sess.sessionId = some sess) f t fun r hr =>
      find?_session_exec (hf.2 r hr) sess) (.fresh now)
    (fun h => by cases h) ts

theorem find?_grant_iff :
    (after json parse order now ts).shared.db.collaborators.find? (ownerID, userID) = some ⟨ownerID, userID, permission⟩ ↔
      Granted json parse order now ownerID userID permission ts :=
  iff_since_of_inv (I := Consistent)
    (R := fun f => f.shared.db.collaborators.find? (ownerID, userID) = some ⟨ownerID, userID, permission⟩)
    (fun _ t hf => hf.step t)
    (fun f t hf => Protocol.shared_turn
      (fun w => w.db.collaborators.find? (ownerID, userID) = some ⟨ownerID, userID, permission⟩) f t fun r hr =>
        find?_grant_exec (hf.2 r hr) ownerID userID permission) (.fresh now) (fun h => by cases h) ts

theorem fetchSession_iff {cookie : Text} :
    (after json parse order now ts).shared.sessions.fetchSession (after json parse order now ts).shared.now cookie = some sess ↔
      sess.sessionId = cookie ∧ Live json parse order now sess ts := by
  rw [Sessions.fetchSession_eq_some, Live, ← find?_session_iff, ← and_assoc]
  refine and_congr_left fun _ => ?_
  constructor
  · intro h
    obtain rfl := (Table.find?_eq_some.mp h).2
    exact ⟨rfl, h⟩
  · rintro ⟨rfl, h⟩
    exact h

/-- The row of a grant is the grant. -/
theorem collaborator_of_find? {db : Db} {r : CollaboratorRow} (h : db.collaborators.find? (ownerID, userID) = some r) :
    r = ⟨ownerID, userID, r.permission⟩ := by
  obtain ⟨ho, hu⟩ := Prod.mk.inj (Table.find?_eq_some.mp h).2
  rw [← ho, ← hu]

theorem isSome_permission_iff :
    ((after json parse order now ts).shared.db.effectivePermissionOnRepertoire ownerID userID).isSome = true ↔
      MayView json parse order now ownerID userID ts := by
  unfold Db.effectivePermissionOnRepertoire MayView
  by_cases ho : ownerID = userID
  · simp [ho]
  · rw [if_neg ho, or_iff_right ho, Option.isSome_map, Option.isSome_iff_exists]
    simp only [← find?_grant_iff]
    constructor
    · rintro ⟨r, hr⟩
      exact ⟨r.permission, by rw [hr, ← collaborator_of_find? hr]⟩
    · rintro ⟨permission, h⟩
      exact ⟨_, h⟩

theorem canEdit_permission_iff :
    canEdit ((after json parse order now ts).shared.db.effectivePermissionOnRepertoire ownerID userID) = true ↔
      MayEdit json parse order now ownerID userID ts := by
  rw [Db.canEdit_iff, MayEdit, ← find?_grant_iff]
  refine or_congr_right ⟨?_, fun h => ⟨_, h, rfl⟩⟩
  rintro ⟨r, hr, he⟩
  rw [hr, collaborator_of_find? hr, he]

/-! ## Identity tokens -/

/-- The user whose token a login has come with. -/
def Stage.claimed? : Stage Raw → Option Text
  | .login _ (.fetchUser _ claims) _ | .login _ (.fetchUserByUsername _ claims _) _ => some claims.uid
  | .login _ (.upsertUser _ user) _ | .login _ (.createSession user) _ | .login _ (.fetchChaptersByOwner user) _ =>
      some user.tokenID
  | _ => none

theorem claimed?_login {db : Db} {minted : Option Text} {stage : Login} {set : Option SessionRow} {uid : Text}
    (h : (Stage.login minted (stage.exec parse order db).1 set : Stage Raw).claimed? = some uid) :
    (Stage.login minted stage set : Stage Raw).claimed? = some uid := by
  cases stage with
  | fetchUser body claims =>
      rw [Login.exec] at h
      cases hf : db.fetchUser claims.uid with
      | some existing => rw [hf] at h; exact h
      | none =>
          rw [hf] at h
          dsimp only at h
          split at h
          · cases h
          · split at h
            · cases h
            · exact h
  | fetchUserByUsername body claims candidate =>
      rw [Login.exec] at h
      cases hf : db.fetchUserByUsername candidate with
      | some existing => rw [hf] at h; cases h
      | none =>
          rw [hf] at h
          dsimp only at h
          split at h
          · cases h
          · exact h
  | upsertUser existing user =>
      rw [Login.exec] at h
      cases hf : db.upsertUser user with
      | none => rw [hf] at h; cases h
      | some db' => rw [hf] at h; exact h
  | fetchChaptersByOwner user =>
      rw [Login.exec] at h
      cases hf : db.fetchChaptersByOwner order user.tokenID with
      | none => rw [hf] at h; cases h
      | some chapters => rw [hf] at h; cases h
  | createSession | answered => exact h

theorem Next.claimed? {uid : Text} (h : Next json parse order w p q) (hq : q.claimed? = some uid) : p.claimed? = some uid := by
  cases h with
  | login => exact claimed?_login hq
  | signedIn => exact hq
  | authenticated _ opened => cases opened <;> cases hq
  | _ => cases hq

theorem Verified.later {uid : Text} {us : List (Turn (Request Raw))} (h : Verified uid ts) (hsub : ts <+: us) :
    Verified uid us := by
  obtain ⟨req, minted, claims, hmem, hreq, huid⟩ := h
  exact ⟨req, minted, claims, hsub.subset hmem, hreq, huid⟩

theorem Request.verified {req : Request Raw} {uid : Text} (h : req.start.claimed? = some uid) :
    Verified uid (ts ++ [.call req]) := by
  have hbegan : Began req req.start := req.began
  generalize req.start = p at h hbegan
  cases hbegan with
  | @login req minted =>
      rcases login_start_cases req with ⟨resp, hstart⟩ | ⟨body, claims, hstart, hreq⟩
      · rw [hstart] at h
        cases h
      · rw [hstart] at h
        exact ⟨req, minted, claims, List.mem_append_right ts List.mem_cons_self, hreq, Option.some.inj h⟩
  | checkUsername | deleteSession | requireSession | fetchRoomOwner | elapse | refused => cases h

theorem Stage.claimed?_fail {uid : Text} (h : p.fail.claimed? = some uid) : p.claimed? = some uid := by
  cases p with
  | login minted stage set => cases stage <;> cases h
  | _ => cases h

/-- A login that has not failed has come with a verified token. -/
theorem verified_of_claimed (ts : List (Turn (Request Raw))) : ∀ p ∈ (after json parse order now ts).procs,
    ∀ uid, p.claimed? = some uid → Verified uid ts := by
  have h : (requests json parse order).Remembers ⟨World.fresh now, []⟩ fun _ ts p =>
      ∀ uid, p.claimed? = some uid → Verified uid ts :=
    { start := fun _ _ _ _ h => Request.verified h
      later := fun ts t _ _ _ hp uid h => (hp uid h).later (List.prefix_append ts [t])
      exec := fun ts i p _ hp uid h => (hp uid ((exec_next json parse order _ p).claimed? h)).later (List.prefix_append ts [.exec i])
      fail := fun _ _ _ hp uid h => hp uid (Stage.claimed?_fail h) }
  intro p hp
  obtain ⟨i, hi⟩ := List.mem_iff_getElem?.mp hp
  exact h.holds rfl ts i p hi

theorem Live.verified (h : Live json parse order now sess ts) : Verified sess.userId ts := by
  obtain ⟨us, hus, vs, t, rfl, hdoes⟩ := h.1.once
  cases t with
  | call | fail => exact absurd hdoes id
  | exec i =>
      obtain ⟨p, hp, hin⟩ := hdoes
      obtain ⟨user, set, rfl, he, -⟩ := signsIn_iff.mp hin
      have hclaimed := verified_of_claimed vs _ (List.mem_of_getElem? (Option.mem_def.mp hp)) user.tokenID rfl
      rw [he]
      exact hclaimed.later ((List.prefix_append vs _).trans hus)

/-! ## Gates -/

theorem after_exec {i : Nat} (h : (after json parse order now ts).procs[i]? = some p) :
    (after json parse order now (ts ++ [.exec i])).shared = (p.exec json parse order (after json parse order now ts).shared).2 := by
  rw [after, run_append_singleton]
  change (Protocol.step _ (after json parse order now ts) _).shared = _
  simp only [Protocol.step, h]
  rfl

theorem consistent_after (ts : List (Turn (Request Raw))) : Consistent (after json parse order now ts) := by
  have h : Always (requests json parse order).step Consistent ⟨World.fresh now, []⟩ ts :=
    always_of_step (fun _ t hf => hf.step t) (.fresh now) ts
  exact h.last

/-- From the access that makes it a session is in force. -/
theorem SignsIn.live {i : Nat} (hi : (after json parse order now ts).procs[i]? = some p)
    (h : SignsIn sess (after json parse order now ts).shared p) : Live json parse order now sess (ts ++ [.exec i]) := by
  have hknown : Known (after json parse order now ts).shared p := (consistent_after ts).2 p (List.mem_of_getElem? hi)
  refine ⟨since_concat.mpr (Or.inl (just_concat.mpr ⟨p, hi, h⟩)), ?_⟩
  rw [after_exec hi, h.exec hknown]
  obtain ⟨user, set, -, he, -⟩ := signsIn_iff.mp h
  rw [he]
  exact Int.le_add_of_nonneg_right (by decide)

theorem Next.session? (h : Next json parse order w p q) (hq : q.session? = some sess) : p.session? = some sess ∨
    (∃ cookie, w.sessions.fetchSession w.now cookie = some sess) ∨ SignsIn sess w p := by
  cases h with
  | signedIn made =>
      obtain rfl := Option.some.inj hq
      exact Or.inr (Or.inr made)
  | authenticated found opened =>
      obtain rfl : _ = sess := by cases opened <;> exact Option.some.inj hq
      exact Or.inr (Or.inl ⟨_, found⟩)
  | roomSession found =>
      obtain rfl := Option.some.inj hq
      exact Or.inr (Or.inl ⟨_, found⟩)
  | roomOwner => cases hq
  | login | refused | owner | mayView | mayEdit | creates | empty | chapters | moves | cards | add | remove | subscriber | joined
  | message | cleared | writes | written | ends | idle => exact Or.inl hq

theorem Request.session?_start (req : Request Raw) : req.start.session? = none := by
  have h : Began req req.start := req.began
  generalize req.start = p at h ⊢
  cases h <;> rfl

theorem Stage.session?_fail : p.fail.session? = p.session? := by cases p <;> rfl

/-- Nothing is done for a session that was not in force at some moment before. -/
theorem live_of_session (ts : List (Turn (Request Raw))) : ∀ p ∈ (after json parse order now ts).procs,
    ∀ sess, p.session? = some sess → Once (Live json parse order now sess) ts := by
  have h : (requests json parse order).Remembers ⟨World.fresh now, []⟩ fun _ ts p =>
      ∀ sess, p.session? = some sess → Once (Live json parse order now sess) ts :=
    { start := fun _ req _ sess h => by
        rw [requests, Request.session?_start] at h
        cases h
      later := fun _ _ _ _ _ hp sess h => (hp sess h).concat
      exec := fun ts i p hi hp sess h => by
        rcases (exec_next json parse order _ p).session? h with h | ⟨cookie, h⟩ | h
        · exact (hp sess h).concat
        · exact (Once.now (fetchSession_iff.mp h).2).concat
        · exact Once.now (SignsIn.live hi h)
      fail := fun _ _ _ hp sess h => hp sess (Stage.session?_fail ▸ h) }
  intro p hp
  obtain ⟨i, hi⟩ := List.mem_iff_getElem?.mp hp
  exact h.holds rfl ts i p hi

section Gated

variable (json : Codec Raw) (parse : Text → Option Url) (order : PathOrder) (now : Int)

/-- A subscriber goes by the user of his session. -/
def Joined (sess : SessionRow) (sub : Session) (ts : List (Turn (Request Raw))) : Prop :=
  sub.userID = sess.userId ∧ Once (fun us =>
    ∃ user, (after json parse order now us).shared.db.fetchUser sess.userId = some user ∧ user.username = sub.username) ts

/-- What the stages behind a gate have met, at the place `i`. -/
def Gated (i : Nat) (ts : List (Turn (Request Raw))) : Stage Raw → Prop
  | .fetchChapters sess owner => AdmittedToView json parse order now sess owner.tokenID ts
  | .loadMoves sess owner rows => ∃ us, us <+: ts ∧ AdmittedToView json parse order now sess owner.tokenID us ∧
      (after json parse order now us).shared.db.chaptersByOwner owner.tokenID = rows
  | .loadCards sess owner read => ∃ us vs, us <+: vs ∧ vs <+: ts ∧ AdmittedToView json parse order now sess owner.tokenID us ∧
      (after json parse order now vs).shared.db.withMoves
        ((after json parse order now us).shared.db.chaptersByOwner owner.tokenID) = read
  | .answered s (.repertoire owner chapters) =>
      ∃ sess, s = some sess ∧ ∃ rows moves cards, Shown json parse order now sess owner.tokenID chapters rows moves cards ts
  | .createChapter sess owner event _ =>
      event.ownerID = owner.tokenID ∧ AdmittedToEdit json parse order now sess owner.tokenID ts
  | .fetchRoomPermission sess _ user _ => Once (fun us =>
      (after json parse order now us).shared.db.fetchUser sess.userId = some user) ts
  | .addCollaborator sess target _ => target.tokenID ≠ sess.userId
  | .connected sess _ sub _ => Joined json parse order now sess sub ts
  | .writing sess _ sub _ stmt => Joined json parse order now sess sub ts ∧ ∃ chapterID,
      stmt.Edits chapterID ∧ Cleared json parse order now (MayEdit json parse order now) i sess chapterID ts ∨
      stmt.Trains chapterID sub.username ∧ Cleared json parse order now (MayView json parse order now) i sess chapterID ts
  | _ => True

end Gated

theorem Joined.later {sub : Session} (t : Turn (Request Raw)) (h : Joined json parse order now sess sub ts) :
    Joined json parse order now sess sub (ts ++ [t]) := ⟨h.1, h.2.concat⟩

theorem Cleared.later {may : Text → Text → List (Turn (Request Raw)) → Prop} {i : Nat} {chapterID : Text}
    {t : Turn (Request Raw)} (h : Cleared json parse order now may i sess chapterID ts)
    (hi : Working json parse order now i (ts ++ [t])) : Cleared json parse order now may i sess chapterID (ts ++ [t]) :=
  since_concat.mpr (Or.inr ⟨h, hi⟩)

theorem Gated.later {i : Nat} {t : Turn (Request Raw)} (hi : (after json parse order now (ts ++ [t])).procs[i]? = some p)
    (h : Gated json parse order now i ts p) : Gated json parse order now i (ts ++ [t]) p := by
  cases p with
  | fetchChapters => exact Once.concat h
  | loadMoves sess owner rows =>
      obtain ⟨us, hus, h⟩ := h
      exact ⟨us, hus.trans (List.prefix_append ts [t]), h⟩
  | loadCards sess owner read =>
      obtain ⟨us, vs, hus, hvs, h⟩ := h
      exact ⟨us, vs, hus, hvs.trans (List.prefix_append ts [t]), h⟩
  | answered s reply =>
      cases reply with
      | repertoire owner chapters =>
          obtain ⟨sess, hs, rows, moves, cards, h⟩ := h
          exact ⟨sess, hs, rows, moves, cards, { h with before := h.before.trans (List.prefix_append ts [t]) }⟩
      | _ => trivial
  | createChapter => exact ⟨h.1, h.2.concat⟩
  | fetchRoomPermission => exact Once.concat h
  | addCollaborator => exact h
  | connected => exact Joined.later t h
  | writing sess owner sub msgs stmt =>
      have hwork : Working json parse order now i (ts ++ [t]) := ⟨sess, owner, sub, msgs, stmt, hi⟩
      obtain ⟨hjoined, chapterID, ⟨hedits, hcleared⟩ | ⟨htrains, hcleared⟩⟩ := h
      · exact ⟨hjoined.later t, chapterID, Or.inl ⟨hedits, hcleared.later hwork⟩⟩
      · exact ⟨hjoined.later t, chapterID, Or.inr ⟨htrains, hcleared.later hwork⟩⟩
  | _ => trivial

/-- Who has passed the gate of a message is cleared for its statements. -/
theorem Joined.cleared {i : Nat} {owner : User} {sub : Session} {raw : Raw} {msgs : List Raw} {m : Branch}
    (hi : (after json parse order now ts).procs[i]? = some (.connected sess owner sub (raw :: msgs)))
    (h : Joined json parse order now sess sub ts) (hlive : Once (Live json parse order now sess) ts)
    (decoded : mutation json sub raw = some m)
    (gate : authorizeChapter Faults.none (after json parse order now ts).shared.db sub m.chapterID m.requireEdit = true) :
    Gated json parse order now i ts (.writing sess owner sub msgs m.start) := by
  have htakes : Takes json parse order now i sess m.chapterID ts := ⟨owner, sub, raw, msgs, m, hi, decoded, rfl⟩
  obtain ⟨c, hc, hview, hedit⟩ := authorizeChapter_spec gate
  rw [h.1] at hview hedit
  refine ⟨h, m.chapterID, ?_⟩
  rcases mutation_gated decoded with ⟨hreq, hedits⟩ | htrains
  · exact Or.inl ⟨hedits, .now ⟨htakes, hlive, c, hc, canEdit_permission_iff.mp (hedit hreq)⟩⟩
  · exact Or.inr ⟨htrains, .now ⟨htakes, hlive, c, hc, isSome_permission_iff.mp hview⟩⟩

theorem Gated.exec {i : Nat} (hi : (after json parse order now ts).procs[i]? = some p) (h : Gated json parse order now i ts p)
    (hlive : ∀ sess, p.session? = some sess → Once (Live json parse order now sess) ts) :
    Gated json parse order now i ts (p.exec json parse order (after json parse order now ts).shared).1 := by
  have hnext := exec_next json parse order (after json parse order now ts).shared p
  generalize (p.exec json parse order (after json parse order now ts).shared).1 = q at hnext ⊢
  cases hnext with
  | authenticated _ opened => cases opened <;> trivial
  | mayView perm => exact Once.now ⟨hlive _ rfl, isSome_permission_iff.mp perm⟩
  | mayEdit perm => exact ⟨rfl, Once.now ⟨hlive _ rfl, canEdit_permission_iff.mp perm⟩⟩
  | creates => exact h
  | empty none => exact ⟨_, rfl, ts, ts, ts, h, List.prefix_rfl, List.prefix_rfl, List.prefix_rfl, by rw [none]; rfl⟩
  | chapters => exact ⟨ts, List.prefix_rfl, h, rfl⟩
  | moves =>
      obtain ⟨us, hus, hadmitted, rfl⟩ := h
      exact ⟨us, ts, hus, List.prefix_rfl, hadmitted, rfl⟩
  | cards found =>
      obtain ⟨us, vs, hus, hvs, hadmitted, rfl⟩ := h
      exact ⟨_, rfl, us, vs, ts, hadmitted, hus, hvs, List.prefix_rfl, found⟩
  | subscriber found => exact Once.now found
  | joined found => exact ⟨rfl, h.mono fun _ hus => ⟨_, hus, rfl⟩⟩
  | add _ other => exact other
  | message => exact h
  | cleared decoded gate => exact Joined.cleared hi h (hlive _ rfl) decoded gate
  | writes =>
      obtain ⟨hjoined, chapterID, ⟨hedits, hcleared⟩ | ⟨htrains, hcleared⟩⟩ := h
      · exact ⟨hjoined, chapterID, Or.inl ⟨hedits.exec _, hcleared⟩⟩
      · exact ⟨hjoined, chapterID, Or.inr ⟨htrains.exec _, hcleared⟩⟩
  | written => exact h.1
  | @ends _ reply plain =>
      cases reply with
      | repertoire => exact absurd plain id
      | _ => trivial
  | idle => exact h
  | login | refused | signedIn | owner | remove | roomOwner | roomSession => trivial

theorem Gated.fail {i : Nat} (h : Gated json parse order now i ts p) : Gated json parse order now i ts p.fail := by
  cases p with
  | connected | answered => exact h
  | writing => exact h.1
  | _ => trivial

theorem Request.gated {i : Nat} (req : Request Raw) : Gated json parse order now i ts req.start := by
  have h : Began req req.start := req.began
  generalize req.start = p at h ⊢
  cases h with
  | @refused _ reply plain =>
      cases reply with
      | repertoire => exact absurd plain id
      | _ => trivial
  | _ => trivial

variable (json parse) in
theorem gated_after (ts : List (Turn (Request Raw))) (i : Nat) (p : Stage Raw)
    (hi : (after json parse order now ts).procs[i]? = some p) : Gated json parse order now i ts p := by
  have h : (requests json parse order).Remembers ⟨World.fresh now, []⟩ (Gated json parse order now) :=
    { start := fun _ req _ => req.gated
      later := fun _ _ _ _ hi hp => hp.later hi
      exec := fun ts i p hi hp => by
        refine (hp.exec hi (live_of_session ts p (List.mem_of_getElem? hi))).later ?_
        rw [after, run_append_singleton]
        exact Protocol.getElem?_exec hi
      fail := fun _ _ _ hp => hp.fail }
  exact h.holds rfl ts i p hi

/-- Nobody is granted anything on his own repertoire. -/
theorem Granted.ne (h : Granted json parse order now ownerID userID permission ts) : ownerID ≠ userID := by
  obtain ⟨us, -, vs, t, rfl, hdoes⟩ := h.once
  cases t with
  | call | fail => exact absurd hdoes id
  | exec i =>
      obtain ⟨p, hp, hgives⟩ := hdoes
      obtain ⟨sess, target, rfl, rfl, rfl⟩ := gives_iff.mp hgives
      have hgated := gated_after json parse vs i _ (Option.mem_def.mp hp)
      exact Ne.symm hgated

variable (json parse) in
/-- What a turn does to the database is what the process that makes an access does to it. -/
theorem db_turn (t : Turn (Request Raw)) : (after json parse order now (ts ++ [t])).shared = (after json parse order now ts).shared ∨
    ∃ i p, t = .exec i ∧ (after json parse order now ts).procs[i]? = some p ∧
      (after json parse order now (ts ++ [t])).shared = (p.exec json parse order (after json parse order now ts).shared).2 := by
  cases t with
  | call | fail =>
      rw [after, run_append_singleton]
      exact Or.inl rfl
  | exec i =>
      cases hi : (after json parse order now ts).procs[i]? with
      | some p => exact Or.inr ⟨i, p, rfl, hi, after_exec hi⟩
      | none =>
          left
          rw [after, run_append_singleton]
          change (Protocol.step _ (after json parse order now ts) _).shared = _
          simp only [Protocol.step, hi]

/-- A chapter is created in the repertoire of the gate. -/
theorem createChapter_edits {i : Nat} {owner : User} {event : ChapterEvent} {moves : PathMap}
    (hi : (after json parse order now ts).procs[i]? = some (.createChapter sess owner event (.commit moves)))
    (hcreate : (after json parse order now ts).shared.db.insertChapter event moves =
      .ok (after json parse order now (ts ++ [.exec i])).shared.db) :
    EditedBy json parse order now ts (.exec i) event.chapterID := by
  obtain ⟨howner, hadmitted⟩ := gated_after json parse ts i _ hi
  obtain ⟨t, hnone, -, hdb⟩ := insertChapter_ok hcreate
  refine ⟨i, _, sess, rfl, hi, rfl, Or.inr ⟨⟨event.chapterID, event.ownerID, event.name, event.trainAs⟩, hnone, ?_, ?_⟩⟩
  · rw [hdb]
    exact Table.find?_upsert.trans (if_pos rfl)
  · rw [howner]
    exact hadmitted

variable (json parse) in
/-- What a turn changes of the chapters it is cleared to change. -/
theorem changes_turn (t : Turn (Request Raw)) : Changes (EditedBy json parse order now ts t) (TrainedBy json parse order now ts t)
    (after json parse order now ts).shared.db (after json parse order now (ts ++ [t])).shared.db ∨
    SameChapters (after json parse order now ts).shared.db (after json parse order now (ts ++ [t])).shared.db := by
  rcases db_turn json parse t with h | ⟨i, p, rfl, hi, h⟩
  · rw [h]
    exact Or.inr ⟨rfl, rfl, rfl⟩
  rcases exec_chapters json parse order (after json parse order now ts).shared p with
    hsame | ⟨sess, owner, event, moves, rfl, hcreate⟩ | ⟨sess, owner, sub, msgs, stmt, rfl, hwrite⟩
  · rw [← h] at hsame
    exact Or.inr hsame
  · rw [← h] at hcreate
    exact Or.inl (.insertChapter (createChapter_edits hi hcreate) hcreate)
  · rw [← h] at hwrite
    rw [hwrite]
    obtain ⟨hjoined, chapterID, ⟨hedits, hcleared⟩ | ⟨htrains, hcleared⟩⟩ := gated_after json parse ts i _ hi
    · exact Or.inl (hedits.changes ⟨i, _, sess, rfl, hi, rfl, Or.inl hcleared⟩ _)
    · exact Or.inl (htrains.changes ⟨i, _, sess, rfl, hi, rfl, hcleared, hjoined.2⟩ _)

end Chessrepeat.Site
