import Chessrepeat.Components.LoginModal

/-!
# Signing up

A check that is not aborted was started for the name that stands in the field, so a name that is found available is the
one that is sent; and a name that the dialog accepts is accepted by the server as it is.
-/

namespace Chessrepeat.Components

open Lib Client Hooks

/-! ## Both ends accept the same names -/

theorem usernameUnit_spec : ∀ n < 128, usernameUnit (UInt16.ofNat n) = true →
    Utf16.isSurrogate (UInt16.ofNat n) = false ∧ Api.usernameChar (Char.ofNat n) = true ∧
      lowerRune (Char.ofNat n) = Char.ofNat n ∧ isSpace (Char.ofNat n) = false := by
  decide

theorem usernameUnit_toChar {u : UInt16} (h : usernameUnit u = true) :
    Utf16.isSurrogate u = false ∧ Api.usernameChar (Char.ofNat u.toNat) = true ∧
      lowerRune (Char.ofNat u.toNat) = Char.ofNat u.toNat ∧ isSpace (Char.ofNat u.toNat) = false := by
  have hlt : u.toNat < 128 := by
    simp only [usernameUnit, Bool.or_eq_true, Bool.and_eq_true, decide_eq_true_eq, UInt16.le_iff_toNat_le] at h
    rcases h with (h | h) | rfl
    · exact Nat.lt_of_le_of_lt h.2 (by decide)
    · exact Nat.lt_of_le_of_lt h.2 (by decide)
    · decide
  have hspec := usernameUnit_spec u.toNat hlt
  rw [UInt16.ofNat_toNat] at hspec
  exact hspec h

theorem isValidUsername_of_usernameRe {s : JsString} (h : usernameRe s = true) :
    Api.isValidUsername (Utf16.decode s) = true ∧ toLower (trimSpace (Utf16.decode s)) = Utf16.decode s := by
  simp only [usernameRe, Bool.and_eq_true, decide_eq_true_eq, List.all_eq_true] at h
  obtain ⟨⟨hmin, hmax⟩, hunits⟩ := h
  have hplain : Utf16.Plain s := fun u hu => (usernameUnit_toChar (hunits u hu)).1
  have hchars : ∀ c ∈ Utf16.decode s, Api.usernameChar c = true ∧ lowerRune c = c ∧ isSpace c = false := by
    intro c hc
    rw [hplain.decode_eq] at hc
    obtain ⟨u, hu, rfl⟩ := List.mem_map.mp hc
    exact (usernameUnit_toChar (hunits u hu)).2
  have htrim : trimSpace (Utf16.decode s) = Utf16.decode s := by
    have hfront : (Utf16.decode s).dropWhile isSpace = Utf16.decode s := by
      cases hs : Utf16.decode s with
      | nil => rfl
      | cons c cs => exact List.dropWhile_cons_of_neg (by simp [(hchars c (hs ▸ List.mem_cons_self)).2.2])
    rw [trimSpace, hfront, List.rdropWhile_eq_self_iff]
    intro hne hspace
    rw [(hchars _ (List.getLast_mem hne)).2.2] at hspace
    cases hspace
  refine ⟨?_, ?_⟩
  · simp only [Api.isValidUsername, hplain.length_decode, Bool.and_eq_true, decide_eq_true_eq, List.all_eq_true]
    exact ⟨⟨hmin, hmax⟩, fun c hc => (hchars c hc).1⟩
  · rw [htrim, toLower]
    exact (List.map_congr_left fun c hc => (hchars c hc).2.1).trans (List.map_id _)

theorem CheckReply.state_cases {reply : CheckReply} {state : CheckState} (h : reply.state = some state) :
    state = .available ∨ state = .taken ∨ state = .invalid := by
  cases reply with
  | rejected => cases h
  | refused => cases h
  | body available reason =>
      obtain rfl := Option.some.inj h
      split
      · exact Or.inl rfl
      · split
        · exact Or.inr (Or.inr rfl)
        · exact Or.inr (Or.inl rfl)

namespace LoginModal

variable {User : Type} {case : Casing} {s : LoginModal User} {Q : JsString → CheckReply → Prop}

/-! ## Before the effect -/

/-- What holds before the effect runs: what the dialog says may be about the name that stood in the field before. -/
structure Ready (case : Casing) (Q : JsString → CheckReply → Prop) (s : LoginModal User) : Prop where
  sound : s.checks.Sound
  fresh : s.deps = some s.pendingUsername →
    (∀ t, s.checks.current = some t → t.key = s.name case ∧ usernameRe (s.name case) = true) ∧
      Tells Q (s.name case) s.checks.current s.checkState
  tasks : ∀ p, Task.preparing p ∈ s.tasks → Available Q p.username
  posted : ∀ p ∈ s.posted, Available Q p.username

structure Inv (case : Casing) (Q : JsString → CheckReply → Prop) (s : LoginModal User) : Prop where
  ready : s.Ready case Q
  ran : s.deps = some s.pendingUsername

theorem Inv.careful (h : s.Inv case Q) : s.Careful case Q :=
  ⟨fun _ ht ha => h.ready.sound.current_of_mem ht ha, fun _ ht => h.ready.sound.aborted_current ht, (h.ready.fresh h.ran).1,
    (h.ready.fresh h.ran).2, h.ready.posted⟩

theorem Ready.commit (h : s.Ready case Q) : (s.commit case).Inv case Q := by
  rw [LoginModal.commit]
  split
  · exact ⟨h, ‹_›⟩
  · split
    · rename_i hname
      refine ⟨⟨h.sound.abort, fun _ => ⟨fun t ht => ?_, hname⟩, h.tasks, h.posted⟩, rfl⟩
      rw [Latest.current_abort] at ht
      cases ht
    · split
      · rename_i hguard
        have hre : usernameRe (s.name case) = false := by simpa using hguard
        refine ⟨⟨h.sound.abort, fun _ => ⟨fun t ht => ?_, Or.inl hre⟩, h.tasks, h.posted⟩, rfl⟩
        rw [Latest.current_abort] at ht
        cases ht
      · rename_i hguard
        have hre : usernameRe (s.name case) = true := by simpa using hguard
        refine ⟨⟨h.sound.issue, fun _ => ⟨fun t ht => ?_, ⟨_, Latest.current_issue, Or.inl nofun⟩⟩, h.tasks, h.posted⟩, rfl⟩
        rw [Latest.current_issue] at ht
        cases ht
        exact ⟨rfl, hre⟩

theorem ready_mounted : (mounted : LoginModal User).Ready case Q :=
  ⟨Latest.sound_empty, nofun, nofun, nofun⟩

/-- Nothing but what the dialog awaits or has sent has changed. -/
theorem Inv.frame (h : s.Inv case Q) {s' : LoginModal User} (hname : s'.pendingUsername = s.pendingUsername)
    (hstate : s'.checkState = s.checkState) (hdeps : s'.deps = s.deps) (hchecks : s'.checks = s.checks)
    (htasks : ∀ p, Task.preparing p ∈ s'.tasks → Available Q p.username)
    (hposted : ∀ p ∈ s'.posted, Available Q p.username) : s'.Inv case Q := by
  have hfresh := h.ready.fresh h.ran
  have hsame : s'.name case = s.name case := by rw [name, name, hname]
  exact ⟨⟨hchecks ▸ h.ready.sound, fun _ => by rw [hsame, hchecks, hstate]; exact hfresh, htasks, hposted⟩,
    by rw [hdeps, hname]; exact h.ran⟩

/-- The user, the picture and its uploads have nothing to do with the name. -/
theorem Inv.profile (h : s.Inv case Q) {user : Option User} {uploading : Bool} {picture : JsString} {uploads : Nat} :
    Inv case Q { s with
      pendingUser := user, uploading := uploading, uploadedPicture := picture, uploads := uploads } :=
  h.frame rfl rfl rfl rfl h.ready.tasks h.ready.posted

theorem Inv.settle (h : s.Inv case Q) : s.settle.Inv case Q := h.frame rfl rfl rfl rfl h.ready.tasks h.ready.posted

/-- A task is begun that sends nothing, or a name that is available. -/
theorem Inv.tasked (h : s.Inv case Q) {task : Task User} {busy : Bool}
    (htask : ∀ p, task = .preparing p → Available Q p.username) :
    Inv case Q { s with busy := busy, tasks := s.tasks ++ [task] } := by
  refine h.frame rfl rfl rfl rfl (fun p hp => ?_) h.ready.posted
  rcases List.mem_append.mp hp with hp | hp
  · exact h.ready.tasks p hp
  · exact htask p (List.mem_singleton.mp hp).symm

theorem Inv.start (h : s.Inv case Q) {task : Task User} (htask : ∀ p, task = .preparing p → Available Q p.username) :
    (s.start task).Inv case Q := by
  rw [LoginModal.start]
  split
  · exact h
  · exact h.tasked htask

/-- The empty field has no check. -/
theorem Inv.reset (h : s.Inv case Q) (hlower : case.lower [] = []) : s.reset.Ready case Q := by
  refine ⟨h.ready.sound, fun hdeps => ?_, h.ready.tasks, h.ready.posted⟩
  have hempty : s.pendingUsername = [] := Option.some.inj (h.ran.symm.trans hdeps)
  have hname : s.name case = [] := by
    rw [name, hempty]
    exact hlower
  have hreset : s.reset.name case = [] := hlower
  refine ⟨fun t ht => ?_, hreset⟩
  have hre := ((h.ready.fresh h.ran).1 t ht).2
  rw [hname] at hre
  cases hre

theorem Ready.settle (h : s.Ready case Q) : s.settle.Ready case Q := ⟨h.sound, h.fresh, h.tasks, h.posted⟩

theorem Inv.resume (h : s.Inv case Q) (hlower : case.lower [] = []) {task : Task User}
    (htask : ∀ p, task = .preparing p → Available Q p.username) (o : Outcome User) : (s.resume o task).Ready case Q := by
  cases task with
  | authenticating =>
      rw [LoginModal.resume]
      cases o.user with
      | none => exact h.settle.ready
      | some user => exact (h.tasked fun p hp => by cases hp).ready
  | exchanging user =>
      rw [LoginModal.resume]
      cases o.result with
      | ok => exact (h.reset hlower).settle
      | needsUsername => exact h.profile.settle.ready
      | usernameTaken => exact h.settle.ready
      | error => exact h.settle.ready
  | preparing signup =>
      rw [LoginModal.resume]
      split
      · have hsent : Inv case Q { s with posted := s.posted ++ [signup] } := by
          refine h.frame rfl rfl rfl rfl h.ready.tasks fun p hp => ?_
          rcases List.mem_append.mp hp with hp | hp
          · exact h.ready.posted p hp
          · rw [List.mem_singleton.mp hp]
            exact htask signup rfl
        exact (hsent.tasked fun p hp => by cases hp).ready
      · exact h.settle.ready
  | signingUp signup =>
      rw [LoginModal.resume]
      cases o.result with
      | ok => exact (h.reset hlower).settle
      | needsUsername => exact h.settle.ready
      | usernameTaken =>
          exact ⟨h.ready.sound, fun hdeps => ⟨(h.ready.fresh hdeps).1, trivial⟩, h.ready.tasks, h.ready.posted⟩
      | error => exact h.settle.ready

theorem Inv.input (h : s.Inv case Q) (text : JsString) : Ready case Q { s with pendingUsername := text } := by
  refine ⟨h.ready.sound, fun hdeps => ?_, h.ready.tasks, h.ready.posted⟩
  have hsame : s.pendingUsername = text := Option.some.inj (h.ran.symm.trans hdeps)
  have hname : s.name case = name case { s with pendingUsername := text } := by rw [name, name, hsame]
  rw [← hname]
  exact h.ready.fresh h.ran

theorem Inv.submitUsername (h : s.Inv case Q) : (s.submitUsername case).Inv case Q := by
  rw [LoginModal.submitUsername]
  split
  · exact h
  · split
    · exact h
    · rename_i hguard
      simp only [Bool.or_eq_true, decide_eq_true_eq, not_or, ne_eq, Decidable.not_not] at hguard
      have htells := (h.ready.fresh h.ran).2
      rw [hguard.1] at htells
      refine h.start fun p hp => ?_
      cases hp
      exact htells.2

/-! ## Checks -/

/-- The check that is not aborted gets on. -/
theorem Inv.onTime (h : s.Inv case Q) {i : Nat} {t : Ticket JsString CheckStage} (ht : s.checks.tickets[i]? = some t)
    (ha : t.aborted = false) {stage : CheckStage} {state : CheckState}
    (htells : Tells Q (s.name case) (some { t with stage := stage }) state) :
    Inv case Q { s with checks := s.checks.advance i fun _ => stage, checkState := state } := by
  have hnext : (s.checks.advance i fun _ => stage).current = some { t with stage := stage } :=
    h.ready.sound.current_advance_of_alive ht ha
  have hsound : (s.checks.advance i fun _ => stage).Sound := h.ready.sound.advance
  refine ⟨⟨hsound, fun _ => ⟨fun u hu => ?_, ?_⟩, h.ready.tasks, h.ready.posted⟩, h.ran⟩
  · obtain rfl := Option.some.inj (hnext.symm.trans hu)
    exact (h.ready.fresh h.ran).1 t (h.ready.sound.current_of_alive ht ha)
  · have hgoal : Tells Q (s.name case) (s.checks.advance i fun _ => stage).current state := hnext ▸ htells
    exact hgoal

/-- An aborted check gets on, and nothing else changes. -/
theorem Inv.late (h : s.Inv case Q) {i : Nat} {t : Ticket JsString CheckStage} (ht : s.checks.tickets[i]? = some t)
    (ha : t.aborted = true) (f : CheckStage → CheckStage) : Inv case Q { s with checks := s.checks.advance i f } := by
  have hcur : (s.checks.advance i f).current = s.checks.current := h.ready.sound.current_advance_of_aborted ht ha
  have hfresh := h.ready.fresh h.ran
  rw [← hcur] at hfresh
  exact ⟨⟨h.ready.sound.advance, fun _ => hfresh, h.ready.tasks, h.ready.posted⟩, h.ran⟩

/-- What is said while a check is not settled is not that the name is available. -/
theorem Inv.unsettled (h : s.Inv case Q) {i : Nat} {t : Ticket JsString CheckStage} (ht : s.checks.tickets[i]? = some t)
    (ha : t.aborted = false) (hstage : t.stage ≠ .settled) {check : Option (Ticket JsString CheckStage)}
    (hcheck : s.checkState = .pending → Tells Q (s.name case) check .pending) :
    Tells Q (s.name case) check s.checkState := by
  have hcur := h.ready.sound.current_of_alive ht ha
  have htells := (h.ready.fresh h.ran).2
  cases hstate : s.checkState with
  | idle => rwa [hstate] at htells
  | invalid => rwa [hstate] at htells
  | taken => trivial
  | pending => exact hcheck hstate
  | available =>
      rw [hstate] at htells
      obtain ⟨⟨u, hu, hsettled⟩, -⟩ := htells
      obtain rfl := Option.some.inj (hcur.symm.trans hu)
      exact absurd hsettled hstage

theorem Inv.fire (h : s.Inv case Q) (i : Nat) : (s.fire i).Inv case Q := by
  rw [LoginModal.fire]
  cases ht : s.checks.tickets[i]? with
  | none => exact h
  | some t =>
      by_cases hguard : t.stage = .debouncing ∧ t.aborted = false
      · have hstage : t.stage ≠ .settled := by
          rw [hguard.1]
          nofun
        have htells : Tells Q (s.name case) (some { t with stage := .fetching }) s.checkState :=
          h.unsettled ht hguard.2 hstage fun _ => ⟨_, rfl, Or.inl nofun⟩
        simpa only [if_pos hguard] using h.onTime ht hguard.2 htells
      · simpa only [if_neg hguard] using h

theorem Inv.checked (h : s.Inv case Q) {i : Nat} {reply : CheckReply}
    (hreply : ∀ t, s.checks.tickets[i]? = some t → Q t.key reply) : (s.checked i reply).Inv case Q := by
  rw [LoginModal.checked]
  cases ht : s.checks.tickets[i]? with
  | none => exact h
  | some t =>
      by_cases hguard : t.stage = .fetching
      · cases ha : t.aborted with
        | true => simpa [hguard, ha] using h.late ht ha fun _ => .settled
        | false =>
            obtain ⟨hkey, hre⟩ := (h.ready.fresh h.ran).1 t (h.ready.sound.current_of_alive ht ha)
            have hQ : Q (s.name case) reply := hkey ▸ hreply t ht
            have htells : Tells Q (s.name case) (some { t with stage := .settled }) (reply.state.getD s.checkState) := by
              cases hstate : reply.state with
              | none =>
                  exact h.unsettled ht ha (by rw [hguard]; nofun) fun _ => ⟨_, rfl, Or.inr ⟨reply, hQ, hstate⟩⟩
              | some state =>
                  rcases CheckReply.state_cases hstate with rfl | rfl | rfl
                  · obtain ⟨hvalid, hsame⟩ := isValidUsername_of_usernameRe hre
                    exact ⟨⟨_, rfl, rfl⟩, hre, hvalid, hsame, reply, hQ, hstate⟩
                  · trivial
                  · exact Or.inr ⟨reply, hQ, hstate⟩
            simpa [hguard, ha] using h.onTime ht ha htells
      · simpa [hguard] using h

theorem Inv.act (h : s.Inv case Q) (hlower : case.lower [] = []) {a : Action User} (ha : s.Honest Q a) :
    (s.act case a).Ready case Q := by
  cases a with
  | signIn =>
      rw [LoginModal.act]
      split
      · exact h.ready
      · exact (h.start fun p hp => by cases hp).ready
  | input text =>
      rw [LoginModal.act]
      split
      · exact h.input text
      · exact h.ready
  | submitUsername => exact h.submitUsername.ready
  | chooseFile =>
      rw [LoginModal.act]
      split
      · exact h.profile.ready
      · exact h.ready
  | uploaded url =>
      rw [LoginModal.act]
      split
      · exact h.ready
      · exact h.profile.ready
  | removePicture =>
      rw [LoginModal.act]
      split
      · exact h.profile.ready
      · exact h.ready
  | dismiss => exact h.reset hlower
  | resume k o =>
      rw [LoginModal.act]
      cases hk : s.tasks[k]? with
      | none => exact h.ready
      | some task =>
          have hrest : Inv case Q { s with tasks := s.tasks.eraseIdx k } :=
            h.frame rfl rfl rfl rfl (fun p hp => h.ready.tasks p (List.mem_of_mem_eraseIdx hp)) h.ready.posted
          exact hrest.resume hlower (fun p hp => h.ready.tasks p (hp ▸ List.mem_of_getElem? hk)) o
  | fire i => exact (h.fire i).ready
  | checked i reply => exact (h.checked ha).ready

theorem Inv.step (h : s.Inv case Q) (hlower : case.lower [] = []) {a : Action User} (ha : s.Honest Q a) :
    (s.step case a).Inv case Q := (h.act hlower ha).commit

theorem always_inv (hlower : case.lower [] = []) {as : List (Action User)}
    (h : Meets (LoginModal.step case) (Honest Q) (mounted.commit case) as) :
    Always (LoginModal.step case) (Inv case Q) (mounted.commit case) as :=
  Meets.always (fun _ _ hs ha => hs.step hlower ha) ready_mounted.commit h

end LoginModal

end Chessrepeat.Components
