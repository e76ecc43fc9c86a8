import Chessrepeat.Ws.Lemmas.Rooms

/-!
# What an open connection is owed
-/

namespace Chessrepeat.Ws

open Lib Domain

variable {Raw : Type} {w : Server Raw}

/-- A subscriber is in its room and nothing is about to take it out, and all that was published there since
it joined, by others, was put on its channel. -/
structure Delivered (w : Server Raw) (i : Nat) (s : Subscriber Raw) : Prop where
  kept : s.evictions = 0
  member : i ∈ w.members s.room
  all : ∀ p ∈ w.published.drop s.joinedAt, p.room = s.room → p.sender ≠ some i → i ∈ p.enqueued

/-- Every subscriber whose connection is open gets everything. -/
def NoSilentEviction (w : Server Raw) : Prop :=
  ∀ (i : Nat) s, w.subs[i]? = some s → s.connected = true → Delivered w i s

/-- No message is sent on the full channel of an open connection. -/
def NoOverflow (w : Server Raw) : Action Raw → Prop
  | .publishRoom r _ sender => ∀ i ∈ w.recipients r sender, ∀ s ∈ w.subs[i]?, s.connected = true →
      ¬ s.full w.subscriberMessageBuffer
  | .sendTo i _ => ∀ s ∈ w.subs[i]?, s.connected = true → ¬ s.full w.subscriberMessageBuffer
  | _ => True

instance (w : Server Raw) : (a : Action Raw) → Decidable (NoOverflow w a)
  | .publishRoom r _ sender => inferInstanceAs (Decidable (∀ i ∈ w.recipients r sender, ∀ s ∈ w.subs[i]?,
      s.connected = true → ¬ s.full w.subscriberMessageBuffer))
  | .sendTo i _ => inferInstanceAs (Decidable (∀ s ∈ w.subs[i]?, s.connected = true →
      ¬ s.full w.subscriberMessageBuffer))
  | .join .. | .drain _ | .disconnect _ | .evict _ | .teardown _ => isTrue trivial

theorem NoSilentEviction.new (buffer : Nat) : NoSilentEviction (Server.new buffer : Server Raw) :=
  fun i s hs => by simp [Server.new] at hs

/-- A step that changes nothing of what `Delivered` reads. -/
theorem Delivered.congr {w' : Server Raw} {i : Nat} {s s' : Subscriber Raw} (h : Delivered w i s)
    (hev : s'.evictions = s.evictions) (hroom : s'.room = s.room) (hj : s'.joinedAt = s.joinedAt)
    (hmem : i ∈ w.members s.room → i ∈ w'.members s.room) (hpub : w'.published = w.published) :
    Delivered w' i s' := by
  refine ⟨hev.trans h.kept, ?_, ?_⟩
  · rw [hroom]; exact hmem h.member
  · rw [hroom, hj, hpub]; exact h.all

/-! ## Sending -/

theorem Subscriber.send_of_not_full {n : Nat} {f : Frame Raw} {s : Subscriber Raw} (h : ¬ s.full n) :
    s.send n f = { s with msgs := s.msgs ++ [f] } := by
  simp only [Subscriber.send, h, if_false]

theorem Subscriber.evictions_send_of_full {n : Nat} {f : Frame Raw} {s : Subscriber Raw} (h : s.full n) :
    (s.send n f).evictions = s.evictions + 1 := by
  simp only [Subscriber.send, h, if_true]

theorem Subscriber.connected_send (n : Nat) (f : Frame Raw) (s : Subscriber Raw) :
    (s.send n f).connected = s.connected := by
  unfold Subscriber.send; split <;> rfl

/-- After a send on a full channel the subscriber is about to be taken out of its room. -/
theorem NoSilentEviction.not_full {n : Nat} {f : Frame Raw} {i : Nat} {s : Subscriber Raw} {w' : Server Raw}
    (h : NoSilentEviction w') (hs : w'.subs[i]? = some (s.send n f)) (hc : s.connected = true) : ¬ s.full n := by
  intro hfull
  have hk := (h i _ hs (by rw [Subscriber.connected_send]; exact hc)).kept
  rw [Subscriber.evictions_send_of_full hfull] at hk
  omega

theorem Server.mem_recipients {r i : Nat} {sender : Option Nat} :
    i ∈ w.recipients r sender ↔ i ∈ w.members r ∧ some i ≠ sender := by
  simp only [Server.recipients, Finset.mem_filter]

theorem Server.getElem?_publishRoom (r : Nat) (msg : Raw) (sender : Option Nat) (i : Nat) :
    (w.publishRoom r msg sender).subs[i]? = w.subs[i]?.map fun s =>
      if i ∈ w.recipients r sender then s.send w.subscriberMessageBuffer (.raw msg) else s :=
  Server.getElem?_mapSubs _ _ i

theorem NoSilentEviction.publishRoom_iff (h : NoSilentEviction w) (r : Nat) (msg : Raw) (sender : Option Nat) :
    NoSilentEviction (w.publishRoom r msg sender) ↔ NoOverflow w (.publishRoom r msg sender) := by
  constructor
  · intro h' i hi s hs hc
    refine NoSilentEviction.not_full h' (f := .raw msg) (i := i) ?_ hc
    rw [Server.getElem?_publishRoom, Option.mem_def.mp hs, Option.map_some, if_pos hi]
  · intro hno i s' hs' hc'
    rw [Server.getElem?_publishRoom] at hs'
    obtain ⟨s, hs, rfl⟩ := Option.map_eq_some_iff.mp hs'
    have hc : s.connected = true := by
      split at hc'
      · rwa [Subscriber.connected_send] at hc'
      · exact hc'
    have hd := h i s hs hc
    have hlog : ∀ p, p ∈ (w.publishRoom r msg sender).published.drop s.joinedAt →
        p ∈ w.published.drop s.joinedAt ∨ p = ⟨r, msg, sender,
          (w.recipients r sender).filter fun i => w.isFull i = false⟩ := by
      intro p hp
      change p ∈ (w.published ++ [_]).drop s.joinedAt at hp
      rw [List.drop_append, List.mem_append] at hp
      exact hp.imp_right fun hp => List.mem_singleton.mp (List.mem_of_mem_drop hp)
    by_cases hi : i ∈ w.recipients r sender
    · have hfull := hno i hi s hs hc
      rw [if_pos hi, Subscriber.send_of_not_full hfull]
      refine ⟨hd.kept, hd.member, fun p hp hpr hps => ?_⟩
      rcases hlog p hp with hp | rfl
      · exact hd.all p hp hpr hps
      · refine Finset.mem_filter.mpr ⟨hi, ?_⟩
        simp only [Server.isFull, hs, hfull, decide_false]
    · rw [if_neg hi]
      refine ⟨hd.kept, hd.member, fun p hp hpr hps => ?_⟩
      rcases hlog p hp with hp | rfl
      · exact hd.all p hp hpr hps
      · have hr : r = s.room := hpr
        exact absurd (Server.mem_recipients.mpr ⟨hr ▸ hd.member, hps.symm⟩) hi

theorem NoSilentEviction.sendTo_iff (h : NoSilentEviction w) (i : Nat) (msg : Raw) :
    NoSilentEviction (w.sendTo i msg) ↔ NoOverflow w (.sendTo i msg) := by
  constructor
  · intro h' s hs hc
    refine NoSilentEviction.not_full h' (f := .raw msg) (i := i) ?_ hc
    rw [Server.sendTo, Server.getElem?_mapSubs, Option.mem_def.mp hs, Option.map_some,
      if_pos (Finset.mem_singleton_self i)]
  · intro hno j s' hs' hc'
    rw [Server.sendTo, Server.getElem?_mapSubs] at hs'
    obtain ⟨s, hs, rfl⟩ := Option.map_eq_some_iff.mp hs'
    split at hc' <;> rename_i hj
    · rw [Finset.mem_singleton] at hj
      subst hj
      rw [Subscriber.connected_send] at hc'
      rw [if_pos (Finset.mem_singleton_self j), Subscriber.send_of_not_full (hno s hs hc')]
      exact (h j s hs hc').congr rfl rfl rfl id rfl
    · rw [if_neg hj]
      exact (h j s hs hc').congr rfl rfl rfl id rfl

/-! ## The other steps -/

/-- Changes of a subscriber that concern neither its place in the room nor its connection. -/
theorem NoSilentEviction.mapSubs (h : NoSilentEviction w) {is : Finset Nat} {f : Subscriber Raw → Subscriber Raw}
    (hc : ∀ s, (f s).connected = true → s.connected = true)
    (hf : ∀ s, s.evictions = 0 → (f s).evictions = 0 ∧ (f s).room = s.room ∧ (f s).joinedAt = s.joinedAt) :
    NoSilentEviction (w.mapSubs is f) := by
  intro i s' hs' hc'
  rw [Server.getElem?_mapSubs] at hs'
  obtain ⟨s, hs, rfl⟩ := Option.map_eq_some_iff.mp hs'
  split at hc' <;> rename_i hi
  · have hd := h i s hs (hc s hc')
    obtain ⟨he, hr, hj⟩ := hf s hd.kept
    rw [if_pos hi]
    exact hd.congr (he.trans hd.kept.symm) hr hj id rfl
  · rw [if_neg hi]
    exact (h i s hs hc').congr rfl rfl rfl id rfl

theorem NoSilentEviction.join (hw : w.Wf) (h : NoSilentEviction w) (ownerID : Text) (session : Session) :
    NoSilentEviction (w.join ownerID session) := by
  obtain ⟨R, hR, -, hmem, -, hheap, hsubs, hpub, -⟩ := Server.openRoom_spec hw ownerID
  obtain ⟨g, msgs, hg, hent⟩ := Server.subs_enter (w := (w.openRoom ownerID).1) (w.openRoom ownerID).2 session
  have hheap' := Server.getElem?_enter hR session
  intro i s' hs' hc'
  rw [Server.join, hent] at hs'
  split at hs'
  · rename_i hi
    cases hs'
    refine ⟨rfl, ?_, fun p hp => ?_⟩
    · have hgm : (w.join ownerID session).roomHeap[(w.openRoom ownerID).2]? = _ :=
        (hheap' _).trans (if_pos rfl)
      change i ∈ (w.join ownerID session).members (w.openRoom ownerID).2
      rw [Server.members_eq hgm, hi]
      exact Finset.mem_insert_self _ _
    · -- nothing has been published since
      change p ∈ List.drop (w.openRoom ownerID).1.published.length (w.openRoom ownerID).1.published at hp
      rw [List.drop_length] at hp; cases hp
  · rw [hsubs] at hs'
    obtain ⟨s, hs, rfl⟩ := Option.map_eq_some_iff.mp hs'
    obtain ⟨m, hm⟩ := hg i s
    rw [hm] at hc' ⊢
    refine (h i s hs hc').congr rfl rfl rfl (fun hi => ?_) hpub
    rw [Server.mem_members, Server.join, hheap']
    split
    · rename_i he
      rw [he, ← hmem] at hi
      exact ⟨_, rfl, Finset.mem_insert_of_mem hi⟩
    · rename_i he
      rw [hheap _ he]; exact Server.mem_members.mp hi

theorem NoSilentEviction.leave (h : NoSilentEviction w) {i : Nat} {sub : Subscriber Raw}
    (hi : w.subs[i]? = some sub) (hc : sub.connected = false) : NoSilentEviction (w.leave i) := by
  obtain ⟨g, hg, hsubs⟩ := Server.subs_leave (w := w) i
  intro j s' hs' hc'
  rw [hsubs] at hs'
  obtain ⟨s, hs, rfl⟩ := Option.map_eq_some_iff.mp hs'
  obtain ⟨m, hm⟩ := hg j s
  rw [hm] at hc' ⊢
  refine (h j s hs hc').congr rfl rfl rfl (fun hj => ?_) (Server.published_leave i)
  have hne : j ≠ i := by
    rintro rfl
    rw [hi] at hs; cases hs
    exact absurd hc' (by rw [hc]; decide)
  cases hR : w.roomHeap[sub.room]? with
  | none =>
      have hleave : w.leave i = w := by simp only [Server.leave, hi, hR]
      rw [hleave]; exact hj
  | some R =>
      rw [Server.mem_members, Server.getElem?_leave hi hR]
      split
      · rename_i he
        rw [he, Server.members_eq hR] at hj
        exact ⟨_, rfl, Finset.mem_erase_of_ne_of_mem hne hj⟩
      · exact Server.mem_members.mp hj

/-- The subscriber whose `leave` runs has no open connection. -/
theorem NoSilentEviction.leaver (h : NoSilentEviction w) {a : Action Raw} {i : Nat} (hl : w.leaver a = some i) :
    ∃ s, w.subs[i]? = some s ∧ s.connected = false := by
  obtain ⟨s, hs, hev | hc⟩ := Server.of_leaver hl
  · cases hc : s.connected with
    | false => exact ⟨s, hs, hc⟩
    | true =>
        have hk := (h i s hs hc).kept
        omega
  · exact ⟨s, hs, hc⟩

theorem Server.step_noSilentEviction_iff (hw : w.Wf) (h : NoSilentEviction w) (a : Action Raw) :
    NoSilentEviction (w.step a) ↔ NoOverflow w a := by
  cases a with
  | join ownerID session => exact iff_of_true (h.join hw ownerID session) trivial
  | publishRoom r msg sender => exact h.publishRoom_iff r msg sender
  | sendTo i msg => exact h.sendTo_iff i msg
  | drain i => exact iff_of_true (h.mapSubs (fun s hc => hc) fun s he => ⟨he, rfl, rfl⟩) trivial
  | disconnect i =>
      exact iff_of_true (h.mapSubs (fun s hc => by cases hc) fun s he => ⟨he, rfl, rfl⟩) trivial
  | evict j =>
      refine iff_of_true ?_ trivial
      cases hl : w.leaver (.evict j) with
      | none => simp only [Server.step, hl]; exact h
      | some i =>
          obtain ⟨s, hs, hc⟩ := h.leaver hl
          simp only [Server.step, hl]
          have h' : NoSilentEviction (w.mapSubs {i} Subscriber.evicted) :=
            h.mapSubs (fun s hc => hc) fun s he => ⟨by simp [Subscriber.evicted, he], rfl, rfl⟩
          have hs' : (w.mapSubs {i} Subscriber.evicted).subs[i]? = some s.evicted := by
            rw [Server.getElem?_mapSubs, hs, Option.map_some, if_pos (Finset.mem_singleton_self i)]
          exact h'.leave hs' hc
  | teardown j =>
      refine iff_of_true ?_ trivial
      cases hl : w.leaver (.teardown j) with
      | none => simp only [Server.step, hl]; exact h
      | some i =>
          obtain ⟨s, hs, hc⟩ := h.leaver hl
          simp only [Server.step, hl]
          have h' : NoSilentEviction (w.mapSubs {i} Subscriber.torn) :=
            h.mapSubs (fun s hc => hc) fun s he => ⟨he, rfl, rfl⟩
          have hs' : (w.mapSubs {i} Subscriber.torn).subs[i]? = some s.torn := by
            rw [Server.getElem?_mapSubs, hs, Option.map_some, if_pos (Finset.mem_singleton_self i)]
          exact h'.leave hs' hc

end Chessrepeat.Ws
