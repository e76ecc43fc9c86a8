import Chessrepeat.Ws.Lemmas.Rooms

/-!
# The registry and the rooms agree
-/

namespace Chessrepeat.Ws

open Lib Domain

variable {Raw : Type} {w : Server Raw}

/-! ## Well-formedness -/

theorem Server.Wf.new (buffer : Nat) : (Server.new buffer : Server Raw).Wf :=
  ⟨fun _ _ h => (by cases h), fun _ _ h => (by simp [Server.members, Server.new] at h), fun _ _ h => (by simp [Server.new] at h)⟩

theorem Server.Wf.enter {r : Nat} {R : Room} (hw : w.Wf) (hR : w.roomHeap[r]? = some R) (session : Session) :
    (w.enter r session).Wf := by
  obtain ⟨g, msgs, hg, hsubs⟩ := Server.subs_enter (w := w) r session
  have hheap := Server.getElem?_enter (w := w) hR session
  have hold : ∀ (i : Nat) s, w.subs[i]? = some s → ∃ s', (w.enter r session).subs[i]? = some s' ∧ s'.room = s.room := by
    intro i s hs
    have hne : i ≠ w.subs.length := fun he => by
      rw [he, List.getElem?_eq_none (Nat.le_refl _)] at hs; cases hs
    obtain ⟨m, hm⟩ := hg i s
    refine ⟨g i s, ?_, by rw [hm]⟩
    rw [hsubs, if_neg hne, hs]; rfl
  refine ⟨fun id r' hr' => ?_, fun r' i hi => ?_, fun i s hs => ?_⟩
  · obtain ⟨R', hR', hid⟩ := hw.registered id r' hr'
    rw [hheap]
    split
    · rename_i he
      rw [he, hR] at hR'; cases hR'
      exact ⟨_, rfl, hid⟩
    · exact ⟨R', hR', hid⟩
  · rw [Server.mem_members, hheap] at hi
    split at hi
    · rename_i he
      obtain ⟨R', hR', hi⟩ := hi
      cases hR'
      rcases Finset.mem_insert.mp hi with hnew | hmem
      · exact ⟨_, by rw [hsubs, if_pos hnew], he.symm⟩
      · obtain ⟨s, hs, hsr⟩ := hw.member r i (by rw [Server.members_eq hR]; exact hmem)
        obtain ⟨s', hs', he'⟩ := hold i s hs
        exact ⟨s', hs', by rw [he', hsr, he]⟩
    · rw [← Server.mem_members] at hi
      obtain ⟨s, hs, hsr⟩ := hw.member r' i hi
      obtain ⟨s', hs', he'⟩ := hold i s hs
      exact ⟨s', hs', by rw [he', hsr]⟩
  · rw [hsubs] at hs
    split at hs
    · cases hs
      exact ⟨_, by rw [hheap]; exact if_pos rfl⟩
    · obtain ⟨s₀, hs₀, rfl⟩ := Option.map_eq_some_iff.mp hs
      obtain ⟨m, hm⟩ := hg i s₀
      obtain ⟨R', hR'⟩ := hw.room i s₀ hs₀
      rw [hm, hheap]
      split
      · exact ⟨_, rfl⟩
      · exact ⟨R', hR'⟩

/-- The room opened for an owner, with the registry as `openRoom` leaves it. -/
theorem Server.Wf.openRoom (hw : w.Wf) (ownerID : Text) : (w.openRoom ownerID).1.Wf := by
  obtain ⟨R, hR, hid, hmem, hrooms, hheap, hsubs, -, -⟩ := Server.openRoom_spec hw ownerID
  refine ⟨fun id r hr => ?_, fun r i hi => ?_, fun i s hs => ?_⟩
  · rw [hrooms, Function.update_apply] at hr
    split at hr
    · rename_i he
      cases hr
      exact ⟨R, hR, hid.trans he.symm⟩
    · obtain ⟨R', hR', hid'⟩ := hw.registered id r hr
      by_cases he : r = (w.openRoom ownerID).2
      · -- a registered room that is the opened one has its id
        subst he
        refine ⟨R, hR, ?_⟩
        by_cases hex : ∃ r', w.rooms ownerID = some r'
        · obtain ⟨r', hr'⟩ := hex
          have ho : w.openRoom ownerID = (w, r') := by simp only [Server.openRoom, hr']
          rw [ho] at hR hR'
          rw [hR] at hR'; cases hR'; exact hid'
        · have hnone : w.rooms ownerID = none := by
            cases h : w.rooms ownerID with
            | none => rfl
            | some r' => exact absurd ⟨r', h⟩ hex
          have ho : (w.openRoom ownerID).2 = w.roomHeap.length := by simp only [Server.openRoom, hnone]
          rw [ho, List.getElem?_eq_none (Nat.le_refl _)] at hR'; cases hR'
      · exact ⟨R', by rw [hheap r he]; exact hR', hid'⟩
  · rw [hsubs]
    by_cases he : r = (w.openRoom ownerID).2
    · subst he
      rw [Server.members_eq hR, hmem] at hi
      exact hw.member _ i hi
    · rw [Server.mem_members, hheap r he, ← Server.mem_members] at hi
      exact hw.member r i hi
  · rw [hsubs] at hs
    obtain ⟨R', hR'⟩ := hw.room i s hs
    by_cases he : s.room = (w.openRoom ownerID).2
    · exact ⟨R, by rw [he]; exact hR⟩
    · exact ⟨R', by rw [hheap _ he]; exact hR'⟩

theorem Server.Wf.join (hw : w.Wf) (ownerID : Text) (session : Session) : (w.join ownerID session).Wf := by
  obtain ⟨R, hR, -⟩ := Server.openRoom_spec hw ownerID
  exact (hw.openRoom ownerID).enter hR session

theorem Server.Wf.leave (hw : w.Wf) {i : Nat} {sub : Subscriber Raw} (hi : w.subs[i]? = some sub) :
    (w.leave i).Wf := by
  obtain ⟨R, hR⟩ := hw.room i sub hi
  obtain ⟨g, hg, hsubs⟩ := Server.subs_leave (w := w) i
  have hheap := Server.getElem?_leave hi hR
  have hkeep : ∀ (r : Nat) R', w.roomHeap[r]? = some R' → ∃ R'', (w.leave i).roomHeap[r]? = some R'' ∧ R''.id = R'.id := by
    intro r R' hR'
    rw [hheap]
    split
    · rename_i he
      rw [he, hR] at hR'; cases hR'
      exact ⟨_, rfl, rfl⟩
    · exact ⟨R', hR', rfl⟩
  refine ⟨fun id r hr => ?_, fun r j hj => ?_, fun j s hs => ?_⟩
  · have hr' : w.rooms id = some r := by
      rw [Server.rooms_leave hi hR] at hr
      split at hr
      · rw [Function.update_apply] at hr
        split at hr
        · cases hr
        · exact hr
      · exact hr
    obtain ⟨R', hR', hid⟩ := hw.registered id r hr'
    obtain ⟨R'', hR'', hid'⟩ := hkeep r R' hR'
    exact ⟨R'', hR'', hid'.trans hid⟩
  · have hj' : j ∈ w.members r := by
      rw [Server.mem_members, hheap] at hj
      split at hj
      · rename_i he
        obtain ⟨R', hR', hj⟩ := hj
        cases hR'
        rw [he, Server.members_eq hR]
        exact Finset.mem_of_mem_erase hj
      · exact Server.mem_members.mpr hj
    obtain ⟨s, hs, hsr⟩ := hw.member r j hj'
    obtain ⟨m, hm⟩ := hg j s
    exact ⟨g j s, by rw [hsubs, hs]; rfl, by rw [hm]; exact hsr⟩
  · rw [hsubs] at hs
    obtain ⟨s₀, hs₀, rfl⟩ := Option.map_eq_some_iff.mp hs
    obtain ⟨m, hm⟩ := hg j s₀
    obtain ⟨R', hR'⟩ := hw.room j s₀ hs₀
    obtain ⟨R'', hR'', -⟩ := hkeep _ R' hR'
    exact ⟨R'', by rw [hm]; exact hR''⟩

theorem Server.Wf.step (hw : w.Wf) (a : Action Raw) : (w.step a).Wf := by
  rcases Server.step_cases w a with ⟨o, session, -, hs⟩ | ⟨w₀, i, hl, hsame, hs⟩ | ⟨-, hsame⟩
  · rw [hs]; exact hw.join o session
  · rw [hs]
    obtain ⟨s, hi, -⟩ := Server.of_leaver hl
    obtain ⟨s₀, hs₀, -⟩ := hsame.sub hi
    exact (hsame.wf hw).leave hs₀
  · exact hsame.wf hw

theorem Server.Wf.run (buffer : Nat) (as : List (Action Raw)) : (run Server.step (Server.new buffer) as).Wf := by
  have h : Always Server.step (fun w : Server Raw => w.Wf) (Server.new buffer) as :=
    always_of_step (fun _ a hw => hw.step a) (Server.Wf.new buffer) as
  exact h.last

/-! ## Integrity -/

/-- Every room with a subscriber is registered under its owner, every registered room has a subscriber, and
the members of two rooms of one owner are in the same room object. -/
structure Integrity (w : Server Raw) : Prop where
  registered : ∀ (r : Nat) R, w.roomHeap[r]? = some R → R.subscribers ≠ ∅ → w.rooms R.id = some r
  nonempty : ∀ id r, w.rooms id = some r → w.members r ≠ ∅
  together : ∀ (r r' : Nat) R R', w.roomHeap[r]? = some R → w.roomHeap[r']? = some R' → R.id = R'.id →
    R.subscribers ≠ ∅ → R'.subscribers ≠ ∅ → r = r'

/-- The third part follows from the first. -/
theorem Integrity.of (h1 : ∀ (r : Nat) R, w.roomHeap[r]? = some R → R.subscribers ≠ ∅ → w.rooms R.id = some r)
    (h2 : ∀ id r, w.rooms id = some r → w.members r ≠ ∅) : Integrity w := by
  refine ⟨h1, h2, fun r r' R R' hR hR' hid hne hne' => ?_⟩
  have hr := h1 r R hR hne
  rw [hid, h1 r' R' hR' hne'] at hr
  exact (Option.some.inj hr).symm

theorem Integrity.new (buffer : Nat) : Integrity (Server.new buffer : Server Raw) :=
  Integrity.of (fun r R hR => by simp [Server.new] at hR) fun id r hr => by cases hr

theorem SameRooms.integrity {w' : Server Raw} (h : SameRooms w w') (hw : Integrity w) : Integrity w' := by
  refine Integrity.of (fun r R hR hne => ?_) fun id r hr hm => ?_
  · rw [h.roomHeap] at hR; rw [h.rooms]; exact hw.registered r R hR hne
  · rw [h.rooms] at hr
    refine hw.nonempty id r hr ?_
    rwa [Server.members, h.roomHeap] at hm

theorem Integrity.join (hw : w.Wf) (h : Integrity w) (ownerID : Text) (session : Session) :
    Integrity (w.join ownerID session) := by
  obtain ⟨R, hR, hid, hmem, hrooms, hheap, hsubs, -, huniq⟩ := Server.openRoom_spec hw ownerID
  have hheap' := Server.getElem?_enter hR session
  have hrooms' : (w.join ownerID session).rooms =
      Function.update w.rooms ownerID (some (w.openRoom ownerID).2) := hrooms
  refine Integrity.of (fun r R' hR' hne => ?_) fun id r hr hm => ?_
  · rw [hrooms', Function.update_apply]
    rw [Server.join, hheap'] at hR'
    split at hR'
    · rename_i he
      cases hR'
      rw [if_pos hid, he]
    · rename_i he
      rw [hheap r he] at hR'
      have hreg := h.registered r R' hR' hne
      split
      · rename_i hid'
        rw [hid'] at hreg
        exact absurd (huniq r hreg) he
      · exact hreg
  · rw [hrooms', Function.update_apply] at hr
    have hne : (w.join ownerID session).members (w.openRoom ownerID).2 ≠ ∅ := by
      have hg : (w.join ownerID session).roomHeap[(w.openRoom ownerID).2]? = _ :=
        (hheap' (w.openRoom ownerID).2).trans (if_pos rfl)
      rw [Server.members_eq hg]
      exact Finset.insert_ne_empty _ _
    split at hr
    · cases hr; exact hne hm
    · by_cases he : r = (w.openRoom ownerID).2
      · exact hne (he ▸ hm)
      · refine h.nonempty id r hr ?_
        rw [Server.members, Server.join, hheap', if_neg he, hheap r he] at hm
        exact hm

/-- A `leave` keeps the integrity exactly when it does not take another room of the owner off the registry. -/
theorem Integrity.leave_iff (hw : w.Wf) (h : Integrity w) {i : Nat} {sub : Subscriber Raw} {R : Room}
    (hi : w.subs[i]? = some sub) (hR : w.roomHeap[sub.room]? = some R) :
    Integrity (w.leave i) ↔ (R.subscribers.erase i = ∅ → ∀ r, w.rooms R.id = some r → r = sub.room) := by
  have hheap := Server.getElem?_leave hi hR
  have hrooms := Server.rooms_leave hi hR
  constructor
  · rintro h' hempty r hr
    by_contra hne
    obtain ⟨R', hR', hid⟩ := hw.registered _ r hr
    have hR'' : (w.leave i).roomHeap[r]? = some R' := by rw [hheap, if_neg hne]; exact hR'
    have hmem : R'.subscribers ≠ ∅ := by rw [← Server.members_eq hR']; exact h.nonempty _ r hr
    -- the other room has members and is registered no more
    have hreg := h'.registered r R' hR'' hmem
    rw [hrooms, if_pos hempty, hid, Function.update_self] at hreg
    cases hreg
  · intro hown
    by_cases hempty : R.subscribers.erase i = ∅
    · rw [if_pos hempty] at hrooms
      refine Integrity.of (fun r R' hR' hne => ?_) fun id r hr hm => ?_
      · rw [hheap] at hR'
        split at hR'
        · cases hR'; exact absurd hempty hne
        · rename_i hr
          have hreg := h.registered r R' hR' hne
          rw [hrooms, Function.update_apply]
          split
          · rename_i hid
            exact absurd (hown hempty r (hid ▸ hreg)) hr
          · exact hreg
      · rw [hrooms, Function.update_apply] at hr
        split at hr
        · cases hr
        · rename_i hid
          obtain ⟨R', hR', hid'⟩ := hw.registered id r hr
          have hne : r ≠ sub.room := by
            rintro rfl
            rw [hR] at hR'; cases hR'
            exact hid hid'.symm
          refine h.nonempty id r hr ?_
          rwa [Server.members, hheap, if_neg hne] at hm
    · rw [if_neg hempty] at hrooms
      refine Integrity.of (fun r R' hR' hne => ?_) fun id r hr hm => ?_
      · rw [hrooms]
        rw [hheap] at hR'
        split at hR'
        · rename_i hr
          cases hR'
          rw [hr]
          exact h.registered sub.room R hR fun he => hempty (by rw [he]; rfl)
        · exact h.registered r R' hR' hne
      · rw [hrooms] at hr
        by_cases he : r = sub.room
        · have hg : (w.leave i).roomHeap[r]? = _ := (hheap r).trans (if_pos he)
          rw [Server.members_eq hg] at hm
          exact hempty hm
        · rw [Server.members, hheap, if_neg he] at hm
          exact h.nonempty id r hr hm

/-- A `leave` that empties its room, or finds it empty, finds the registry to hold that room or none under its
id. -/
def LeaveFindsOwnRoom (w : Server Raw) (a : Action Raw) : Prop :=
  ∀ i ∈ w.leaver a, ∀ s ∈ w.subs[i]?, ∀ R ∈ w.roomHeap[s.room]?, R.subscribers.erase i = ∅ →
    ∀ r ∈ w.rooms R.id, r = s.room

instance (w : Server Raw) (a : Action Raw) : Decidable (LeaveFindsOwnRoom w a) := by
  delta LeaveFindsOwnRoom; infer_instance

theorem Server.step_integrity_iff (hw : w.Wf) (h : Integrity w) (a : Action Raw) :
    Integrity (w.step a) ↔ LeaveFindsOwnRoom w a := by
  rcases Server.step_cases w a with ⟨o, session, rfl, hs⟩ | ⟨w₀, i, hl, hsame, hs⟩ | ⟨hl, hsame⟩
  · rw [hs]
    exact iff_of_true (h.join hw o session) fun i hi => by cases hi
  · obtain ⟨s, hi, -⟩ := Server.of_leaver hl
    obtain ⟨R, hR⟩ := hw.room i s hi
    obtain ⟨s₀, hs₀, hroom⟩ := hsame.sub hi
    have hR₀ : w₀.roomHeap[s₀.room]? = some R := by rw [hsame.roomHeap, hroom]; exact hR
    rw [hs, Integrity.leave_iff (hsame.wf hw) (hsame.integrity h) hs₀ hR₀, hsame.rooms, hroom]
    constructor
    · intro hown j hj s' hs' R' hR' hempty r hr
      rw [hl] at hj; cases hj
      rw [hi] at hs'; cases hs'
      rw [hR] at hR'; cases hR'
      exact hown hempty r hr
    · intro hown hempty r hr
      exact hown i hl s hi R hR hempty r hr
  · exact iff_of_true (hsame.integrity h) fun i hi => by rw [hl] at hi; cases hi

end Chessrepeat.Ws
