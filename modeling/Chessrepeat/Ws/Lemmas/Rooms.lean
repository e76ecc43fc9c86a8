import Chessrepeat.Ws.Server

/-!
# What the steps do to rooms and registry
-/

namespace Chessrepeat.Ws

open Lib Domain

variable {Raw : Type} {w w' : Server Raw}

/-! ## Lookups -/

@[simp] theorem Server.rooms_mapSubs (is : Finset Nat) (f : Subscriber Raw → Subscriber Raw) :
    (w.mapSubs is f).rooms = w.rooms := rfl

@[simp] theorem Server.roomHeap_mapSubs (is : Finset Nat) (f : Subscriber Raw → Subscriber Raw) :
    (w.mapSubs is f).roomHeap = w.roomHeap := rfl

@[simp] theorem Server.published_mapSubs (is : Finset Nat) (f : Subscriber Raw → Subscriber Raw) :
    (w.mapSubs is f).published = w.published := rfl

theorem Server.getElem?_mapSubs (is : Finset Nat) (f : Subscriber Raw → Subscriber Raw) (i : Nat) :
    (w.mapSubs is f).subs[i]? = w.subs[i]?.map fun s => if i ∈ is then f s else s := by
  simp only [Server.mapSubs, List.getElem?_mapIdx]

theorem Server.length_mapSubs (is : Finset Nat) (f : Subscriber Raw → Subscriber Raw) :
    (w.mapSubs is f).subs.length = w.subs.length := by
  simp only [Server.mapSubs, List.length_mapIdx]

theorem Server.getElem?_setMembers (r : Nat) (is : Finset Nat) (r' : Nat) :
    (w.setMembers r is).roomHeap[r']? =
      w.roomHeap[r']?.map fun R => if r = r' then { R with subscribers := is } else R := by
  simp only [Server.setMembers, List.getElem?_modify]
  split
  · rfl
  · simp

theorem Server.members_eq {r : Nat} {R : Room} (h : w.roomHeap[r]? = some R) : w.members r = R.subscribers := by
  simp only [Server.members, h]

theorem Server.mem_members {r i : Nat} : i ∈ w.members r ↔ ∃ R, w.roomHeap[r]? = some R ∧ i ∈ R.subscribers := by
  unfold Server.members
  cases w.roomHeap[r]? with
  | none => simp
  | some R => simp

theorem Server.members_congr {r : Nat} {w' : Server Raw} (h : w'.roomHeap[r]? = w.roomHeap[r]?) : w'.members r = w.members r := by
  rw [Server.members, h, Server.members]

@[simp] theorem Subscriber.room_offer (n : Nat) (f : Frame Raw) (s : Subscriber Raw) : (s.offer n f).room = s.room := by
  unfold Subscriber.offer; split <;> rfl

@[simp] theorem Subscriber.room_send (n : Nat) (f : Frame Raw) (s : Subscriber Raw) : (s.send n f).room = s.room := by
  unfold Subscriber.send; split <;> rfl

@[simp] theorem Subscriber.session_send (n : Nat) (f : Frame Raw) (s : Subscriber Raw) : (s.send n f).session = s.session := by
  unfold Subscriber.send; split <;> rfl

/-- A change, depending on the subscriber, of nothing but its channel. -/
def OnlyMsgs (g : Nat → Subscriber Raw → Subscriber Raw) : Prop := ∀ i s, ∃ msgs, g i s = { s with msgs := msgs }

theorem OnlyMsgs.offer (n : Nat) (f : Frame Raw) : OnlyMsgs fun _ => Subscriber.offer n f := by
  intro _ s
  by_cases h : s.full n
  · exact ⟨s.msgs, by simp only [Subscriber.offer, h, if_true]⟩
  · exact ⟨s.msgs ++ [f], by simp only [Subscriber.offer, h, if_false]⟩

theorem OnlyMsgs.ite {g : Nat → Subscriber Raw → Subscriber Raw} (h : OnlyMsgs g) (is : Finset Nat) :
    OnlyMsgs fun i s => if i ∈ is then g i s else s := by
  intro i s
  by_cases hi : i ∈ is
  · simp only [hi, if_true]; exact h i s
  · simp only [hi, if_false]; exact ⟨s.msgs, rfl⟩

/-! ## Steps that leave the rooms alone -/

/-- The same registry and rooms, and every subscriber points to the room it did. -/
structure SameRooms (w w' : Server Raw) : Prop where
  rooms : w'.rooms = w.rooms
  roomHeap : w'.roomHeap = w.roomHeap
  room : ∀ i : Nat, w'.subs[i]?.map Subscriber.room = w.subs[i]?.map Subscriber.room

theorem SameRooms.refl (w : Server Raw) : SameRooms w w := ⟨rfl, rfl, fun _ => rfl⟩

theorem SameRooms.mapSubs (is : Finset Nat) {f : Subscriber Raw → Subscriber Raw} (hf : ∀ s, (f s).room = s.room) :
    SameRooms w (w.mapSubs is f) := by
  refine ⟨rfl, rfl, fun i => ?_⟩
  rw [Server.getElem?_mapSubs, Option.map_map]
  refine congrArg (fun g => Option.map g w.subs[i]?) (funext fun s => ?_)
  simp only [Function.comp_apply]
  split
  · exact hf s
  · rfl

theorem SameRooms.sub {i : Nat} {s : Subscriber Raw} (h : SameRooms w w') (hs : w.subs[i]? = some s) :
    ∃ s', w'.subs[i]? = some s' ∧ s'.room = s.room := by
  have he := h.room i
  rw [hs] at he
  exact Option.map_eq_some_iff.mp he

theorem SameRooms.symm (h : SameRooms w w') : SameRooms w' w :=
  ⟨h.rooms.symm, h.roomHeap.symm, fun i => (h.room i).symm⟩

/-! ## Well-formed heaps -/

/-- The registry and the subscribers point to rooms, and the members of a room point back to it. -/
structure Server.Wf (w : Server Raw) : Prop where
  registered : ∀ id r, w.rooms id = some r → ∃ R, w.roomHeap[r]? = some R ∧ R.id = id
  member : ∀ (r i : Nat), i ∈ w.members r → ∃ s, w.subs[i]? = some s ∧ s.room = r
  room : ∀ (i : Nat) s, w.subs[i]? = some s → ∃ R, w.roomHeap[s.room]? = some R

theorem Server.Wf.room_unique (hw : w.Wf) {r r' i : Nat} (h : i ∈ w.members r) (h' : i ∈ w.members r') : r = r' := by
  obtain ⟨s, hs, rfl⟩ := hw.member r i h
  obtain ⟨s', hs', rfl⟩ := hw.member r' i h'
  rw [hs] at hs'
  cases hs'
  rfl

theorem SameRooms.wf (h : SameRooms w w') (hw : w.Wf) : w'.Wf := by
  refine ⟨fun id r hr => ?_, fun r i hi => ?_, fun i s hs => ?_⟩
  · rw [h.rooms] at hr; rw [h.roomHeap]; exact hw.registered id r hr
  · rw [Server.mem_members, h.roomHeap, ← Server.mem_members] at hi
    obtain ⟨s, hs, rfl⟩ := hw.member r i hi
    exact h.sub hs
  · obtain ⟨s₀, hs₀, he⟩ := h.symm.sub hs
    rw [h.roomHeap, ← he]; exact hw.room i s₀ hs₀

/-- What opening a room gives: its object is registered for the owner and is the only one that may be new. -/
theorem Server.openRoom_spec (hw : w.Wf) (ownerID : Text) :
    ∃ R, (w.openRoom ownerID).1.roomHeap[(w.openRoom ownerID).2]? = some R ∧ R.id = ownerID ∧
      R.subscribers = w.members (w.openRoom ownerID).2 ∧
      (w.openRoom ownerID).1.rooms = Function.update w.rooms ownerID (some (w.openRoom ownerID).2) ∧
      (∀ r : Nat, r ≠ (w.openRoom ownerID).2 → (w.openRoom ownerID).1.roomHeap[r]? = w.roomHeap[r]?) ∧
      (w.openRoom ownerID).1.subs = w.subs ∧ (w.openRoom ownerID).1.published = w.published ∧
      (∀ r, w.rooms ownerID = some r → r = (w.openRoom ownerID).2) := by
  cases hr : w.rooms ownerID with
  | some r =>
      obtain ⟨R, hR, hid⟩ := hw.registered _ _ hr
      have ho : w.openRoom ownerID = (w, r) := by simp only [Server.openRoom, hr]
      rw [ho]
      refine ⟨R, hR, hid, (Server.members_eq hR).symm, ?_, fun _ _ => rfl, rfl, rfl, fun r' h' => ?_⟩
      · rw [← hr, Function.update_eq_self]
      · exact (Option.some.inj h').symm
  | none =>
      have hm : w.members w.roomHeap.length = ∅ := by simp [Server.members]
      have ho : w.openRoom ownerID = ({ w with
          rooms := Function.update w.rooms ownerID (some w.roomHeap.length)
          roomHeap := w.roomHeap ++ [⟨ownerID, ∅⟩] }, w.roomHeap.length) := by
        simp only [Server.openRoom, hr]
      rw [ho]
      refine ⟨⟨ownerID, ∅⟩, by simp, rfl, hm.symm, rfl, fun r hne => ?_, rfl, rfl, fun r' h' => by cases h'⟩
      change (w.roomHeap ++ [_])[r]? = w.roomHeap[r]?
      rw [List.getElem?_append]
      split
      · rfl
      · have hlt : w.roomHeap.length < r := by
          have : r ≠ w.roomHeap.length := hne
          omega
        rw [List.getElem?_eq_none (by simp; omega), List.getElem?_eq_none (by omega)]

theorem Server.members_openRoom (hw : w.Wf) (ownerID : Text) (r : Nat) : (w.openRoom ownerID).1.members r = w.members r := by
  obtain ⟨R, hR, -, hmem, -, hheap, -⟩ := Server.openRoom_spec hw ownerID
  by_cases hr : r = (w.openRoom ownerID).2
  · rw [hr, Server.members_eq hR, hmem]
  · exact Server.members_congr (hheap r hr)

/-- What entering an open room does to it. -/
theorem Server.getElem?_enter {r : Nat} {R : Room} (hR : w.roomHeap[r]? = some R) (session : Session) (r' : Nat) :
    (w.enter r session).roomHeap[r']? =
      if r' = r then some { R with subscribers := insert w.subs.length R.subscribers } else w.roomHeap[r']? := by
  change ((w.mapSubs _ _).setMembers r (insert w.subs.length (w.members r))).roomHeap[r']? = _
  rw [Server.getElem?_setMembers, Server.roomHeap_mapSubs, Server.members_eq hR]
  by_cases he : r' = r
  · rw [if_pos he, he, hR]; simp
  · have he' : r ≠ r' := fun h => he h.symm
    simp [he, he']

theorem Server.members_enter {r₀ : Nat} {R : Room} {session : Session} (hR : w.roomHeap[r₀]? = some R) (r : Nat) :
    (w.enter r₀ session).members r = if r = r₀ then insert w.subs.length (w.members r₀) else w.members r := by
  have hheap := Server.getElem?_enter hR session r
  split at hheap
  · rw [if_pos ‹_›, Server.members_eq hheap, Server.members_eq hR]
  · rw [if_neg ‹_›, Server.members_congr hheap]

/-- The subscribers of before are still there, told at most. -/
theorem Server.subs_enter (r : Nat) (session : Session) :
    ∃ (g : Nat → Subscriber Raw → Subscriber Raw) (msgs : List (Frame Raw)), OnlyMsgs g ∧ ∀ i : Nat, (w.enter r session).subs[i]? =
      if i = w.subs.length then some { w.newSubscriber r session with msgs := msgs } else w.subs[i]?.map (g i) := by
  obtain ⟨msgs, hm⟩ := OnlyMsgs.offer w.subscriberMessageBuffer
    (.crowd (w.peers (w.members r) + {(w.newSubscriber r session).peerInfo})) 0 (w.newSubscriber r session)
  refine ⟨_, msgs, (OnlyMsgs.offer w.subscriberMessageBuffer
    (.userJoined (w.newSubscriber r session).peerInfo)).ite (w.members r), fun i => ?_⟩
  change ((w.mapSubs _ _).subs ++ [_])[i]? = _
  rw [List.getElem?_append, Server.length_mapSubs]
  split
  · rename_i hlt
    rw [if_neg (by omega), Server.getElem?_mapSubs]
  · rename_i hlt
    split
    · rename_i he
      rw [he, Nat.sub_self, ← hm]; rfl
    · rw [List.getElem?_eq_none (by simp; omega), List.getElem?_eq_none (by omega)]; rfl

/-! ## Leaving -/

/-- What `leave` does to a subscriber that is there. -/
theorem Server.leave_eq {i : Nat} {sub : Subscriber Raw} {R : Room} (hi : w.subs[i]? = some sub)
    (hR : w.roomHeap[sub.room]? = some R) : w.leave i =
      if R.subscribers.erase i = ∅ then
        { w.setMembers sub.room (R.subscribers.erase i) with rooms := Function.update w.rooms R.id none }
      else (w.setMembers sub.room (R.subscribers.erase i)).mapSubs (R.subscribers.erase i)
        (Subscriber.offer w.subscriberMessageBuffer (.userLeft sub.peerInfo)) := by
  simp only [Server.leave, hi, hR]
  split <;> rfl

theorem Server.getElem?_leave {i : Nat} {sub : Subscriber Raw} {R : Room} (hi : w.subs[i]? = some sub)
    (hR : w.roomHeap[sub.room]? = some R) (r : Nat) : (w.leave i).roomHeap[r]? =
      if r = sub.room then some { R with subscribers := R.subscribers.erase i } else w.roomHeap[r]? := by
  have hheap : (w.leave i).roomHeap = (w.setMembers sub.room (R.subscribers.erase i)).roomHeap := by
    rw [Server.leave_eq hi hR]; split <;> rfl
  rw [hheap, Server.getElem?_setMembers]
  by_cases he : r = sub.room
  · rw [if_pos he, he, hR]; simp
  · have he' : sub.room ≠ r := fun h => he h.symm
    simp [he, he']

theorem Server.members_leave {j : Nat} {sub : Subscriber Raw} {R : Room} (hj : w.subs[j]? = some sub) (hR : w.roomHeap[sub.room]? = some R) (r : Nat) :
    (w.leave j).members r = if r = sub.room then (w.members sub.room).erase j else w.members r := by
  have hheap := Server.getElem?_leave hj hR r
  split at hheap
  · rw [if_pos ‹_›, Server.members_eq hheap, Server.members_eq hR]
  · rw [if_neg ‹_›, Server.members_congr hheap]

theorem Server.rooms_leave {i : Nat} {sub : Subscriber Raw} {R : Room} (hi : w.subs[i]? = some sub)
    (hR : w.roomHeap[sub.room]? = some R) : (w.leave i).rooms =
      if R.subscribers.erase i = ∅ then Function.update w.rooms R.id none else w.rooms := by
  rw [Server.leave_eq hi hR]; split <;> rfl

theorem Server.subs_leave (i : Nat) :
    ∃ g : Nat → Subscriber Raw → Subscriber Raw, OnlyMsgs g ∧ ∀ j : Nat, (w.leave i).subs[j]? = w.subs[j]?.map (g j) := by
  have hid : OnlyMsgs fun _ (s : Subscriber Raw) => s := fun _ s => ⟨s.msgs, rfl⟩
  unfold Server.leave
  cases hi : w.subs[i]? with
  | none => exact ⟨_, hid, fun j => by simp⟩
  | some sub =>
      cases hR : w.roomHeap[sub.room]? with
      | none => exact ⟨_, hid, fun j => by simp [hR]⟩
      | some R =>
          simp only [hR]
          split
          · exact ⟨_, hid, fun j => by simp [Server.setMembers]⟩
          · exact ⟨_, (OnlyMsgs.offer w.subscriberMessageBuffer (.userLeft sub.peerInfo)).ite
              (R.subscribers.erase i), fun j => by rw [Server.getElem?_mapSubs]; rfl⟩

theorem Server.published_leave (i : Nat) : (w.leave i).published = w.published := by
  unfold Server.leave
  split
  · rfl
  · split
    · rfl
    · split <;> rfl

/-! ## Steps -/

/-- A `leave` runs for a spawned eviction or for a connection that is over. -/
theorem Server.of_leaver {a : Action Raw} {i : Nat} (h : w.leaver a = some i) :
    ∃ s, w.subs[i]? = some s ∧ (0 < s.evictions ∨ s.connected = false) := by
  cases a with
  | evict j =>
      rw [Server.leaver] at h
      split at h
      · rename_i hany
        cases h
        obtain ⟨s, hs, hp⟩ := (Option.any_eq_true _ _).mp hany
        exact ⟨s, hs, Or.inl (by simpa using hp)⟩
      · cases h
  | teardown j =>
      rw [Server.leaver] at h
      split at h
      · rename_i hany
        cases h
        obtain ⟨s, hs, hp⟩ := (Option.any_eq_true _ _).mp hany
        rw [Bool.and_eq_true] at hp
        exact ⟨s, hs, Or.inr (by simpa using hp.1)⟩
      · cases h
  | _ => cases h

/-- A step joins a room, runs a `leave`, or leaves the rooms alone. -/
theorem Server.step_cases (w : Server Raw) (a : Action Raw) :
    (∃ o session, a = .join o session ∧ w.step a = w.join o session) ∨
    (∃ w₀ i, w.leaver a = some i ∧ SameRooms w w₀ ∧ w.step a = w₀.leave i) ∨
    (w.leaver a = none ∧ SameRooms w (w.step a)) := by
  cases a with
  | join o session => exact Or.inl ⟨o, session, rfl, rfl⟩
  | publishRoom r msg sender =>
      refine Or.inr (Or.inr ⟨rfl, ?_⟩)
      have h : SameRooms w (w.mapSubs (w.recipients r sender)
          (Subscriber.send w.subscriberMessageBuffer (.raw msg))) :=
        SameRooms.mapSubs _ fun s => Subscriber.room_send _ _ s
      exact ⟨h.rooms, h.roomHeap, h.room⟩
  | sendTo i msg =>
      exact Or.inr (Or.inr ⟨rfl, SameRooms.mapSubs _ fun s => Subscriber.room_send _ _ s⟩)
  | drain i => exact Or.inr (Or.inr ⟨rfl, SameRooms.mapSubs _ fun s => rfl⟩)
  | disconnect i => exact Or.inr (Or.inr ⟨rfl, SameRooms.mapSubs _ fun s => rfl⟩)
  | evict i =>
      cases hl : w.leaver (.evict i) with
      | none => exact Or.inr (Or.inr ⟨rfl, by simp only [Server.step, hl]; exact SameRooms.refl w⟩)
      | some j =>
          exact Or.inr (Or.inl ⟨w.mapSubs {j} Subscriber.evicted, j, rfl, SameRooms.mapSubs _ fun s => rfl,
            by simp only [Server.step, hl]⟩)
  | teardown i =>
      cases hl : w.leaver (.teardown i) with
      | none => exact Or.inr (Or.inr ⟨rfl, by simp only [Server.step, hl]; exact SameRooms.refl w⟩)
      | some j =>
          exact Or.inr (Or.inl ⟨w.mapSubs {j} Subscriber.torn, j, rfl, SameRooms.mapSubs _ fun s => rfl,
            by simp only [Server.step, hl]⟩)

end Chessrepeat.Ws
