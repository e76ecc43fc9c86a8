import Chessrepeat.Room.Presence
import Chessrepeat.Ws.Lemmas.Delivery
import Chessrepeat.Ws.Lemmas.Registry

/-!
# What is on its way leads every client to its room

A message of the server is a change of the set of usernames a client shows. Those a client has not read yet lead it
from what it shows to who is in its room.
-/

namespace Chessrepeat.Room

open Lib Domain Ws Replication

variable {Raw : Type} {w : Server Raw} {r i n : Nat}

/-! ## Messages as changes of a set -/

def effect : Frame Raw → Set Text → Set Text
  | .crowd users => fun _ => usernames users
  | .userJoined user => insert user.username
  | .userLeft user => fun names => names \ {user.username}
  | .raw _ => id

theorem usernames_addConnectedUser (user : PeerInfo) (us : Multiset PeerInfo) :
    usernames (addConnectedUser user us) = insert user.username (usernames us) := by
  ext name
  unfold addConnectedUser
  split
  · rename_i h
    obtain ⟨u, hu, he⟩ := Multiset.mem_map.mp h
    refine (or_iff_right_of_imp fun hname => ?_).symm
    exact ⟨u, hu, he.trans hname.symm⟩
  · constructor
    · rintro ⟨u, hu, rfl⟩
      rcases Multiset.mem_add.mp hu with hu | hu
      · exact Or.inr ⟨u, hu, rfl⟩
      · exact Or.inl (by rw [Multiset.mem_singleton.mp hu])
    · rintro (rfl | ⟨u, hu, rfl⟩)
      · exact ⟨user, Multiset.mem_add.mpr (Or.inr (Multiset.mem_singleton_self user)), rfl⟩
      · exact ⟨u, Multiset.mem_add.mpr (Or.inl hu), rfl⟩

theorem usernames_removeConnectedUser (username : Text) (us : Multiset PeerInfo) :
    usernames (removeConnectedUser username us) = usernames us \ {username} := by
  ext name
  simp only [usernames, removeConnectedUser, Multiset.mem_filter, Set.mem_ofPred_eq, Set.mem_sdiff, Set.mem_singleton_iff]
  constructor
  · rintro ⟨u, ⟨hu, hne⟩, rfl⟩
    exact ⟨⟨u, hu, rfl⟩, hne⟩
  · rintro ⟨⟨u, hu, rfl⟩, hne⟩
    exact ⟨u, ⟨hu, hne⟩, rfl⟩

theorem usernames_onmessage (f : Frame Raw) (us : Multiset PeerInfo) :
    usernames (onmessage f us) = effect f (usernames us) := by
  cases f with
  | crowd users => rfl
  | userJoined user => exact usernames_addConnectedUser user us
  | userLeft user => exact usernames_removeConnectedUser user.username us
  | raw msg => rfl

/-- Nothing but presence messages changes the set. -/
theorem play_of_raw {fs : List (Frame Raw)} (h : ∀ f ∈ fs, isPresence f = false) (names : Set Text) :
    play effect fs names = names := by
  induction fs with
  | nil => rfl
  | cons f fs ih =>
      have hrest := ih fun g hg => h g (List.mem_cons_of_mem _ hg)
      cases hf : f with
      | raw msg => exact hrest
      | crowd | userJoined | userLeft => exact absurd (h f List.mem_cons_self) (by simp [hf, isPresence])

/-! ## Users and channels -/

/-- The username of a connection. -/
def userOf (w : Server Raw) (i : Nat) : Option Text := w.subs[i]?.map fun s => s.session.username

theorem mem_present {name : Text} : name ∈ present w r ↔ ∃ i ∈ w.members r, userOf w i = some name := by
  simp only [present, userOf, Set.mem_ofPred_eq, Option.map_eq_some_iff]

theorem present_congr {w' : Server Raw} (hm : w'.members r = w.members r)
    (hu : ∀ i ∈ w.members r, userOf w' i = userOf w i) : present w' r = present w r := by
  ext name
  rw [mem_present, mem_present, hm]
  refine exists_congr fun i => and_congr_right fun hi => ?_
  rw [hu i hi]

theorem userOf_mapSubs (is : Finset Nat) {f : Subscriber Raw → Subscriber Raw} (hf : ∀ s, (f s).session = s.session) :
    userOf (w.mapSubs is f) i = userOf w i := by
  rw [userOf, Server.getElem?_mapSubs, Option.map_map, userOf]
  refine congrArg (fun g => Option.map g w.subs[i]?) (funext fun s => ?_)
  simp only [Function.comp_apply]
  split
  · rw [hf]
  · rfl

theorem userOf_leave (w : Server Raw) (j i : Nat) : userOf (w.leave j) i = userOf w i := by
  obtain ⟨g, hg, hsubs⟩ := Server.subs_leave (w := w) j
  rw [userOf, hsubs, Option.map_map, userOf]
  refine congrArg (fun g => Option.map g w.subs[i]?) (funext fun s => ?_)
  obtain ⟨msgs, hmsgs⟩ := hg i s
  simp only [Function.comp_apply, hmsgs]

theorem channel_eq {s : Subscriber Raw} (h : w.subs[i]? = some s) : channel w i = s.msgs := by
  rw [channel, h]; rfl

/-- A change of some channels, seen from one of them. -/
theorem channel_mapSubs {is : Finset Nat} {f : Subscriber Raw → Subscriber Raw} {s : Subscriber Raw}
    (h : w.subs[i]? = some s) : channel (w.mapSubs is f) i = if i ∈ is then (f s).msgs else s.msgs := by
  rw [channel, Server.getElem?_mapSubs, h]
  simp only [Option.map_some, Option.getD_some]
  split <;> rfl

theorem NoneFull.msgs_offer (h : NoneFull w) {s : Subscriber Raw} (hs : w.subs[i]? = some s) (f : Frame Raw) :
    (s.offer w.subscriberMessageBuffer f).msgs = s.msgs ++ [f] := by
  rw [Subscriber.offer, if_neg (h s (List.mem_of_getElem? hs))]

theorem NoneFull.msgs_send (h : NoneFull w) {s : Subscriber Raw} (hs : w.subs[i]? = some s) (f : Frame Raw) :
    (s.send w.subscriberMessageBuffer f).msgs = s.msgs ++ [f] := by
  rw [Subscriber.send, if_neg (h s (List.mem_of_getElem? hs))]

/-! ## Joining -/

section Enter

variable {r₀ : Nat} {R : Room} {session : Session}

theorem userOf_enter (w : Server Raw) (r₀ : Nat) (session : Session) (i : Nat) :
    userOf (w.enter r₀ session) i = if i = w.subs.length then some session.username else userOf w i := by
  obtain ⟨g, msgs, hg, hsubs⟩ := Server.subs_enter (w := w) r₀ session
  rw [userOf, hsubs]
  split
  · rfl
  · rw [Option.map_map, userOf]
    refine congrArg (fun g => Option.map g w.subs[i]?) (funext fun s => ?_)
    obtain ⟨msgs, hmsgs⟩ := hg i s
    simp only [Function.comp_apply, hmsgs]

theorem present_enter (hw : w.Wf) (hR : w.roomHeap[r₀]? = some R) :
    present (w.enter r₀ session) r = if r = r₀ then insert session.username (present w r₀) else present w r := by
  have hold : ∀ r, ∀ i ∈ w.members r, userOf (w.enter r₀ session) i = userOf w i := fun r i hi => by
    obtain ⟨s, hs, -⟩ := hw.member r i hi
    rw [userOf_enter, if_neg]
    rintro rfl
    rw [List.getElem?_eq_none (Nat.le_refl _)] at hs
    cases hs
  split
  · rename_i hr
    ext name
    rw [mem_present, Server.members_enter hR, if_pos hr]
    constructor
    · rintro ⟨i, hi, hname⟩
      rcases Finset.mem_insert.mp hi with rfl | hi
      · rw [userOf_enter, if_pos rfl] at hname
        exact Or.inl (Option.some.inj hname).symm
      · exact Or.inr (mem_present.mpr ⟨i, hi, (hold r₀ i hi).symm.trans hname⟩)
    · rintro (rfl | hname)
      · exact ⟨_, Finset.mem_insert_self _ _, by rw [userOf_enter, if_pos rfl]⟩
      · obtain ⟨i, hi, hname⟩ := mem_present.mp hname
        exact ⟨i, Finset.mem_insert_of_mem hi, (hold r₀ i hi).trans hname⟩
  · rename_i hr
    exact present_congr (by rw [Server.members_enter hR, if_neg hr]) (hold r)

/-- The others hear of the joiner, -/
theorem channel_enter (hfull : NoneFull w) {s : Subscriber Raw} (hs : w.subs[i]? = some s) :
    channel (w.enter r₀ session) i =
      channel w i ++ if i ∈ w.members r₀ then [.userJoined (w.newSubscriber r₀ session).peerInfo] else [] := by
  have hlt : i < w.subs.length := (List.getElem?_eq_some_iff.mp hs).1
  have hget : (w.enter r₀ session).subs[i]? = (w.mapSubs (w.members r₀) (Subscriber.offer w.subscriberMessageBuffer
      (.userJoined (w.newSubscriber r₀ session).peerInfo))).subs[i]? := by
    change ((w.mapSubs _ _).subs ++ [_])[i]? = _
    rw [List.getElem?_append_left (by rwa [Server.length_mapSubs])]
  rw [channel, hget, ← channel, channel_mapSubs hs, channel_eq hs, hfull.msgs_offer hs]
  split <;> simp

/-- and the joiner gets the crowd. -/
theorem channel_enter_new (hfull : NoneFull (w.enter r₀ session)) :
    channel (w.enter r₀ session) w.subs.length =
      [.crowd (w.peers (w.members r₀) + {(w.newSubscriber r₀ session).peerInfo})] := by
  have hget : (w.enter r₀ session).subs[w.subs.length]? = some ((w.newSubscriber r₀ session).offer
      w.subscriberMessageBuffer (.crowd (w.peers (w.members r₀) + {(w.newSubscriber r₀ session).peerInfo}))) := by
    change ((w.mapSubs _ _).subs ++ [_])[w.subs.length]? = _
    rw [List.getElem?_append_right (by rw [Server.length_mapSubs]), Server.length_mapSubs, Nat.sub_self]
    rfl
  have hroom : ¬ (w.newSubscriber r₀ session).full w.subscriberMessageBuffer := fun hnew => by
    refine hfull _ (List.mem_of_getElem? hget) ?_
    rw [Subscriber.offer, if_pos hnew]
    exact hnew
  rw [channel_eq hget, Subscriber.offer, if_neg hroom]
  rfl

theorem usernames_crowd (w : Server Raw) (r : Nat) (p : PeerInfo) :
    usernames (w.peers (w.members r) + {p}) = insert p.username (present w r) := by
  ext name
  constructor
  · rintro ⟨u, hu, rfl⟩
    rcases Multiset.mem_add.mp hu with hu | hu
    · obtain ⟨i, hi, hu⟩ := (Multiset.mem_filterMap _ _).mp hu
      obtain ⟨s, hs, rfl⟩ := Option.map_eq_some_iff.mp hu
      exact Or.inr ⟨i, hi, s, hs, rfl⟩
    · exact Or.inl (by rw [Multiset.mem_singleton.mp hu])
  · rintro (rfl | ⟨i, hi, s, hs, rfl⟩)
    · exact ⟨p, Multiset.mem_add.mpr (Or.inr (Multiset.mem_singleton_self p)), rfl⟩
    · refine ⟨s.peerInfo, Multiset.mem_add.mpr (Or.inl ((Multiset.mem_filterMap _ _).mpr ⟨i, hi, ?_⟩)), rfl⟩
      rw [hs]
      rfl

theorem follows_enter (hw : w.Wf) (hR : w.roomHeap[r₀]? = some R) (hfull : NoneFull w)
    (hfull' : NoneFull (w.enter r₀ session)) (hi : i ∈ (w.enter r₀ session).members r) {names : Set Text}
    (hnames : i ∈ w.members r → play effect (channel w i) names = present w r) :
    play effect (channel (w.enter r₀ session) i) names = present (w.enter r₀ session) r := by
  rw [Server.members_enter hR] at hi
  rw [present_enter hw hR]
  by_cases hr : r = r₀
  · subst hr
    rw [if_pos rfl] at hi ⊢
    rcases Finset.mem_insert.mp hi with rfl | hi
    · rw [channel_enter_new hfull']
      exact usernames_crowd w r _
    · obtain ⟨s, hs, -⟩ := hw.member r i hi
      rw [channel_enter hfull hs, if_pos hi, play_append, hnames hi]
      rfl
  · rw [if_neg hr] at hi ⊢
    obtain ⟨s, hs, -⟩ := hw.member r i hi
    rw [channel_enter hfull hs, if_neg fun hi' => hr (hw.room_unique hi hi'), List.append_nil, hnames hi]

end Enter

/-! ## Leaving -/

section Leave

variable {j : Nat} {sub : Subscriber Raw} {R : Room}

/-- The last connection of a user takes the username with it. -/
theorem present_leave (hj : w.subs[j]? = some sub) (hR : w.roomHeap[sub.room]? = some R)
    (hlast : ∀ k ∈ w.members sub.room, k ≠ j → userOf w k ≠ some sub.session.username) :
    present (w.leave j) r = if r = sub.room then present w r \ {sub.session.username} else present w r := by
  split
  · rename_i hr
    ext name
    rw [mem_present, Server.members_leave hj hR, if_pos hr, Set.mem_sdiff, mem_present, hr]
    constructor
    · rintro ⟨k, hk, hname⟩
      rw [userOf_leave] at hname
      obtain ⟨hne, hk⟩ := Finset.mem_erase.mp hk
      exact ⟨⟨k, hk, hname⟩, fun he => hlast k hk hne (by rw [hname, Set.mem_singleton_iff.mp he])⟩
    · rintro ⟨⟨k, hk, hname⟩, hne⟩
      refine ⟨k, Finset.mem_erase.mpr ⟨?_, hk⟩, by rw [userOf_leave, hname]⟩
      rintro rfl
      rw [userOf, hj] at hname
      exact hne (Option.some.inj hname).symm
  · rename_i hr
    exact present_congr (by rw [Server.members_leave hj hR, if_neg hr]) fun i _ => userOf_leave w j i

/-- Those who stay hear of it. -/
theorem channel_leave (hfull : NoneFull w) (hj : w.subs[j]? = some sub) (hR : w.roomHeap[sub.room]? = some R)
    {s : Subscriber Raw} (hs : w.subs[i]? = some s) :
    channel (w.leave j) i =
      channel w i ++ if i ∈ (w.members sub.room).erase j then [.userLeft sub.peerInfo] else [] := by
  rw [Server.members_eq hR, Server.leave_eq hj hR]
  split
  · rename_i hempty
    rw [hempty, if_neg (Finset.notMem_empty i), List.append_nil]
    rfl
  · change channel (w.mapSubs _ _) i = _
    rw [channel_mapSubs hs, channel_eq hs, hfull.msgs_offer hs]
    split <;> simp

theorem follows_leave (hw : w.Wf) (hfull : NoneFull w) (hj : w.subs[j]? = some sub)
    (hlast : ∀ k ∈ w.members sub.room, k ≠ j → userOf w k ≠ some sub.session.username)
    (hi : i ∈ (w.leave j).members r) {names : Set Text}
    (hnames : i ∈ w.members r → play effect (channel w i) names = present w r) :
    play effect (channel (w.leave j) i) names = present (w.leave j) r := by
  obtain ⟨R, hR⟩ := hw.room j sub hj
  rw [Server.members_leave hj hR] at hi
  rw [present_leave hj hR hlast]
  by_cases hr : r = sub.room
  · subst hr
    rw [if_pos rfl] at hi ⊢
    have hi' := (Finset.mem_erase.mp hi).2
    obtain ⟨s, hs, -⟩ := hw.member sub.room i hi'
    rw [channel_leave hfull hj hR hs, if_pos hi, play_append, hnames hi']
    rfl
  · rw [if_neg hr] at hi ⊢
    obtain ⟨s, hs, -⟩ := hw.member r i hi
    rw [channel_leave hfull hj hR hs, if_neg fun hi' => hr (hw.room_unique hi (Finset.mem_erase.mp hi').2),
      List.append_nil, hnames hi]

end Leave

/-! ## Steps -/

/-- Changes of a subscriber that the others do not see. -/
theorem follows_mapSubs (hw : w.Wf) (is : Finset Nat) (f : Subscriber Raw → Subscriber Raw)
    (fs : List (Frame Raw)) (hsession : ∀ s, (f s).session = s.session) (hi : i ∈ w.members r) {names : Set Text}
    (hmsgs : ∀ s, w.subs[i]? = some s → play effect (fs ++ if i ∈ is then (f s).msgs else s.msgs) names =
      play effect s.msgs names)
    (hnames : i ∈ w.members r → play effect (channel w i) names = present w r) :
    play effect (fs ++ channel (w.mapSubs is f) i) names = present (w.mapSubs is f) r := by
  obtain ⟨s, hs, -⟩ := hw.member r i hi
  have hpresent : present (w.mapSubs is f) r = present w r := present_congr rfl fun i _ => userOf_mapSubs is hsession
  rw [hpresent, channel_mapSubs hs, hmsgs s hs, ← channel_eq hs, hnames hi]

/-- A connection that is about to leave is noted first. -/
theorem follows_leaver (hw : w.Wf) (hfull : NoneFull w) (f : Subscriber Raw → Subscriber Raw) {j : Nat}
    {sub : Subscriber Raw} (hf : ∀ s, (f s).session = s.session ∧ (f s).room = s.room ∧ (f s).msgs = s.msgs)
    (hj : w.subs[j]? = some sub)
    (hlast : ∀ k ∈ w.members sub.room, k ≠ j → userOf w k ≠ some sub.session.username)
    (hi : i ∈ ((w.mapSubs {j} f).leave j).members r) {names : Set Text}
    (hnames : i ∈ w.members r → play effect (channel w i) names = present w r) :
    play effect (channel ((w.mapSubs {j} f).leave j) i) names = present ((w.mapSubs {j} f).leave j) r := by
  have hw' : (w.mapSubs {j} f).Wf := (SameRooms.mapSubs {j} fun s => (hf s).2.1).wf hw
  have hfull' : NoneFull (w.mapSubs {j} f) := by
    intro s hs
    obtain ⟨k, hk⟩ := List.getElem?_of_mem hs
    rw [Server.getElem?_mapSubs] at hk
    obtain ⟨s₀, hs₀, rfl⟩ := Option.map_eq_some_iff.mp hk
    have hnot := hfull s₀ (List.mem_of_getElem? hs₀)
    split
    · rw [Subscriber.full, (hf s₀).2.2]
      exact hnot
    · exact hnot
  have hj' : (w.mapSubs {j} f).subs[j]? = some (f sub) := by
    rw [Server.getElem?_mapSubs, hj, Option.map_some, if_pos (Finset.mem_singleton_self j)]
  refine follows_leave hw' hfull' hj' (fun k hk hne => ?_) hi fun hmem => ?_
  · rw [userOf_mapSubs {j} fun s => (hf s).1, (hf sub).1]
    rw [(hf sub).2.1] at hk
    exact hlast k hk hne
  · refine follows_mapSubs hw {j} f [] (fun s => (hf s).1) hmem (fun s _ => ?_) hnames
    rw [List.nil_append, (hf s).2.2, ite_self]

theorem LastLeaves.user {a : Ws.Action Raw} (h : LastLeaves w a) {j : Nat} {sub : Subscriber Raw} (hl : w.leaver a = some j)
    (hj : w.subs[j]? = some sub) : ∀ k ∈ w.members sub.room, k ≠ j → userOf w k ≠ some sub.session.username := by
  intro k hk hne hname
  obtain ⟨s, hs, he⟩ := Option.map_eq_some_iff.mp hname
  exact h j hl sub hj k hk hne s hs he

/-- A message that is no presence message. -/
theorem play_append_raw (fs : List (Frame Raw)) (msg : Raw) (names : Set Text) :
    play effect (fs ++ [.raw msg]) names = play effect fs names := by
  rw [play_append]
  rfl

theorem follows_send (hw : w.Wf) (hfull : NoneFull w) (is : Finset Nat) (msg : Raw) (hi : i ∈ w.members r)
    {names : Set Text} (hnames : i ∈ w.members r → play effect (channel w i) names = present w r) :
    play effect (channel (w.mapSubs is (Subscriber.send w.subscriberMessageBuffer (.raw msg))) i) names =
      present (w.mapSubs is (Subscriber.send w.subscriberMessageBuffer (.raw msg))) r := by
  refine follows_mapSubs hw is _ [] (Subscriber.session_send _ _) hi (fun s hs => ?_) hnames
  rw [List.nil_append, hfull.msgs_send hs]
  split
  · exact play_append_raw _ msg names
  · rfl

theorem follows_step {a : Ws.Action Raw} (hw : w.Wf) (hfull : NoneFull w) (hfull' : NoneFull (w.step a))
    (hlast : LastLeaves w a) (hi : i ∈ (w.step a).members r) {names : Set Text}
    (hnames : i ∈ w.members r → play effect (channel w i) names = present w r) :
    play effect (written w i a ++ channel (w.step a) i) names = present (w.step a) r := by
  cases a with
  | join ownerID session =>
      obtain ⟨R, hR, -, -, -, -, hsubs, -⟩ := Server.openRoom_spec hw ownerID
      have hsame : ∀ r, present (w.openRoom ownerID).1 r = present w r := fun r =>
        present_congr (Server.members_openRoom hw ownerID r) fun i _ => by rw [userOf, hsubs, userOf]
      have hbuffer : (w.openRoom ownerID).1.subscriberMessageBuffer = w.subscriberMessageBuffer := by
        unfold Server.openRoom; split <;> rfl
      have hfull₁ : NoneFull (w.openRoom ownerID).1 := by
        intro s hs
        rw [hsubs] at hs
        rw [hbuffer]
        exact hfull s hs
      refine follows_enter (hw.openRoom ownerID) hR hfull₁ hfull' hi fun hmem => ?_
      rw [Server.members_openRoom hw] at hmem
      rw [hsame, channel, hsubs, ← channel]
      exact hnames hmem
  | publishRoom r' msg sender => exact follows_send hw hfull (w.recipients r' sender) msg hi hnames
  | sendTo j msg => exact follows_send hw hfull {j} msg hi hnames
  | drain j =>
      refine follows_mapSubs hw {j} Subscriber.drain (written w i (.drain j)) (fun _ => rfl) hi (fun s hs => ?_) hnames
      by_cases hj : i = j
      · rw [written, if_pos hj, if_pos (Finset.mem_singleton.mpr hj), channel_eq hs, Subscriber.drain,
          ← List.drop_one, List.take_append_drop]
      · rw [written, if_neg hj, if_neg fun h => hj (Finset.mem_singleton.mp h), List.nil_append]
  | disconnect j =>
      refine follows_mapSubs hw {j} Subscriber.disconnect [] (fun _ => rfl) hi (fun s _ => ?_) hnames
      rw [Subscriber.disconnect, ite_self, List.nil_append]
  | evict j =>
      cases hl : w.leaver (.evict j) with
      | none =>
          simp only [Server.step, hl] at hi ⊢
          exact hnames hi
      | some k =>
          simp only [Server.step, hl] at hi ⊢
          obtain ⟨sub, hk, -⟩ := Server.of_leaver hl
          exact follows_leaver hw hfull Subscriber.evicted (fun _ => ⟨rfl, rfl, rfl⟩) hk (hlast.user hl hk) hi hnames
  | teardown j =>
      cases hl : w.leaver (.teardown j) with
      | none =>
          simp only [Server.step, hl] at hi ⊢
          exact hnames hi
      | some k =>
          simp only [Server.step, hl] at hi ⊢
          obtain ⟨sub, hk, -⟩ := Server.of_leaver hl
          exact follows_leaver hw hfull Subscriber.torn (fun _ => ⟨rfl, rfl, rfl⟩) hk (hlast.user hl hk) hi hnames

/-! ## Runs -/

/-- What each member of a room has not read leads it to the users in the room. -/
structure Synced (w : Presence Raw) : Prop where
  wf : w.ws.Wf
  kept : NoSilentEviction w.ws
  follows : ∀ r, ∀ i ∈ w.ws.members r, play effect (w.pending i) (usernames (w.connectedUsers i)) = present w.ws r

theorem Synced.new (buffer : Nat) : Synced (Presence.new buffer : Presence Raw) :=
  ⟨Server.Wf.new buffer, NoSilentEviction.new buffer, fun r i hi => by simp [Presence.new, Server.new, Server.members] at hi⟩

theorem NoneFull.noOverflow (h : NoneFull w) (a : Ws.Action Raw) : NoOverflow w a := by
  cases a with
  | publishRoom r msg sender => exact fun i _ s hs _ => h s (List.mem_of_getElem? hs)
  | sendTo i msg => exact fun s hs _ => h s (List.mem_of_getElem? hs)
  | join | drain | disconnect | evict | teardown => trivial

theorem Synced.step {w : Presence Raw} (h : Synced w) {a : PresenceAction Raw} (hfull : NoneFull w.ws)
    (hfull' : NoneFull (w.step a).ws) (hlast : w.LastLeaves a) : Synced (w.step a) := by
  cases a with
  | server a =>
      refine ⟨h.wf.step a, (Server.step_noSilentEviction_iff h.wf h.kept a).mpr (hfull.noOverflow a), fun r i hi => ?_⟩
      change play effect ((w.wire i ++ written w.ws i a) ++ channel (w.ws.step a) i) _ = present (w.ws.step a) r
      rw [List.append_assoc, play_append]
      refine follows_step h.wf hfull hfull' hlast hi fun hmem => ?_
      rw [← h.follows r i hmem, Presence.pending, play_append]
      rfl
  | receive j =>
      cases hwire : w.wire j with
      | nil =>
          have hsame : w.step (.receive j) = w := by simp only [Presence.step, hwire]
          rw [hsame]
          exact h
      | cons f rest =>
          have hstep : w.step (.receive j) =
              { w with
                wire := Function.update w.wire j rest
                connectedUsers := Function.update w.connectedUsers j (onmessage f (w.connectedUsers j)) } := by
            simp only [Presence.step, hwire]
          rw [hstep]
          refine ⟨h.wf, h.kept, fun r i hi => ?_⟩
          have hi' := h.follows r i hi
          by_cases hij : i = j
          · subst hij
            rw [Presence.pending, hwire, List.cons_append, play_cons, ← usernames_onmessage] at hi'
            simpa only [Presence.pending, Function.update_self] using hi'
          · simpa only [Presence.pending, Function.update_of_ne hij] using hi'

theorem Synced.agrees {w : Presence Raw} (h : Synced w) : w.Agrees := by
  intro hread i s hs hconn
  have hfollows := h.follows s.room i (h.kept i s hs hconn).member
  rwa [play_of_raw (hread i s hs hconn)] at hfollows

end Chessrepeat.Room
