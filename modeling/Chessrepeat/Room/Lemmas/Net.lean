import Chessrepeat.Lib.Replication
import Chessrepeat.Room.System
import Chessrepeat.Ws.Lemmas.Delivery

/-!
# A room as a net

Seen from one part of what the clients and the database hold (a `View`), the room is a net of replicas. What each
action does to the channels is proved here once; what it does to the part that is viewed is left to the view.
-/

namespace Chessrepeat.Room

open Lib Client Ws

variable {Card σ ο : Type}

/-- A part of what a client and the database hold, and the messages that change it. -/
structure View (Card σ ο : Type) where
  apply : ο → σ → σ
  op : Outgoing Card → Option ο
  master : Store.Db → σ
  replica : TrainerState Card → σ
  replica_sent : ∀ (s : TrainerState Card) (msgs : List (Outgoing Card)), replica { s with sent := msgs } = replica s

namespace View

variable (v : View Card σ ο)

def frameOp : Frame (Wire Card) → Option ο
  | .raw (.msg m) => v.op m
  | _ => none

def readyOp : Nat × Reaction (Wire Card) → Option (Nat × ο)
  | (i, .broadcast (.msg m)) => (v.op m).map (Prod.mk i)
  | _ => none

def after (f : Frame (Wire Card)) (x : σ) : σ :=
  match v.frameOp f with
  | none => x
  | some o => v.apply o x

/-- A client that is not in the room, or will reload, is stale. -/
def net (r : Nat) (s : System Card) : Net Nat σ ο where
  master := v.master s.db
  replica i := v.replica (s.clients i)
  outbox i := (s.clients i).sent.filterMap v.op
  ready := s.handled.filterMap v.readyOp
  inbox i := if i ∈ s.ws.members r then (s.channel i).filterMap v.frameOp else []
  stale i := i ∉ s.ws.members r ∨ s.Reloading i

end View

/-! ## The connections -/

/-- A step on the channels that keeps the rooms and the sessions. -/
structure SameSessions (w w' : Server (Wire Card)) : Prop where
  members : ∀ r, w'.members r = w.members r
  session : ∀ i : Nat, (w'.subs[i]?.map fun sub => (sub.room, sub.session)) = w.subs[i]?.map fun sub => (sub.room, sub.session)

theorem SameSessions.refl (w : Server (Wire Card)) : SameSessions w w := ⟨fun _ => rfl, fun _ => rfl⟩

theorem SameSessions.mapSubs (w : Server (Wire Card)) (is : Finset Nat) {f : Subscriber (Wire Card) → Subscriber (Wire Card)}
    (hf : ∀ sub, (f sub).room = sub.room ∧ (f sub).session = sub.session) : SameSessions w (w.mapSubs is f) := by
  refine ⟨fun r => rfl, fun i => ?_⟩
  rw [Server.getElem?_mapSubs, Option.map_map]
  congr 1
  funext sub
  simp only [Function.comp_apply]
  split
  · rw [(hf sub).1, (hf sub).2]
  · rfl

theorem session_send (n : Nat) (f : Frame (Wire Card)) (sub : Subscriber (Wire Card)) :
    (sub.send n f).room = sub.room ∧ (sub.send n f).session = sub.session := by
  rw [Subscriber.send]; split <;> exact ⟨rfl, rfl⟩

theorem SameSessions.react (w : Server (Wire Card)) (i : Nat) (sub : Subscriber (Wire Card)) (reaction : Reaction (Wire Card)) :
    SameSessions w (w.react i sub reaction) := by
  cases reaction with
  | drop => exact SameSessions.refl w
  | reply msg => exact SameSessions.mapSubs w {i} (session_send _ _)
  | broadcast msg =>
      have h := SameSessions.mapSubs w (w.recipients sub.room (some i)) (session_send w.subscriberMessageBuffer (.raw msg))
      exact ⟨h.members, h.session⟩

theorem SameSessions.drain (w : Server (Wire Card)) (i : Nat) : SameSessions w (w.step (.drain i)) :=
  SameSessions.mapSubs w {i} fun _ => ⟨rfl, rfl⟩

/-! ## Who is in the room -/

variable {r i j k : Nat} {s : System Card}

/-- Every member has a connection to the room, on which no message waits for a place. -/
structure Joined (r : Nat) (s : System Card) : Prop where
  sub : ∀ i ∈ s.ws.members r, ∃ sub, s.ws.subs[i]? = some sub ∧ sub.room = r
  handled : ∀ e ∈ s.handled, e.1 ∈ s.ws.members r
  once : (s.handled.map Prod.fst).Nodup
  outside : ∀ i, i ∉ s.ws.members r → (s.clients i).sent = []

theorem Joined.keep_sub {w : Server (Wire Card)} (h : ∀ i ∈ s.ws.members r, ∃ sub, s.ws.subs[i]? = some sub ∧ sub.room = r)
    (hw : SameSessions s.ws w) : ∀ i ∈ w.members r, ∃ sub, w.subs[i]? = some sub ∧ sub.room = r := by
  intro i hi
  rw [hw.members] at hi
  obtain ⟨sub, hsub, hr⟩ := h i hi
  have he := hw.session i
  rw [hsub] at he
  cases hsub' : w.subs[i]? with
  | none => rw [hsub'] at he; cases he
  | some sub' =>
      rw [hsub'] at he
      exact ⟨sub', rfl, (Prod.mk.inj (Option.some.inj he)).1.trans hr⟩

/-! ## What an action does -/

theorem System.handle_cases (cards : CardCodec Card) (s : System Card) (i : Nat) : s.handle cards i = s ∨
    ∃ sub msg rest, s.ws.subs[i]? = some sub ∧ (s.clients i).sent = msg :: rest ∧ s.busy i = false ∧
      s.handle cards i = System.setClient { s with
        db := (dispatch (codec cards) (messageFaults msg) s.db sub.session (.msg msg)).1
        handled := s.handled ++ [(i, (dispatch (codec cards) (messageFaults msg) s.db sub.session (.msg msg)).2)] } i
          { s.clients i with sent := rest } := by
  rw [System.handle]
  split
  · rename_i sub msg rest hsub hsent
    split
    · exact Or.inl rfl
    · rename_i hbusy
      exact Or.inr ⟨sub, msg, rest, hsub, hsent, by simpa using hbusy, rfl⟩
  · exact Or.inl rfl

theorem System.publish_cases (s : System Card) (k : Nat) : s.publish k = s ∨
    ∃ i reaction sub before after, s.handled = before ++ (i, reaction) :: after ∧ s.ws.subs[i]? = some sub ∧
      s.publish k = { s with ws := s.ws.react i sub reaction, handled := before ++ after } := by
  rw [System.publish]
  split
  · exact Or.inl rfl
  · rename_i i reaction hk
    split
    · exact Or.inl rfl
    · rename_i sub hsub
      obtain ⟨hlt, he⟩ := List.getElem?_eq_some_iff.mp hk
      refine Or.inr ⟨i, reaction, sub, s.handled.take k, s.handled.drop (k + 1), ?_, hsub, ?_⟩
      · rw [← he, List.cons_getElem_drop_succ, List.take_append_drop]
      · rw [List.eraseIdx_eq_take_drop_succ]

theorem System.deliver_cases (s : System Card) (i : Nat) (env : Env Card) : s.deliver i env = s ∨
    ∃ f fs, s.channel i = f :: fs ∧
      s.deliver i env =
        System.setClient { s with ws := s.ws.step (.drain i) } i (receive env (s.clients i) f) := by
  rw [System.deliver]
  split
  · exact Or.inl rfl
  · exact Or.inr ⟨_, _, ‹_›, rfl⟩

theorem channel_drain (s : System Card) {f : Frame (Wire Card)} {fs : List (Frame (Wire Card))}
    (h : s.channel i = f :: fs) (j : Nat) :
    System.channel { s with ws := s.ws.step (.drain i) } j = if j = i then fs else s.channel j := by
  have hj : (s.ws.step (.drain i)).subs[j]? = s.ws.subs[j]?.map fun sub => if j ∈ ({i} : Finset Nat) then sub.drain else sub :=
    Server.getElem?_mapSubs _ _ j
  simp only [System.channel, hj, Option.map_map, Function.comp_def, Finset.mem_singleton] at h ⊢
  by_cases hji : j = i
  · subst hji
    cases hsub : s.ws.subs[j]? with
    | none => rw [hsub] at h; cases h
    | some sub =>
        rw [hsub] at h
        have hm : sub.msgs = f :: fs := h
        simp [Subscriber.drain, hm]
  · simp [hji]

/-- No message is sent on a full channel. -/
def Roomy (r : Nat) (s : System Card) : Prop := ∀ i ∈ s.ws.members r, s.ws.isFull i = false

instance (r : Nat) (s : System Card) : Decidable (Roomy r s) := by delta Roomy; infer_instance

theorem channel_react {sub : Subscriber (Wire Card)} (reaction : Reaction (Wire Card))
    (handled : List (Nat × Reaction (Wire Card))) (hroom : Roomy r s) (hsub : sub.room = r)
    (hj : j ∈ s.ws.members r) :
    System.channel { s with ws := s.ws.react i sub reaction, handled := handled } j = s.channel j ++
      match reaction with
      | .drop => []
      | .reply msg => if j = i then [.raw msg] else []
      | .broadcast msg => if j = i then [] else [.raw msg] := by
  have hfull := hroom j hj
  rw [Server.isFull] at hfull
  have hsend : ∀ (is : Finset Nat) (msg : Wire Card),
      (((s.ws.mapSubs is (Subscriber.send s.ws.subscriberMessageBuffer (.raw msg))).subs[j]?).map Subscriber.msgs).getD [] =
        s.channel j ++ if j ∈ is then [.raw msg] else [] := by
    intro is msg
    rw [Server.getElem?_mapSubs, System.channel]
    cases hs : s.ws.subs[j]? with
    | none => rw [hs] at hfull; cases hfull
    | some sub' =>
        rw [hs] at hfull
        have hno : ¬sub'.full s.ws.subscriberMessageBuffer := of_decide_eq_false hfull
        by_cases hmem : j ∈ is
        · simp [hmem, Subscriber.send_of_not_full hno]
        · simp [hmem]
  cases reaction with
  | drop => exact (List.append_nil _).symm
  | reply msg => simpa [System.channel, Server.react, Server.sendTo] using hsend {i} msg
  | broadcast msg =>
      have h := hsend (s.ws.recipients sub.room (some i)) msg
      rw [hsub] at h
      simp only [Server.mem_recipients, hj, true_and, ne_eq, Option.some.injEq] at h
      rw [System.channel, Server.react, Server.publishRoom, hsub, h]
      by_cases hji : j = i <;> simp [hji]

/-! ## Messages under way -/

/-- Everything under way is a message of a kind, or asks for a reload. -/
structure Traffic (good : Outgoing Card → Prop) (r : Nat) (s : System Card) : Prop where
  sent : ∀ i, ∀ m ∈ (s.clients i).sent, good m
  handled : ∀ e ∈ s.handled, e.2 = .reply .reload ∨ ∃ m, e.2 = .broadcast (.msg m) ∧ good m
  channel : ∀ i ∈ s.ws.members r, ∀ m, Frame.raw (.msg m) ∈ s.channel i → good m

variable {good : Outgoing Card → Prop} {client : TrainerState Card}

theorem clients_setClient_self : (s.setClient i client).clients i = client := Function.update_self ..

theorem clients_setClient_ne (h : j ≠ i) : (s.setClient i client).clients j = s.clients j := Function.update_of_ne h ..

theorem channel_setClient (j : Nat) : (s.setClient i client).channel j = s.channel j := rfl

theorem Joined.setClient (h : Joined r s) (hi : i ∈ s.ws.members r) : Joined r (s.setClient i client) := by
  refine ⟨h.sub, h.handled, h.once, fun j hj => ?_⟩
  have hji : j ≠ i := by
    rintro rfl
    exact hj hi
  rw [clients_setClient_ne hji]
  exact h.outside j hj

theorem Traffic.setClient (h : Traffic good r s) (hc : ∀ m ∈ client.sent, good m) :
    Traffic good r (s.setClient i client) := by
  refine ⟨fun j m hm => ?_, h.handled, h.channel⟩
  by_cases hj : j = i
  · subst hj
    rw [clients_setClient_self] at hm
    exact hc m hm
  · rw [clients_setClient_ne hj] at hm
    exact h.sent j m hm

variable {cards : CardCodec Card}

/-- What the reader of `i` may decide on a good message. -/
def Decides (good : Outgoing Card → Prop) (reaction : Reaction (Wire Card)) : Prop :=
  reaction = .reply .reload ∨ ∃ m, reaction = .broadcast (.msg m) ∧ good m

theorem Traffic.handle (h : Traffic good r s) (hj : Joined r s) {i : Nat} (hi : i ∈ s.ws.members r)
    (hbusy : s.busy i = false) (db : Store.Db) {reaction : Reaction (Wire Card)} (hr : Decides good reaction) :
    Traffic good r { s with db := db, handled := s.handled ++ [(i, reaction)] } ∧
      Joined r { s with db := db, handled := s.handled ++ [(i, reaction)] } := by
  refine ⟨⟨h.sent, fun e he => ?_, h.channel⟩, ⟨hj.sub, fun e he => ?_, ?_, hj.outside⟩⟩
  · rcases List.mem_append.mp he with he | he
    · exact h.handled e he
    · rw [List.mem_singleton.mp he]
      exact hr
  · rcases List.mem_append.mp he with he | he
    · exact hj.handled e he
    · rw [List.mem_singleton.mp he]
      exact hi
  · rw [List.map_append, List.nodup_append]
    refine ⟨hj.once, List.nodup_singleton _, ?_⟩
    rintro a ha b hb rfl
    obtain ⟨e, he, rfl⟩ := List.mem_map.mp ha
    have hei : e.1 = i := List.mem_singleton.mp hb
    simp only [System.busy, List.any_eq_false, decide_eq_true_eq] at hbusy
    exact hbusy e he hei

theorem Joined.room (hj : Joined r s) {i : Nat} {sub : Subscriber (Wire Card)} (hi : i ∈ s.ws.members r)
    (hsub : s.ws.subs[i]? = some sub) : sub.room = r := by
  obtain ⟨sub', hsub', hr⟩ := hj.sub i hi
  rw [hsub] at hsub'
  cases hsub'
  exact hr

theorem Traffic.publish (h : Traffic good r s) (hj : Joined r s) (hroom : Roomy r s) {i : Nat}
    {reaction : Reaction (Wire Card)} {sub : Subscriber (Wire Card)} {before after : List (Nat × Reaction (Wire Card))}
    (hhandled : s.handled = before ++ (i, reaction) :: after) (hsub : s.ws.subs[i]? = some sub) :
    Traffic good r { s with ws := s.ws.react i sub reaction, handled := before ++ after } ∧
      Joined r { s with ws := s.ws.react i sub reaction, handled := before ++ after } := by
  have hsame := SameSessions.react s.ws i sub reaction
  have hrest : ∀ e ∈ before ++ after, e ∈ s.handled := by
    intro e he
    rw [hhandled]
    exact List.mem_append.mpr ((List.mem_append.mp he).imp_right (List.mem_cons_of_mem _))
  have hmem : (i, reaction) ∈ s.handled := hhandled ▸ List.mem_append_right _ List.mem_cons_self
  have hsubr : sub.room = r := hj.room (hj.handled _ hmem) hsub
  refine ⟨⟨h.sent, fun e he => h.handled e (hrest e he), fun j hjm m hm => ?_⟩,
    ⟨Joined.keep_sub hj.sub hsame, fun e he => ?_, ?_, fun j hjm => hj.outside j (hsame.members r ▸ hjm)⟩⟩
  · rw [hsame.members] at hjm
    rw [channel_react reaction _ hroom hsubr hjm] at hm
    rcases List.mem_append.mp hm with hm | hm
    · exact h.channel j hjm m hm
    · rcases h.handled _ hmem with he | ⟨m', he, hg⟩
      · simp only at he
        subst he
        simp at hm
      · simp only at he
        subst he
        simp only [List.mem_ite_nil_left, List.mem_singleton, Frame.raw.injEq, Wire.msg.injEq] at hm
        exact hm.2 ▸ hg
  · exact hsame.members r ▸ hj.handled e (hrest e he)
  · refine List.Sublist.nodup (List.Sublist.map _ ?_) hj.once
    rw [hhandled]
    exact (List.Sublist.refl _).append (List.sublist_cons_self _ _)

theorem Traffic.drain (h : Traffic good r s) (hj : Joined r s) {i : Nat} {f : Frame (Wire Card)}
    {fs : List (Frame (Wire Card))} (hf : s.channel i = f :: fs) :
    Traffic good r { s with ws := s.ws.step (.drain i) } ∧ Joined r { s with ws := s.ws.step (.drain i) } := by
  have hsame := SameSessions.drain s.ws i
  refine ⟨⟨h.sent, h.handled, fun j hjm m hm => ?_⟩, ⟨Joined.keep_sub hj.sub hsame, fun e he => ?_, hj.once,
    fun j hjm => hj.outside j (hsame.members r ▸ hjm)⟩⟩
  · rw [hsame.members] at hjm
    rw [channel_drain s hf] at hm
    refine h.channel j hjm m ?_
    by_cases hji : j = i
    · subst hji
      rw [if_pos rfl] at hm
      exact hf ▸ List.mem_cons_of_mem _ hm
    · rwa [if_neg hji] at hm
  · exact hsame.members r ▸ hj.handled e he

/-! ## Steps of the net -/

variable {v : View Card σ ο}

theorem reloading_setClient_ne (h : j ≠ i) : (s.setClient i client).Reloading j ↔ s.Reloading j := by
  rw [System.Reloading, clients_setClient_ne h]
  exact Iff.rfl

theorem View.replica_setClient : (v.net r (s.setClient i client)).replica i = v.replica client :=
  congrArg v.replica clients_setClient_self

theorem View.outbox_setClient : (v.net r (s.setClient i client)).outbox i = client.sent.filterMap v.op :=
  congrArg (fun c : TrainerState Card => c.sent.filterMap v.op) clients_setClient_self

theorem View.inbox_net (h : i ∈ s.ws.members r) : (v.net r s).inbox i = (s.channel i).filterMap v.frameOp :=
  if_pos h

theorem View.inbox_outside (h : i ∉ s.ws.members r) : (v.net r s).inbox i = [] := if_neg h

/-- In a quiescent room nobody is stale, and nothing is on its way to anybody. -/
theorem View.not_stale_of_quiescent (hq : s.Quiescent r) (hi : i ∈ s.ws.members r) : ¬(v.net r s).stale i := by
  rintro (hst | hst | hst | hst)
  · exact hst hi
  · exact hst (hq.resyncs i hi)
  · exact hq.channel i hi _ hst
  · rw [hq.handled] at hst
    cases hst

theorem View.inbox_of_quiescent (hq : s.Quiescent r) (hi : i ∈ s.ws.members r) : (v.net r s).inbox i = [] := by
  rw [View.inbox_net hi, List.filterMap_eq_nil_iff]
  intro f hf
  cases f with
  | raw msg => exact absurd hf (hq.channel i hi msg)
  | _ => rfl

theorem View.readyOp_fst {e : Nat × Reaction (Wire Card)} {e' : Nat × ο} (h : v.readyOp e = some e') : e'.1 = e.1 := by
  obtain ⟨i, reaction⟩ := e
  cases reaction with
  | broadcast msg =>
      cases msg with
      | msg m =>
          obtain ⟨o, -, rfl⟩ := Option.map_eq_some_iff.mp h
          rfl
      | _ => cases h
  | _ => cases h

theorem View.frame_setClient (h : (v.net r s).stale i → (v.net r (s.setClient i client)).stale i) :
    Net.Frame (v.net r s) (v.net r (s.setClient i client)) i ∧
      ∀ j, (v.net r s).stale j → (v.net r (s.setClient i client)).stale j := by
  have hst : ∀ j, j ≠ i → (v.net r s).stale j → (v.net r (s.setClient i client)).stale j := fun j hj =>
    Or.imp_right (reloading_setClient_ne hj).mpr
  refine ⟨⟨fun j hj => congrArg v.replica (clients_setClient_ne hj),
    fun j hj => congrArg (fun c : TrainerState Card => c.sent.filterMap v.op) (clients_setClient_ne hj), hst⟩, fun j => ?_⟩
  by_cases hj : j = i
  · exact hj ▸ h
  · exact hst j hj

/-- A client that waits for no response has the replica it should, unless it was stale. -/
theorem View.replica_or_stale {s₀ : System Card} {a : σ}
    (hst : (v.net r s₀).stale i → (v.net r (s.setClient i client)).stale i)
    (hrep : client.resyncs = [] → ¬(v.net r s₀).stale i → v.replica client = a) :
    (v.net r (s.setClient i client)).stale i ∨
      ¬(v.net r s₀).stale i ∧ (v.net r (s.setClient i client)).replica i = a := by
  by_cases h : (v.net r s₀).stale i
  · exact Or.inl (hst h)
  · by_cases hc : client.resyncs = []
    · exact Or.inr ⟨h, View.replica_setClient.trans (hrep hc h)⟩
    · left
      right
      rw [System.Reloading, clients_setClient_self]
      exact Or.inl hc

/-- The client `i` has sent a message. -/
theorem View.step_edit {m : Outgoing Card} {o : ο} (hm : v.op m = some o)
    (hsent : client.sent = (s.clients i).sent ++ [m]) (hres : client.resyncs = (s.clients i).resyncs)
    (hrep : ¬(v.net r s).stale i → v.replica client = v.apply o (v.replica (s.clients i))) :
    Net.Step v.apply (v.net r s) (v.net r (s.setClient i client)) (.edit i o) := by
  have hst : (v.net r s).stale i → (v.net r (s.setClient i client)).stale i := by
    refine Or.imp_right fun h => ?_
    rw [System.Reloading, clients_setClient_self, hres]
    exact h
  refine .edit i o (View.frame_setClient hst).1 rfl rfl rfl ?_ ?_
  · rw [View.outbox_setClient, hsent, List.filterMap_append, List.filterMap_cons_some hm]
    rfl
  · exact View.replica_or_stale hst fun _ => hrep

/-- The client `i` has sent nothing. -/
theorem View.step_idle (hsent : client.sent = (s.clients i).sent)
    (hres : (s.clients i).resyncs ≠ [] → client.resyncs ≠ [])
    (hrep : client.resyncs = [] → ¬(v.net r s).stale i → v.replica client = v.replica (s.clients i)) :
    Net.Step v.apply (v.net r s) (v.net r (s.setClient i client)) .traffic := by
  have hst : (v.net r s).stale i → (v.net r (s.setClient i client)).stale i := by
    refine Or.imp_right fun h => ?_
    rw [System.Reloading, clients_setClient_self]
    exact h.imp_left hres
  refine .idle i (View.frame_setClient hst).1 rfl rfl rfl ?_ (View.replica_or_stale hst hrep)
  rw [View.outbox_setClient, hsent]
  rfl

theorem View.step_reload (hsent : client.sent = (s.clients i).sent) :
    Net.Step v.apply (v.net r s) (v.net r (s.setClient i client)) (.reload i) := by
  refine .reload i ⟨fun j hj => congrArg v.replica (clients_setClient_ne hj), fun j hj => ?_, fun j hj => ?_⟩ rfl rfl rfl ?_
  · exact congrArg (fun c : TrainerState Card => c.sent.filterMap v.op) (clients_setClient_ne hj)
  · exact Or.imp_right (reloading_setClient_ne hj).mpr
  · rw [View.outbox_setClient, hsent]
    rfl

/-- The reader of `i` has dealt with the message `msg`. -/
theorem View.step_handle {msg : Outgoing Card} {rest : List (Outgoing Card)} {o : ο} (db : Store.Db)
    (reaction : Reaction (Wire Card)) (hsent : (s.clients i).sent = msg :: rest) (hop : v.op msg = some o) :
    let s' := System.setClient { s with db := db, handled := s.handled ++ [(i, reaction)] } i
      { s.clients i with sent := rest }
    (∀ m, reaction = .broadcast (.msg m) → v.op m = some o → v.master db = v.apply o (v.master s.db) →
      Net.Step v.apply (v.net r s) (v.net r s') .traffic) ∧
    (reaction = .reply .reload → v.master db = v.master s.db →
      Net.Step v.apply (v.net r s) (v.net r s') (.refuse i)) := by
  intro s'
  have hst : ∀ j, (v.net r s).stale j → (v.net r s').stale j := by
    intro j
    refine Or.imp_right fun h => ?_
    have hres : (s'.clients j).resyncs = (s.clients j).resyncs := by
      by_cases hj : j = i
      · subst hj
        rw [show s'.clients j = _ from clients_setClient_self]
      · rw [show s'.clients j = _ from clients_setClient_ne hj]
    refine h.imp (fun h => by rwa [hres]) (Or.imp_right fun h => List.mem_append_left _ h)
  have hframe : Net.Frame (v.net r s) (v.net r s') i :=
    ⟨fun j hj => congrArg v.replica (clients_setClient_ne hj),
      fun j hj => congrArg (fun c : TrainerState Card => c.sent.filterMap v.op) (clients_setClient_ne hj),
      fun j _ => hst j⟩
  have hout : (v.net r s).outbox i = o :: (v.net r s').outbox i := by
    rw [show (v.net r s').outbox i = rest.filterMap v.op from View.outbox_setClient]
    change (s.clients i).sent.filterMap v.op = _
    rw [hsent, List.filterMap_cons_some hop]
  have hready : (v.net r s').ready = (v.net r s).ready ++ [(i, reaction)].filterMap v.readyOp := List.filterMap_append
  constructor
  · rintro m rfl hm hmaster
    refine .commit i o hframe hout hmaster ?_ rfl ?_ (hst i)
    · rw [hready]
      simp [View.readyOp, hm]
    · exact View.replica_setClient.trans (v.replica_sent _ _)
  · rintro rfl hmaster
    refine .refuse i o hframe hout hmaster ?_ rfl (Or.inr (Or.inr (Or.inr ?_)))
    · rw [hready]
      exact List.append_nil _
    · exact List.mem_append_right _ List.mem_cons_self

/-- A `reload` that was decided is on the channel now. -/
theorem View.stale_react (v : View Card σ ο) {i : Nat} {reaction : Reaction (Wire Card)} {sub : Subscriber (Wire Card)}
    {before after : List (Nat × Reaction (Wire Card))} (hroom : Roomy r s) (hsub : sub.room = r)
    (hhandled : s.handled = before ++ (i, reaction) :: after) (hs : (v.net r s).stale j) :
    (v.net r { s with ws := s.ws.react i sub reaction, handled := before ++ after }).stale j := by
  by_cases hjm : j ∈ s.ws.members r
  · have hch := channel_react (i := i) reaction (before ++ after) hroom hsub hjm
    refine Or.inr ?_
    rcases hs with hs | hs | hs | hs
    · exact absurd hjm hs
    · exact Or.inl hs
    · exact Or.inr (Or.inl (by rw [hch]; exact List.mem_append_left _ hs))
    · rw [hhandled] at hs
      rcases List.mem_append.mp hs with hs | hs
      · exact Or.inr (Or.inr (List.mem_append_left _ hs))
      · rcases List.mem_cons.mp hs with hs | hs
        · cases hs
          exact Or.inr (Or.inl (by rw [hch]; simp))
        · exact Or.inr (Or.inr (List.mem_append_right _ hs))
  · exact Or.inl (by rwa [(SameSessions.react s.ws i sub reaction).members])

/-- A reader has sent what it had decided. -/
theorem View.step_publish (hgood : ∀ m, good m → ∃ o, v.op m = some o) (h : Traffic good r s) (hj : Joined r s)
    (hroom : Roomy r s) {i : Nat} {reaction : Reaction (Wire Card)} {sub : Subscriber (Wire Card)}
    {before after : List (Nat × Reaction (Wire Card))} (hhandled : s.handled = before ++ (i, reaction) :: after)
    (hsub : s.ws.subs[i]? = some sub) :
    Net.Step v.apply (v.net r s) (v.net r { s with ws := s.ws.react i sub reaction, handled := before ++ after }) .traffic := by
  have hmem : (i, reaction) ∈ s.handled := hhandled ▸ List.mem_append_right _ List.mem_cons_self
  have hsubr : sub.room = r := hj.room (hj.handled _ hmem) hsub
  have hsame := SameSessions.react s.ws i sub reaction
  have hch := fun {j} => channel_react (i := i) (j := j) reaction (before ++ after) hroom hsubr
  have hst : ∀ j, (v.net r s).stale j →
      (v.net r { s with ws := s.ws.react i sub reaction, handled := before ++ after }).stale j := fun _ =>
    v.stale_react hroom hsubr hhandled
  rcases h.handled _ hmem with he | ⟨m, he, hg⟩
  · simp only at he
    subst he
    refine .idle i ⟨fun _ _ => rfl, fun _ _ => rfl, fun j _ => hst j⟩ rfl ?_ ?_ rfl (Or.inl (hst i ?_))
    · change (before ++ after).filterMap _ = s.handled.filterMap _
      rw [hhandled, List.filterMap_append, List.filterMap_append]
      rfl
    · funext j
      by_cases hjm : j ∈ s.ws.members r
      · rw [View.inbox_net hjm, View.inbox_net (hsame.members r ▸ hjm), hch hjm, List.filterMap_append]
        by_cases hji : j = i <;> simp [hji, View.frameOp]
      · rw [View.inbox_outside hjm, View.inbox_outside (hsame.members r ▸ hjm)]
    · exact Or.inr (Or.inr (Or.inr hmem))
  · simp only at he
    subst he
    obtain ⟨o, hm⟩ := hgood m hg
    refine .publish i o (before.filterMap v.readyOp) (after.filterMap v.readyOp) ?_ ?_ ?_ rfl rfl rfl (fun j => ?_) hst
    · intro e he
      obtain ⟨e', he', hop⟩ := List.mem_filterMap.mp he
      rw [View.readyOp_fst hop]
      -- a reader decides about one message at a time
      have honce := hj.once
      rw [hhandled, List.map_append, List.nodup_append] at honce
      exact honce.2.2 _ (List.mem_map_of_mem he') _ List.mem_cons_self
    · change s.handled.filterMap _ = _
      rw [hhandled, List.filterMap_append, List.filterMap_cons_some (by simp [View.readyOp, hm] : v.readyOp _ = some (i, o))]
    · exact List.filterMap_append
    · by_cases hjm : j ∈ s.ws.members r
      · right
        rw [View.inbox_net hjm, View.inbox_net (hsame.members r ▸ hjm), hch hjm, List.filterMap_append]
        by_cases hji : j = i <;> simp [hji, View.frameOp, hm]
      · exact Or.inl (Or.inl (by rwa [hsame.members]))

/-- The client `i` has read a message off its channel. -/
theorem View.step_deliver {f : Frame (Wire Card)} {fs : List (Frame (Wire Card))} (hi : i ∈ s.ws.members r)
    (hf : s.channel i = f :: fs) (hsent : client.sent = (s.clients i).sent)
    (hres : (s.clients i).resyncs ≠ [] → client.resyncs ≠ []) (hreload : f = .raw .reload → client.resyncs ≠ [])
    (hrep : client.resyncs = [] → ¬(v.net r s).stale i → v.replica client = v.after f (v.replica (s.clients i))) :
    Net.Step v.apply (v.net r s) (v.net r (System.setClient { s with ws := s.ws.step (.drain i) } i client)) .traffic := by
  have hch := channel_drain s hf
  have hsame := SameSessions.drain s.ws i
  have hst : ∀ j, (v.net r s).stale j →
      (v.net r (System.setClient { s with ws := s.ws.step (.drain i) } i client)).stale j := by
    intro j hs
    refine hs.imp (fun hs => by rwa [← hsame.members] at hs) fun hs => ?_
    by_cases hji : j = i
    · subst hji
      rw [System.Reloading, clients_setClient_self]
      rcases hs with hs | hs | hs
      · exact Or.inl (hres hs)
      · rw [hf] at hs
        rcases List.mem_cons.mp hs with hs | hs
        · exact Or.inl (hreload hs.symm)
        · refine Or.inr (Or.inl ?_)
          rw [channel_setClient, hch j, if_pos rfl]
          exact hs
      · exact Or.inr (Or.inr hs)
    · rw [reloading_setClient_ne hji]
      refine hs.imp_right (Or.imp_left fun hs => ?_)
      rw [hch, if_neg hji]
      exact hs
  have hframe : Net.Frame (v.net r s) (v.net r (System.setClient { s with ws := s.ws.step (.drain i) } i client)) i :=
    ⟨fun j hj => congrArg v.replica (clients_setClient_ne hj),
      fun j hj => congrArg (fun c : TrainerState Card => c.sent.filterMap v.op) (clients_setClient_ne hj), fun j _ => hst j⟩
  have hout : (v.net r (System.setClient { s with ws := s.ws.step (.drain i) } i client)).outbox i = (v.net r s).outbox i := by
    rw [View.outbox_setClient, hsent]
    rfl
  have hin : ∀ j, (v.net r (System.setClient { s with ws := s.ws.step (.drain i) } i client)).inbox j =
      if j = i then fs.filterMap v.frameOp else (v.net r s).inbox j := by
    intro j
    by_cases hjm : j ∈ s.ws.members r
    · rw [View.inbox_net hjm, View.inbox_net (hsame.members r ▸ hjm), channel_setClient, hch j]
      split <;> rfl
    · have hji : j ≠ i := fun he => hjm (he ▸ hi)
      rw [View.inbox_outside hjm, View.inbox_outside (hsame.members r ▸ hjm), if_neg hji]
  have hini : (v.net r s).inbox i = (f :: fs).filterMap v.frameOp := by rw [View.inbox_net hi, hf]
  cases hop : v.frameOp f with
  | none =>
      simp only [View.after, hop] at hrep
      refine .idle i hframe rfl rfl ?_ hout (View.replica_or_stale (hst i) hrep)
      funext j
      rw [hin]
      by_cases hji : j = i
      · rw [if_pos hji, hji, hini, List.filterMap_cons_none hop]
      · rw [if_neg hji]
  | some o =>
      simp only [View.after, hop] at hrep
      refine .deliver i o hframe rfl rfl ?_ (fun j hj => ?_) hout (View.replica_or_stale (hst i) hrep)
      · rw [hin, if_pos rfl, hini, List.filterMap_cons_some hop]
      · rw [hin, if_neg hj]

end Chessrepeat.Room
