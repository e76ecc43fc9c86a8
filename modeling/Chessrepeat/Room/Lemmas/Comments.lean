import Chessrepeat.Room.Lemmas.Handling

/-!
# The comment on one move

As far as one comment goes, the room is a net of registers: whoever sets it overwrites what was there.
-/

namespace Chessrepeat.Room

open Lib Client Ws

variable {Card : Type} {chess : Chessops} {cards : CardCodec Card} {owner : Domain.Text} {r : Nat} {s : System Card}
  {c q : Domain.Text}

def commentView (Card : Type) (c q : Domain.Text) : View Card JsString JsString where
  apply t _ := t
  op
    | .setComment ch p t => if ch = Utf16.encode c ∧ p = Utf16.encode q then some t else none
    | _ => none
  master db := ((db.moves.find? (c, q)).map fun m => Utf16.encode m.comment).getD []
  replica client :=
    ((client.rootOf (Utf16.encode c)).map fun root => (nodeAtPath root (Utf16.encode q)).data.comment).getD []
  replica_sent _ _ := rfl

/-- A text without a lone surrogate, which the server would not read, and without NUL, which PostgreSQL refuses. -/
def Storable (t : JsString) : Prop := Utf16.WellFormed t ∧ Char.ofNat 0 ∉ Utf16.decode t

instance (t : JsString) : Decidable (Storable t) := by delta Storable; infer_instance

/-- A comment on the move, short enough and one that can be stored. -/
def Remark (c q : Domain.Text) (m : Outgoing Card) : Prop :=
  ∃ t, m = .setComment (Utf16.encode c) (Utf16.encode q) t ∧ Storable t ∧ t.length ≤ Client.maxCommentChars

theorem Remark.op {m : Outgoing Card} (h : Remark c q m) : ∃ t, (commentView Card c q).op m = some t := by
  obtain ⟨t, rfl, -⟩ := h
  exact ⟨t, if_pos ⟨rfl, rfl⟩⟩

/-- A client whose tree has the move. -/
def Holds (c q : Domain.Text) (client : TrainerState Card) : Prop :=
  Sound client ∧ ∃ root n, client.rootOf (Utf16.encode c) = some root ∧ nodeAtPathOrNull root (Utf16.encode q) = some n

/-- Somebody sets the comment on the move, the server deals with it, or somebody moves about. -/
def Comments (c q : Domain.Text) (r : Nat) (s : System Card) : Action Card → Prop
  | .user i env a => i ∈ s.ws.members r ∧ Online env ∧ match a with
    | .setCommentAt _ p => p = Utf16.encode q ∧ Selects (Utf16.encode c) (s.clients i)
    | a => isNavigation a = true
  | .handle i | .deliver i _ => i ∈ s.ws.members r
  | .publish _ => True
  | .reload .. => False

/-- The writer may edit, what is left of the new comment can be stored, and of the comments under way, the last of
every other client that has not been passed on is the same, or if there is none, the last one on its way to the
writer. No message is sent on a full channel. -/
def Uncontested (c q : Domain.Text) (r : Nat) (s : System Card) : Action Card → Prop
  | .user i _ (.setCommentAt t _) => MayEdit c s i ∧ Storable (cutComment t) ∧
      ((commentView Card c q).net r s).Alike (.edit i (cutComment t))
  | .publish _ => Roomy r s
  | _ => True

/-- The comment is the same for everyone and in the database. -/
def SameComment (c q : Domain.Text) (r : Nat) (s : System Card) : Prop :=
  ∃ m, s.db.moves.find? (c, q) = some m ∧ ∀ i ∈ s.ws.members r, ∃ root n,
    (s.clients i).rootOf (Utf16.encode c) = some root ∧ nodeAtPathOrNull root (Utf16.encode q) = some n ∧
      n.data.comment = Utf16.encode m.comment

structure Discussing (c q : Domain.Text) (r : Nat) (s : System Card) : Prop where
  joined : Joined r s
  editors : ∀ i, (s.clients i).sent ≠ [] → MayEdit c s i
  traffic : Traffic (Remark c q) r s
  row : s.db.moves.has (c, q) = true
  holds : ∀ i ∈ s.ws.members r, Holds c q (s.clients i)
  settles : ∃ t, ((commentView Card c q).net r s).Settles t

/-! ## Clients -/

variable {client client' : TrainerState Card}

theorem SameTrees.holds (h : SameTrees client client') (hh : Holds c q client) :
    Holds c q client' ∧ (commentView Card c q).replica client' = (commentView Card c q).replica client := by
  have hroot := h.rootOf (Utf16.encode c)
  refine ⟨⟨h.sound hh.1, by rw [hroot]; exact hh.2⟩, ?_⟩
  simp only [commentView, hroot]

theorem Holds.sent (h : Holds c q client) (msgs : List (Outgoing Card)) : Holds c q { client with sent := msgs } :=
  ⟨h.1.of_repertoire rfl rfl, h.2⟩

/-- A client whose comment has been set. -/
theorem Holds.withComment (h : Holds c q client) {root : TrainableNode Card} {msgs : List (Outgoing Card)} {t : JsString}
    (hs : Sound client') (hroot : client.rootOf (Utf16.encode c) = some root)
    (he : Edited (Utf16.encode c) (Rose.modify (fun m => m.ref = (nodeAtPath root (Utf16.encode q)).ref)
      (withComment t) root) msgs client client') :
    Holds c q client' ∧ (commentView Card c q).replica client' = t := by
  obtain ⟨root', n, hroot', hn⟩ := h.2
  obtain rfl : root = root' := Option.some.inj (hroot.symm.trans hroot')
  have hn' := nodeAtPathOrNull_setComment t (h.1.root_nodup (rootOf_mem hroot)) hn
  refine ⟨⟨hs, _, _, he.rootOf, hn'⟩, ?_⟩
  simp only [commentView, he.rootOf, Option.map_some, Option.getD_some]
  rw [nodeAtPath_of_found hn']
  rfl

/-! ## Steps -/

theorem Discussing.user (h : Discussing c q r s) {i : Nat} {env : Env Card} {a : Client.Action Card}
    (ha : Comments c q r s (.user i env a)) (hu : Uncontested c q r s (.user i env a)) :
    Discussing c q r (s.setClient i (Client.step chess (s.clients i) env a)) := by
  obtain ⟨hi, henv, ha⟩ := ha
  have hold := h.holds i hi
  -- an action that leaves the trees alone is a step without effect on the comment
  have hidle : ∀ client', SameTrees (s.clients i) client' → Discussing c q r (s.setClient i client') := by
    intro client' hsame
    obtain ⟨hh, hrep⟩ := SameTrees.holds hsame hold
    obtain ⟨t, ht⟩ := h.settles
    have hstep : Net.Step (commentView Card c q).apply ((commentView Card c q).net r s)
        ((commentView Card c q).net r (s.setClient i client')) .traffic :=
      View.step_idle hsame.sent (fun hr => by rw [hsame.resyncs]; exact hr) fun _ _ => hrep
    refine ⟨h.joined.setClient hi, fun j hj => ?_, h.traffic.setClient ?_, h.row, fun j hj => ?_, ht.step hstep trivial⟩
    · refine h.editors j fun hnil => hj ?_
      by_cases hji : j = i
      · subst hji
        rw [clients_setClient_self, hsame.sent, hnil]
      · rw [clients_setClient_ne hji, hnil]
    · rw [hsame.sent]
      exact h.traffic.sent i
    · by_cases hji : j = i
      · rw [hji, clients_setClient_self]
        exact hh
      · rw [clients_setClient_ne hji]
        exact h.holds j hj
  by_cases hnav : isNavigation a = true
  · exact hidle _ (SameTrees.navigation hnav)
  · cases a with
    | setCommentAt t p =>
        obtain ⟨rfl, hsel⟩ := ha
        rcases setCommentAt_cases hsel henv t (Utf16.encode q) with ⟨-, he⟩ | ⟨root, hroot, he⟩
        · exact hidle _ (by rw [Client.step, he]; exact SameTrees.refl _)
        · have hs : Sound (Client.step chess (s.clients i) env (.setCommentAt t (Utf16.encode q))) := hold.1.step trivial
          obtain ⟨hh, hrep⟩ := hold.withComment hs hroot he
          obtain ⟨v, hv⟩ := h.settles
          have hop : (commentView Card c q).op (.setComment (Utf16.encode c) (Utf16.encode q) (cutComment t)) =
              some (cutComment t) := if_pos ⟨rfl, rfl⟩
          have hstep : Net.Step (commentView Card c q).apply ((commentView Card c q).net r s)
              ((commentView Card c q).net r (s.setClient i (Client.step chess (s.clients i) env
                (.setCommentAt t (Utf16.encode q))))) (.edit i (cutComment t)) := by
            refine View.step_edit hop ?_ ?_ fun _ => hrep
            · exact he.sent
            · exact he.resyncs
          refine ⟨h.joined.setClient hi, fun j hj => ?_, h.traffic.setClient fun m hm => ?_, h.row, fun j hj => ?_,
            hv.step hstep hu.2.2⟩
          · by_cases hji : j = i
            · exact hji ▸ hu.1
            · rw [clients_setClient_ne hji] at hj
              exact h.editors j hj
          · change m ∈ ((s.clients i).setCommentAt env t (Utf16.encode q)).sent at hm
            rw [he.sent] at hm
            rcases List.mem_append.mp hm with hm | hm
            · exact h.traffic.sent i m hm
            · exact ⟨_, List.mem_singleton.mp hm, hu.2.1, length_cutComment t⟩
          · by_cases hji : j = i
            · rw [hji, clients_setClient_self]
              exact hh
            · rw [clients_setClient_ne hji]
              exact h.holds j hj
    | _ => exact absurd ha hnav

theorem Discussing.handle (h : Discussing c q r s) {i : Nat} (hi : i ∈ s.ws.members r) :
    Discussing c q r (s.handle cards i) := by
  rcases System.handle_cases cards s i with he | ⟨sub, msg, rest, hsub, hsent, hbusy, he⟩
  · rwa [he]
  · obtain ⟨t, rfl, hwf, hlen⟩ := h.traffic.sent i msg (hsent ▸ List.mem_cons_self)
    have hedit : MayEdit c s i := h.editors i (by simp [hsent])
    rw [dispatch_setComment (hedit sub hsub) h.row hwf.1 hwf.2 hlen] at he
    rw [he]
    obtain ⟨ht, hj⟩ := h.traffic.handle h.joined hi hbusy (s.db.updateComment c q (Utf16.decode t))
      (Or.inr ⟨.setComment (Utf16.encode c) (Utf16.encode q) t, rfl, t, rfl, hwf, hlen⟩)
    have hmaster : (commentView Card c q).master (s.db.updateComment c q (Utf16.decode t)) = t := by
      obtain ⟨m, hm⟩ := Option.isSome_iff_exists.mp h.row
      simp only [commentView, Store.Db.find?_updateComment, if_true, hm, Option.map_some, Option.getD_some]
      exact hwf.1
    obtain ⟨v, hv⟩ := h.settles
    have hop : (commentView Card c q).op (.setComment (Utf16.encode c) (Utf16.encode q) t) = some t := if_pos ⟨rfl, rfl⟩
    have hstep := (View.step_handle (v := commentView Card c q) (r := r) _ _ hsent hop).1 _ rfl hop hmaster
    refine ⟨hj.setClient hi, fun j hjm => ?_, ht.setClient fun m hm => ?_, ?_, fun j hjm => ?_, hv.step hstep trivial⟩
    · refine (h.editors j fun hnil => hjm ?_).keep (SameSessions.refl _) ⟨rfl, rfl⟩
      by_cases hji : j = i
      · rw [hji, hsent] at hnil
        cases hnil
      · rw [clients_setClient_ne hji]
        exact hnil
    · exact h.traffic.sent i m (hsent ▸ List.mem_cons_of_mem _ hm)
    · exact Store.Db.has_updateComment.trans h.row
    · by_cases hji : j = i
      · rw [hji, clients_setClient_self]
        exact (h.holds i hi).sent rest
      · rw [clients_setClient_ne hji]
        exact h.holds j hjm

theorem Discussing.publish (h : Discussing c q r s) (hroom : Roomy r s) (k : Nat) : Discussing c q r (s.publish k) := by
  rcases System.publish_cases s k with he | ⟨i, reaction, sub, before, after, hhandled, hsub, he⟩
  · rwa [he]
  · rw [he]
    obtain ⟨ht, hj⟩ := h.traffic.publish h.joined hroom hhandled hsub
    have hsame := SameSessions.react s.ws i sub reaction
    obtain ⟨v, hv⟩ := h.settles
    have hstep := View.step_publish (v := commentView Card c q) (fun m hm => Remark.op hm) h.traffic h.joined hroom
      hhandled hsub
    refine ⟨hj, fun j hjm => (h.editors j hjm).keep hsame (SameAccess.refl _), ht, h.row, fun j hjm => ?_, hv.step hstep trivial⟩
    exact h.holds j (by rwa [← hsame.members])

theorem Discussing.deliver (h : Discussing c q r s) {i : Nat} (hi : i ∈ s.ws.members r) (env : Env Card) :
    Discussing c q r (s.deliver i env) := by
  rcases System.deliver_cases s i env with he | ⟨f, fs, hf, he⟩
  · rwa [he]
  · rw [he]
    have hold := h.holds i hi
    have hsame := SameSessions.drain s.ws i
    obtain ⟨hsent, hres⟩ := receive_network env (s.clients i) f
    have hmem : f ∈ s.channel i := hf ▸ List.mem_cons_self
    have hsound : Sound (receive env (s.clients i) f) := by
      refine sound_receive hold.1 fun ch p d hd => ?_
      obtain ⟨t, ht, -⟩ := h.traffic.channel i hi _ (hd ▸ hmem)
      cases ht
    -- what the frame does to the comment
    have hclient : Holds c q (receive env (s.clients i) f) ∧
        (commentView Card c q).replica (receive env (s.clients i) f) =
          (commentView Card c q).after f ((commentView Card c q).replica (s.clients i)) := by
      cases f with
      | raw msg =>
          cases msg with
          | msg m =>
              obtain ⟨t, rfl, -⟩ := h.traffic.channel i hi m hmem
              obtain ⟨root, n, hroot, hn⟩ := hold.2
              have hop : (commentView Card c q).frameOp
                  (.raw (.msg (.setComment (Utf16.encode c) (Utf16.encode q) t))) = some t := if_pos ⟨rfl, rfl⟩
              rw [View.after, hop]
              exact hold.withComment hsound hroot (setCommentRemote_edited hroot)
          | reload => exact ⟨⟨hsound, hold.2⟩, rfl⟩
          | pong => exact ⟨hold, rfl⟩
      | _ => exact ⟨hold, rfl⟩
    obtain ⟨ht, hj⟩ := h.traffic.drain h.joined hf
    obtain ⟨v, hv⟩ := h.settles
    have hstep : Net.Step (commentView Card c q).apply ((commentView Card c q).net r s) _ .traffic :=
      View.step_deliver hi hf hsent (receive_resyncs f) (fun hfr => by rw [hfr]; exact receive_reload)
        fun _ _ => hclient.2
    have hi' : i ∈ (s.ws.step (.drain i)).members r := by rwa [hsame.members]
    refine ⟨hj.setClient hi', fun j hjm => (h.editors j fun hnil => hjm ?_).keep hsame (SameAccess.refl _),
      ht.setClient fun m hm => ?_, h.row, fun j hjm => ?_, hv.step hstep trivial⟩
    · by_cases hji : j = i
      · rw [hji, clients_setClient_self, hsent, ← hji, hnil]
      · rw [clients_setClient_ne hji]
        exact hnil
    · exact h.traffic.sent i m (hsent ▸ hm)
    · by_cases hji : j = i
      · rw [hji, clients_setClient_self]
        exact hclient.1
      · rw [clients_setClient_ne hji]
        exact h.holds j (by rw [← hsame.members]; exact hjm)

theorem Discussing.step (h : Discussing c q r s) {a : Action Card} (ha : Comments c q r s a) (hu : Uncontested c q r s a) :
    Discussing c q r (System.step chess cards owner s a) := by
  cases a with
  | user i env a => exact h.user ha hu
  | handle i => exact h.handle ha
  | publish k => exact h.publish hu k
  | deliver i env => exact h.deliver ha env
  | reload => exact ha.elim

/-- In a quiescent state, nobody is stale and nothing is under way. -/
theorem Discussing.sameComment (h : Discussing c q r s) (hq : s.Quiescent r) : SameComment c q r s := by
  obtain ⟨m, hm⟩ := Option.isSome_iff_exists.mp h.row
  refine ⟨m, hm, fun i hi => ?_⟩
  obtain ⟨-, root, n, hroot, hn⟩ := h.holds i hi
  obtain ⟨t, ht⟩ := h.settles
  have heq := ht.replica_eq (View.not_stale_of_quiescent hq hi) (fun j => ?_) ?_ (View.inbox_of_quiescent hq hi)
  · simp only [View.net, commentView, hroot, hm, Option.map_some, Option.getD_some] at heq
    rw [nodeAtPath_of_found hn] at heq
    exact ⟨root, n, hroot, hn, heq⟩
  · by_cases hj : j ∈ s.ws.members r
    · simp [View.net, hq.sent j hj]
    · simp [View.net, h.joined.outside j hj]
  · simp [View.net, hq.handled]

end Chessrepeat.Room
