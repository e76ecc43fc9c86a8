import Chessrepeat.Lib.TreeOp
import Chessrepeat.Room.Lemmas.Handling
import Chessrepeat.Room.Lemmas.Reload

/-!
# The moves of one chapter

As far as the paths of the moves go, the room is a net of sets of paths. A client that has lost track asks for a
reload, and until it has come nothing is said about the client.
-/

namespace Chessrepeat.Room

open Lib Client Ws

variable {Card : Type} {chess : Chessops} {cards : CardCodec Card} {owner : Domain.Text} {r : Nat} {s s' : System Card}
  {c : Domain.Text}

def pathsView (Card : Type) (c : Domain.Text) : View Card (Set (List Char)) (TreeOp Char) where
  apply := TreeOp.apply
  op
    | .moveCreated ch p d => if ch = Utf16.encode c then some (.add (Utf16.decode p) (Utf16.decode d.id)) else none
    | .nodeDeleted ch p => if ch = Utf16.encode c then some (.delete (Utf16.decode p)) else none
    | _ => none
  master db := {q | db.moves.has (c, q) = true}
  replica client := {q | ∃ root, client.rootOf (Utf16.encode c) = some root ∧
    (nodeAtPathOrNull root (Utf16.encode q)).isSome = true}
  replica_sent _ _ := rfl

/-- A message about the moves of the chapter, with an id of two code units and without lone surrogates. -/
def Structural (c : Domain.Text) : Outgoing Card → Prop
  | .moveCreated ch p d => ch = Utf16.encode c ∧ Utf16.WellFormed p ∧ d.id.length = 2 ∧ Utf16.Plain d.id
  | .nodeDeleted ch p => ch = Utf16.encode c ∧ Utf16.WellFormed p
  | _ => False

theorem Structural.op {m : Outgoing Card} (h : Structural c m) : ∃ o, (pathsView Card c).op m = some o := by
  cases m with
  | moveCreated ch p d => exact ⟨_, if_pos h.1⟩
  | nodeDeleted ch p => exact ⟨_, if_pos h.1⟩
  | _ => exact h.elim

/-! ## Clients -/

/-- A client that has the chapter. -/
structure Carries (c : Domain.Text) (client : TrainerState Card) : Prop where
  sound : Sound client
  root : ∃ root, client.rootOf (Utf16.encode c) = some root ∧ PlainIds root

/-- In the chapter, no two children of a node have one id. -/
def DistinctTree (c : Domain.Text) (client : TrainerState Card) : Prop :=
  ∀ root, client.rootOf (Utf16.encode c) = some root → DistinctIds root

section Client

variable {client client' : TrainerState Card} {root n : TrainableNode Card} {p : JsString} {msgs : List (Outgoing Card)}

theorem mem_replica (h : client.rootOf (Utf16.encode c) = some root) (q : Domain.Text) :
    q ∈ (pathsView Card c).replica client ↔ (nodeAtPathOrNull root (Utf16.encode q)).isSome = true := by
  constructor
  · rintro ⟨root', hroot', hq⟩
    rw [h] at hroot'
    cases hroot'
    exact hq
  · exact fun hq => ⟨root, h, hq⟩

theorem SameTrees.carries (h : SameTrees client client') (hc : Carries c client) : Carries c client' :=
  ⟨h.sound hc.sound, by rw [h.rootOf]; exact hc.root⟩

theorem SameTrees.replica (h : SameTrees client client') :
    (pathsView Card c).replica client' = (pathsView Card c).replica client := by
  simp only [pathsView, h.rootOf]

/-- The tree after a new move. -/
theorem Carries.push {ref : Nat} {d : TrainingData Card} (h : Carries c client) (hs : Sound client')
    (hroot : client.rootOf (Utf16.encode c) = some root) (hn : nodeAtPathOrNull root p = some n)
    (hp : Utf16.WellFormed p) (hid : d.id.length = 2) (hplain : Utf16.Plain d.id)
    (he : Edited (Utf16.encode c) (Rose.modify (fun m => m.ref = n.label.ref) (TrainableNode.push (.node ⟨ref, d⟩ [])) root)
      msgs client client') :
    Carries c client' ∧ (pathsView Card c).replica client' =
      TreeOp.apply (.add (Utf16.decode p) (Utf16.decode d.id)) ((pathsView Card c).replica client) := by
  obtain ⟨root', hroot', hids⟩ := h.root
  obtain rfl : root = root' := Option.some.inj (hroot.symm.trans hroot')
  refine ⟨⟨hs, _, he.rootOf, hids.push hplain⟩, ?_⟩
  have hmem := rootOf_mem hroot
  ext q
  have hpush := isSome_push (l := ⟨ref, d⟩) (h.sound.twoUnits root hmem) (h.sound.root_nodup hmem) hn hid (Utf16.encode q)
  rw [mem_replica he.rootOf, hpush, TreeOp.mem_add, mem_replica hroot, mem_replica hroot, hp.eq, hn]
  have hq : Utf16.encode q = p ++ d.id ↔ q = Utf16.decode p ++ Utf16.decode d.id := by
    rw [(hp.append hplain.wellFormed).encode_eq_iff, hp.decode_append]
  simp [Object.id, hq]

/-- The tree after a deletion, if it is aimed well. -/
theorem Carries.delete (h : Carries c client) (hs : Sound client') (hroot : client.rootOf (Utf16.encode c) = some root)
    (hp : Utf16.WellFormed p)
    (he : Edited (Utf16.encode c) (Rose.modify (fun m => m.ref = (nodeAtPath root (init p)).ref) (removeChild (last p)) root)
      msgs client client') :
    Carries c client' ∧ (Aimed root p → (pathsView Card c).replica client' =
      TreeOp.apply (.delete (Utf16.decode p)) ((pathsView Card c).replica client)) := by
  obtain ⟨root', hroot', hids⟩ := h.root
  obtain rfl : root = root' := Option.some.inj (hroot.symm.trans hroot')
  refine ⟨⟨hs, _, he.rootOf, hids.removeChild _⟩, fun ha => ?_⟩
  have hmem := rootOf_mem hroot
  ext q
  rw [mem_replica he.rootOf, isSome_deleteNodeAt (h.sound.twoUnits root hmem) (h.sound.root_nodup hmem) ha,
    TreeOp.mem_delete, mem_replica hroot, mem_replica hroot, hp.eq]
  have h0 : p ≠ [] ↔ Utf16.decode p ≠ [] := not_congr hp.decode_eq_nil.symm
  rw [h0, hp.prefix_encode_iff]

theorem DistinctTree.congr (h : DistinctTree c client)
    (hroot : client'.rootOf (Utf16.encode c) = client.rootOf (Utf16.encode c)) : DistinctTree c client' := by
  intro root hr
  exact h root (hroot ▸ hr)

theorem DistinctTree.push {ref : Nat} {d : TrainingData Card} (h : DistinctTree c client) (hs : Sound client)
    (hroot : client.rootOf (Utf16.encode c) = some root) (hn : nodeAtPathOrNull root p = some n)
    (hnew : childById n d.id = none)
    (he : Edited (Utf16.encode c) (Rose.modify (fun m => m.ref = n.label.ref) (TrainableNode.push (.node ⟨ref, d⟩ [])) root)
      msgs client client') : DistinctTree c client' := by
  intro root' hroot'
  rw [he.rootOf] at hroot'
  cases hroot'
  exact (h root hroot).push (hs.root_nodup (rootOf_mem hroot)) (nodeAtPathOrNull_mem_nodes hn) hnew

theorem DistinctTree.delete (h : DistinctTree c client) (hroot : client.rootOf (Utf16.encode c) = some root)
    (he : Edited (Utf16.encode c) (Rose.modify (fun m => m.ref = (nodeAtPath root (init p)).ref) (removeChild (last p)) root)
      msgs client client') : DistinctTree c client' := by
  intro root' hroot'
  rw [he.rootOf] at hroot'
  cases hroot'
  exact (h root hroot).removeChild _

end Client

/-! ## The database -/

section Server

variable {db db' : Store.Db} {p : Domain.Text}

theorem master_add {d : Domain.TrainingData} (hroot : db.moves.has (c, []) = true)
    (h : db.addMoveToChapter ⟨c, d, p⟩ = .ok db') :
    (pathsView Card c).master db' = TreeOp.apply (.add p d.id) ((pathsView Card c).master db) := by
  obtain ⟨hparent, rfl⟩ := Store.Db.addMoveToChapter_ok h
  have hp : db.moves.has (c, p) = true := hparent.elim (fun h0 : p = [] => h0 ▸ hroot) id
  ext q
  change Table.has _ _ = true ↔ db.moves.has (c, q) = true ∨ db.moves.has (c, p) = true ∧ q = p ++ d.id
  rw [Table.has_upsert, Store.MoveRow.key_eq]
  change c = c ∧ p ++ d.id = q ∨ _ ↔ _
  simp only [hp, true_and, eq_comm, or_comm]

theorem addMoveToChapter_error {e : Domain.MoveEvent} {err : Store.StoreError} (hc : db.chapters.has e.chapterID = true)
    (h : db.addMoveToChapter e = .error err) : err ∈ [.pathNotFound, .chapterMoveLimit] := by
  rw [Store.Db.addMoveToChapter] at h
  split at h
  · cases h
    decide
  · simp only at h
    split at h
    · cases h
      decide
    · rw [Store.Db.upsertMove, if_pos hc] at h
      cases h

theorem master_delete (h : db.deleteNodeFromChapter ⟨c, p⟩ = .ok db') :
    (pathsView Card c).master db' = TreeOp.apply (.delete p) ((pathsView Card c).master db) := by
  rw [Store.Db.deleteNodeFromChapter] at h
  ext q
  change db'.moves.has (c, q) = true ↔ db.moves.has (c, q) = true ∧ ¬(p ≠ [] ∧ db.moves.has (c, p) = true ∧ p <+: q)
  split at h
  · rename_i hex
    cases h
    obtain ⟨h0, hhas⟩ := Store.Db.pathExists_iff.mp hex
    rw [Store.Db.has_deleteSubtree]
    simp [h0, hhas]
  · split at h
    · rename_i h0
      cases h
      simp [show p = [] from h0]
    · cases h

theorem deleteNodeFromChapter_error {e : Domain.NodeDeleteEvent} {err : Store.StoreError}
    (h : db.deleteNodeFromChapter e = .error err) : err = .pathNotFound := by
  rw [Store.Db.deleteNodeFromChapter] at h
  split at h
  · cases h
  · split at h <;> cases h
    rfl

end Server

/-! ## Actions -/

/-- Somebody makes a move or deletes a line in the chapter, the server deals with it, somebody reloads or moves about. No
message is sent on a full channel. -/
def Edits (c : Domain.Text) (r : Nat) (s : System Card) : Action Card → Prop
  | .user i env a => i ∈ s.ws.members r ∧ Online env ∧ match a with
    | .makeMove _ => Selects (Utf16.encode c) (s.clients i)
    | .deleteLine path => Selects (Utf16.encode c) (s.clients i) ∧ Utf16.WellFormed path
    | a => isNavigation a = true
  | .handle i | .deliver i _ | .reload i .. => i ∈ s.ws.members r
  | .publish _ => Roomy r s

/-- The edit crosses no edit that it depends on: none on its way to the client, unless the client will reload, and none
of another client that has not been passed on. -/
def Apart (c : Domain.Text) (r : Nat) (s : System Card) (i : Nat) (o : TreeOp Char) : Prop :=
  (s.Reloading i ∨ ∀ a ∈ ((pathsView Card c).net r s).inbox i, a.Independent o) ∧
    ∀ j, j ≠ i → ∀ a, ((pathsView Card c).net r s).Pending j a → a.Independent o

/-- The client can carry out the message: the move is not there yet, the deletion is aimed well. -/
def Fits (c : Domain.Text) (client : TrainerState Card) : Frame (Wire Card) → Prop
  | .raw (.msg (.moveCreated _ p d)) => ∀ root n, client.rootOf (Utf16.encode c) = some root →
      nodeAtPathOrNull root p = some n → childById n d.id = none
  | .raw (.msg (.nodeDeleted _ p)) => ∀ root, client.rootOf (Utf16.encode c) = some root → Aimed root p
  | _ => True

/-- What is on its way to the client leads from the database to where the client's own edits lead it. -/
def CaughtUp (c : Domain.Text) (r : Nat) (s : System Card) (i : Nat) : Prop :=
  Replication.play TreeOp.apply (((pathsView Card c).net r s).inbox i ++ ((pathsView Card c).net r s).unseen i)
      ((pathsView Card c).master s.db) =
    Replication.play TreeOp.apply (((pathsView Card c).net r s).outbox i) ((pathsView Card c).master s.db)

/-- A reload of `i` is still to come after its `k`-th. -/
def ReloadsAgain (s : System Card) (i k : Nat) : Prop :=
  (s.clients i).resyncs.eraseIdx k ≠ [] ∨ Frame.raw Wire.reload ∈ s.channel i ∨ (i, Reaction.reply Wire.reload) ∈ s.handled

/-- No edit crosses one that it depends on, no client gets a move it has or a deletion it would carry out elsewhere, and
no client reloads while an edit is under way that the response does not agree with. -/
def Uncrossing (chess : Chessops) (c : Domain.Text) (r : Nat) (s : System Card) : Action Card → Prop
  | .user i _ (.makeMove san) => ∀ n d, nextMove chess (s.clients i) san = some (n, d) →
      SelectionConsistent (s.clients i) ∧ (s.Reloading i ∨ childById n d.id = none) ∧
        Apart c r s i (.add (Utf16.decode (s.clients i).selectedPath) (Utf16.decode d.id))
  | .user i _ (.deleteLine path) => (s.clients i).selectedChapter ≠ none →
      (s.Reloading i ∨ ∀ root, (s.clients i).rootOf (Utf16.encode c) = some root → Aimed root path) ∧
        Apart c r s i (.delete (Utf16.decode path))
  | .deliver i _ => s.Reloading i ∨ ∀ f ∈ (s.channel i).head?, Fits c (s.clients i) f
  | .reload i k _ _ => k < (s.clients i).resyncs.length → ReloadsAgain s i k ∨ CaughtUp c r s i
  | _ => True

/-- Every client's tree and the database have the same paths, each once. -/
def Converged (c : Domain.Text) (r : Nat) (s : System Card) : Prop :=
  ∀ i ∈ s.ws.members r, ∃ root, (s.clients i).rootOf (Utf16.encode c) = some root ∧ (paths root).Nodup ∧
    ∀ p, p ∈ paths root ↔ ∃ q, s.db.moves.has (c, q) = true ∧ p = Utf16.encode q

/-! ## The invariant -/

/-- The room while the chapter is edited. -/
structure Base (c owner : Domain.Text) (r : Nat) (s : System Card) : Prop where
  joined : Joined r s
  traffic : Traffic (Structural c) r s
  editors : ∀ i ∈ s.ws.members r, MayEdit c s i
  chapter : ∃ row, s.db.chapters.find? c = some row ∧ row.ownerId = owner
  kept : ∀ row ∈ s.db.chapters.rows, row.ownerId = owner → Store.Kept s.db row.uuid
  rooted : s.db.moves.has (c, []) = true
  carries : ∀ i ∈ s.ws.members r, Carries c (s.clients i)

structure Editing (c owner : Domain.Text) (r : Nat) (s : System Card) : Prop extends Base c owner r s where
  distinct : ∀ i, ((pathsView Card c).net r s).stale i ∨ DistinctTree c (s.clients i)
  inv : ((pathsView Card c).net r s).Inv TreeOp.apply

theorem Base.setClient {i : Nat} {client : TrainerState Card} (h : Base c owner r s) (hi : i ∈ s.ws.members r)
    (hc : Carries c client) (hsent : ∀ m ∈ client.sent, Structural c m) : Base c owner r (s.setClient i client) := by
  refine ⟨h.joined.setClient hi, h.traffic.setClient hsent, fun j hj => ?_, h.chapter, h.kept, h.rooted, fun j hj => ?_⟩
  · exact (h.editors j hj).keep (SameSessions.refl _) (SameAccess.refl _)
  · by_cases hji : j = i
    · rw [hji, clients_setClient_self]
      exact hc
    · rw [clients_setClient_ne hji]
      exact h.carries j hj

/-- One step of the net. A client whose tree has changed is stale or has distinct ids. -/
theorem Editing.next {l : Net.Label Nat (TreeOp Char)} (h : Editing c owner r s) (hb : Base c owner r s')
    (hs : Net.Step TreeOp.apply ((pathsView Card c).net r s) ((pathsView Card c).net r s') l)
    (hl : Net.Uncrossed TreeOp.apply ((pathsView Card c).net r s) ((pathsView Card c).net r s') l)
    (hd : ∀ i, l ≠ .reload i ∧ (s'.clients i).rootOf (Utf16.encode c) = (s.clients i).rootOf (Utf16.encode c) ∨
      ((pathsView Card c).net r s').stale i ∨ DistinctTree c (s'.clients i)) : Editing c owner r s' := by
  refine ⟨hb, fun i => ?_, h.inv.step hs hl⟩
  rcases hd i with ⟨hne, hroot⟩ | hd
  · exact (h.distinct i).imp (hs.stale hne) fun hdist => hdist.congr hroot
  · exact hd

theorem rootOf_setClient {i : Nat} {client : TrainerState Card}
    (h : client.rootOf (Utf16.encode c) = (s.clients i).rootOf (Utf16.encode c)) (j : Nat) :
    ((s.setClient i client).clients j).rootOf (Utf16.encode c) = (s.clients j).rootOf (Utf16.encode c) := by
  by_cases hji : j = i
  · rw [hji, clients_setClient_self, h]
  · rw [clients_setClient_ne hji]

/-! ## What a user does -/

theorem Editing.idle {i : Nat} {client : TrainerState Card} (h : Editing c owner r s) (hi : i ∈ s.ws.members r)
    (hsame : SameTrees (s.clients i) client) : Editing c owner r (s.setClient i client) := by
  have hstep : Net.Step (pathsView Card c).apply ((pathsView Card c).net r s)
      ((pathsView Card c).net r (s.setClient i client)) .traffic :=
    View.step_idle hsame.sent (fun hr => by rw [hsame.resyncs]; exact hr) fun _ _ => SameTrees.replica hsame
  refine h.next (h.setClient hi (SameTrees.carries hsame (h.carries i hi)) ?_) hstep trivial fun j => Or.inl ⟨nofun, ?_⟩
  · rw [hsame.sent]
    exact h.traffic.sent i
  · exact rootOf_setClient (hsame.rootOf _) j

/-- The client `i` has edited its tree and sent a message. -/
theorem Editing.edit {i : Nat} {client : TrainerState Card} {m : Outgoing Card} {o : TreeOp Char} {root : TrainableNode Card}
    (h : Editing c owner r s) (hi : i ∈ s.ws.members r) (hm : Structural c m) (hop : (pathsView Card c).op m = some o)
    (hc : Carries c client) (he : Edited (Utf16.encode c) root [m] (s.clients i) client)
    (hrep : ¬s.Reloading i → (pathsView Card c).replica client = TreeOp.apply o ((pathsView Card c).replica (s.clients i)))
    (hd : s.Reloading i ∨ DistinctTree c client) (ha : Apart c r s i o) : Editing c owner r (s.setClient i client) := by
  have hstep : Net.Step (pathsView Card c).apply ((pathsView Card c).net r s)
      ((pathsView Card c).net r (s.setClient i client)) (.edit i o) :=
    View.step_edit hop he.sent he.resyncs fun hst => hrep fun hr => hst (Or.inr hr)
  have hstale : s.Reloading i → ((pathsView Card c).net r (s.setClient i client)).stale i := fun hr =>
    hstep.stale nofun (Or.inr hr)
  refine h.next (h.setClient hi hc fun m' hm' => ?_) hstep ⟨?_, fun j hj a hp => (ha.2 j hj a hp).commute⟩ fun j => ?_
  · rw [he.sent] at hm'
    rcases List.mem_append.mp hm' with hm' | hm'
    · exact h.traffic.sent i m' hm'
    · exact List.mem_singleton.mp hm' ▸ hm
  · exact ha.1.imp hstale fun hin a hmem => (hin a hmem).commute
  · by_cases hji : j = i
    · subst hji
      rw [clients_setClient_self]
      exact Or.inr (hd.imp_left hstale)
    · rw [clients_setClient_ne hji]
      exact Or.inl ⟨nofun, rfl⟩

theorem newMove_plain (hchess : ∀ m, Utf16.Plain (chess.scalachessCharPair m)) {trainAs san : JsString}
    {d e : TrainingData Card} (h : newMove chess trainAs d san = some e) : Utf16.Plain e.id := by
  obtain ⟨pos, -, h⟩ := Option.bind_eq_some_iff.mp h
  obtain ⟨move, -, rfl⟩ := Option.map_eq_some_iff.mp h
  exact hchess move

theorem Editing.user (hchess : ∀ m, Utf16.Plain (chess.scalachessCharPair m)) (h : Editing c owner r s) {i : Nat}
    {env : Env Card} {a : Client.Action Card} (ha : Edits c r s (.user i env a)) (hu : Uncrossing chess c r s (.user i env a)) :
    Editing c owner r (s.setClient i (Client.step chess (s.clients i) env a)) := by
  obtain ⟨hi, henv, ha⟩ := ha
  have hold := h.carries i hi
  by_cases hnav : isNavigation a = true
  · exact h.idle hi (SameTrees.navigation hnav)
  · cases a with
    | makeMove san =>
        cases hnext : nextMove chess (s.clients i) san with
        | none => exact h.idle hi (SameTrees.makeMove hnext)
        | some nd =>
            obtain ⟨n, d⟩ := nd
            obtain ⟨hsel, hnew, hapart⟩ := hu n d hnext
            obtain ⟨root, hroot, hn, ⟨trainAs, hmove⟩, he⟩ := makeMove_edited hold.sound hsel ha henv hnext
            have hp : Utf16.WellFormed (s.clients i).selectedPath := by
              obtain ⟨root', hroot', hids⟩ := hold.root
              obtain rfl : root = root' := Option.some.inj (hroot.symm.trans hroot')
              exact (hids.plain (by rw [hn]; rfl)).wellFormed
            have hplain := newMove_plain hchess hmove
            obtain ⟨hc, hrep⟩ := hold.push (hold.sound.makeMove san) hroot hn hp (newMove_id hmove) hplain he
            have hm : Structural c (.moveCreated (Utf16.encode c) (s.clients i).selectedPath d) :=
              ⟨rfl, hp, newMove_id hmove, hplain⟩
            refine h.edit hi hm (if_pos rfl) hc he (fun _ => hrep) ?_ hapart
            rcases hnew with hr | hnew
            · exact Or.inl hr
            · rcases h.distinct i with hst | hdist
              · exact Or.inl (hst.resolve_left fun hno => hno hi)
              · exact Or.inr (hdist.push hold.sound hroot hn hnew he)
    | deleteLine path =>
        rcases deleteLine_cases ha.1 henv path with ⟨-, he⟩ | ⟨root, hsel, hroot, he⟩
        · exact h.idle hi (by rw [Client.step, he]; exact SameTrees.refl _)
        · have hchapter : (s.clients i).selectedChapter ≠ none := by
            intro hnone
            rw [TrainerState.selectedRoot, hnone] at hsel
            cases hsel
          obtain ⟨haim, hapart⟩ := hu hchapter
          obtain ⟨hc, hrep⟩ := hold.delete (hold.sound.deleteLine path) hroot ha.2 he
          have hm : Structural c (.nodeDeleted (Utf16.encode c) path : Outgoing Card) := ⟨rfl, ha.2⟩
          refine h.edit hi hm (if_pos rfl) hc he (fun hr => hrep (haim.resolve_left hr root hroot)) ?_ hapart
          rcases h.distinct i with hst | hdist
          · exact Or.inl (hst.resolve_left fun hno => hno hi)
          · exact Or.inr (hdist.delete hroot he)
    | _ => exact absurd ha hnav

/-! ## What the server does -/

theorem Base.write {db : Store.Db} (h : Base c owner r s) (haccess : SameAccess s.db db)
    (hkept : ∀ id, Store.Kept s.db id → Store.Kept db id) (hrooted : db.moves.has (c, []) = true)
    {handled : List (Nat × Reaction (Wire Card))} (hj : Joined r { s with db := db, handled := handled })
    (ht : Traffic (Structural c) r { s with db := db, handled := handled }) :
    Base c owner r { s with db := db, handled := handled } := by
  refine ⟨hj, ht, fun i hi => (h.editors i hi).keep (SameSessions.refl _) haccess, ?_, fun row hrow ho => ?_, hrooted, h.carries⟩
  · change ∃ row, db.chapters.find? c = some row ∧ row.ownerId = owner
    rw [haccess.1]
    exact h.chapter
  · change row ∈ db.chapters.rows at hrow
    rw [haccess.1] at hrow
    exact hkept _ (h.kept row hrow ho)

/-- What the reader of an editor decides on a message about the chapter. -/
theorem Base.dispatch (cards : CardCodec Card) (h : Base c owner r s) {i : Nat} (hi : i ∈ s.ws.members r) {sub : Subscriber (Wire Card)}
    (hsub : s.ws.subs[i]? = some sub) {m : Outgoing Card} {o : TreeOp Char} (hm : Structural c m)
    (hop : (pathsView Card c).op m = some o) :
    let out := Ws.dispatch (codec cards) (messageFaults m) s.db sub.session (.msg m)
    SameAccess s.db out.1 ∧ (∀ id, Store.Kept s.db id → Store.Kept out.1 id) ∧ out.1.moves.has (c, []) = true ∧
      (out.2 = .broadcast (.msg m) ∧
          (pathsView Card c).master out.1 = TreeOp.apply o ((pathsView Card c).master s.db) ∨
        out.2 = .reply .reload ∧ out.1 = s.db) := by
  have hedit := h.editors i hi sub hsub
  cases m with
  | moveCreated ch p d =>
      obtain ⟨rfl, hp, hid, hplain⟩ := hm
      obtain rfl : _ = o := Option.some.inj ((if_pos rfl).symm.trans hop)
      simp only [messageFaults, dispatch_moveCreated hedit]
      cases hw : s.db.addMoveToChapter ⟨c, toMove cards d, Utf16.decode p⟩ with
      | error err =>
          have herr := addMoveToChapter_error (has_chapter hedit) hw
          exact ⟨SameAccess.refl _, fun _ hk => hk, h.rooted, Or.inr ⟨if_pos herr, rfl⟩⟩
      | ok db' =>
          have hmaster := @master_add Card _ _ _ _ _ h.rooted hw
          obtain ⟨hparent, rfl⟩ := Store.Db.addMoveToChapter_ok hw
          refine ⟨⟨rfl, rfl⟩, fun id hk => hk.upsert hparent ⟨?_, ?_⟩, Table.has_upsert.mpr (Or.inr h.rooted), Or.inl ⟨rfl, hmaster⟩⟩
          · change (Utf16.decode d.id).length = 2
            rw [hplain.length_decode, hid]
          · change Utf16.Plain (Utf16.encode (Utf16.decode d.id))
            rwa [hplain.wellFormed.eq]
  | nodeDeleted ch p =>
      obtain ⟨rfl, hp⟩ := hm
      obtain rfl : _ = o := Option.some.inj ((if_pos rfl).symm.trans hop)
      simp only [messageFaults, dispatch_nodeDeleted hedit]
      cases hw : s.db.deleteNodeFromChapter ⟨c, Utf16.decode p⟩ with
      | error err =>
          have herr : err ∈ [Store.StoreError.pathNotFound] := by
            rw [deleteNodeFromChapter_error hw]
            exact List.mem_cons_self
          exact ⟨SameAccess.refl _, fun _ hk => hk, h.rooted, Or.inr ⟨if_pos herr, rfl⟩⟩
      | ok db' =>
          have hmaster := @master_delete Card _ _ _ _ hw
          rcases Store.Db.deleteNodeFromChapter_ok hw with ⟨-, rfl⟩ | ⟨h0, rfl⟩
          · exact ⟨SameAccess.refl _, fun _ hk => hk, h.rooted, Or.inl ⟨rfl, hmaster⟩⟩
          · refine ⟨⟨rfl, rfl⟩, fun id hk => hk.deleteSubtree, ?_, Or.inl ⟨rfl, hmaster⟩⟩
            exact Store.Db.has_deleteSubtree.mpr ⟨h.rooted, fun hpre => h0 (List.prefix_nil.mp hpre.2)⟩
  | _ => exact hm.elim

theorem Editing.handle (h : Editing c owner r s) {i : Nat} (hi : i ∈ s.ws.members r) :
    Editing c owner r (s.handle cards i) := by
  rcases System.handle_cases cards s i with he | ⟨sub, msg, rest, hsub, hsent, hbusy, he⟩
  · rwa [he]
  · have hm : Structural c msg := h.traffic.sent i msg (hsent ▸ List.mem_cons_self)
    obtain ⟨o, hop⟩ := hm.op
    obtain ⟨haccess, hkept, hrooted, hout⟩ := h.dispatch cards hi hsub hm hop
    rw [he]
    generalize Ws.dispatch (codec cards) (messageFaults msg) s.db sub.session (.msg msg) = out at haccess hkept hrooted hout
    have hdecides : Decides (Structural c) out.2 :=
      hout.symm.imp And.left fun hb => ⟨msg, hb.1, hm⟩
    obtain ⟨ht, hj⟩ := h.traffic.handle h.joined hi hbusy out.1 hdecides
    have hbase : Base c owner r (System.setClient { s with db := out.1, handled := s.handled ++ [(i, out.2)] } i
        { s.clients i with sent := rest }) :=
      (h.write haccess hkept hrooted hj ht).setClient hi ⟨(h.carries i hi).sound.of_repertoire rfl rfl, (h.carries i hi).root⟩
        fun m hm => h.traffic.sent i m (hsent ▸ List.mem_cons_of_mem _ hm)
    have hroot : ∀ j, ((System.setClient { s with db := out.1, handled := s.handled ++ [(i, out.2)] } i
        { s.clients i with sent := rest }).clients j).rootOf (Utf16.encode c) = (s.clients j).rootOf (Utf16.encode c) :=
      rootOf_setClient rfl
    have hstep := View.step_handle (v := pathsView Card c) (r := r) out.1 out.2 hsent hop
    rcases hout with ⟨hb, hmaster⟩ | ⟨hreply, hdb⟩
    · exact h.next hbase (hstep.1 msg hb hop hmaster) trivial fun j => Or.inl ⟨nofun, hroot j⟩
    · exact h.next hbase (hstep.2 hreply (by rw [hdb])) trivial fun j => Or.inl ⟨nofun, hroot j⟩

theorem Editing.publish (h : Editing c owner r s) (hroom : Roomy r s) (k : Nat) : Editing c owner r (s.publish k) := by
  rcases System.publish_cases s k with he | ⟨i, reaction, sub, before, after, hhandled, hsub, he⟩
  · rwa [he]
  · rw [he]
    obtain ⟨ht, hj⟩ := h.traffic.publish h.joined hroom hhandled hsub
    have hsame := SameSessions.react s.ws i sub reaction
    have hstep := View.step_publish (v := pathsView Card c) (fun m hm => Structural.op hm) h.traffic h.joined hroom
      hhandled hsub
    refine h.next ⟨hj, ht, fun j hjm => ?_, h.chapter, h.kept, h.rooted, fun j hjm => ?_⟩ hstep trivial fun j => Or.inl ⟨nofun, rfl⟩
    · rw [hsame.members] at hjm
      exact (h.editors j hjm).keep hsame (SameAccess.refl _)
    · exact h.carries j (by rwa [← hsame.members])

/-! ## What a client gets -/

/-- What a frame does to the client. -/
theorem Editing.receive (h : Editing c owner r s) {i : Nat} (hi : i ∈ s.ws.members r) (env : Env Card)
    {f : Frame (Wire Card)} (hf : f ∈ s.channel i) (hfits : s.Reloading i ∨ Fits c (s.clients i) f) :
    Carries c (Room.receive env (s.clients i) f) ∧
      (¬s.Reloading i → (Room.receive env (s.clients i) f).resyncs = [] →
        (pathsView Card c).replica (Room.receive env (s.clients i) f) =
            (pathsView Card c).after f ((pathsView Card c).replica (s.clients i)) ∧
          DistinctTree c (Room.receive env (s.clients i) f)) := by
  have hold := h.carries i hi
  obtain ⟨root, hroot, hids⟩ := hold.root
  have hdist : ¬s.Reloading i → DistinctTree c (s.clients i) := fun hr =>
    (h.distinct i).resolve_left fun hst => hst.elim (fun hno => hno hi) hr
  have hsound : Sound (Room.receive env (s.clients i) f) := by
    refine sound_receive hold.sound fun ch p d hd => ?_
    have hm := h.traffic.channel i hi _ (hd ▸ hf)
    exact hm.2.2.1
  cases f with
  | raw msg =>
      cases msg with
      | msg m =>
          have hm := h.traffic.channel i hi m hf
          cases m with
          | moveCreated ch p d =>
              obtain ⟨rfl, hp, hid, hplain⟩ := hm
              rcases addMove_cases env p d hroot with ⟨-, he⟩ | ⟨n, hn, he⟩
              · -- the parent is missing, and a reload is asked for
                have he' : Room.receive env (s.clients i) (.raw (.msg (.moveCreated (Utf16.encode c) p d))) =
                    (s.clients i).resyncAndRestore := he
                refine ⟨?_, fun _ hres => ?_⟩
                · rw [he']
                  exact ⟨hold.sound.of_repertoire rfl rfl, hold.root⟩
                · rw [he'] at hres
                  exact absurd hres (by simp [TrainerState.resyncAndRestore])
              · obtain ⟨hc, hrep⟩ := hold.push hsound hroot hn hp hid hplain he
                refine ⟨hc, fun hr _ => ⟨?_, (hdist hr).push hold.sound hroot hn (hfits.resolve_left hr root n hroot hn) he⟩⟩
                have hop : (pathsView Card c).frameOp (.raw (.msg (.moveCreated (Utf16.encode c) p d))) =
                    some (.add (Utf16.decode p) (Utf16.decode d.id)) := if_pos rfl
                rw [View.after, hop]
                exact hrep
          | nodeDeleted ch p =>
              obtain ⟨rfl, hp⟩ := hm
              have he := deleteNodeRemote_edited env p hroot
              obtain ⟨hc, hrep⟩ := hold.delete hsound hroot hp he
              refine ⟨hc, fun hr _ => ⟨?_, (hdist hr).delete hroot he⟩⟩
              have hop : (pathsView Card c).frameOp (.raw (.msg (.nodeDeleted (Utf16.encode c) p))) =
                  some (.delete (Utf16.decode p)) := if_pos rfl
              rw [View.after, hop]
              exact hrep (hfits.resolve_left hr root hroot)
          | _ => exact hm.elim
      | reload => exact ⟨⟨hsound, hold.root⟩, fun hr _ => ⟨rfl, hdist hr⟩⟩
      | pong => exact ⟨hold, fun hr _ => ⟨rfl, hdist hr⟩⟩
  | _ => exact ⟨hold, fun hr _ => ⟨rfl, hdist hr⟩⟩

theorem Editing.deliver (h : Editing c owner r s) {i : Nat} (hi : i ∈ s.ws.members r) (env : Env Card)
    (hu : Uncrossing chess c r s (.deliver i env)) : Editing c owner r (s.deliver i env) := by
  rcases System.deliver_cases s i env with he | ⟨f, fs, hf, he⟩
  · rwa [he]
  · have hmem : f ∈ s.channel i := hf ▸ List.mem_cons_self
    have hfits : s.Reloading i ∨ Fits c (s.clients i) f := hu.imp_right fun hh => hh f (by rw [hf]; rfl)
    obtain ⟨hc, hnew⟩ := h.receive hi env hmem hfits
    obtain ⟨hsent, -⟩ := receive_network env (s.clients i) f
    have hsame := SameSessions.drain s.ws i
    obtain ⟨ht, hj⟩ := h.traffic.drain h.joined hf
    have hstep : Net.Step (pathsView Card c).apply ((pathsView Card c).net r s) _ .traffic :=
      View.step_deliver hi hf hsent (receive_resyncs f) (fun hfr => by rw [hfr]; exact receive_reload) fun hres hst =>
        (hnew (fun hr => hst (Or.inr hr)) hres).1
    have hbase : Base c owner r { s with ws := s.ws.step (.drain i) } := by
      refine ⟨hj, ht, fun j hjm => ?_, h.chapter, h.kept, h.rooted, fun j hjm => ?_⟩
      · rw [hsame.members] at hjm
        exact (h.editors j hjm).keep hsame (SameAccess.refl _)
      · exact h.carries j (by rwa [← hsame.members])
    have hi' : i ∈ (s.ws.step (.drain i)).members r := by rwa [hsame.members]
    rw [he]
    refine h.next (hbase.setClient hi' hc fun m hm => ?_) hstep trivial fun j => ?_
    · exact h.traffic.sent i m (hsent ▸ hm)
    · by_cases hji : j = i
      · subst hji
        right
        by_cases hr : s.Reloading j
        · exact Or.inl (hstep.stale nofun (Or.inr hr))
        · by_cases hres : (Room.receive env (s.clients j) f).resyncs = []
          · rw [clients_setClient_self]
            exact Or.inr (hnew hr hres).2
          · left
            right
            rw [System.Reloading, clients_setClient_self]
            exact Or.inl hres
      · rw [clients_setClient_ne hji]
        exact Or.inl ⟨nofun, rfl⟩

theorem Editing.reload (h : Editing c owner r s) {i k : Nat} {env : Env Card} {order : Store.PathOrder}
    (hi : i ∈ s.ws.members r) (hu : Uncrossing chess c r s (.reload i k env order)) :
    Editing c owner r (s.setClient i ((s.clients i).finishResync env k (fetch cards s.db order owner))) := by
  by_cases hk : k < (s.clients i).resyncs.length
  · obtain ⟨row, hrow, howner⟩ := h.chapter
    obtain ⟨raw, chapter, t, hfetch, htwo, hfind, ht, hdata⟩ := fetch_kept cards order h.kept hrow howner
    rw [hfetch]
    obtain ⟨hs, hsent, hres, root, hroot, hmap⟩ := finishResync_edited env hk htwo hfind
    obtain ⟨hids, hdist, hpaths⟩ := treeOf_paths ht (hmap.trans hdata)
    generalize (s.clients i).finishResync env k (some raw) = client at hs hsent hres hroot
    have hstep : Net.Step (pathsView Card c).apply ((pathsView Card c).net r s)
        ((pathsView Card c).net r (s.setClient i client)) (.reload i) := View.step_reload hsent
    -- the new tree has the paths of the rows
    have hrep : (pathsView Card c).replica client = (pathsView Card c).master s.db := by
      ext q
      rw [mem_replica hroot, ← mem_paths (hs.twoUnits root (rootOf_mem hroot)) hdist, hpaths, List.mem_map]
      have hlabel : (∃ l ∈ t.labels, Utf16.encode l.1 = Utf16.encode q) ↔ q ∈ t.labels.map Prod.fst := by
        rw [List.mem_map]
        exact exists_congr fun l => and_congr_right fun _ => ⟨Utf16.encode_injective, congrArg _⟩
      rw [hlabel, ht.paths]
      change q = [] ∨ s.db.moves.has (c, q) = true ↔ s.db.moves.has (c, q) = true
      exact or_iff_right_of_imp fun h0 => h0 ▸ h.rooted
    refine h.next (h.setClient hi ⟨hs, root, hroot, hids⟩ fun m hm => h.traffic.sent i m (hsent ▸ hm)) hstep ?_ fun j => ?_
    · refine (hu hk).imp (fun hagain => Or.inr ?_) fun hcaught => ?_
      · rw [System.Reloading, clients_setClient_self, hres]
        exact hagain
      · rw [Net.Coherent, View.replica_setClient, hrep, View.outbox_setClient, hsent]
        exact hcaught
    · by_cases hji : j = i
      · subst hji
        rw [clients_setClient_self]
        refine Or.inr (Or.inr fun root' hroot' => ?_)
        rw [hroot] at hroot'
        cases hroot'
        exact hdist
      · rw [clients_setClient_ne hji]
        exact Or.inl ⟨fun he => hji (Net.Label.reload.inj he).symm, rfl⟩
  · have hsame : (s.clients i).finishResync env k (fetch cards s.db order owner) = s.clients i := by
      rw [TrainerState.finishResync, List.getElem?_eq_none (by omega)]
    rw [hsame]
    exact h.idle hi (SameTrees.refl _)

theorem Editing.step (hchess : ∀ m, Utf16.Plain (chess.scalachessCharPair m)) (h : Editing c owner r s) {a : Action Card}
    (ha : Edits c r s a) (hu : Uncrossing chess c r s a) : Editing c owner r (System.step chess cards owner s a) := by
  cases a with
  | user i env a => exact h.user hchess ha hu
  | handle i => exact h.handle ha
  | publish k => exact h.publish ha k
  | deliver i env => exact h.deliver ha env hu
  | reload i k env order => exact h.reload ha hu

/-- In a quiescent state, nobody is stale and nothing is under way. -/
theorem Editing.converged (h : Editing c owner r s) (hq : s.Quiescent r) : Converged c r s := by
  intro i hi
  obtain ⟨hs, root, hroot, hids⟩ := h.carries i hi
  have hst : ¬((pathsView Card c).net r s).stale i := View.not_stale_of_quiescent hq hi
  have heq : (pathsView Card c).replica (s.clients i) = (pathsView Card c).master s.db := by
    refine h.inv.replica_eq hst ?_ ?_ (View.inbox_of_quiescent hq hi)
    · simp [View.net, hq.sent i hi]
    · simp [View.net, hq.handled]
  have hdist := (h.distinct i).resolve_left hst root hroot
  have htwo := hs.twoUnits root (rootOf_mem hroot)
  refine ⟨root, hroot, nodup_paths htwo hdist, fun p => ?_⟩
  rw [mem_paths htwo hdist]
  have hq : ∀ q, (nodeAtPathOrNull root (Utf16.encode q)).isSome = true ↔ s.db.moves.has (c, q) = true := fun q => by
    rw [← mem_replica hroot, heq]
    exact Iff.rfl
  constructor
  · intro hp
    have hwf : Utf16.encode (Utf16.decode p) = p := (hids.plain hp).wellFormed
    exact ⟨Utf16.decode p, (hq _).mp (by rwa [hwf]), hwf.symm⟩
  · rintro ⟨q, hhas, rfl⟩
    exact (hq q).mpr hhas

end Chessrepeat.Room
