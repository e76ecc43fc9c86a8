import Chessrepeat.Client.Theorems
import Chessrepeat.Lib.Run
import Chessrepeat.Room.Lemmas.Backup
import Chessrepeat.Room.Lemmas.Cards
import Chessrepeat.Room.Lemmas.Comments
import Chessrepeat.Room.Lemmas.Imported
import Chessrepeat.Room.Lemmas.Mirror
import Chessrepeat.Room.Lemmas.Moves
import Chessrepeat.Room.Lemmas.NewChapter
import Chessrepeat.Room.Lemmas.Presence
import Chessrepeat.Room.Lemmas.Resync
import Chessrepeat.Room.Lemmas.Transport

/-!
# What the clients of a room agree on

When everything has arrived, the clients of a room and the database agree as long as no edit crosses one that it
does not commute with. Nothing in the code keeps edits from crossing.
-/

namespace Chessrepeat.Room

open Lib Client Ws

variable {Card : Type} {r : Nat} {s : System Card} {c q : Domain.Text}

/-- A room in which nothing is under way, with the clients of its members. -/
structure Together (r : Nat) (s : System Card) : Prop where
  sub : ∀ i ∈ s.ws.members r, ∃ sub, s.ws.subs[i]? = some sub ∧ sub.room = r
  sound : ∀ i ∈ s.ws.members r, Sound (s.clients i)
  sent : ∀ i, (s.clients i).sent = []
  quiescent : s.Quiescent r

theorem Together.joined (h : Together r s) : Joined r s := by
  refine ⟨h.sub, ?_, ?_, fun i _ => h.sent i⟩
  · rw [h.quiescent.handled]
    nofun
  · rw [h.quiescent.handled]
    exact List.nodup_nil

theorem Together.traffic (h : Together r s) (good : Outgoing Card → Prop) : Traffic good r s := by
  refine ⟨fun i m hm => ?_, fun e he => ?_, fun i hi m hm => absurd hm (h.quiescent.channel i hi _)⟩
  · rw [h.sent] at hm
    cases hm
  · rw [h.quiescent.handled] at he
    cases he

/-! ## Two editors -/

/-- Ann has one chapter, with the move e4, and Bob may edit it. -/
def editorsDb : Store.Db :=
  { Store.Db.empty with
    users := ⟨⟨[⟨['u', '1'], some ['a', 'n', 'n'], [], 1⟩, ⟨['u', '2'], some ['b', 'o', 'b'], [], 1⟩], by decide⟩, by decide⟩
    collaborators := ⟨[⟨['u', '1'], ['u', '2'], .edit⟩], by decide⟩
    chapters := ⟨[⟨['c'], ['u', '1'], [], Utf16.decode white⟩], by decide⟩
    moves := ⟨[⟨['c'], [], [], Utf16.decode initialBoard, 0, [], [], false⟩,
      ⟨['c'], ['/', '?'], ['/', '?'], Utf16.decode afterE4, 1, ['e', '4'], [], true⟩], by decide⟩ }

/-- Someone who is signed in and online. -/
def online : Env Unit := { guest with user := some (Utf16.encode ['a', 'n', 'n']), socketOpen := true }

def editorsRoom : Server (Wire Unit) where
  subscriberMessageBuffer := 16
  rooms := Function.update (fun _ => none) ['u', '1'] (some 0)
  roomHeap := [⟨['u', '1'], {0, 1}⟩]
  subs := [⟨⟨['u', '1'], ['a', 'n', 'n'], [], .owner⟩, 0, [], true, false, 0, 0⟩,
    ⟨⟨['u', '2'], ['b', 'o', 'b'], [], .edit⟩, 0, [], true, false, 0, 0⟩]
  published := []

def cards : CardCodec Unit where
  toServer _ := ⟨[], 0, 0, 0, 0, 0, 0, 0, []⟩
  ofServer _ := ()

/-- Both have loaded the chapter. -/
def annAndBob : System Unit where
  db := editorsDb
  ws := editorsRoom
  clients i := if i < 2 then TrainerState.initial.setRepertoire online [oneMove] else .initial
  handled := []

theorem annAndBob_sound (i : Nat) : Sound (annAndBob.clients i) := by
  by_cases hi : i < 2
  · rw [show annAndBob.clients i = _ from if_pos hi]
    exact Sound.setRepertoire (by decide)
  · rw [show annAndBob.clients i = _ from if_neg hi]
    exact Sound.initial

theorem annAndBob_sent (i : Nat) : (annAndBob.clients i).sent = [] := by
  by_cases hi : i < 2
  · rw [show annAndBob.clients i = _ from if_pos hi]
    rfl
  · rw [show annAndBob.clients i = _ from if_neg hi]
    rfl

theorem quiescent_of_channel (sent : ∀ i ∈ s.ws.members r, (s.clients i).sent = []) (handled : s.handled = [])
    (channel : ∀ i ∈ s.ws.members r, s.channel i = []) (resyncs : ∀ i ∈ s.ws.members r, (s.clients i).resyncs = []) :
    s.Quiescent r :=
  ⟨sent, handled, fun i hi m => by rw [channel i hi]; exact List.not_mem_nil, resyncs⟩

theorem annAndBob_together : Together 0 annAndBob := by
  have hsub : ∀ i ∈ annAndBob.ws.members 0, (annAndBob.ws.subs[i]?.map Subscriber.room) = some 0 := by decide
  exact ⟨fun i hi => Option.map_eq_some_iff.mp (hsub i hi), fun i _ => annAndBob_sound i, annAndBob_sent,
    quiescent_of_channel (by decide) rfl (by decide) (by decide)⟩

/-! ## Comments -/

/-- In every run in which all comments are uncontested, all clients and the database have the same comment on the move
whenever everything has arrived. -/
theorem always_sameComment (chess : Chessops) (cards : CardCodec Card) (owner : Domain.Text) (h0 : Together r s)
    (hsame : SameComment c q r s) (as : List (Action Card))
    (h : Meets (System.step chess cards owner) (fun s a => Comments c q r s a ∧ Uncontested c q r s a) s as) :
    Always (System.step chess cards owner) (fun s => s.Quiescent r → SameComment c q r s) s as := by
  have hstart : Discussing c q r s := by
    obtain ⟨m, hm, hclients⟩ := hsame
    refine ⟨h0.joined, fun i hi => absurd (h0.sent i) hi, h0.traffic _, by rw [Table.has, hm]; rfl, fun i hi => ?_,
      Utf16.encode m.comment, fun i u hu => ?_, fun i => ?_, Or.inr ?_⟩
    · obtain ⟨root, n, hroot, hn, -⟩ := hclients i hi
      exact ⟨h0.sound i hi, root, n, hroot, hn⟩
    · have hown : ((commentView Card c q).net r s).own i = [] := by
        simp [Net.own, View.net, h0.sent i, h0.quiescent.handled]
      rw [hown] at hu
      cases hu
    · by_cases hi : i ∈ s.ws.members r
      · refine Or.inr (Or.inr ?_)
        obtain ⟨root, n, hroot, hn, hcomment⟩ := hclients i hi
        have hin : ((commentView Card c q).net r s).inbox i = [] := by
          rw [View.inbox_net hi, List.filterMap_eq_nil_iff]
          intro f hf
          cases f with
          | raw msg => exact absurd hf (h0.quiescent.channel i hi msg)
          | _ => rfl
        have hrep : ((commentView Card c q).net r s).replica i = n.data.comment := by
          simp only [View.net, commentView, hroot, Option.map_some, Option.getD_some, nodeAtPath_of_found hn]
        rw [hin, hrep, hcomment]
        rfl
      · exact Or.inl (Or.inl hi)
    · simp only [View.net, commentView, hm, Option.map_some, Option.getD_some]
  have hall : Always (System.step chess cards owner) (Discussing c q r) s as :=
    Meets.always (fun _ _ hs ha => hs.step ha.1 ha.2) hstart h
  exact hall.mono fun _ hs => hs.sameComment

theorem SameComment.replica (h : SameComment c q r s) {i j : Nat} (hi : i ∈ s.ws.members r) (hj : j ∈ s.ws.members r) :
    (commentView Card c q).replica (s.clients i) = (commentView Card c q).replica (s.clients j) := by
  obtain ⟨m, -, hclients⟩ := h
  have hrep : ∀ i ∈ s.ws.members r, (commentView Card c q).replica (s.clients i) = Utf16.encode m.comment := by
    intro i hi
    obtain ⟨root, n, hroot, hn, he⟩ := hclients i hi
    simp only [commentView, hroot, Option.map_some, Option.getD_some, nodeAtPath_of_found hn, he]
  rw [hrep i hi, hrep j hj]

theorem annAndBob_sameComment : SameComment ['c'] ['/', '?'] 0 annAndBob := by
  refine ⟨_, rfl, fun i hi => ?_⟩
  have hi2 : i < 2 := by
    have hlt : ∀ i ∈ annAndBob.ws.members 0, i < 2 := by decide
    exact hlt i hi
  rw [show annAndBob.clients i = _ from if_pos hi2]
  exact ⟨_, _, rfl, rfl, rfl⟩

/-- Ann sets the comment. -/
def oneComment : List (Action Unit) :=
  [.user 0 online (.setCommentAt (Utf16.encode ['x']) idE4), .handle 0, .publish 0, .deliver 1 online]

theorem oneComment_sameComment :
    Meets (System.step firstMove cards ['u', '1'])
        (fun s a => Comments ['c'] ['/', '?'] 0 s a ∧ Uncontested ['c'] ['/', '?'] 0 s a) annAndBob oneComment ∧
      Always (System.step firstMove cards ['u', '1']) (fun s => s.Quiescent 0 → SameComment ['c'] ['/', '?'] 0 s) annAndBob
        oneComment := by
  have h : Meets (System.step firstMove cards ['u', '1'])
      (fun s a => Comments ['c'] ['/', '?'] 0 s a ∧ Uncontested ['c'] ['/', '?'] 0 s a) annAndBob oneComment := by
    have hown : ∀ j, ((commentView Unit ['c'] ['/', '?']).net 0 annAndBob).own j = [] := fun j => by
      simp [Net.own, View.net, annAndBob_sent j, annAndBob_together.quiescent.handled]
    have hmem : ∀ i < 2, i ∈ ({0, 1} : Finset Nat) := by decide
    refine ⟨⟨⟨hmem 0 (by omega), by decide, rfl, ?_⟩, ?_, by decide, ?_, ?_⟩, ⟨hmem 0 (by omega), trivial⟩,
      ⟨trivial, (by decide : Roomy 0 _)⟩, ⟨hmem 1 (by omega), trivial⟩, trivial⟩
    · intro chapter hc
      cases hc
      rfl
    · intro sub hsub
      cases hsub
      decide
    · intro j _ u hu
      rw [hown j] at hu
      cases hu
    · intro _ u hu
      cases hu
  exact ⟨h, always_sameComment firstMove cards ['u', '1'] annAndBob_together annAndBob_sameComment oneComment h⟩

/-- Ann and Bob both set the comment before they see what the other has written. -/
def crossedComments : List (Action Unit) :=
  [.user 0 online (.setCommentAt (Utf16.encode ['x']) idE4), .user 1 online (.setCommentAt (Utf16.encode ['y']) idE4),
    .handle 0, .handle 1, .publish 0, .publish 0, .deliver 0 online, .deliver 1 online]

/-- In the end, each has what the other has written. -/
theorem crossedComments_differ :
    Together 0 annAndBob ∧ SameComment ['c'] ['/', '?'] 0 annAndBob ∧
      Meets (System.step firstMove cards ['u', '1'])
        (fun s a => Comments ['c'] ['/', '?'] 0 s a ∧ ∀ k, a = .publish k → Roomy 0 s) annAndBob crossedComments ∧
      ¬Always (System.step firstMove cards ['u', '1']) (fun s => s.Quiescent 0 → SameComment ['c'] ['/', '?'] 0 s) annAndBob
        crossedComments := by
  refine ⟨annAndBob_together, annAndBob_sameComment, ?_, fun h => ?_⟩
  · have hmem : ∀ i < 2, i ∈ ({0, 1} : Finset Nat) := by decide
    have hselects : ∀ i < 2, Selects (Utf16.encode ['c']) (annAndBob.clients i) := by
      intro i hi chapter hc
      rw [show annAndBob.clients i = _ from if_pos hi] at hc
      cases hc
      rfl
    refine ⟨⟨⟨hmem 0 (by omega), by decide, rfl, hselects 0 (by omega)⟩, nofun⟩,
      ⟨⟨hmem 1 (by omega), by decide, rfl, hselects 1 (by omega)⟩, nofun⟩, ⟨hmem 0 (by omega), nofun⟩,
      ⟨hmem 1 (by omega), nofun⟩, ⟨trivial, fun _ _ => by decide⟩, ⟨trivial, fun _ _ => by decide⟩,
      ⟨hmem 0 (by omega), nofun⟩, ⟨hmem 1 (by omega), nofun⟩, trivial⟩
  · have hlast := h.last (quiescent_of_channel (by decide) (by decide) (by decide) (by decide))
    have heq := hlast.replica (i := 0) (j := 1) (by decide) (by decide)
    revert heq
    decide

/-! ## Moves -/

/-- All members may edit the chapter of the owner and have loaded it. -/
structure Loaded (c owner : Domain.Text) (r : Nat) (s : System Card) : Prop where
  chapter : ∃ row, s.db.chapters.find? c = some row ∧ row.ownerId = owner
  kept : ∀ row ∈ s.db.chapters.rows, row.ownerId = owner → Store.Kept s.db row.uuid
  editors : ∀ i ∈ s.ws.members r, MayEdit c s i
  rooted : s.db.moves.has (c, []) = true
  trees : ∀ i ∈ s.ws.members r, ∃ root, (s.clients i).rootOf (Utf16.encode c) = some root ∧ PlainIds root ∧
    DistinctIds root ∧ ∀ p, p ∈ paths root ↔ ∃ q, s.db.moves.has (c, q) = true ∧ p = Utf16.encode q

theorem Loaded.editing {owner : Domain.Text} (h : Loaded c owner r s) (h0 : Together r s) : Editing c owner r s := by
  have hin : ∀ i, ((pathsView Card c).net r s).inbox i = [] := by
    intro i
    by_cases hi : i ∈ s.ws.members r
    · rw [View.inbox_net hi, List.filterMap_eq_nil_iff]
      intro f hf
      cases f with
      | raw msg => exact absurd hf (h0.quiescent.channel i hi msg)
      | _ => rfl
    · exact View.inbox_outside hi
  have hready : ((pathsView Card c).net r s).ready = [] := by simp [View.net, h0.quiescent.handled]
  have hout : ∀ i, ((pathsView Card c).net r s).outbox i = [] := fun i => by simp [View.net, h0.sent i]
  refine ⟨⟨h0.joined, h0.traffic _, h.editors, h.chapter, h.kept, h.rooted, fun i hi => ?_⟩, fun i => ?_, fun i => ?_, ?_⟩
  · obtain ⟨root, hroot, hids, -⟩ := h.trees i hi
    exact ⟨h0.sound i hi, root, hroot, hids⟩
  · by_cases hi : i ∈ s.ws.members r
    · obtain ⟨root, hroot, -, hdist, -⟩ := h.trees i hi
      refine Or.inr fun root' hroot' => ?_
      rw [hroot] at hroot'
      cases hroot'
      exact hdist
    · exact Or.inl (Or.inl hi)
  · by_cases hi : i ∈ s.ws.members r
    · right
      obtain ⟨root, hroot, -, hdist, hpaths⟩ := h.trees i hi
      have hrep : (pathsView Card c).replica (s.clients i) = (pathsView Card c).master s.db := by
        ext q
        rw [mem_replica hroot, ← mem_paths ((h0.sound i hi).twoUnits root (rootOf_mem hroot)) hdist, hpaths]
        constructor
        · rintro ⟨q', hq', he⟩
          rwa [← Utf16.encode_injective he] at hq'
        · exact fun hq => ⟨q, hq, rfl⟩
      rw [Net.Coherent, hin, hout, Net.unseen, hready]
      exact hrep
    · exact Or.inl (Or.inl hi)
  · rintro i j - a b (ha | ha) -
    · rw [hout] at ha
      cases ha
    · rw [hready] at ha
      cases ha

/-- In every run in which no edit crosses one that it depends on, all clients and the database have the same paths, each
client each path once, whenever everything has arrived. -/
theorem always_converged (chess : Chessops) (hchess : ∀ m, Utf16.Plain (chess.scalachessCharPair m))
    (cards : CardCodec Card) (owner : Domain.Text) (h0 : Together r s) (hloaded : Loaded c owner r s)
    (as : List (Action Card))
    (h : Meets (System.step chess cards owner) (fun s a => Edits c r s a ∧ Uncrossing chess c r s a) s as) :
    Always (System.step chess cards owner) (fun s => s.Quiescent r → Converged c r s) s as := by
  have hall : Always (System.step chess cards owner) (Editing c owner r) s as :=
    Meets.always (fun _ _ hs ha => hs.step hchess ha.1 ha.2) (hloaded.editing h0) h
  exact hall.mono fun _ hs => hs.converged

def newGameDb : Store.Db :=
  { editorsDb with moves := ⟨[⟨['c'], [], [], Utf16.decode initialBoard, 0, [], [], false⟩], by decide⟩ }

/-- Ann and Bob have loaded the chapter while it has no moves. -/
def newGame : System Unit where
  db := newGameDb
  ws := editorsRoom
  clients i := if i < 2 then TrainerState.initial.setRepertoire online [emptyChapter] else .initial
  handled := []

theorem newGame_sent (i : Nat) : (newGame.clients i).sent = [] := by
  by_cases hi : i < 2
  · rw [show newGame.clients i = _ from if_pos hi]
    rfl
  · rw [show newGame.clients i = _ from if_neg hi]
    rfl

theorem newGame_member {i : Nat} (h : i ∈ newGame.ws.members 0) : i = 0 ∨ i = 1 := by
  have hall : ∀ i ∈ newGame.ws.members 0, i = 0 ∨ i = 1 := by decide
  exact hall i h

theorem newGame_together : Together 0 newGame := by
  have hsub : ∀ i ∈ newGame.ws.members 0, (newGame.ws.subs[i]?.map Subscriber.room) = some 0 := by decide
  refine ⟨fun i hi => Option.map_eq_some_iff.mp (hsub i hi), fun i hi => ?_, newGame_sent,
    quiescent_of_channel (by decide) rfl (by decide) (by decide)⟩
  rcases newGame_member hi with rfl | rfl
  · exact Sound.setRepertoire (by decide)
  · exact Sound.setRepertoire (by decide)

theorem newGame_loaded : Loaded ['c'] ['u', '1'] 0 newGame := by
  refine ⟨⟨_, rfl, rfl⟩, fun row hrow _ => ⟨fun m hm _ hp => ?_, fun m hm _ hp => ?_⟩, fun i hi sub hsub => ?_, by decide,
    fun i hi => ?_⟩
  · cases List.mem_singleton.mp hm
    exact absurd rfl hp
  · cases List.mem_singleton.mp hm
    exact absurd rfl hp
  · rcases newGame_member hi with rfl | rfl
    · cases hsub
      decide
    · cases hsub
      decide
  · refine ⟨.node ⟨0, startData⟩ [], ?_, by decide, ?_, fun p => ?_⟩
    · rcases newGame_member hi with rfl | rfl <;> rfl
    · intro n hn
      rcases Rose.mem_nodes.mp hn with rfl | ⟨d, hd, -⟩
      · exact List.nodup_nil
      · cases hd
    · have hhas : ∀ q, newGame.db.moves.has (['c'], q) = true ↔ q = [] := by
        intro q
        rw [Store.Db.has_move_iff]
        constructor
        · rintro ⟨m, hm, -, rfl⟩
          cases List.mem_singleton.mp hm
          rfl
        · rintro rfl
          exact ⟨_, List.mem_cons_self, rfl, rfl⟩
      simp [hhas, paths, Rose.addresses, Rose.addressesList]

/-- `firstMove` with the squares of the board, and with Nf3. -/
def onBoard : Chessops where
  Position := JsString
  Move := Fin 64 × Fin 64
  positionFromFen fen := if fen = initialBoard then some fen else none
  parseSan _ san := if san = sanE4 then some squaresE4 else if san = sanNf3 then some squaresNf3 else none
  scalachessCharPair m := [35 + UInt16.ofNat m.1, 35 + UInt16.ofNat m.2]
  makeSanAndPlay _ m := if m = squaresNf3 then (sanNf3, afterNf3) else (sanE4, afterE4)
  makeFen pos := pos
  length_scalachessCharPair _ := rfl

theorem onBoard_plain (m : Fin 64 × Fin 64) : Utf16.Plain (onBoard.scalachessCharPair m) := by
  have hsquare : ∀ i : Fin 64, Utf16.isSurrogate (35 + UInt16.ofNat i) = false := by decide
  intro u hu
  rcases List.mem_cons.mp hu with rfl | hu
  · exact hsquare m.1
  · rw [List.mem_singleton.mp hu]
    exact hsquare m.2

/-- Ann makes the move e4 and Bob the move Nf3, before they see what the other has done. -/
def twoMovesMade : List (Action Unit) :=
  [.user 0 online (.jump []), .user 1 online (.jump []), .user 0 online (.makeMove sanE4), .user 1 online (.makeMove sanNf3),
    .handle 0, .handle 1, .publish 0, .publish 0, .deliver 0 online, .deliver 1 online]

/-- A client is what it was while the others act. -/
theorem clients_run_users (chess : Chessops) (cards : CardCodec Card) (owner : Domain.Text) {j : Nat} (as : List (Action Card))
    (has : ∀ a ∈ as, ∃ i env b, a = .user i env b ∧ j ≠ i) (s : System Card) :
    (run (System.step chess cards owner) s as).clients j = s.clients j := by
  induction as generalizing s with
  | nil => rfl
  | cons a as ih =>
      obtain ⟨i, env, b, rfl, hne⟩ := has a List.mem_cons_self
      rw [run_cons, ih fun a ha => has a (List.mem_cons_of_mem _ ha)]
      exact clients_setClient_ne hne

/-- Who has not acted has nothing on its way. -/
theorem outbox_newGame (as : List (Action Unit)) {j : Nat} (has : ∀ a ∈ as, ∃ i env b, a = .user i env b ∧ j ≠ i) :
    ((pathsView Unit ['c']).net 0 (run (System.step onBoard cards ['u', '1']) newGame as)).outbox j = [] := by
  simp only [View.net, clients_run_users onBoard cards ['u', '1'] as has newGame, newGame_sent, List.filterMap_nil]

theorem twoMovesMade_converges :
    Meets (System.step onBoard cards ['u', '1']) (fun s a => Edits ['c'] 0 s a ∧ Uncrossing onBoard ['c'] 0 s a) newGame
        twoMovesMade ∧
      Always (System.step onBoard cards ['u', '1']) (fun s => s.Quiescent 0 → Converged ['c'] 0 s) newGame twoMovesMade := by
  have h : Meets (System.step onBoard cards ['u', '1']) (fun s a => Edits ['c'] 0 s a ∧ Uncrossing onBoard ['c'] 0 s a)
      newGame twoMovesMade := by
    have hmem : ∀ i < 2, i ∈ ({0, 1} : Finset Nat) := by decide
    refine ⟨⟨⟨hmem 0 (by omega), by decide, rfl⟩, trivial⟩, ⟨⟨hmem 1 (by omega), by decide, rfl⟩, trivial⟩,
      ⟨⟨hmem 0 (by omega), by decide, ?_⟩, ?_⟩, ⟨⟨hmem 1 (by omega), by decide, ?_⟩, ?_⟩, ⟨hmem 0 (by omega), trivial⟩,
      ⟨hmem 1 (by omega), trivial⟩, ⟨(by decide : Roomy 0 _), trivial⟩, ⟨(by decide : Roomy 0 _), trivial⟩,
      ⟨hmem 0 (by omega), Or.inr ?_⟩, ⟨hmem 1 (by omega), Or.inr ?_⟩, trivial⟩
    · intro chapter hc
      cases hc
      rfl
    · intro n d hnext
      cases hnext
      refine ⟨?_, Or.inr rfl, Or.inr fun a ha => ?_, ?_⟩
      · intro r hr
        cases hr
        exact ⟨_, _, rfl, rfl, rfl⟩
      · cases ha
      · rintro j hj a (ha | ha)
        · obtain rfl | hj1 := eq_or_ne j 1
          · cases ha
          · have hnone := outbox_newGame [.user 0 online (.jump []), .user 1 online (.jump [])] (j := j) (by simp [hj, hj1])
            exact absurd (hnone ▸ ha) List.not_mem_nil
        · cases ha
    · intro chapter hc
      cases hc
      rfl
    · intro n d hnext
      cases hnext
      refine ⟨?_, Or.inr rfl, Or.inr fun a ha => ?_, ?_⟩
      · intro r hr
        cases hr
        exact ⟨_, _, rfl, rfl, rfl⟩
      · cases ha
      · rintro j hj a (ha | ha)
        · obtain rfl | hj0 := eq_or_ne j 0
          · have hall : ∀ a ∈ ((pathsView Unit ['c']).net 0 (run (System.step onBoard cards ['u', '1']) newGame
                [.user 0 online (.jump []), .user 1 online (.jump []), .user 0 online (.makeMove sanE4)])).outbox 0,
                a.Independent (.add [] [')', '8']) := by decide
            exact hall a ha
          · have hnone := outbox_newGame [.user 0 online (.jump []), .user 1 online (.jump []), .user 0 online (.makeMove sanE4)]
              (j := j) (by simp [hj, hj0])
            exact absurd (hnone ▸ ha) List.not_mem_nil
        · cases ha
    · intro f hf
      cases hf
      intro root n hroot hn
      cases hroot
      cases hn
      rfl
    · intro f hf
      cases hf
      intro root n hroot hn
      cases hroot
      cases hn
      rfl
  exact ⟨h, always_converged onBoard onBoard_plain cards ['u', '1'] newGame_together newGame_loaded twoMovesMade h⟩

/-- Ann and Bob both make the move e4 before they see what the other has done. -/
def sameMoveMade : List (Action Unit) :=
  [.user 0 online (.jump []), .user 1 online (.jump []), .user 0 online (.makeMove sanE4), .user 1 online (.makeMove sanE4),
    .handle 0, .handle 1, .publish 0, .publish 0, .deliver 0 online, .deliver 1 online]

/-- In the end, each has the move twice. -/
theorem sameMoveMade_doubles :
    (∀ m, Utf16.Plain (onBoard.scalachessCharPair m)) ∧ Together 0 newGame ∧ Loaded ['c'] ['u', '1'] 0 newGame ∧
      Meets (System.step onBoard cards ['u', '1']) (fun s a => Edits ['c'] 0 s a) newGame sameMoveMade ∧
      ¬Always (System.step onBoard cards ['u', '1']) (fun s => s.Quiescent 0 → Converged ['c'] 0 s) newGame sameMoveMade := by
  refine ⟨onBoard_plain, newGame_together, newGame_loaded, ?_, fun h => ?_⟩
  · have hmem : ∀ i < 2, i ∈ ({0, 1} : Finset Nat) := by decide
    refine ⟨⟨hmem 0 (by omega), by decide, rfl⟩, ⟨hmem 1 (by omega), by decide, rfl⟩, ⟨hmem 0 (by omega), by decide, ?_⟩,
      ⟨hmem 1 (by omega), by decide, ?_⟩, hmem 0 (by omega), hmem 1 (by omega), (by decide : Roomy 0 _),
      (by decide : Roomy 0 _), hmem 0 (by omega), hmem 1 (by omega), trivial⟩
    · intro chapter hc
      cases hc
      rfl
    · intro chapter hc
      cases hc
      rfl
  · have hlast := h.last (quiescent_of_channel (by decide) (by decide) (by decide) (by decide))
    obtain ⟨root, hroot, hnodup, -⟩ := hlast 0 (by decide)
    cases hroot
    revert hnodup
    decide

/-! ## Backups -/

/-- A chapter comes back from a backup if and only if the user has no cards on its moves and its body is short enough for
the server to read. -/
theorem restored_iff (cards : CardCodec Card) (bodyBytes : RawChapter Card → Nat) (env : Env Card)
    (order order' : Store.PathOrder) {a : Account Card} {chapter : Chapter Card} {b : RawChapter Card}
    {raws : List (RawChapter Card)} {id : Domain.Text} (hsigned : SignedIn a) (hr : Store.Referenced a.db)
    (hkept : ∀ row ∈ a.db.chapters.rows, row.ownerId = a.userID → Store.Kept a.db row.uuid)
    (hfetch : fetch cards a.db order a.userID = some raws) (hb : b ∈ raws) (hc : Mirrors chapter b)
    (hcaps : WithinCaps a chapter) (hnew : a.db.chapters.has id = false) :
    Restored env (Utf16.encode id) chapter (a.restore cards bodyBytes env order' (Utf16.encode id) chapter).store ↔
      bodyBytes { chapter.stored with uuid := Utf16.encode id } ≤ maxChapterBody ∧
        ∀ d ∈ forEachNode chapter.root, ownCard env d = none := by
  obtain ⟨row, t, ht, rfl⟩ := exists_treeOf hkept hfetch hb
  have hid : Rose.Below (fun l : Domain.Text × Domain.TrainingData => l.2.id.length = 2) t := fun l hl =>
    (treeOf_below ht l hl).1
  obtain ⟨hkeyed, hlabels, hlength⟩ := posted ht.root ht.spelled ht.nodup hid hc.moves
  have hbody := stored_chapterFromImport chapter (Utf16.encode id) a.store.nextRef
  by_cases hshort : bodyBytes { chapter.stored with uuid := Utf16.encode id } ≤ maxChapterBody
  · -- the chapter is created without its cards
    have hhas : a.db.chapters.has (Utf16.decode (Utf16.encode id)) = false := by rwa [Utf16.decode_encode]
    have hmoves : (Store.located [] (toNode cards (chapter.root.map Object.data))).labels.length ≤
        Store.maxMovesPerChapter * a.db.ownerLimitMultiplier a.userID + 1 := by
      rw [hlength, Rose.labels_map]
      exact hcaps.moves
    have hcreated : ∃ db', a.db.createChapter
        { chapterEvent cards { chapter.stored with uuid := Utf16.encode id } with ownerID := a.userID } = some (.ok db') :=
      Store.exists_createChapter hr hkeyed hsigned.has hhas hcaps.chapters hmoves
    obtain ⟨db', hcreate⟩ := hcreated
    obtain ⟨raws', u, hfetch', hs, huroot, hperm, hmem⟩ :=
      fetch_created cards order' hr hkept hkeyed hcreate
    have hpost := hsigned.postChapter_created (hbody ▸ hshort) (hbody ▸ hcreate)
    have hstored := stored_restore env (hpost ▸ hfetch')
    have huuid : Utf16.encode (Utf16.decode (Utf16.encode id)) = Utf16.encode id := by rw [Utf16.decode_encode]
    have hname : Utf16.encode (Utf16.decode chapter.name) = chapter.name := by
      rw [hc.name, rawChapter, Utf16.decode_encode]
    have htrainAs : Utf16.encode (Utf16.decode chapter.trainAs) = chapter.trainAs := by
      rw [hc.trainAs, rawChapter, Utf16.decode_encode]
    rw [restored_iff_of_stored hstored huuid (fun b' hb' => hmem b' (hb'.trans huuid.symm)) fun d hd =>
      alike_iff env ht.root ht.spelled hs huroot (hlabels ▸ hperm) hc.moves hname htrainAs hd]
    exact (and_iff_right hshort).symm
  · -- the server does not read the body
    obtain ⟨raws', hfetch', hmem⟩ := uuid_fetched cards order' hnew hkept
    have hpost := hsigned.postChapter_long cards (hbody ▸ hshort)
    have hstored := stored_restore env (hpost ▸ hfetch')
    constructor
    · rintro ⟨d, hd, hdid, -⟩
      exact absurd hdid (hmem d.stored (hstored ▸ List.mem_map_of_mem hd))
    · exact fun h => absurd h.1 hshort

/-- Ann and the database. -/
def annsAccount (db : Store.Db) : Account Unit := ⟨['u', '1'], ['a', 'n', 'n'], .initial, db⟩

/-- The chapter as Ann has loaded it. -/
def annsChapter (raw : RawChapter Unit) : Chapter Unit := (parseChapter online 0 raw).1

theorem annsAccount_signedIn {db : Store.Db} (h : db.users = editorsDb.users) : SignedIn (annsAccount db) := by
  refine ⟨nofun, ⟨['u', '1'], some ['a', 'n', 'n'], [], 1⟩, ?_, rfl, rfl⟩
  rw [annsAccount, h]
  exact List.mem_cons_self

theorem annsChapter_mirrors (raw : RawChapter Unit) : Mirrors (annsChapter raw) raw := by
  obtain ⟨-, -, hdata⟩ := allocate_spec 0 raw.root
  exact ⟨rfl, rfl, congrArg (Rose.map bare) hdata⟩

theorem editorsDb_kept : Store.Kept editorsDb ['c'] := by
  have hrows : ∀ m ∈ editorsDb.moves.rows, m.path ≠ [] → m.path = m.id ∧ m.id.length = 2 ∧ Utf16.encode m.id = [47, 63] := by
    decide
  refine ⟨fun m hm _ hp => ?_, fun m hm _ hp => ?_⟩
  · obtain ⟨hpath, -⟩ := hrows m hm hp
    exact ⟨[], hpath, .inl rfl⟩
  · obtain ⟨-, hlength, hid⟩ := hrows m hm hp
    refine ⟨hlength, fun u hu => ?_⟩
    rw [hid] at hu
    rcases List.mem_cons.mp hu with rfl | hu
    · rfl
    · rw [List.mem_singleton.mp hu]
      rfl

theorem editorsDb_referenced : Store.Referenced editorsDb := ⟨by decide, nofun⟩

/-- Ann has not been trained on the move. -/
theorem untrained_restored :
    Restored online (Utf16.encode ['d']) (annsChapter oneMove)
      ((annsAccount editorsDb).restore cards (fun _ => 372) online .insertion (Utf16.encode ['d']) (annsChapter oneMove)).store := by
  have hkept : ∀ row ∈ (annsAccount editorsDb).db.chapters.rows, row.ownerId = ['u', '1'] →
      Store.Kept editorsDb row.uuid := by
    intro row hrow _
    cases List.mem_singleton.mp hrow
    exact editorsDb_kept
  have hfetch : fetch cards editorsDb .insertion ['u', '1'] =
      some [⟨[99], [], white, (Rose.node startData [.node dataE4 []]).map bare⟩] := rfl
  have hmirrors : Mirrors (annsChapter oneMove) ⟨[99], [], white, (Rose.node startData [.node dataE4 []]).map bare⟩ :=
    ⟨rfl, rfl, rfl⟩
  exact (restored_iff cards _ online .insertion .insertion (annsAccount_signedIn rfl) editorsDb_referenced hkept hfetch
    List.mem_cons_self hmirrors ⟨by decide, by decide⟩ (by decide)).mpr ⟨by decide, by decide⟩

/-- Ann has a card on the move. -/
def trainedDb : Store.Db :=
  { editorsDb with trainingCards := ⟨[⟨['c'], ['/', '?'], ['a', 'n', 'n'], cards.toServer ()⟩], by decide⟩ }

def trainedMove : RawChapter Unit :=
  ⟨[99], [], white,
    .node { startData with training := none } [.node { dataE4 with training := some [(Utf16.encode ['a', 'n', 'n'], ())] } []]⟩

/-- After the backup, the card is gone. -/
theorem trained_lost :
    SignedIn (annsAccount trainedDb) ∧ Store.Referenced trainedDb ∧
      (∀ row ∈ trainedDb.chapters.rows, row.ownerId = ['u', '1'] → Store.Kept trainedDb row.uuid) ∧
      fetch cards trainedDb .insertion ['u', '1'] = some [trainedMove] ∧ Mirrors (annsChapter trainedMove) trainedMove ∧
      WithinCaps (annsAccount trainedDb) (annsChapter trainedMove) ∧ trainedDb.chapters.has ['d'] = false ∧
      ¬Restored online (Utf16.encode ['d']) (annsChapter trainedMove)
        ((annsAccount trainedDb).restore cards (fun _ => 572) online .insertion (Utf16.encode ['d'])
          (annsChapter trainedMove)).store := by
  refine ⟨annsAccount_signedIn rfl, ⟨editorsDb_referenced.moves, by decide⟩, fun row hrow _ => ?_, rfl, annsChapter_mirrors _,
    ⟨by decide, by decide⟩, by decide, ?_⟩
  · cases List.mem_singleton.mp hrow
    exact @Store.Kept.congr editorsDb trainedDb _ rfl editorsDb_kept
  · rintro ⟨d, hd, hid, halike⟩
    have hcard : ∃ e ∈ outline online ((annsChapter trainedMove).root.map Object.data), e.2.2 = some () := by decide
    have hnone : ∀ d ∈ ((annsAccount trainedDb).restore cards (fun _ => 572) online .insertion (Utf16.encode ['d'])
        (annsChapter trainedMove)).store.repertoire, d.uuid = Utf16.encode ['d'] →
          ∀ e ∈ outline online (d.root.map Object.data), e.2.2 = none := by
      decide
    obtain ⟨e, he, hsome⟩ := hcard
    rw [hnone d hd hid e (halike.moves.mem_iff.mp he)] at hsome
    cases hsome

/-! ## Events and responses -/

section Link

variable {Raw : Type} {l : Link Card}

/-- In every run in which no event overtakes a response that was read before it, no response that is installed loses an
event that has been delivered. -/
theorem always_losesNothing (chess : Chessops) (cards : CardCodec Card) (json : Codec Raw) (parse : Raw → Wire Card)
    (owner : Domain.Text) (h0 : l.Started cards owner) (as : List (LinkAction Raw Card))
    (h : Meets (Link.step chess cards json parse owner) (fun l a => Link.Proper json a ∧ l.InTime a) l as) :
    Always (Link.step chess cards json parse owner) (Link.LosesNothing cards owner) l as := by
  have hstart : l.Timely := by
    intro req hreq
    rw [h0.requests] at hreq
    cases hreq
  have hall : Always (Link.step chess cards json parse owner) (fun l => l.Traced cards owner ∧ l.Timely) l as :=
    Meets.always (fun _ _ hl ha => ⟨hl.1.step ha.1, hl.2.step hl.1 ha.2⟩) ⟨h0.traced, hstart⟩ h
  exact hall.mono fun _ hl => hl.2.losesNothing hl.1

end Link

theorem editorsDb_whole : AllWhole editorsDb := by
  intro row hrow
  cases List.mem_singleton.mp hrow
  exact ⟨by decide, editorsDb_kept.closed, fun m hm hc hp => (editorsDb_kept.ids m hm hc hp).1⟩

/-- The chapter as the server has it. -/
def storedMove : RawChapter Unit := ⟨[99], [], white, (Rose.node startData [.node dataE4 []]).map bare⟩

theorem fetch_editorsDb : fetch cards editorsDb .insertion ['u', '1'] = some [storedMove] := rfl

/-- Ann has loaded her repertoire. -/
def annOnline : Link Unit :=
  ⟨editorsDb, TrainerState.initial.setRepertoire online [storedMove], true, [], [], [], [], some 0⟩

theorem annOnline_started : annOnline.Started cards ['u', '1'] := by
  refine ⟨editorsDb_whole, rfl, rfl, rfl, rfl, fun n hn => ?_⟩
  cases hn
  exact ⟨rfl, agrees_setRepertoire editorsDb_whole fetch_editorsDb⟩

def bob : Session := ⟨['u', '2'], ['b', 'o', 'b'], [], .edit⟩

/-- Bob sets the comment on the move. -/
def bobsComment : Wire Unit := .msg (.setComment (Utf16.encode ['c']) idE4 (Utf16.encode ['x']))

theorem bobsComment_wellFormed : WellFormed (codec cards) bobsComment := nofun

/-- The comment arrives before the server reads the response. -/
def commentBefore : List (LinkAction (Wire Unit) Unit) :=
  [.fetchRepertoire, .commit bob bobsComment, .onmessage 0 online, .read 0 .insertion, .install 0 online]

theorem commentBefore_losesNothing :
    Meets (Link.step firstMove cards (codec cards) id ['u', '1']) (fun l a => Link.Proper (codec cards) a ∧ l.InTime a)
        annOnline commentBefore ∧
      Always (Link.step firstMove cards (codec cards) id ['u', '1']) (Link.LosesNothing cards ['u', '1']) annOnline
        commentBefore := by
  have h : Meets (Link.step firstMove cards (codec cards) id ['u', '1'])
      (fun l a => Link.Proper (codec cards) a ∧ l.InTime a) annOnline commentBefore := by
    refine ⟨⟨trivial, trivial⟩, ⟨bobsComment_wellFormed, trivial⟩, ⟨trivial, ?_⟩, ⟨trivial, trivial⟩, ⟨trivial, trivial⟩, trivial⟩
    intro n m _ req hreq r raws hresp
    cases List.mem_singleton.mp hreq
    cases hresp
  exact ⟨h, always_losesNothing firstMove cards (codec cards) id ['u', '1'] annOnline_started commentBefore h⟩

/-- The comment arrives between the reading of the response and its installation. -/
def commentBetween : List (LinkAction (Wire Unit) Unit) :=
  [.fetchRepertoire, .read 0 .insertion, .commit bob bobsComment, .onmessage 0 online]

theorem commentBetween_lost :
    annOnline.Started cards ['u', '1'] ∧
      Meets (Link.step firstMove cards (codec cards) id ['u', '1']) (fun _ a => Link.Proper (codec cards) a) annOnline
        commentBetween ∧
      ¬Always (Link.step firstMove cards (codec cards) id ['u', '1']) (Link.LosesNothing cards ['u', '1']) annOnline
        commentBetween := by
  refine ⟨annOnline_started, ⟨trivial, trivial, bobsComment_wellFormed, trivial, trivial⟩, fun h => ?_⟩
  have hlast := h.last
  obtain ⟨r, db, hr, hdb, hagrees⟩ := hlast 0 online none 0 [storedMove] rfl 1 List.mem_cons_self
  -- the comment is the last commit
  have hle : r ≤ 1 := Link.le_commits hdb
  obtain rfl : r = 1 := Nat.le_antisymm hle hr
  cases hdb
  have hrow : ¬∀ e ∈ rowEntries cards
      (run (Link.step firstMove cards (codec cards) id ['u', '1']) annOnline commentBetween).db ['c'], e.2.comment = [] := by
    decide
  have hnode : ∃ c ∈ ((run (Link.step firstMove cards (codec cards) id ['u', '1']) annOnline commentBetween).install 0
      online).client.repertoire, c.uuid = Utf16.encode ['c'] ∧ ∀ e ∈ entries c.root, e.2.comment = [] := by decide
  obtain ⟨c, hc, hid, hnone⟩ := hnode
  exact hrow ((hagrees.uncommented_iff hc hid).mp hnone)

section Link

variable {Raw : Type} {l : Link Card}

/-- In every run in which the client has caught up whenever the socket opens, it agrees with the database as long as the
socket is open. -/
theorem always_reconnected (chess : Chessops) (cards : CardCodec Card) (json : Codec Raw) (parse : Raw → Wire Card)
    (owner : Domain.Text) (h0 : l.Started cards owner) (hopen : l.socketOpen = true → l.asOf = some 0)
    (as : List (LinkAction Raw Card))
    (h : Meets (Link.step chess cards json parse owner) (fun l a => Link.Proper json a ∧ l.InGap a ∧ l.CaughtUp a) l as) :
    Always (Link.step chess cards json parse owner)
      (fun l => l.socketOpen = true → l.stream = [] → Agrees cards l.db owner l.client) l as := by
  have hstart : l.UpToDate := by
    refine ⟨fun ho => ?_, ?_⟩
    · rw [hopen ho, Link.commits, h0.past]
      rfl
    · rw [h0.stream]
      exact List.forall_mem_nil _
  have hall : Always (Link.step chess cards json parse owner) (fun l => l.Traced cards owner ∧ l.UpToDate) l as :=
    Meets.always (fun _ _ hl ha => ⟨hl.1.step ha.1, hl.2.step ha.2.1 ha.2.2⟩) ⟨h0.traced, hstart⟩ h
  exact hall.mono fun _ hl ho _ => hl.1.agrees (hl.2.asOf ho)

end Link

/-- Bob sets a comment while Ann's socket is closed, and she fetches the repertoire before it opens. -/
def fetchedInGap : List (LinkAction (Wire Unit) Unit) :=
  [.onclose, .commit bob bobsComment, .fetchRepertoire, .read 0 .insertion, .install 0 online, .onopen 0, .onmessage 0 online]

theorem fetchedInGap_agrees :
    Meets (Link.step firstMove cards (codec cards) id ['u', '1'])
        (fun l a => Link.Proper (codec cards) a ∧ l.InGap a ∧ l.CaughtUp a) annOnline fetchedInGap ∧
      Always (Link.step firstMove cards (codec cards) id ['u', '1'])
        (fun l => l.socketOpen = true → l.stream = [] → Agrees cards l.db ['u', '1'] l.client) annOnline fetchedInGap := by
  have h : Meets (Link.step firstMove cards (codec cards) id ['u', '1'])
      (fun l a => Link.Proper (codec cards) a ∧ l.InGap a ∧ l.CaughtUp a) annOnline fetchedInGap :=
    ⟨⟨trivial, trivial, trivial⟩, ⟨bobsComment_wellFormed, rfl, trivial⟩, ⟨trivial, trivial, trivial⟩, ⟨trivial, trivial, trivial⟩,
      ⟨trivial, trivial, nofun⟩, ⟨trivial, trivial, rfl⟩, ⟨trivial, trivial, trivial⟩, trivial⟩
  exact ⟨h, always_reconnected firstMove cards (codec cards) id ['u', '1'] annOnline_started (fun _ => rfl) fetchedInGap h⟩

/-- Bob sets a comment while Ann's socket is closed. -/
def missedInGap : List (LinkAction (Wire Unit) Unit) :=
  [.onclose, .commit bob bobsComment, .onopen 0, .onmessage 0 online]

/-- Ann sets a comment while her socket is closed. -/
def setInGap : List (LinkAction (Wire Unit) Unit) :=
  [.onclose, .call online (.setCommentAt (Utf16.encode ['x']) idE4), .onopen 0, .onmessage 0 online]

/-- Ann never gets Bob's comment, and the server never gets hers. -/
theorem gap_differs :
    annOnline.Started cards ['u', '1'] ∧ (annOnline.socketOpen = true → annOnline.asOf = some 0) ∧
      ∀ as ∈ [missedInGap, setInGap],
        Meets (Link.step firstMove cards (codec cards) id ['u', '1']) (fun l a => Link.Proper (codec cards) a ∧ l.InGap a)
            annOnline as ∧
          ¬Always (Link.step firstMove cards (codec cards) id ['u', '1'])
            (fun l => l.socketOpen = true → l.stream = [] → Agrees cards l.db ['u', '1'] l.client) annOnline as := by
  refine ⟨annOnline_started, fun _ => rfl, fun as has => ?_⟩
  rcases List.mem_cons.mp has with rfl | has
  · refine ⟨⟨⟨trivial, trivial⟩, ⟨bobsComment_wellFormed, rfl⟩, ⟨trivial, trivial⟩, ⟨trivial, trivial⟩, trivial⟩, fun h => ?_⟩
    have hagrees := h.last rfl rfl
    have hrow : ¬∀ e ∈ rowEntries cards
        (run (Link.step firstMove cards (codec cards) id ['u', '1']) annOnline missedInGap).db ['c'], e.2.comment = [] := by
      decide
    have hnode : ∃ c ∈ (run (Link.step firstMove cards (codec cards) id ['u', '1']) annOnline missedInGap).client.repertoire,
        c.uuid = Utf16.encode ['c'] ∧ ∀ e ∈ entries c.root, e.2.comment = [] := by decide
    obtain ⟨c, hc, hid, hnone⟩ := hnode
    exact hrow ((hagrees.uncommented_iff hc hid).mp hnone)
  · rw [List.mem_singleton.mp has]
    refine ⟨⟨⟨trivial, trivial⟩, ⟨trivial, trivial⟩, ⟨trivial, trivial⟩, ⟨trivial, trivial⟩, trivial⟩, fun h => ?_⟩
    have hagrees := h.last rfl rfl
    have hrow : ∀ e ∈ rowEntries cards
        (run (Link.step firstMove cards (codec cards) id ['u', '1']) annOnline setInGap).db ['c'], e.2.comment = [] := by
      decide
    have hnode : ∃ c ∈ (run (Link.step firstMove cards (codec cards) id ['u', '1']) annOnline setInGap).client.repertoire,
        c.uuid = Utf16.encode ['c'] ∧ ¬∀ e ∈ entries c.root, e.2.comment = [] := by decide
    obtain ⟨c, hc, hid, hsome⟩ := hnode
    exact hsome ((hagrees.uncommented_iff hc hid).mpr hrow)

/-! ## Presence -/

section Presence

variable {Raw : Type}

/-- While every `leave` is that of the last connection its user has in the room, and no channel is full, the clients
that have read everything show who is in their room. -/
theorem presence_agrees (buffer : Nat) (as : List (PresenceAction Raw))
    (hfull : Always Presence.step (fun w => NoneFull w.ws) (.new buffer) as)
    (hlast : Meets Presence.step Presence.LastLeaves (.new buffer) as) : Always Presence.step Presence.Agrees (.new buffer) as := by
  have hsynced : Always Presence.step Synced (.new buffer) as :=
    (hlast.and hfull.meets).always (fun _ _ h hc => h.step hc.2.1 hc.2.2 hc.1) (Synced.new buffer)
  exact hsynced.mono fun _ h => h.agrees

def annOwns : Session := ⟨['u', '1'], ['a', 'n', 'n'], [], .owner⟩

/-- The writer loop takes a message off the channel, and the client reads it. -/
def reads (i : Nat) : List (PresenceAction Unit) := [.server (.drain i), .receive i]

/-- Ann has two connections and Bob comes and goes. -/
def bobVisits : List (PresenceAction Unit) :=
  [.server (.join ['o'] annOwns), .server (.join ['o'] annOwns), .server (.join ['o'] bob)] ++ reads 0 ++
    [.server (.disconnect 2), .server (.teardown 2)] ++ reads 0 ++ reads 0 ++ reads 0 ++ reads 1 ++ reads 1 ++ reads 1

theorem bobVisits_agrees :
    Always Presence.step (fun w => NoneFull w.ws) (.new 16) bobVisits ∧ Meets Presence.step Presence.LastLeaves (.new 16) bobVisits ∧
      Always Presence.step Presence.Agrees (.new 16) bobVisits := by
  have hfull : Always Presence.step (fun w => NoneFull w.ws) (.new 16) bobVisits := by decide
  have hlast : Meets Presence.step Presence.LastLeaves (.new 16) bobVisits := by decide
  exact ⟨hfull, hlast, presence_agrees 16 bobVisits hfull hlast⟩

/-- Ann closes one of her two connections, and Bob takes her for gone. -/
def annClosesOne : List (PresenceAction Unit) :=
  [.server (.join ['o'] annOwns), .server (.join ['o'] annOwns), .server (.join ['o'] bob)] ++ reads 1 ++ reads 1 ++
    [.server (.disconnect 1), .server (.teardown 1)] ++ reads 0 ++ reads 0 ++ reads 0 ++ reads 0 ++ reads 2 ++ reads 2

theorem annClosesOne_hides :
    Always Presence.step (fun w => NoneFull w.ws) (.new 16) annClosesOne ∧
      ¬ Always Presence.step Presence.Agrees (.new 16) annClosesOne := by
  refine ⟨by decide, fun h => ?_⟩
  have hread : AllRead (run Presence.step (.new 16) annClosesOne) := by
    have hall : ∀ i < 3, ∀ f ∈ (run Presence.step (.new 16) annClosesOne).pending i, isPresence f = false := by decide
    exact fun i s hs _ => hall i (List.getElem?_eq_some_iff.mp hs).1
  have hbob : (run Presence.step (.new 16) annClosesOne).ws.subs[2]?.map (fun s => (s.connected, s.room)) = some (true, 0) := by
    decide
  obtain ⟨s, hs, hconn⟩ := Option.map_eq_some_iff.mp hbob
  obtain ⟨hconn, hroom⟩ := Prod.mk.inj hconn
  have hann : ['a', 'n', 'n'] ∈ present (run Presence.step (.new 16) annClosesOne).ws s.room := by
    rw [hroom]
    exact mem_present.mpr ⟨0, by decide, by decide⟩
  rw [← h.last hread 2 s hs hconn] at hann
  obtain ⟨u, hu, hname⟩ := hann
  have hno : ∀ u ∈ (run Presence.step (.new 16) annClosesOne).connectedUsers 2, u.username ≠ ['a', 'n', 'n'] := by decide
  exact hno u hu hname

end Presence

/-! ## One event on both sides -/

/-- The sender, the database and the peers have one text exactly if what the sender has cut the comment to has no lone
surrogate and no NUL. -/
theorem oneText_iff (cards : CardCodec Card) {env : Env Card} {s : TrainerState Card} {db : Store.Db} {sub : Session}
    {chapter : Chapter Card} {node : TrainableNode Card} {row : Store.MoveRow} (comment : JsString) (hs : Sound s)
    (henv : Online env) (hc : s.selectedChapter = some chapter) (huuid : chapter.uuid = Utf16.encode c)
    (hn : nodeAtPathOrNull chapter.root (Utf16.encode q) = some node)
    (hperm : Domain.canEdit (db.effectivePermissionOnChapter c sub.userID) = true) (hrow : db.moves.find? (c, q) = some row) :
    (commentCopies cards env s db sub comment (Utf16.encode q)).OneText ↔
      Utf16.WellFormed (comment.take Client.maxCommentChars) ∧
        Char.ofNat 0 ∉ Utf16.decode (comment.take Client.maxCommentChars) := by
  rw [commentCopies_eq hs henv hc huuid hn hperm hrow, cutComment_eq]
  constructor
  · rintro ⟨text, htext⟩
    split at htext
    · exact absurd (congrArg CommentCopies.received htext) nofun
    · rename_i hnul
      simp only [CommentCopies.mk.injEq, Option.some.injEq] at htext
      exact ⟨htext.2.2.trans htext.1.symm, hnul⟩
  · rintro ⟨hwf, hnul⟩
    rw [if_neg hnul]
    exact ⟨_, by rw [hwf.eq]⟩

def ann : Session := ⟨['u', '1'], ['a', 'n', 'n'], [], .owner⟩

def annsClient : TrainerState Unit := TrainerState.initial.setRepertoire online [oneMove]

theorem annsClient_sound : Sound annsClient := Sound.setRepertoire (by decide)

theorem shortComment_oneText :
    (commentCopies cards online annsClient editorsDb ann (Utf16.encode ['x']) (Utf16.encode ['/', '?'])).OneText := by
  refine (oneText_iff cards (Utf16.encode ['x']) (c := ['c']) annsClient_sound (by decide) rfl rfl rfl (by decide)
    rfl).mpr ?_
  decide

theorem length_encode_replicate (n : Nat) : (Utf16.encode (List.replicate n 'a')).length = n := by
  induction n with
  | zero => rfl
  | succ n ih =>
      rw [List.replicate_succ, Utf16.encode_cons, List.length_append, ih]
      exact Nat.add_comm 1 n

/-- A comment of a thousand characters, the last of which takes two code units. -/
def thousandCharacters : JsString := Utf16.encode (List.replicate 999 'a' ++ [Char.ofNat 0x1f600])

/-- The sender keeps the first half of the last character, the others get U+FFFD in its place. -/
theorem thousandCharacters_differ :
    ¬ (commentCopies cards online annsClient editorsDb ann thousandCharacters (Utf16.encode ['/', '?'])).OneText := by
  have hlen := length_encode_replicate 999
  have hcut : cutComment thousandCharacters = Utf16.encode (List.replicate 999 'a') ++ [0xd83d] := by
    rw [cutComment_eq, thousandCharacters, Utf16.encode_append, List.take_append, hlen,
      List.take_of_length_le (by rw [hlen]; decide)]
    rfl
  have hbad : ¬ Utf16.WellFormed (cutComment thousandCharacters) := by
    rw [hcut, Utf16.wellFormed_encode_append]
    decide
  have hcopies : commentCopies cards online annsClient editorsDb ann thousandCharacters (Utf16.encode ['/', '?']) = _ :=
    commentCopies_eq (c := ['c']) annsClient_sound (by decide) rfl rfl rfl (by decide) rfl
  rw [hcopies]
  rintro ⟨text, htext⟩
  split at htext
  · exact absurd (congrArg CommentCopies.received htext) nofun
  · simp only [CommentCopies.mk.injEq, Option.some.injEq] at htext
    exact hbad (htext.2.2.trans htext.1.symm)

/-! ## Cards -/

/-- No card comes back as it was. -/
theorem never_roundTrips (dates : DateText) (db : Store.Db) (chapterID path username : Domain.Text) (card : FsrsCard) :
    ¬ RoundTrips dates db chapterID path username card := by
  rintro ⟨o, ho, -, hsteps⟩
  rw [learningSteps_sendAndLoad ho] at hsteps
  cases hsteps

/-- As far as the first second goes. -/
def epoch : DateText where
  toISOString _ := ['1', '9', '7', '0', '-', '0', '1', '-', '0', '1', 'T', '0', '0', ':', '0', '0', ':', '0', '0', '.',
    '0', '0', '0', 'Z']
  parse _ := some 0

/-- A card in the second of its learning steps. -/
def learningCard : FsrsCard := ⟨0, 0x4009000000000000, 0x4014000000000000, 0, 0, 1, 1, 0, 1, some 0⟩

theorem learningCard_changed :
    (sendAndLoad epoch editorsDb ['c'] ['/', '?'] ['a', 'n', 'n'] learningCard).isSome = true ∧
      ¬ RoundTrips epoch editorsDb ['c'] ['/', '?'] ['a', 'n', 'n'] learningCard := by
  refine ⟨rfl, ?_⟩
  rintro ⟨o, ho, -, hsteps⟩
  cases ho
  cases hsteps

/-! ## New chapters -/

/-- When the request and the fetch are done, the client has the new chapter just when the server has it, if and only if
the chapter was accepted or the client has been told that it exceeds a cap. -/
theorem settled_iff (cards : CardCodec Card) (bodyBytes : RawChapter Card → Nat) (env : Env Card) (order : Store.PathOrder)
    {v : Visit Card} {x : Exchange} {chapter : Chapter Card} {id : Domain.Text} (hid : chapter.uuid = Utf16.encode id)
    (hnew : v.db.chapters.has id = false) (hr : Store.Referenced v.db) (hfetch : v.Fetched cards bodyBytes x order chapter) :
    (v.addNewChapter cards bodyBytes x env order chapter).Settled id ↔
      ∃ req, v.request cards bodyBytes chapter = some req ∧ (x.Accepted v.db req ∨ x.Capped v.db req) := by
  cases hreq : v.request cards bodyBytes chapter with
  | none => exact iff_of_false (Visit.settled_unsent hid hnew hreq) nofun
  | some req =>
      have hcondition : (∃ req', some req = some req' ∧ (x.Accepted v.db req' ∨ x.Capped v.db req')) ↔
          x.Accepted v.db req ∨ x.Capped v.db req := by simp
      rw [hcondition]
      by_cases haccepted : x.Accepted v.db req
      · exact iff_of_true (Visit.settled_accepted hid hnew hr hreq hfetch haccepted) (.inl haccepted)
      · rw [or_iff_right haccepted]
        exact Visit.settled_refused_iff hid hnew hr hreq hfetch haccepted

/-- Ann at her own repertoire. -/
def annsVisit : Visit Unit := ⟨annsAccount editorsDb, some ['a', 'n', 'n']⟩

/-- A chapter that nobody has yet. -/
def newChapter : Chapter Unit := { annsChapter oneMove with uuid := Utf16.encode ['d'] }

/-- Ann has as many chapters as she may have. -/
def fullDb : Store.Db :=
  { editorsDb with
    chapters := ⟨(List.range 20).map fun i => ⟨[Char.ofNat (65 + i)], ['u', '1'], [], Utf16.decode white⟩, by decide⟩
    moves := Table.empty }

def fullVisit : Visit Unit := ⟨annsAccount fullDb, some ['a', 'n', 'n']⟩

/-- The server creates the chapter, or Ann is told that it is one too many and has the twenty of the server again. -/
theorem created_settled :
    (annsVisit.addNewChapter cards (fun _ => 372) ⟨some .none, .own⟩ online .insertion newChapter).Settled ['d'] ∧
      (fullVisit.send cards (fun _ => 372) ⟨some .none, .own⟩ newChapter).2 = some 409 ∧
      (fullVisit.addNewChapter cards (fun _ => 372) ⟨some .none, .own⟩ online .insertion newChapter).Settled ['d'] := by
  have hid : newChapter.uuid = Utf16.encode ['d'] := rfl
  refine ⟨?_, by decide, ?_⟩
  · have haccepted : Exchange.Accepted ⟨some .none, .own⟩ annsVisit.db
        ⟨['u', '1'], ['a', 'n', 'n'], some (chapterEvent cards newChapter.stored)⟩ :=
      ⟨.none, ⟨['u', '1'], ['a', 'n', 'n'], []⟩, _, rfl, ⟨rfl, rfl, rfl, rfl, rfl⟩, ⟨by decide, by decide⟩, rfl⟩
    have hfetch : annsVisit.Fetched cards (fun _ => 372) ⟨some .none, .own⟩ .insertion newChapter := by
      intro h
      exact absurd h (by decide)
    exact (settled_iff cards (fun _ => 372) online .insertion (v := annsVisit) hid (by decide) editorsDb_referenced hfetch).mpr
      ⟨_, rfl, .inl haccepted⟩
  · have hcapped : Exchange.Capped ⟨some .none, .own⟩ fullVisit.db
        ⟨['u', '1'], ['a', 'n', 'n'], some (chapterEvent cards newChapter.stored)⟩ :=
      ⟨.none, ⟨['u', '1'], ['a', 'n', 'n'], []⟩, _, rfl, ⟨rfl, rfl, rfl, rfl, rfl⟩, fun h => absurd h.1 (by decide)⟩
    have hfetch : fullVisit.Fetched cards (fun _ => 372) ⟨some .none, .own⟩ .insertion newChapter := fun _ => by decide
    exact (settled_iff cards (fun _ => 372) online .insertion (v := fullVisit) hid (by decide) ⟨nofun, nofun⟩ hfetch).mpr
      ⟨_, rfl, .inr hcapped⟩

/-- The request gets lost. -/
theorem lost_unsettled :
    newChapter.uuid = Utf16.encode ['d'] ∧ annsVisit.db.chapters.has ['d'] = false ∧ Store.Referenced annsVisit.db ∧
      annsVisit.Fetched cards (fun _ => 372) ⟨none, .other none⟩ .insertion newChapter ∧
      ¬(annsVisit.addNewChapter cards (fun _ => 372) ⟨none, .other none⟩ online .insertion newChapter).Settled ['d'] := by
  refine ⟨rfl, by decide, editorsDb_referenced, fun h => absurd h (by decide), fun h => ?_⟩
  have hheld := h.mp ⟨newChapter, List.mem_cons_self, rfl⟩
  exact absurd hheld (by decide)

/-! ## Imported chapters -/

/-- All nodes of an imported chapter are reached by their paths, and all are counted when the chapter comes back from the
server, if and only if no two variations of the game begin with the same move. -/
theorem addressable_iff (cards : CardCodec Card) {lib : ChessLib} {pgn : PgnLibrary} {next next' : Nat}
    {rawPgn color name uuid : JsString} {chapter : Chapter Card} (h : lib.Lawful) (hpairs : lib.PairsInjective)
    (hcolor : color = white ∨ color = black) {game : Game} {games : List Game} (hparse : pgn.parsePgn rawPgn = some (game :: games))
    (hc : chapterFromPgn (pgn.toPgn lib) next rawPgn color name uuid = some (chapter, next')) :
    Addressable cards chapter ↔ game.Unrepeated lib := by
  obtain ⟨game', games', hparse', hmade, -, hcount⟩ := exists_madeFrom hcolor hc
  rw [hparse] at hparse'
  cases hparse'
  obtain ⟨hunseen, hrefs⟩ := chapterFromPgn_new hc
  rw [← hmade.distinctIds_iff h hcolor hpairs]
  have htwo : TwoUnits chapter.root := hmade.twoUnits h hcolor
  refine ⟨fun haddressable => haddressable.distinct, fun hdistinct => ⟨hdistinct, fun n hn => ?_, ?_⟩⟩
  · obtain ⟨p, hp⟩ := exists_path htwo hdistinct hn
    exact ⟨p, hp, fun q hq => path_unique hrefs hq hp⟩
  · intro raws hraws env next d hd hid
    rw [hunseen, hcount]
    exact hraws.counts (keyed_toNode cards htwo (hmade.plainIds h hcolor) hdistinct) hd hid

theorem pairs_opening : opening.PairsInjective := by
  intro pos san san' move move' _ _ _ hpair
  have hsquare : ∀ a b : Fin 64, UInt16.ofNat (35 + a) = UInt16.ofNat (35 + b) → a = b := by
    intro a b h
    have h := congrArg UInt16.toNat h
    rw [UInt16.toNat_ofNat_of_lt' (by simp only [UInt16.size]; omega),
      UInt16.toNat_ofNat_of_lt' (by simp only [UInt16.size]; omega)] at h
    omega
  obtain ⟨h1, h2⟩ := List.cons.inj hpair
  exact Prod.ext (hsquare _ _ h1) (hsquare _ _ (List.cons.inj h2).1)

/-- The variation begins with another move. -/
theorem importedSideline_addressable : Addressable cards importedSideline := by
  have hunrepeated : sideline.Unrepeated opening := by
    rw [Game.Unrepeated, siblings_sideline]
    decide
  exact (addressable_iff cards opening_lawful pairs_opening (.inl rfl) parsePgn_pgnSideline
    chapterFromPgn_pgnSideline).mpr hunrepeated

/-- The chapter with e4 and e4 again. -/
def importedTwice : Chapter Unit :=
  ⟨[99], [], white, (allocate 0 (.node startData [.node dataE4 [], .node dataE4 []])).1, 2, 2, 0⟩

/-- The two moves have one id. -/
theorem importedTwice_unaddressable : opening.Lawful ∧ opening.PairsInjective ∧
    chapterFromPgn (openingPgn.toPgn opening) 0 pgnTwice white [] [99] = some (importedTwice, 3) ∧
      ¬Addressable cards importedTwice := by
  refine ⟨opening_lawful, pairs_opening, rfl, fun h => ?_⟩
  exact absurd h.distinct (by decide)

end Chessrepeat.Room
