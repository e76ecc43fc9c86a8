import Chessrepeat.Ws.Lemmas.Answers
import Chessrepeat.Ws.Lemmas.Delivery
import Chessrepeat.Ws.Lemmas.Registry
import Chessrepeat.Ws.Lemmas.Routing

/-!
# What holds of the rooms
-/

namespace Chessrepeat.Ws

open Lib Domain Store

variable {Raw : Type}

/-! ## Evictions -/

/-- Every open connection gets all that is published in its room, and none is taken out of it silently,
exactly when no message is ever sent on the full channel of an open connection. -/
theorem always_noSilentEviction (buffer : Nat) (as : List (Action Raw)) :
    Always Server.step NoSilentEviction (Server.new buffer) as ↔
      Meets Server.step NoOverflow (Server.new buffer) as :=
  always_iff_meets (J := Server.Wf) (fun _ a hw => hw.step a) (fun _ a hw h => Server.step_noSilentEviction_iff hw h a)
    (Server.Wf.new buffer) (NoSilentEviction.new buffer) as

def ann : Session := ⟨['u', '1'], ['a', 'n', 'n'], [], .owner⟩

def bob : Session := ⟨['u', '2'], ['b', 'o', 'b'], [], .edit⟩

/-- Ann does not read. Bob's messages fill her channel, the next one evicts her and the last one is not for
her any more. -/
def slowReader : List (Action Unit) :=
  [.join ['o'] ann, .join ['o'] bob] ++ List.replicate 15 (.publishRoom 0 () (some 1)) ++
    [.evict 0, .publishRoom 0 () (some 1)]

/-- Her connection stays open, and the last message is not on her channel. -/
theorem slowReader_misses :
    ¬ Always Server.step NoSilentEviction (Server.new 16 : Server Unit) slowReader := by
  intro h
  have hconn : ((run Server.step (Server.new 16) slowReader).subs[0]?.map Subscriber.connected) = some true := by
    decide
  obtain ⟨s, hs, hc⟩ := Option.map_eq_some_iff.mp hconn
  have hjoin : ((run Server.step (Server.new 16) slowReader).subs[0]?.map fun s => (s.room, s.joinedAt)) =
      some (0, 0) := by decide
  rw [hs, Option.map_some, Option.some.injEq, Prod.mk.injEq] at hjoin
  have hlast : ⟨0, (), some 1, ∅⟩ ∈ (run Server.step (Server.new 16) slowReader).published := by decide
  refine absurd ((h.last 0 s hs hc).all _ (by rw [hjoin.2]; exact hlast) hjoin.1.symm (by decide)) (by decide)

/-! ## The registry -/

/-- Rooms and registry agree exactly when every `leave` that empties its room, or finds it empty, finds no
other room of the owner registered. -/
theorem always_integrity (buffer : Nat) (as : List (Action Raw)) :
    Always Server.step Integrity (Server.new buffer) as ↔
      Meets Server.step LeaveFindsOwnRoom (Server.new buffer) as :=
  always_iff_meets (J := Server.Wf) (fun _ a hw => hw.step a) (fun _ a hw h => Server.step_integrity_iff hw h a)
    (Server.Wf.new buffer) (Integrity.new buffer) as

/-- Ann is evicted from a room of her own and Bob opens a new one. Then her connection ends and `subscribe`
leaves the old room a second time. -/
def lateLeave : List (Action Unit) :=
  [.join ['o'] ann] ++ List.replicate 16 (.sendTo 0 ()) ++
    [.evict 0, .join ['o'] bob, .disconnect 0, .teardown 0]

/-- Bob's room is no longer registered. -/
theorem lateLeave_unregisters :
    ¬ Always Server.step Integrity (Server.new 16 : Server Unit) lateLeave := by
  intro h
  have hroom : (run Server.step (Server.new 16) lateLeave).roomHeap[1]? = some ⟨['o'], {1}⟩ := by decide
  have hnone : (run Server.step (Server.new 16) lateLeave).rooms ['o'] = none := by decide
  exact absurd (h.last.registered 1 _ hroom (by decide)) (by rw [hnone]; decide)

/-! ## Routing -/

/-- An accepted change of a chapter is published in the sender's room. That reaches the viewers of the chapter
owner's repertoire, and no one without a permission on it, exactly when the sender's room is that owner's. -/
theorem broadcast_routing (json : Codec Raw) (faults : Faults) (buffer : Nat) (as : List (Action Raw)) (db : Db)
    (i : Nat) (sub : Subscriber Raw) (raw msg : Raw)
    (hi : (run Server.step (Server.new buffer) as).subs[i]? = some sub)
    (hb : (dispatch json faults db sub.session raw).2 = .broadcast msg) :
    ∃ c, target json raw = some c.uuid ∧ db.chapters.find? c.uuid = some c ∧
      (handleMessage json faults db (run Server.step (Server.new buffer) as) i raw).2 =
        (run Server.step (Server.new buffer) as).publishRoom sub.room msg (some i) ∧
      (RoutedRight (run Server.step (Server.new buffer) as) db i sub c.ownerId ↔
        InOwnersRoom (run Server.step (Server.new buffer) as) db i sub c.ownerId) := by
  have hw : (run Server.step (Server.new buffer) as).Wf := Server.Wf.run buffer as
  obtain ⟨c, hc, hrow⟩ := dispatch_broadcast hb
  refine ⟨c, hc, hrow, ?_, routedRight_iff hw db i sub c.ownerId⟩
  simp only [handleMessage, hi, hb, Server.react]

/-- Ann has one chapter. Bob may edit it, and Cid may train on Bob's repertoire. -/
def sharedDb : Db :=
  { Db.empty with
    users := ⟨⟨[⟨['u', '1'], some ['a', 'n', 'n'], [], 1⟩, ⟨['u', '2'], some ['b', 'o', 'b'], [], 1⟩,
      ⟨['u', '3'], some ['c', 'i', 'd'], [], 1⟩], by decide⟩, by decide⟩
    collaborators := ⟨[⟨['u', '1'], ['u', '2'], .edit⟩, ⟨['u', '2'], ['u', '3'], .train⟩], by decide⟩
    chapters := ⟨[⟨['c'], ['u', '1'], ['x'], ['w']⟩], by decide⟩ }

def cid : Session := ⟨['u', '3'], ['c', 'i', 'd'], [], .train⟩

/-- `e4` in Ann's chapter. -/
def firstMove : Message := .moveCreated ⟨['c'], ⟨['/', '?'], [], 1, ['e', '4'], [], true, none⟩, []⟩

/-- Bob in his own room, with Cid. -/
def ownRoom : List (Action Message) :=
  [.join ['u', '1'] ann, .join ['u', '2'] { bob with permission := .owner }, .join ['u', '2'] cid]

/-- Bob's move in Ann's chapter goes to Cid, who may not see it, and not to Ann. -/
theorem firstMove_misrouted : ∃ sub, (run Server.step (Server.new 16) ownRoom).subs[1]? = some sub ∧
    (dispatch Message.codec Faults.none sharedDb sub.session firstMove).2 = .broadcast firstMove ∧
    target Message.codec firstMove = some ['c'] ∧
    ¬ RoutedRight (run Server.step (Server.new 16) ownRoom) sharedDb 1 sub ['u', '1'] := by
  refine ⟨_, rfl, by decide, by decide, fun h => ?_⟩
  have hno : ∀ R ∈ (run Server.step (Server.new 16) ownRoom).roomHeap, R.id = ['u', '1'] →
      2 ∉ R.subscribers := by decide
  obtain ⟨⟨R, hR, hid, hmem⟩, -⟩ := (h.1 2).mp (by decide)
  exact hno R hR hid hmem

/-- Bob in Ann's room. -/
def annsRoom : List (Action Message) := [.join ['u', '1'] ann, .join ['u', '1'] bob]

theorem firstMove_routed : ∃ sub c, (run Server.step (Server.new 16) annsRoom).subs[1]? = some sub ∧
    target Message.codec firstMove = some c.uuid ∧ sharedDb.chapters.find? c.uuid = some c ∧
    RoutedRight (run Server.step (Server.new 16) annsRoom) sharedDb 1 sub c.ownerId := by
  obtain ⟨c, hc, hrow, -, hiff⟩ := broadcast_routing Message.codec Faults.none 16 annsRoom sharedDb 1 _
    firstMove firstMove rfl (by decide)
  refine ⟨_, c, rfl, hc, hrow, hiff.mpr ?_⟩
  have hu : c.uuid = ['c'] := (Option.some.inj hc).symm
  rw [hu] at hrow
  cases hrow
  have hone : ∀ R ∈ (run Server.step (Server.new 16) annsRoom).roomHeap, ∀ j ∈ R.subscribers,
      j ∈ (run Server.step (Server.new 16) annsRoom).members 0 := by decide
  exact ⟨Or.inl ⟨⟨_, rfl, rfl⟩, fun j ⟨R, hR, _, hj⟩ _ => hone R hR j hj⟩, by decide⟩

/-! ## Answers -/

/-- An edit is persisted and broadcast, or its sender is told to reload, exactly when it is within the limits of the
reader, gets past the gates, and does not need a reload that the sender's channel has no room for. Any other is
dropped: nothing is written or broadcast, and the sender hears nothing. -/
theorem readMessage_answered_iff (json : Codec Raw) (size : Raw → Nat) (faults : Faults) (db : Db) (w : Server Raw)
    (i : Nat) (sub : Subscriber Raw) (readBudget : Bucket) (now : Int) (raw : Raw) (op : Op)
    (hi : w.subs[i]? = some sub) (henv : json.envelope raw = some op) (hop : op.isEdit = true) :
    let out := readMessage json size faults db w i readBudget now raw
    (Answered json db w i sub raw op out.1 out.2.1 ↔ Heard json size faults db w sub readBudget now raw op) ∧
      (¬Heard json size faults db w sub readBudget now raw op → Silent db w i sub out.1 out.2.1) := by
  intro out
  have hcases : (Heard json size faults db w sub readBudget now raw op ∧ Answered json db w i sub raw op out.1 out.2.1) ∨
      (¬Heard json size faults db w sub readBudget now raw op ∧ Silent db w i sub out.1 out.2.1) := by
    have hsame : Silent db w i sub db w := ⟨rfl, rfl, by rw [hi]; rfl⟩
    by_cases hfits : readLimitBytes < size raw
    · have hout : out = (db, w.mapSubs {i} Subscriber.disconnect, readBudget) := if_pos hfits
      refine Or.inr ⟨fun h => Nat.not_lt.mpr h.fits hfits, ?_⟩
      rw [hout]
      refine ⟨rfl, rfl, ?_⟩
      rw [Server.getElem?_mapSubs, hi, Option.map_some, if_pos (Finset.mem_singleton_self i)]
      rfl
    · cases hallow : (readBudget.allow now).2 with
      | false =>
          have hout : out = (db, w, (readBudget.allow now).1) := by simp [out, readMessage, hfits, hallow]
          refine Or.inr ⟨fun h => by simp [h.allowed] at hallow, ?_⟩
          rw [hout]
          exact hsame
      | true =>
          have hout : out = ((handleMessage json faults db w i raw).1, (handleMessage json faults db w i raw).2,
              (readBudget.allow now).1) := by simp [out, readMessage, hfits, hallow]
          by_cases hp : ∃ e, Passes json faults db sub.session raw op e
          · obtain ⟨e, hp⟩ := hp
            rw [hout]
            rcases handleMessage_passed hi henv hp with ⟨hanswer, hpassed⟩ | ⟨hanswer, hpassed⟩
            · exact Or.inl ⟨⟨Nat.not_lt.mp hfits, hallow, e, hp, hanswer⟩, hpassed⟩
            · refine Or.inr ⟨fun h => ?_, hpassed⟩
              obtain ⟨e', hp', hanswer'⟩ := h.passes
              cases hp.decoded.symm.trans hp'.decoded
              exact hanswer hanswer'
          · have hstop := dispatch_stopped henv hop fun e he => hp ⟨e, he⟩
            refine Or.inr ⟨fun h => hp (h.passes.imp fun e he => he.1), ?_⟩
            simp only [hout, handleMessage, hi, hstop, Server.react]
            exact hsame
  rcases hcases with ⟨hheard, hanswered⟩ | ⟨hunheard, hsilent⟩
  · exact ⟨iff_of_true hanswered hheard, fun h => absurd hheard h⟩
  · exact ⟨iff_of_false hsilent.not_answered hunheard, fun _ => hsilent⟩

/-- One turn of the reader for Bob in Ann's room, with a full budget and a short message. -/
def readBob (db : Db) : Db × Server Message × Bucket :=
  readMessage Message.codec (fun _ => 200) Faults.none db (run Server.step (Server.new 16) annsRoom) 1
    (Bucket.new wsBucketCapacity wsRefillPerSec 0) 0 firstMove

theorem allow_full : ((Bucket.new wsBucketCapacity wsRefillPerSec 0).allow 0).2 = true := by
  decide

/-- Bob may edit Ann's chapter, and his move is answered. -/
theorem firstMove_answered : ∃ sub, (run Server.step (Server.new 16) annsRoom).subs[1]? = some sub ∧
    Answered Message.codec sharedDb (run Server.step (Server.new 16) annsRoom) 1 sub firstMove .moveCreated
      (readBob sharedDb).1 (readBob sharedDb).2.1 := by
  refine ⟨_, rfl, ?_⟩
  obtain ⟨hiff, -⟩ := readMessage_answered_iff Message.codec (fun _ => 200) Faults.none sharedDb
    (run Server.step (Server.new 16) annsRoom) 1 _ (Bucket.new wsBucketCapacity wsRefillPerSec 0) 0 firstMove
    .moveCreated rfl rfl rfl
  refine hiff.mpr ⟨by decide, allow_full, _, ⟨rfl, by decide, rfl⟩, Or.inr (by decide)⟩

/-- Ann has left Bob the permission to train. -/
def demotedDb : Db := { sharedDb with collaborators := ⟨[⟨['u', '1'], ['u', '2'], .train⟩], by decide⟩ }

/-- Bob still sits in her room, and hears nothing of the move that is not stored. -/
theorem firstMove_unanswered : ∃ sub, (run Server.step (Server.new 16) annsRoom).subs[1]? = some sub ∧
    (readBob demotedDb).1 = demotedDb ∧
    ¬Answered Message.codec demotedDb (run Server.step (Server.new 16) annsRoom) 1 sub firstMove .moveCreated
      (readBob demotedDb).1 (readBob demotedDb).2.1 := by
  refine ⟨_, rfl, rfl, Silent.not_answered ⟨rfl, by decide, by decide⟩⟩

end Chessrepeat.Ws
