import Chessrepeat.Ws.Reader
import Chessrepeat.Ws.Lemmas.Dispatch
import Chessrepeat.Ws.Lemmas.Rooms

/-!
# What a client hears of its edits

A client sends an edit after it has changed its own tree. The four kinds go through the same gates.
-/

namespace Chessrepeat.Ws

open Lib Domain Store

variable {Raw : Type} {json : Codec Raw} {faults : Faults} {db : Db} {w : Server Raw} {sub : Subscriber Raw} {i : Nat}
  {raw : Raw}

/-- The event of an edit, as the store is given it. -/
inductive Edit where
  | move (event : MoveEvent)
  | comment (event : CommentEvent)
  | training (event : TrainingUpdatedEvent)
  | delete (event : NodeDeleteEvent)

namespace Edit

def chapterID : Edit → Text
  | move event => event.chapterID
  | comment event => event.chapterID
  | training event => event.chapterID
  | delete event => event.chapterID

def requireEdit : Edit → Bool
  | training _ => false
  | _ => true

def write (db : Db) : Edit → Except StoreError Db
  | move event => db.addMoveToChapter event
  | comment event => db.setComment event.chapterID event.path event.comment
  | training event => db.updateTrainingState event
  | delete event => db.deleteNodeFromChapter event

/-- What the peers get. -/
def out (json : Codec Raw) (raw : Raw) : Edit → Raw
  | move _ => raw
  | comment event => json.marshalComment event
  | training event => json.marshalTrainingUpdated event
  | delete _ => raw

end Edit

def Op.isEdit : Op → Bool
  | .moveCreated | .setComment | .trainingUpdated | .nodeDeleted => true
  | _ => false

/-- `none` where the payload does not decode. -/
def decode (json : Codec Raw) (session : Session) (raw : Raw) : Op → Option Edit
  | .moveCreated => (json.moveEvent raw).map .move
  | .setComment => (json.commentEvent raw).map fun event => .comment (truncateComment event)
  | .trainingUpdated => (json.trainingUpdatedEvent raw).map fun event => .training (stampUsername session event)
  | .nodeDeleted => (json.nodeDeleteEvent raw).map .delete
  | _ => none

/-- The message gets past the gates: it decodes, its sender may do it, and the database works. -/
structure Passes (json : Codec Raw) (faults : Faults) (db : Db) (session : Session) (raw : Raw) (op : Op) (e : Edit) :
    Prop where
  decoded : decode json session raw op = some e
  authorized : authorizeChapter faults db session e.chapterID e.requireEdit = true
  works : faults.store = false

/-- A write that has passed the gate fails for a missing path or for the move cap. -/
theorem Edit.write_error {e : Edit} {err : StoreError} (h : db.chapters.has e.chapterID = true)
    (he : e.write db = .error err) : err = .pathNotFound ∨ err = .chapterMoveLimit ∧ ∃ event, e = .move event := by
  cases e with
  | move event =>
      have h : db.chapters.has event.chapterID = true := h
      simp only [Edit.write, Db.addMoveToChapter] at he
      split at he
      · cases he
        exact Or.inl rfl
      · split at he
        · cases he
          exact Or.inr ⟨rfl, event, rfl⟩
        · simp only [Db.upsertMove, h, if_true] at he
          cases he
  | comment event =>
      simp only [Edit.write, Db.setComment] at he
      split at he <;> cases he
      exact Or.inl rfl
  | training event =>
      simp only [Edit.write, Db.updateTrainingState] at he
      split at he <;> cases he
      exact Or.inl rfl
  | delete event =>
      simp only [Edit.write, Db.deleteNodeFromChapter] at he
      split at he
      · cases he
      · split at he <;> cases he
        exact Or.inl rfl

/-- What a branch of the switch does with a message that gets past its gates, when it reloads for every error the
write can have. -/
theorem mutate_passed {α : Type} {session : Session} {event : α} {chapterID : α → Text} {requireEdit : Bool}
    (write : α → Except StoreError Db) (reloads : List StoreError) (out : α → Raw)
    (ha : authorizeChapter faults db session (chapterID event) requireEdit = true) (hf : faults.store = false)
    (he : ∀ err, write event = .error err → err ∈ reloads) :
    (∃ db', write event = .ok db' ∧
        mutate json faults db session (some event) chapterID requireEdit write reloads out =
          (db', .broadcast (out event))) ∨
      (∃ err, write event = .error err) ∧
        mutate json faults db session (some event) chapterID requireEdit write reloads out =
          (db, .reply json.reloadMessage) := by
  cases hw : write event with
  | ok db' => exact Or.inl ⟨db', rfl, by simp [mutate, ha, hf, hw]⟩
  | error err => exact Or.inr ⟨⟨err, rfl⟩, by simp [mutate, ha, hf, hw, he err hw]⟩

theorem mutate_stopped {α : Type} {db : Db} {session : Session} {event : Option α} {chapterID : α → Text}
    {requireEdit : Bool} {write : α → Except StoreError Db} {reloads : List StoreError} {out : α → Raw}
    (h : ∀ e, event = some e → authorizeChapter faults db session (chapterID e) requireEdit = true →
      faults.store = true) :
    mutate json faults db session event chapterID requireEdit write reloads out = (db, .drop) := by
  cases event with
  | none => rfl
  | some e =>
      by_cases ha : authorizeChapter faults db session (chapterID e) requireEdit = true
      · simp only [mutate, ha, h e rfl ha, if_true]
      · simp only [mutate, ha, Bool.false_eq_true, if_false]

/-- A message that gets past the gates is written and broadcast, or its sender is told to reload. -/
theorem dispatch_passed {session : Session} {op : Op} {e : Edit} (henv : json.envelope raw = some op)
    (h : Passes json faults db session raw op e) :
    (∃ db', e.write db = .ok db' ∧ dispatch json faults db session raw = (db', .broadcast (e.out json raw))) ∨
      (∃ err, e.write db = .error err) ∧ dispatch json faults db session raw = (db, .reply json.reloadMessage) := by
  obtain ⟨hd, ha, hf⟩ := h
  obtain ⟨c, hc, -⟩ := authorizeChapter_spec ha
  have hhas : db.chapters.has e.chapterID = true := by rw [Table.has, hc]; rfl
  -- only a move can meet the move cap
  have hpath : (∀ event, e ≠ .move event) → ∀ err, e.write db = .error err → err = .pathNotFound := by
    intro hne err hw
    rcases Edit.write_error hhas hw with hp | ⟨-, event, hm⟩
    · exact hp
    · exact absurd hm (hne event)
  cases op with
  | moveCreated =>
      obtain ⟨event, hevent, rfl⟩ := Option.map_eq_some_iff.mp hd
      have ha : authorizeChapter faults db session (MoveEvent.chapterID event) true = true := ha
      simp only [dispatch, henv, moveCreated, hevent]
      refine mutate_passed db.addMoveToChapter [.pathNotFound, .chapterMoveLimit] (fun _ => raw) ha hf fun err hw => ?_
      rcases Edit.write_error hhas hw with rfl | ⟨rfl, -⟩ <;> simp
  | setComment =>
      obtain ⟨event, hevent, rfl⟩ := Option.map_eq_some_iff.mp hd
      simp only [dispatch, henv, setComment, hevent, Option.map_some]
      generalize truncateComment event = event' at *
      have ha : authorizeChapter faults db session (CommentEvent.chapterID event') true = true := ha
      refine mutate_passed (fun event => db.setComment event.chapterID event.path event.comment) [.pathNotFound]
        json.marshalComment ha hf fun err hw => ?_
      exact List.mem_singleton.mpr (hpath (by rintro _ ⟨⟩) err hw)
  | trainingUpdated =>
      obtain ⟨event, hevent, rfl⟩ := Option.map_eq_some_iff.mp hd
      simp only [dispatch, henv, trainingUpdated, hevent, Option.map_some]
      generalize stampUsername session event = event' at *
      have ha : authorizeChapter faults db session (TrainingUpdatedEvent.chapterID event') false = true := ha
      refine mutate_passed db.updateTrainingState [.pathNotFound] json.marshalTrainingUpdated ha hf fun err hw => ?_
      exact List.mem_singleton.mpr (hpath (by rintro _ ⟨⟩) err hw)
  | nodeDeleted =>
      obtain ⟨event, hevent, rfl⟩ := Option.map_eq_some_iff.mp hd
      have ha : authorizeChapter faults db session (NodeDeleteEvent.chapterID event) true = true := ha
      simp only [dispatch, henv, nodeDeleted, hevent]
      refine mutate_passed db.deleteNodeFromChapter [.pathNotFound] (fun _ => raw) ha hf fun err hw => ?_
      exact List.mem_singleton.mpr (hpath (by rintro _ ⟨⟩) err hw)
  | _ => cases hd

/-- Any other edit is dropped. -/
theorem dispatch_stopped {session : Session} {op : Op} (henv : json.envelope raw = some op) (hop : op.isEdit = true)
    (h : ∀ e, ¬Passes json faults db session raw op e) : dispatch json faults db session raw = (db, .drop) := by
  have hstop : ∀ e, decode json session raw op = some e →
      authorizeChapter faults db session e.chapterID e.requireEdit = true → faults.store = true := by
    intro e hd ha
    by_contra hf
    exact h e ⟨hd, ha, by simpa using hf⟩
  cases op with
  | moveCreated =>
      simp only [dispatch, henv, moveCreated]
      exact mutate_stopped fun event hevent ha => hstop (.move event) (by simp [decode, hevent]) ha
  | setComment =>
      simp only [dispatch, henv, setComment]
      refine mutate_stopped fun event hevent ha => hstop (.comment event) ?_ ha
      obtain ⟨raw', hraw, rfl⟩ := Option.map_eq_some_iff.mp hevent
      simp [decode, hraw]
  | trainingUpdated =>
      simp only [dispatch, henv, trainingUpdated]
      refine mutate_stopped fun event hevent ha => hstop (.training event) ?_ ha
      obtain ⟨raw', hraw, rfl⟩ := Option.map_eq_some_iff.mp hevent
      simp [decode, hraw]
  | nodeDeleted =>
      simp only [dispatch, henv, nodeDeleted]
      exact mutate_stopped fun event hevent ha => hstop (.delete event) (by simp [decode, hevent]) ha
  | _ => cases hop

/-! ## Answers -/

/-- The edit is written, and broadcast in the sender's room. -/
structure Persisted (json : Codec Raw) (db : Db) (w : Server Raw) (i : Nat) (sub : Subscriber Raw) (raw : Raw) (e : Edit)
    (db' : Db) (w' : Server Raw) : Prop where
  written : e.write db = .ok db'
  broadcast : w' = w.publishRoom sub.room (e.out json raw) (some i)

/-- The database stays as it is and the sender's channel has a reload more. -/
structure Told (json : Codec Raw) (db : Db) (w : Server Raw) (i : Nat) (sub : Subscriber Raw) (db' : Db)
    (w' : Server Raw) : Prop where
  kept : db' = db
  unpublished : w'.published = w.published
  reload : w'.subs[i]?.map Subscriber.msgs = some (sub.msgs ++ [.raw json.reloadMessage])

/-- Nothing is written or broadcast, and the sender hears nothing. -/
structure Silent (db : Db) (w : Server Raw) (i : Nat) (sub : Subscriber Raw) (db' : Db) (w' : Server Raw) : Prop where
  kept : db' = db
  unpublished : w'.published = w.published
  unheard : w'.subs[i]?.map Subscriber.msgs = some sub.msgs

theorem Silent.not_persisted {e : Edit} {db' : Db} {w' : Server Raw} (h : Silent db w i sub db' w') :
    ¬Persisted json db w i sub raw e db' w' := by
  intro hp
  have hlen := congrArg List.length h.unpublished
  rw [hp.broadcast] at hlen
  simp [Server.publishRoom] at hlen

theorem Silent.not_told {db' : Db} {w' : Server Raw} (h : Silent db w i sub db' w') : ¬Told json db w i sub db' w' := by
  intro ht
  have hmsgs := h.unheard.symm.trans ht.reload
  simp at hmsgs

theorem sendTo_msgs (hi : w.subs[i]? = some sub) (msg : Raw) : (w.sendTo i msg).subs[i]?.map Subscriber.msgs =
    some (if sub.full w.subscriberMessageBuffer then sub.msgs else sub.msgs ++ [.raw msg]) := by
  rw [Server.sendTo, Server.getElem?_mapSubs, hi, Option.map_some, Option.map_some,
    if_pos (Finset.mem_singleton_self i), Subscriber.send]
  split <;> rfl

/-- The edit is persisted and broadcast, or its sender is told to reload. -/
def Answered (json : Codec Raw) (db : Db) (w : Server Raw) (i : Nat) (sub : Subscriber Raw) (raw : Raw) (op : Op) (db' : Db)
    (w' : Server Raw) : Prop :=
  (∃ e, decode json sub.session raw op = some e ∧ Persisted json db w i sub raw e db' w') ∨ Told json db w i sub db' w'

/-- The message is within the limits of the reader, gets past the gates, and is written or finds room for the reload
on its sender's channel. -/
structure Heard (json : Codec Raw) (size : Raw → Nat) (faults : Faults) (db : Db) (w : Server Raw) (sub : Subscriber Raw)
    (readBudget : Bucket) (now : Int) (raw : Raw) (op : Op) : Prop where
  fits : size raw ≤ readLimitBytes
  allowed : (readBudget.allow now).2 = true
  passes : ∃ e, Passes json faults db sub.session raw op e ∧
    ((∃ db', e.write db = .ok db') ∨ ¬sub.full w.subscriberMessageBuffer)

theorem Silent.not_answered {op : Op} {db' : Db} {w' : Server Raw} (h : Silent db w i sub db' w') :
    ¬Answered json db w i sub raw op db' w' := by
  rintro (⟨e, -, hp⟩ | ht)
  · exact h.not_persisted hp
  · exact h.not_told ht

/-- A message that gets past the gates is answered, unless its sender's channel has no room for the reload. -/
theorem handleMessage_passed {op : Op} {e : Edit} (hi : w.subs[i]? = some sub) (henv : json.envelope raw = some op)
    (hp : Passes json faults db sub.session raw op e) :
    (((∃ db', e.write db = .ok db') ∨ ¬sub.full w.subscriberMessageBuffer) ∧
        Answered json db w i sub raw op (handleMessage json faults db w i raw).1
          (handleMessage json faults db w i raw).2) ∨
      (¬((∃ db', e.write db = .ok db') ∨ ¬sub.full w.subscriberMessageBuffer) ∧
        Silent db w i sub (handleMessage json faults db w i raw).1 (handleMessage json faults db w i raw).2) := by
  rcases dispatch_passed henv hp with ⟨db', hw, hd⟩ | ⟨⟨err, hw⟩, hd⟩
  · simp only [handleMessage, hi, hd, Server.react]
    exact Or.inl ⟨Or.inl ⟨db', hw⟩, Or.inl ⟨e, hp.decoded, hw, rfl⟩⟩
  · have hmsgs := sendTo_msgs hi json.reloadMessage
    simp only [handleMessage, hi, hd, Server.react]
    by_cases hfull : sub.full w.subscriberMessageBuffer
    · rw [if_pos hfull] at hmsgs
      refine Or.inr ⟨?_, rfl, rfl, hmsgs⟩
      rintro (⟨db', hok⟩ | hroom)
      · rw [hw] at hok
        cases hok
      · exact hroom hfull
    · rw [if_neg hfull] at hmsgs
      exact Or.inl ⟨Or.inr hfull, Or.inr ⟨rfl, rfl, hmsgs⟩⟩

end Chessrepeat.Ws
