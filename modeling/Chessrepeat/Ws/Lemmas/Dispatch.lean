import Chessrepeat.Ws.Dispatch

/-!
# What an accepted message has passed
-/

namespace Chessrepeat.Ws

open Lib Domain Store

variable {Raw α : Type} {json : Codec Raw} {faults : Faults} {db : Db} {sub : Session}

/-- The gate lets through who may do something on the chapter, and where it asks for it, who may edit. -/
theorem authorizeChapter_spec {chapterID : Text} {requireEdit : Bool}
    (h : authorizeChapter faults db sub chapterID requireEdit = true) :
    ∃ c, db.chapters.find? chapterID = some c ∧
      (db.effectivePermissionOnRepertoire c.ownerId sub.userID).isSome ∧
      (requireEdit = true → canEdit (db.effectivePermissionOnRepertoire c.ownerId sub.userID) = true) := by
  unfold authorizeChapter at h
  split at h
  · cases h
  · cases hp : db.effectivePermissionOnChapter chapterID sub.userID with
    | none => simp [hp] at h
    | some perm =>
        obtain ⟨c, hc, hperm⟩ := Db.exists_chapter_of_permission hp
        refine ⟨c, hc, by rw [hperm]; rfl, fun he => ?_⟩
        rw [hperm]
        simp only [hp, he, Bool.true_and, reduceCtorEq, if_false] at h
        by_contra hne
        rw [Bool.not_eq_true] at hne
        simp [hne] at h

/-- A branch of the switch leaves the database alone and broadcasts nothing, or it has passed its gate, has
written, and broadcasts. -/
theorem mutate_cases (event : Option α) (chapterID : α → Text) (requireEdit : Bool)
    (write : α → Except StoreError Db) (reloads : List StoreError) (out : α → Raw) :
    ((mutate json faults db sub event chapterID requireEdit write reloads out).1 = db ∧
      ∀ msg, (mutate json faults db sub event chapterID requireEdit write reloads out).2 ≠ .broadcast msg) ∨
    ∃ e db', event = some e ∧ authorizeChapter faults db sub (chapterID e) requireEdit = true ∧
      faults.store = false ∧ write e = .ok db' ∧
      mutate json faults db sub event chapterID requireEdit write reloads out = (db', .broadcast (out e)) := by
  cases event with
  | none => exact Or.inl ⟨rfl, fun _ h => by cases h⟩
  | some e =>
      by_cases ha : authorizeChapter faults db sub (chapterID e) requireEdit = true
      · by_cases hf : faults.store = true
        · refine Or.inl ?_
          simp only [mutate, ha, hf, if_true]
          exact ⟨trivial, fun _ h => by cases h⟩
        · cases hw : write e with
          | error err =>
              refine Or.inl ?_
              simp only [mutate, ha, hf, hw, if_true, if_false, Bool.false_eq_true]
              refine ⟨trivial, fun msg => ?_⟩
              split <;> exact fun h => by cases h
          | ok db' =>
              rw [Bool.not_eq_true] at hf
              refine Or.inr ⟨e, db', rfl, ha, hf, hw, ?_⟩
              simp only [mutate, ha, hf, hw, if_true, if_false, Bool.false_eq_true]
      · refine Or.inl ?_
        simp only [mutate, ha, if_false, Bool.false_eq_true]
        exact ⟨trivial, fun _ h => by cases h⟩

theorem mutate_quiet {event : Option α} {chapterID : α → Text} {requireEdit : Bool} {write : α → Except StoreError Db}
    {reloads : List StoreError} {out : α → Raw}
    (h : ∀ msg, (mutate json faults db sub event chapterID requireEdit write reloads out).2 ≠ .broadcast msg) :
    (mutate json faults db sub event chapterID requireEdit write reloads out).1 = db := by
  rcases mutate_cases event chapterID requireEdit write reloads out with ⟨hdb, -⟩ | ⟨e, db', -, -, -, -, hm⟩
  · exact hdb
  · rw [hm] at h
    exact absurd rfl (h _)

/-- Without a broadcast, nothing has been written. -/
theorem dispatch_quiet {raw : Raw} (h : ∀ msg, (dispatch json faults db sub raw).2 ≠ .broadcast msg) :
    (dispatch json faults db sub raw).1 = db := by
  unfold dispatch at h ⊢
  split at h
  · rfl
  · rfl
  · exact mutate_quiet h
  · exact mutate_quiet h
  · exact mutate_quiet h
  · exact mutate_quiet h
  · exact mutate_quiet h
  · exact mutate_quiet h
  · rfl

/-- The writes of accepted messages, one for each kind of message. -/
inductive Writes (json : Codec Raw) (faults : Faults) (db : Db) (sub : Session) (raw : Raw) : Db → Prop
  | moveCreated {event : MoveEvent} {db' : Db} (op : json.envelope raw = some .moveCreated)
      (decoded : json.moveEvent raw = some event)
      (gate : authorizeChapter faults db sub event.chapterID true = true) (up : faults.store = false)
      (write : db.addMoveToChapter event = .ok db') : Writes json faults db sub raw db'
  | setComment {event : CommentEvent} {db' : Db} (op : json.envelope raw = some .setComment)
      (decoded : (json.commentEvent raw).map truncateComment = some event)
      (gate : authorizeChapter faults db sub event.chapterID true = true) (up : faults.store = false)
      (write : db.setComment event.chapterID event.path event.comment = .ok db') : Writes json faults db sub raw db'
  | trainingUpdated {event : TrainingUpdatedEvent} {db' : Db} (op : json.envelope raw = some .trainingUpdated)
      (decoded : (json.trainingUpdatedEvent raw).map (stampUsername sub) = some event)
      (gate : authorizeChapter faults db sub event.chapterID false = true) (up : faults.store = false)
      (write : db.updateTrainingState event = .ok db') : Writes json faults db sub raw db'
  | nodeDeleted {event : NodeDeleteEvent} {db' : Db} (op : json.envelope raw = some .nodeDeleted)
      (decoded : json.nodeDeleteEvent raw = some event)
      (gate : authorizeChapter faults db sub event.chapterID true = true) (up : faults.store = false)
      (write : db.deleteNodeFromChapter event = .ok db') : Writes json faults db sub raw db'
  | chapterRenamed {event : ChapterRenameEvent} (op : json.envelope raw = some .chapterRenamed)
      (decoded : json.chapterRenameEvent raw = some event)
      (gate : authorizeChapter faults db sub event.chapterID true = true) (up : faults.store = false) :
      Writes json faults db sub raw (db.renameChapter event.chapterID event.name)
  | chapterDeleted {event : ChapterDeleteEvent} (op : json.envelope raw = some .chapterDeleted)
      (decoded : json.chapterDeleteEvent raw = some event)
      (gate : authorizeChapter faults db sub event.chapterID true = true) (up : faults.store = false) :
      Writes json faults db sub raw (db.deleteChapter event.chapterID)

/-- A branch of the switch whose accepted writes are `Writes`. -/
theorem mutate_writes {raw : Raw} {event : Option α} {chapterID : α → Text} {requireEdit : Bool}
    {write : α → Except StoreError Db} {reloads : List StoreError} {out : α → Raw}
    (h : ∀ e db', event = some e → authorizeChapter faults db sub (chapterID e) requireEdit = true →
      faults.store = false → write e = .ok db' → Writes json faults db sub raw db') :
    (mutate json faults db sub event chapterID requireEdit write reloads out).1 = db ∨
      Writes json faults db sub raw (mutate json faults db sub event chapterID requireEdit write reloads out).1 := by
  rcases mutate_cases event chapterID requireEdit write reloads out with ⟨hdb, -⟩ | ⟨e, db', he, ha, hf, hw, hm⟩
  · exact Or.inl hdb
  · exact Or.inr (by rw [hm]; exact h e db' he ha hf hw)

/-- A message leaves the database alone or makes one of the writes. -/
theorem dispatch_writes (json : Codec Raw) (faults : Faults) (db : Db) (sub : Session) (raw : Raw) :
    (dispatch json faults db sub raw).1 = db ∨ Writes json faults db sub raw (dispatch json faults db sub raw).1 := by
  unfold dispatch
  split
  case h_3 => exact mutate_writes fun e db' he ha hf hw => .moveCreated ‹_› he ha hf hw
  case h_4 => exact mutate_writes fun e db' he ha hf hw => .setComment ‹_› he ha hf hw
  case h_5 => exact mutate_writes fun e db' he ha hf hw => .trainingUpdated ‹_› he ha hf hw
  case h_6 => exact mutate_writes fun e db' he ha hf hw => .nodeDeleted ‹_› he ha hf hw
  case h_7 => exact mutate_writes fun e db' he ha hf hw => by cases hw; exact .chapterRenamed ‹_› he ha hf
  case h_8 => exact mutate_writes fun e db' he ha hf hw => by cases hw; exact .chapterDeleted ‹_› he ha hf
  all_goals exact Or.inl rfl

end Chessrepeat.Ws
