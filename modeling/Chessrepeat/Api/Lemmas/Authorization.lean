import Chessrepeat.Api.Chapter
import Chessrepeat.Store.Lemmas.Changes
import Chessrepeat.Ws.Lemmas.Dispatch

/-!
# Which rows a user may change
-/

namespace Chessrepeat.Api

open Lib Domain Store Ws

variable {db db' : Db} {u username : Text}

/-- The user owns the chapter, or its owner granted him `edit`. A chapter of before or after counts, for the
one a request creates. -/
def EditableBy (u chapterID : Text) (db db' : Db) : Prop :=
  ∃ c, (db.chapters.find? chapterID = some c ∨ db'.chapters.find? chapterID = some c) ∧
    (c.ownerId = u ∨ ∃ r, db.collaborators.find? (c.ownerId, u) = some r ∧ r.permission = .edit)

/-- What a request of a user changes: chapters and moves he may edit; and cards, if they go with a move that
goes, or if they are under the name of his session, in a chapter he has some permission on. No chapter goes to
another owner. -/
structure WritesAuthorized (u username : Text) (db db' : Db) : Prop where
  users : db'.users = db.users
  collaborators : db'.collaborators = db.collaborators
  owner : ∀ id c c', db.chapters.find? id = some c → db'.chapters.find? id = some c' → c'.ownerId = c.ownerId
  chapters : ∀ id, db'.chapters.find? id ≠ db.chapters.find? id → EditableBy u id db db'
  moves : ∀ id path, db'.moves.find? (id, path) ≠ db.moves.find? (id, path) → EditableBy u id db db'
  cards : ∀ id path name,
    db'.trainingCards.find? (id, path, name) ≠ db.trainingCards.find? (id, path, name) →
    (EditableBy u id db db' ∧ db.moves.has (id, path) = true ∧ db'.moves.has (id, path) = false ∧
      db'.trainingCards.find? (id, path, name) = none) ∨
    (name = username ∧ ∃ c, db.chapters.find? id = some c ∧
      (db.effectivePermissionOnRepertoire c.ownerId u).isSome)

theorem WritesAuthorized.of_changes (h : Changes (fun id => EditableBy u id db db')
    (fun id name => name = username ∧ ∃ c, db.chapters.find? id = some c ∧
      (db.effectivePermissionOnRepertoire c.ownerId u).isSome) db db') : WritesAuthorized u username db db' :=
  ⟨h.users, h.collaborators, h.owner, h.chapters, h.moves, h.cards⟩

theorem WritesAuthorized.refl (u username : Text) (db : Db) : WritesAuthorized u username db db :=
  .of_changes (.refl _ _ db)

theorem EditableBy.of_canEdit {chapterID : Text} {c : ChapterRow} (hc : db.chapters.find? chapterID = some c)
    (he : canEdit (db.effectivePermissionOnRepertoire c.ownerId u) = true) : EditableBy u chapterID db db' :=
  ⟨c, Or.inl hc, Db.canEdit_iff.mp he⟩

/-! ## Messages -/

section Messages

variable {Raw : Type} {json : Codec Raw} {faults : Faults} {sub : Session}

/-- A message writes what its sender may write. -/
theorem WritesAuthorized.dispatch (json : Codec Raw) (faults : Faults) (db : Db) (sub : Session) (raw : Raw) :
    WritesAuthorized sub.userID sub.username db (Ws.dispatch json faults db sub raw).1 := by
  have hedit : ∀ {id : Text}, authorizeChapter faults db sub id true = true → ∀ db', EditableBy sub.userID id db db' :=
    fun hgate _ => by
      obtain ⟨c, hc, -, he⟩ := authorizeChapter_spec hgate
      exact EditableBy.of_canEdit hc (he rfl)
  rcases dispatch_writes json faults db sub raw with hdb | hwrites
  · rw [hdb]
    exact WritesAuthorized.refl _ _ _
  · generalize (Ws.dispatch json faults db sub raw).1 = db' at hwrites ⊢
    cases hwrites with
    | moveCreated op decoded gate up write =>
        obtain ⟨-, rfl⟩ := Db.addMoveToChapter_ok write
        exact .of_changes (.upsertMove (hedit gate _))
    | setComment op decoded gate up write =>
        rw [Db.setComment_ok write]
        exact .of_changes (.updateComment (hedit gate _))
    | trainingUpdated op decoded gate up write =>
        obtain ⟨-, rfl⟩ := Db.updateTrainingState_ok write
        obtain ⟨c, hc, hsome, -⟩ := authorizeChapter_spec gate
        obtain ⟨e₀, -, rfl⟩ := Option.map_eq_some_iff.mp decoded
        exact .of_changes (.of_card ⟨rfl, c, hc, hsome⟩)
    | nodeDeleted op decoded gate up write =>
        rcases Db.deleteNodeFromChapter_ok write with ⟨-, rfl⟩ | ⟨-, rfl⟩
        · exact WritesAuthorized.refl _ _ _
        · exact .of_changes (.deleteSubtree (hedit gate _))
    | chapterRenamed op decoded gate up => exact .of_changes (.renameChapter (hedit gate _))
    | chapterDeleted op decoded gate up => exact .of_changes (.deleteChapter (hedit gate _))

end Messages

/-! ## Posted chapters -/

theorem created_cases {faults : Faults} {ownerID : Text} {r : Except StoreError Db} {resp : Response}
    (h : created faults db ownerID r = (db', resp)) : db' = db ∨ r = .ok db' := by
  cases r with
  | ok db'' =>
      rw [created] at h
      split at h
      · cases h; exact Or.inl rfl
      · cases h; exact Or.inr rfl
  | error e => cases e <;> cases h <;> exact Or.inl rfl

/-- A request changes the database only by the chapter it creates, for a repertoire its user may edit. -/
theorem servePost_cases (faults : Faults) (db : Db) (req : ChapterRequest) :
    servePost faults db req = db ∨
    ∃ owner event, req.resolveOwner db = some owner ∧
      canEdit (db.effectivePermissionOnRepertoire owner.tokenID req.userID) = true ∧ req.body = some event ∧
      db.createChapter { event with ownerID := owner.tokenID } = some (.ok (servePost faults db req)) := by
  unfold servePost postChapter
  split
  · exact Or.inl rfl
  · rename_i db' resp h
    split at h
    · cases h; exact Or.inl rfl
    · split at h
      · cases h; exact Or.inl rfl
      · rename_i owner howner
        split at h
        · cases h; exact Or.inl rfl
        · split at h
          · cases h; exact Or.inl rfl
          · rename_i hedit
            split at h
            · cases h; exact Or.inl rfl
            · rename_i event hbody
              obtain ⟨r, hcreate, hr⟩ := Option.map_eq_some_iff.mp h
              rcases created_cases hr with rfl | rfl
              · exact Or.inl rfl
              · exact Or.inr ⟨owner, event, howner, by simpa using hedit, hbody, hcreate⟩

theorem WritesAuthorized.servePost (faults : Faults) (db : Db) (req : ChapterRequest) (username : Text) :
    WritesAuthorized req.userID username db (servePost faults db req) := by
  rcases servePost_cases faults db req with h | ⟨owner, event, -, hedit, -, hcreate⟩
  · rw [h]; exact WritesAuthorized.refl _ _ _
  · obtain ⟨moves, -, hins⟩ := createChapter_ok hcreate
    refine .of_changes (.insertChapter ?_ hins)
    obtain ⟨t, -, -, hdb⟩ := insertChapter_ok hins
    rw [hdb]
    exact ⟨_, Or.inr (Table.find?_upsert.trans (if_pos rfl)), Db.canEdit_iff.mp hedit⟩

/-! ## Train-only collaborators -/

/-- Of a chapter, nothing has changed but cards under the name. -/
def OnlyOwnCards (username id : Text) (db db' : Db) : Prop :=
  db'.chapters.find? id = db.chapters.find? id ∧
    (∀ path, db'.moves.find? (id, path) = db.moves.find? (id, path)) ∧
    ∀ path name, name ≠ username →
      db'.trainingCards.find? (id, path, name) = db.trainingCards.find? (id, path, name)

/-- Who may only train on a chapter changes nothing of it but his own cards. -/
theorem WritesAuthorized.train_only (h : WritesAuthorized u username db db') {id : Text}
    (ht : db.effectivePermissionOnChapter id u = some .train) : OnlyOwnCards username id db db' := by
  obtain ⟨c, hc, hperm⟩ := Db.exists_chapter_of_permission ht
  have hno : ¬ EditableBy u id db db' := by
    rintro ⟨c', hc', hedit⟩
    have ho : c'.ownerId = c.ownerId := by
      rcases hc' with hc' | hc'
      · rw [hc] at hc'; cases hc'; rfl
      · exact h.owner id c c' hc hc'
    have hcan := Db.canEdit_iff.mpr hedit
    rw [ho, hperm] at hcan
    cases hcan
  refine ⟨?_, fun path => ?_, fun path name hn => ?_⟩
  · by_contra hne; exact hno (h.chapters id hne)
  · by_contra hne; exact hno (h.moves id path hne)
  · by_contra hne
    rcases h.cards id path name hne with ⟨he, -⟩ | ⟨he, -⟩
    · exact hno he
    · exact hn he

end Chessrepeat.Api
