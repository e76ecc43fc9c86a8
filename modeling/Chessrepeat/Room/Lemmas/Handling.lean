import Chessrepeat.Room.Lemmas.Net
import Chessrepeat.Client.Lemmas.Edits
import Chessrepeat.Store.Lemmas.Subtree

/-!
# What a reader does with a message of an editor
-/

namespace Chessrepeat.Room

open Lib Client Ws

variable {Card : Type} {cards : CardCodec Card} {r i : Nat} {s : System Card} {db db' : Store.Db} {session : Session}
  {c : Domain.Text}

/-! ## Permissions -/

/-- Whoever is on the connection `i` may edit the chapter. -/
def MayEdit (c : Domain.Text) (s : System Card) (i : Nat) : Prop :=
  ∀ sub, s.ws.subs[i]? = some sub → Domain.canEdit (s.db.effectivePermissionOnChapter c sub.session.userID) = true

/-- What decides who may do what. -/
def SameAccess (db db' : Store.Db) : Prop := db'.chapters = db.chapters ∧ db'.collaborators = db.collaborators

theorem SameAccess.refl (db : Store.Db) : SameAccess db db := ⟨rfl, rfl⟩

theorem MayEdit.keep {s' : System Card} (h : MayEdit c s i) (hw : SameSessions s.ws s'.ws) (hdb : SameAccess s.db s'.db) :
    MayEdit c s' i := by
  intro sub hsub
  have he := hw.session i
  rw [hsub] at he
  obtain ⟨sub', hsub', hsess⟩ := Option.map_eq_some_iff.mp he.symm
  have hs : sub'.session = sub.session := (Prod.mk.inj hsess).2
  have hperm := h sub' hsub'
  rwa [Store.Db.effectivePermissionOnChapter, ← hdb.1, ← hdb.2, hs] at hperm

theorem authorizeChapter_of_canEdit (h : Domain.canEdit (db.effectivePermissionOnChapter c session.userID) = true)
    (requireEdit : Bool) : authorizeChapter .none db session c requireEdit = true := by
  have hne : db.effectivePermissionOnChapter c session.userID ≠ none := by
    intro hn
    rw [hn] at h
    cases h
  simp [authorizeChapter, Store.Faults.none, hne, h]

theorem has_chapter (h : Domain.canEdit (db.effectivePermissionOnChapter c session.userID) = true) :
    db.chapters.has c = true := by
  cases hp : db.effectivePermissionOnChapter c session.userID with
  | none => rw [hp] at h; cases h
  | some perm =>
      obtain ⟨row, hrow, -⟩ := Store.Db.exists_chapter_of_permission hp
      rw [Table.has, hrow]
      rfl

/-- What a client has cut to a thousand code units has no more than a thousand code points. -/
theorem truncateComment_read {chapterID path : Domain.Text} {t : JsString} (hlen : t.length ≤ Client.maxCommentChars) :
    truncateComment ⟨chapterID, path, Utf16.decode t⟩ = ⟨chapterID, path, Utf16.decode t⟩ := by
  have hle := Utf16.length_decode_le t
  have hcap : Client.maxCommentChars = Store.maxCommentChars := rfl
  exact if_neg (show ¬(Utf16.decode t).length > Store.maxCommentChars by omega)

/-! ## Messages -/

/-- A branch of the switch, for a message that can be read and whose sender may edit. -/
theorem mutate_of_canEdit {α : Type} (h : Domain.canEdit (db.effectivePermissionOnChapter c session.userID) = true)
    {e : α} (chapterID : α → Domain.Text) (hc : chapterID e = c) (write : α → Except Store.StoreError Store.Db)
    (reloads : List Store.StoreError) (out : α → Wire Card) :
    mutate (codec cards) .none db session (some e) chapterID true write reloads out =
      match write e with
      | .ok db' => (db', .broadcast (out e))
      | .error err => (db, if err ∈ reloads then .reply .reload else .drop) := by
  rw [mutate, hc, if_pos (authorizeChapter_of_canEdit h true)]
  rfl

theorem dispatch_moveCreated (h : Domain.canEdit (db.effectivePermissionOnChapter c session.userID) = true)
    (p : JsString) (d : TrainingData Card) :
    dispatch (codec cards) .none db session (.msg (.moveCreated (Utf16.encode c) p d)) =
      match db.addMoveToChapter ⟨c, toMove cards d, Utf16.decode p⟩ with
      | .ok db' => (db', .broadcast (.msg (.moveCreated (Utf16.encode c) p d)))
      | .error err => (db, if err ∈ [.pathNotFound, .chapterMoveLimit] then .reply .reload else .drop) := by
  have he : (codec cards).moveEvent (.msg (.moveCreated (Utf16.encode c) p d)) =
      some ⟨c, toMove cards d, Utf16.decode p⟩ := by
    simp [codec]
  change moveCreated _ _ _ _ _ = _
  rw [moveCreated, he]
  exact mutate_of_canEdit h Domain.MoveEvent.chapterID rfl db.addMoveToChapter _ _

theorem dispatch_nodeDeleted (h : Domain.canEdit (db.effectivePermissionOnChapter c session.userID) = true) (p : JsString) :
    dispatch (codec cards) .none db session (.msg (.nodeDeleted (Utf16.encode c) p)) =
      match db.deleteNodeFromChapter ⟨c, Utf16.decode p⟩ with
      | .ok db' => (db', .broadcast (.msg (.nodeDeleted (Utf16.encode c) p)))
      | .error err => (db, if err ∈ [.pathNotFound] then .reply .reload else .drop) := by
  have he : (codec cards).nodeDeleteEvent (.msg (.nodeDeleted (Utf16.encode c) p)) = some ⟨c, Utf16.decode p⟩ := by
    simp [codec]
  change nodeDeleted _ _ _ _ _ = _
  rw [nodeDeleted, he]
  exact mutate_of_canEdit h Domain.NodeDeleteEvent.chapterID rfl db.deleteNodeFromChapter _ _

/-- A comment that is not too long is stored and passed on as the server reads it, or not at all. -/
theorem dispatch_setComment_read (h : Domain.canEdit (db.effectivePermissionOnChapter c session.userID) = true)
    {faults : Store.Faults} (hauthz : faults.authz = false) {q : Domain.Text} {t : JsString}
    (hrow : db.moves.has (c, q) = true) (hlen : t.length ≤ Client.maxCommentChars) :
    dispatch (codec cards) faults db session (.msg (.setComment (Utf16.encode c) (Utf16.encode q) t)) =
      if faults.store then (db, .drop) else
        (db.updateComment c q (Utf16.decode t),
          .broadcast (.msg (.setComment (Utf16.encode c) (Utf16.encode q) (Utf16.encode (Utf16.decode t))))) := by
  have he : ((codec cards).commentEvent (.msg (.setComment (Utf16.encode c) (Utf16.encode q) t))).map truncateComment =
      some ⟨c, q, Utf16.decode t⟩ := by
    rw [codec, Option.map_some, truncateComment_read hlen, Utf16.decode_encode, Utf16.decode_encode]
  have hauth : authorizeChapter faults db session c true = true := by
    have hnone := authorizeChapter_of_canEdit h true
    rw [authorizeChapter, hauthz]
    rwa [authorizeChapter] at hnone
  change setComment _ _ _ _ _ = _
  rw [setComment, he, mutate, if_pos hauth]
  split
  · rfl
  · simp only [Store.Db.setComment, if_pos hrow]
    rfl

/-- A comment that is not too long and has neither a lone surrogate nor a NUL is stored and passed on as it is. -/
theorem dispatch_setComment (h : Domain.canEdit (db.effectivePermissionOnChapter c session.userID) = true)
    {q : Domain.Text} {t : JsString} (hrow : db.moves.has (c, q) = true) (ht : Utf16.WellFormed t)
    (hnul : Char.ofNat 0 ∉ Utf16.decode t) (hlen : t.length ≤ Client.maxCommentChars) :
    dispatch (codec cards) (messageFaults (.setComment (Utf16.encode c) (Utf16.encode q) t : Outgoing Card)) db session
        (.msg (.setComment (Utf16.encode c) (Utf16.encode q) t)) =
      (db.updateComment c q (Utf16.decode t), .broadcast (.msg (.setComment (Utf16.encode c) (Utf16.encode q) t))) := by
  have hstore : (messageFaults (.setComment (Utf16.encode c) (Utf16.encode q) t : Outgoing Card)).store = false := by
    rw [messageFaults, truncateComment_read hlen]
    exact decide_eq_false hnul
  rw [dispatch_setComment_read h rfl hrow hlen, hstore, ht.eq]
  rfl

/-! ## Frames -/

/-- A frame that asks for a reload or cannot be applied starts one, and nothing is sent. -/
theorem receive_network (env : Env Card) (client : TrainerState Card) (f : Frame (Wire Card)) :
    (receive env client f).sent = client.sent ∧
      ((receive env client f).resyncs = client.resyncs ∨
        (receive env client f).resyncs = client.resyncs ++ [client.selectedPath]) := by
  cases f with
  | raw msg =>
      cases msg with
      | msg m =>
          cases m with
          | moveCreated ch p d =>
              simp only [receive, TrainerState.addMove]
              split
              · exact ⟨rfl, Or.inl rfl⟩
              · split
                · exact ⟨rfl, Or.inr rfl⟩
                · exact ⟨rfl, Or.inl rfl⟩
          | nodeDeleted ch p =>
              cases hc : client.chapter ch with
              | none => simp [receive, TrainerState.deleteNodeRemote, hc]
              | some chapter =>
                  obtain ⟨-, hsent, hres⟩ := deleteNodeRemote_eq env p hc
                  exact ⟨hsent, Or.inl hres⟩
          | setComment ch p t =>
              simp only [receive, TrainerState.setCommentRemote]
              split <;> exact ⟨rfl, Or.inl rfl⟩
          | trainingUpdated ch p u card =>
              simp only [receive, TrainerState.updateTrainingRemote]
              split <;> exact ⟨rfl, Or.inl rfl⟩
      | reload => exact ⟨rfl, Or.inr rfl⟩
      | pong => exact ⟨rfl, Or.inl rfl⟩
  | _ => exact ⟨rfl, Or.inl rfl⟩

theorem receive_resyncs {env : Env Card} {client : TrainerState Card} (f : Frame (Wire Card)) (h : client.resyncs ≠ []) :
    (receive env client f).resyncs ≠ [] := by
  rcases (receive_network env client f).2 with he | he <;> rw [he]
  · exact h
  · simp

theorem receive_reload {env : Env Card} {client : TrainerState Card} :
    (receive env client (.raw .reload)).resyncs ≠ [] := by
  simp [receive, TrainerState.resyncAndRestore]

theorem sound_receive {env : Env Card} {client : TrainerState Card} (h : Sound client) {f : Frame (Wire Card)}
    (h2 : ∀ ch p d, f = .raw (.msg (.moveCreated ch p d)) → d.id.length = 2) : Sound (receive env client f) := by
  cases f with
  | raw msg =>
      cases msg with
      | msg m =>
          cases m with
          | moveCreated ch p d =>
              refine h.addMove ch p fun e he => ?_
              simp only [Rose.labels_node, Rose.labelsList_nil, List.mem_singleton] at he
              exact he ▸ h2 ch p d rfl
          | nodeDeleted ch p => exact h.deleteNodeRemote ch p
          | setComment ch p t =>
              simp only [Room.receive, TrainerState.setCommentRemote]
              split
              · exact h
              · exact h.setData fun _ => rfl
          | trainingUpdated ch p u card =>
              simp only [Room.receive, TrainerState.updateTrainingRemote]
              split
              · exact h
              · exact h.setData fun _ => rfl
      | reload => exact h.of_repertoire rfl rfl
      | pong => exact h
  | _ => exact h

end Chessrepeat.Room
