import Chessrepeat.Site.Lemmas.Users

/-!
# What holds of all requests together
-/

namespace Chessrepeat.Site

open Lib Domain Store Api Ws

variable {Raw : Type} (json : Codec Raw) (parse : Text → Option Url) (order : PathOrder) (now : Int)
  (ts : List (Turn (Request Raw)))

/-! ## Sessions -/

/-- A cookie is good exactly when a login has made its session, nobody has logged it out since and its thirty days are
not over; and whoever it is for, somebody has come with a verified identity token of that user. -/
theorem sessions_in_force (cookie : Text) (sess : SessionRow) :
    ((after json parse order now ts).shared.sessions.fetchSession (after json parse order now ts).shared.now cookie =
        some sess ↔ sess.sessionId = cookie ∧ Live json parse order now sess ts) ∧
    (Live json parse order now sess ts → sess.expiresAt = sess.createdAt + sessionLifetime ∧ Verified sess.userId ts) := by
  refine ⟨fetchSession_iff, fun h => ⟨?_, h.verified⟩⟩
  obtain ⟨us, -, vs, t, rfl, hdoes⟩ := h.1.once
  cases t with
  | call | fail => exact absurd hdoes id
  | exec i =>
      obtain ⟨p, -, hin⟩ := hdoes
      obtain ⟨user, set, -, he, -⟩ := signsIn_iff.mp hin
      rw [he]

/-- Whatever is done for a session is done after a moment at which it was in force. -/
theorem acts_in_session (p : Stage Raw) (hp : p ∈ (after json parse order now ts).procs) (sess : SessionRow)
    (hsess : p.session? = some sess) : Once (Live json parse order now sess) ts ∧ Verified sess.userId ts := by
  have hlive : Once (Live json parse order now sess) ts := live_of_session ts p hp sess hsess
  obtain ⟨us, hus, h⟩ := hlive
  exact ⟨⟨us, hus, h⟩, h.verified.later hus⟩

/-- Ann signs up and in. -/
def annSignsIn : List (Turn (Request Message)) :=
  .call (.login ⟨['P', 'O', 'S', 'T'], some ⟨['t'], ['A', 'n', 'n'], []⟩, some ⟨['u', '1'], []⟩⟩ (some ['s'])) ::
    List.replicate 5 (.exec 0)

/-- And asks for her repertoire. -/
def annReads : List (Turn (Request Message)) :=
  annSignsIn ++ .call (.handle (some ['s']) (.getRepertoire [])) :: List.replicate 4 (.exec 1)

def annsSession : SessionRow := ⟨['s'], ['u', '1'], 0, sessionLifetime⟩

theorem annReads_inSession :
    Once (Live Message.codec (fun _ => none) PathOrder.insertion 0 annsSession) annReads ∧
      Verified annsSession.userId annReads :=
  acts_in_session Message.codec (fun _ => none) PathOrder.insertion 0 annReads
    (.answered (some annsSession) (.repertoire ⟨['u', '1'], ['a', 'n', 'n'], []⟩ []))
    (List.mem_of_getElem? (i := 1) rfl) annsSession rfl

/-! ## Users -/

/-- Whoever is in the users table has come with a verified identity token and has a username and a picture that a
sign-up accepts, in whatever order the logins have read and written. His limits are the default ones. -/
theorem users_valid (u : UserRow) (hu : u ∈ (after json parse order now ts).shared.db.users.table.rows) :
    (∃ username, u.username = some username ∧ isValidUsername username = true) ∧
      isValidPictureURL parse u.picture = true ∧ u.limitMultiplier = 1 ∧ Verified u.tokenId ts := by
  obtain ⟨⟨hname, hpicture⟩, hlimit⟩ := validUsers_after ts u hu
  refine ⟨?_, hpicture, hlimit, verified_of_stored ts u hu⟩
  cases hu : u.username with
  | none =>
      rw [UserRow.user, hu] at hname
      cases hname
  | some username =>
      rw [UserRow.user, hu] at hname
      exact ⟨username, rfl, hname⟩

theorem annReads_valid :
    (∃ username, some ['a', 'n', 'n'] = some username ∧ isValidUsername username = true) ∧
      isValidPictureURL (fun _ => none) [] = true ∧ (1 : Int) = 1 ∧ Verified ['u', '1'] annReads :=
  users_valid Message.codec (fun _ => none) PathOrder.insertion 0 annReads ⟨['u', '1'], some ['a', 'n', 'n'], [], 1⟩
    (List.mem_of_getElem? (i := 0) rfl)

/-! ## Grants -/

/-- The permissions the gates read are those the owners have given and not taken back, and the two lists of
collaborators show just these. Nobody is listed for himself. -/
theorem grants_in_force (ownerID userID : Text) :
    (((after json parse order now ts).shared.db.canViewRepertoire ownerID userID = true ↔
        MayView json parse order now ownerID userID ts) ∧
      (canEdit ((after json parse order now ts).shared.db.effectivePermissionOnRepertoire ownerID userID) = true ↔
        MayEdit json parse order now ownerID userID ts)) ∧
    (∀ v, v ∈ (after json parse order now ts).shared.db.fetchOutgoingCollaborators ownerID ↔
      ∃ u ∈ (after json parse order now ts).shared.db.users.table.rows, u.tokenId ≠ ownerID ∧
        u.username = some v.username ∧ u.picture = v.picture ∧
        Granted json parse order now ownerID u.tokenId v.permission ts) ∧
    (∀ v, v ∈ (after json parse order now ts).shared.db.fetchIncomingCollaborators userID ↔
      ∃ u ∈ (after json parse order now ts).shared.db.users.table.rows, u.tokenId ≠ userID ∧
        u.username = some v.username ∧ u.picture = v.picture ∧
        Granted json parse order now u.tokenId userID v.permission ts) := by
  refine ⟨⟨isSome_permission_iff, canEdit_permission_iff⟩, fun v => ?_, fun v => ?_⟩
  · rw [Db.mem_fetchOutgoing_iff]
    simp only [find?_grant_iff]
    refine exists_congr fun u => and_congr_right fun _ => ?_
    exact ⟨fun h => ⟨h.2.2.ne.symm, h⟩, fun h => h.2⟩
  · rw [Db.mem_fetchIncoming_iff]
    simp only [find?_grant_iff]
    refine exists_congr fun u => and_congr_right fun _ => ?_
    exact ⟨fun h => ⟨h.2.2.ne, h⟩, fun h => h.2⟩

/-! ## Reading and writing repertoires -/

/-- A repertoire is shown to a session that was in force, whose user could then view it: the chapters it then had, with the
moves and the cards they had at two later moments, and as it then was if nothing has been written in between. -/
theorem repertoire_shown (p : Stage Raw) (hp : p ∈ (after json parse order now ts).procs) (s : Option SessionRow) (owner : User)
    (chapters : List ChapterTreeResponse) (h : p = .answered s (.repertoire owner chapters)) :
    ∃ sess, s = some sess ∧ ∃ rows moves cards, Shown json parse order now sess owner.tokenID chapters rows moves cards ts ∧
      (SameChapters (after json parse order now rows).shared.db (after json parse order now moves).shared.db →
        SameChapters (after json parse order now rows).shared.db (after json parse order now cards).shared.db →
        (after json parse order now rows).shared.db.fetchChaptersByOwner order owner.tokenID = some chapters) := by
  subst h
  obtain ⟨i, hi⟩ := List.mem_iff_getElem?.mp hp
  obtain ⟨sess, hs, rows, moves, cards, hshown⟩ := gated_after json parse ts i _ hi
  refine ⟨sess, hs, rows, moves, cards, hshown, fun hmoves hcards => ?_⟩
  rw [← withCards_same hmoves hcards]
  exact hshown.found

/-- Ann posts a chapter with one move. -/
def annPosts : List (Turn (Request Message)) :=
  annSignsIn ++ .call (.handle (some ['s']) (.postChapter [] (some ⟨['c'], [], ['x'], ['w'],
    .mk TrainingData.zero [.mk ⟨['/', '?'], [], 1, ['e', '4'], [], true, none⟩ []]⟩))) :: List.replicate 9 (.exec 1)

/-- She asks for her repertoire, and adds a reply before its moves are read. -/
def annAdds : List (Turn (Request Message)) :=
  annPosts ++ .call (.handle (some ['s']) (.getRepertoire [])) :: List.replicate 4 (.exec 2) ++
    .call (.subscribe (some ['s']) ['a', 'n', 'n']
      [.moveCreated ⟨['c'], ⟨['W', 'G'], [], 2, ['e', '5'], [], true, none⟩, ['/', '?']⟩]) :: List.replicate 10 (.exec 3) ++
    List.replicate 2 (.exec 2)

/-- The chapter of before with the reply of afterwards. -/
def annsChapter : ChapterTreeResponse :=
  ⟨['c'], ['x'], ['w'], .mk TrainingData.zero [.mk ⟨['/', '?'], [], 1, ['e', '4'], [], true, none⟩
    [.mk ⟨['W', 'G'], [], 2, ['e', '5'], [], true, none⟩ []]]⟩

theorem annAdds_shown : ∃ sess, some annsSession = some sess ∧ ∃ rows moves cards,
    Shown Message.codec (fun _ => none) PathOrder.insertion 0 sess ['u', '1'] [annsChapter] rows moves cards annAdds ∧
      (SameChapters (after Message.codec (fun _ => none) PathOrder.insertion 0 rows).shared.db
          (after Message.codec (fun _ => none) PathOrder.insertion 0 moves).shared.db →
        SameChapters (after Message.codec (fun _ => none) PathOrder.insertion 0 rows).shared.db
          (after Message.codec (fun _ => none) PathOrder.insertion 0 cards).shared.db →
        (after Message.codec (fun _ => none) PathOrder.insertion 0 rows).shared.db.fetchChaptersByOwner
          PathOrder.insertion ['u', '1'] = some [annsChapter]) :=
  repertoire_shown Message.codec (fun _ => none) PathOrder.insertion 0 annAdds _ (List.mem_of_getElem? (i := 2) rfl)
    (some annsSession) ⟨['u', '1'], ['a', 'n', 'n'], []⟩ [annsChapter] rfl

/-- Only sessions that have been cleared to edit change the chapters and the moves of a repertoire, and none changes the
owner; the cards they do not remove are changed under a name of a user who has been cleared to view. -/
theorem changes_admitted (t : Turn (Request Raw)) :
    (∀ id c c', (after json parse order now ts).shared.db.chapters.find? id = some c →
      (after json parse order now (ts ++ [t])).shared.db.chapters.find? id = some c' → c'.ownerId = c.ownerId) ∧
    (∀ id, (after json parse order now (ts ++ [t])).shared.db.chapters.find? id ≠
        (after json parse order now ts).shared.db.chapters.find? id → EditedBy json parse order now ts t id) ∧
    (∀ id path, (after json parse order now (ts ++ [t])).shared.db.moves.find? (id, path) ≠
        (after json parse order now ts).shared.db.moves.find? (id, path) → EditedBy json parse order now ts t id) ∧
    (∀ id path name, (after json parse order now (ts ++ [t])).shared.db.trainingCards.find? (id, path, name) ≠
        (after json parse order now ts).shared.db.trainingCards.find? (id, path, name) →
      EditedBy json parse order now ts t id ∧
          (after json parse order now (ts ++ [t])).shared.db.trainingCards.find? (id, path, name) = none ∨
        TrainedBy json parse order now ts t id name) := by
  rcases changes_turn json parse t with h | ⟨hchapters, hmoves, hcards⟩
  · refine ⟨h.owner, h.chapters, h.moves, fun id path name hne => ?_⟩
    rcases h.cards id path name hne with ⟨hedited, -, -, hgone⟩ | htrained
    · exact Or.inl ⟨hedited, hgone⟩
    · exact Or.inr htrained
  · rw [hchapters, hmoves, hcards]
    exact ⟨fun id c c' hc hc' => by rw [hc] at hc'; cases hc'; rfl, fun _ hne => absurd rfl hne,
      fun _ _ hne => absurd rfl hne, fun _ _ _ hne => absurd rfl hne⟩

end Chessrepeat.Site
