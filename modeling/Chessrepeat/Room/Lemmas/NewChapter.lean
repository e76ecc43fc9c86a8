import Chessrepeat.Api.Lemmas.Comments
import Chessrepeat.Room.Lemmas.Backup
import Chessrepeat.Room.NewChapter

/-!
# What becomes of a new chapter
-/

namespace Chessrepeat.Room

open Lib Client Store

variable {Card : Type} {cards : CardCodec Card} {db db' : Db} {req : Api.ChapterRequest} {owner : User}
  {event : Domain.ChapterEvent} {faults : Faults} {x : Exchange} {id : Domain.Text}

/-! ## The chapters of a response -/

/-- A chapter of a response is read from the rows of a chapter. -/
theorem mem_fetch {order : PathOrder} {ownerID : Domain.Text} {raws : List (RawChapter Card)} {b : RawChapter Card}
    (h : fetch cards db order ownerID = some raws) (hb : b ∈ raws) :
    ∃ row ∈ db.chapters.rows, row.ownerId = ownerID ∧ b.uuid = Utf16.encode row.uuid ∧
      ∃ r, db.chapterTree order row = some r ∧ ofResponse cards r = some b := by
  obtain ⟨resps, hresps, hraws⟩ := Option.bind_eq_some_iff.mp h
  obtain ⟨r, hr, hrb⟩ := (mem_mapM hraws).mp hb
  obtain ⟨row, hrow, hown, hread⟩ := mem_fetchChaptersByOwner hresps hr
  refine ⟨row, hrow, hown, ?_, r, hread, hrb⟩
  obtain ⟨root, -, rfl⟩ := Option.map_eq_some_iff.mp hread
  obtain ⟨root', -, rfl⟩ := Option.map_eq_some_iff.mp hrb
  rfl

/-- The uuids of a response are those of the owner's rows. -/
theorem exists_fetched {order : PathOrder} {ownerID : Domain.Text} {raws : List (RawChapter Card)}
    (h : fetch cards db order ownerID = some raws) :
    (∃ b ∈ raws, b.uuid = Utf16.encode id) ↔ ∃ row ∈ db.chapters.rows, row.ownerId = ownerID ∧ row.uuid = id := by
  constructor
  · rintro ⟨b, hb, hid⟩
    obtain ⟨row, hrow, hown, huuid, -⟩ := mem_fetch h hb
    exact ⟨row, hrow, hown, Utf16.encode_injective (huuid.symm.trans hid)⟩
  · rintro ⟨row, hrow, hown, rfl⟩
    obtain ⟨resps, hresps, hraws⟩ := Option.bind_eq_some_iff.mp h
    obtain ⟨r, hr, hread⟩ := exists_of_mem_forall₂ (mapM_forall₂ hresps).flip
      (List.mem_filter.mpr ⟨hrow, decide_eq_true hown⟩)
    obtain ⟨b, hb, hrb⟩ := exists_of_mem_forall₂ (mapM_forall₂ hraws).flip hr
    refine ⟨b, hb, ?_⟩
    obtain ⟨root, -, rfl⟩ := Option.map_eq_some_iff.mp hread
    obtain ⟨root', -, rfl⟩ := Option.map_eq_some_iff.mp hrb
    rfl

theorem exists_setRepertoire (s : TrainerState Card) (env : Env Card) (raws : List (RawChapter Card)) (uuid : JsString) :
    (∃ d ∈ (s.setRepertoire env raws).repertoire, d.uuid = uuid) ↔ ∃ b ∈ raws, b.uuid = uuid := by
  have hstored := stored_setRepertoire s env raws
  constructor
  · rintro ⟨d, hd, hid⟩
    exact ⟨d.stored, hstored ▸ List.mem_map_of_mem hd, hid⟩
  · rintro ⟨b, hb, hid⟩
    obtain ⟨d, hd, rfl⟩ := List.mem_map.mp (hstored.symm ▸ hb)
    exact ⟨d, hd, hid⟩

theorem exists_addNewChapterLocally (s : TrainerState Card) (c : Chapter Card) :
    ∃ d ∈ (s.addNewChapterLocally c).repertoire, d.uuid = c.uuid := by
  refine ⟨c, ?_, rfl⟩
  rw [TrainerState.addNewChapterLocally]
  split
  · exact List.mem_cons_self
  · exact List.mem_append_right _ List.mem_cons_self

/-! ## The handler -/

mutual
theorem hasNullChild_toNode : (t : Rose (TrainingData Card)) → hasNullChild (toNode cards t) = false
  | .node d cs => by
      rw [toNode, hasNullChild, hasNullChild_toNodes cs]

theorem hasNullChild_toNodes : (cs : List (Rose (TrainingData Card))) → hasNullChildList (toNodes cards cs) = false
  | [] => rfl
  | .node d ds :: cs => by
      rw [toNodes, toNode, hasNullChildList, hasNullChild, hasNullChild_toNodes ds, hasNullChild_toNodes cs, Bool.or_false]
end

/-- A request that is not admitted changes nothing and is not told about a cap. -/
theorem postChapter_cases (faults : Faults) (db : Db) (req : Api.ChapterRequest) :
    (∃ owner event, Admitted faults db req owner event) ∨
      ∃ status, Api.postChapter faults db req = some (db, ⟨status, none⟩) ∧ status ≠ 413 ∧ status ≠ 409 := by
  unfold Api.postChapter
  split
  · exact .inr ⟨500, rfl, by decide⟩
  · split
    · exact .inr ⟨404, rfl, by decide⟩
    · split
      · exact .inr ⟨500, rfl, by decide⟩
      · split
        · exact .inr ⟨403, rfl, by decide⟩
        · split
          · exact .inr ⟨400, rfl, by decide⟩
          · rename_i hlookup _ owner howner hauthz hedit _ event hbody
            exact .inl ⟨owner, event, Bool.eq_false_iff.mpr hlookup, Bool.eq_false_iff.mpr hauthz, howner, by simpa using hedit, hbody⟩

theorem Admitted.postChapter (h : Admitted faults db req owner event) : Api.postChapter faults db req =
    (db.createChapter { event with ownerID := owner.tokenID }).map (Api.created faults db owner.tokenID) := by
  simp [Api.postChapter, h.lookup, h.resolved, h.authz, h.canEdit, h.body]

theorem Admitted.unique {owner' : User} {event' : Domain.ChapterEvent} (h : Admitted faults db req owner event)
    (h' : Admitted faults db req owner' event') : owner' = owner ∧ event' = event :=
  ⟨Option.some.inj (h'.resolved.symm.trans h.resolved), Option.some.inj (h'.body.symm.trans h.body)⟩

theorem Admitted.has (h : Admitted faults db req owner event) : db.users.table.has owner.tokenID = true :=
  Api.has_of_resolveOwner h.resolved

/-- A new chapter is created if and only if it is within the caps. -/
theorem createChapter_cases (event : Domain.ChapterEvent) (hr : Referenced db) (howner : db.users.table.has event.ownerID = true)
    (hnew : db.chapters.has event.chapterID = false) (hnull : hasNullChild event.root = false) :
    (Uncapped db event.ownerID event.root ∧ ∃ db', db.createChapter event = some (.ok db')) ∨
      ¬Uncapped db event.ownerID event.root ∧ (db.createChapter event = some (.error .chapterLimit) ∨
        db.createChapter event = some (.error .chapterMoveLimit)) := by
  have hflat : flattenTree event.root ≠ none := fun hnone => by
    rw [flattenTree_eq_none.mp hnone] at hnull
    cases hnull
  obtain ⟨moves, hmoves⟩ := Option.ne_none_iff_exists'.mp hflat
  by_cases hchapters : db.chapterCountByOwner event.ownerID < maxChaptersPerUser * db.ownerLimitMultiplier event.ownerID
  · by_cases hcount : moves.moveCount ≤ maxMovesPerChapter * db.ownerLimitMultiplier event.ownerID
    · refine .inl ⟨⟨hchapters, fun moves' hmoves' => ?_⟩,
        exists_createChapter_of_flattened hr hmoves howner hnew hchapters hcount⟩
      rw [Option.some.inj (hmoves'.symm.trans hmoves)]
      exact hcount
    · refine .inr ⟨fun h => hcount (h.2 moves hmoves), .inr ?_⟩
      simp only [Db.createChapter, ge_iff_le, Nat.not_le.mpr hchapters, if_false, hmoves, Option.map_some,
        Nat.not_le.mp hcount, gt_iff_lt, if_true]
  · refine .inr ⟨fun h => hchapters h.1, .inl ?_⟩
    simp only [Db.createChapter, ge_iff_le, Nat.not_lt.mp hchapters, if_true]

theorem resolveOwner_congr (h : db'.users = db.users) (req : Api.ChapterRequest) : req.resolveOwner db' = req.resolveOwner db := by
  simp only [Api.ChapterRequest.resolveOwner, Db.fetchUserByUsername, Db.fetchUser, h]

/-! ## The request -/

/-- What is needed of a request: the chapter is new and its tree has no null in it. -/
structure Fresh (db : Db) (req : Api.ChapterRequest) (id : Domain.Text) : Prop where
  chapterID : ∀ event ∈ req.body, event.chapterID = id
  null : ∀ event ∈ req.body, hasNullChild event.root = false

/-- An accepted request leaves the chapter in the database, with the owner the client has named. -/
theorem Exchange.Accepted.send (h : x.Accepted db req) (hr : Referenced db) (hf : Fresh db req id)
    (hnew : db.chapters.has id = false) :
    ∃ db', x.send db req = (db', x.reply.status (some 201)) ∧ db'.users = db.users ∧ db'.chapters.has id = true ∧
      ∀ user, req.resolveOwner db = some user → ∃ row ∈ db'.chapters.rows, row.ownerId = user.tokenID ∧ row.uuid = id := by
  obtain ⟨faults, owner, event, hx, hadm, hfits, hstore⟩ := h
  obtain rfl := hf.chapterID event hadm.body
  rcases createChapter_cases { event with ownerID := owner.tokenID } hr hadm.has hnew (hf.null event hadm.body) with
    ⟨-, db', hcreate⟩ | ⟨hnot, -⟩
  · have hpost : Api.postChapter faults db req = some (db', ⟨201, some owner.tokenID⟩) := by
      rw [hadm.postChapter, hcreate]
      simp [Api.created, hstore]
    have hchapters := chapters_createChapter hcreate
    have husers : db'.users = db.users := by
      obtain ⟨_, -, hins⟩ := createChapter_ok hcreate
      obtain ⟨_, -, -, rfl⟩ := insertChapter_ok hins
      rfl
    refine ⟨db', ?_, husers, ?_, fun user huser => ?_⟩
    · rw [Exchange.send, hx, Option.bind_some, hpost]
    · rw [hchapters]
      exact Table.has_upsert.mpr (.inl rfl)
    · rw [Option.some.inj (huser.symm.trans hadm.resolved), hchapters]
      exact ⟨_, Table.mem_upsert.mpr (.inl rfl), rfl, rfl⟩
  · exact absurd hfits hnot

/-- A request that was admitted but not accepted. -/
theorem Admitted.refused (h : Admitted faults db req owner event) (hr : Referenced db) (hf : Fresh db req id)
    (hnew : db.chapters.has id = false) (hnot : ¬(Uncapped db owner.tokenID event.root ∧ faults.store = false)) :
    ∃ status, Api.postChapter faults db req = some (db, ⟨status, none⟩) ∧
      (status = 413 ∨ status = 409 ↔ ¬Uncapped db owner.tokenID event.root) := by
  obtain rfl := hf.chapterID event h.body
  rw [h.postChapter]
  rcases createChapter_cases { event with ownerID := owner.tokenID } hr h.has hnew (hf.null event h.body) with
    ⟨hfits, db', hcreate⟩ | ⟨hfits, hcreate | hcreate⟩
  · have hstore : faults.store = true := by
      rw [← Bool.not_eq_false]
      exact fun hs => hnot ⟨hfits, hs⟩
    refine ⟨500, ?_, iff_of_false (by decide) (not_not.mpr hfits)⟩
    rw [hcreate, Option.map_some, Api.created, if_pos hstore]
  · refine ⟨409, ?_, iff_of_true (.inr rfl) hfits⟩
    rw [hcreate, Option.map_some, Api.created]
  · refine ⟨413, ?_, iff_of_true (.inl rfl) hfits⟩
    rw [hcreate, Option.map_some, Api.created]

/-- Any other request changes nothing, and the client sees that a cap is exceeded if it is told so. -/
theorem Exchange.send_refused (h : ¬x.Accepted db req) (hr : Referenced db) (hf : Fresh db req id)
    (hnew : db.chapters.has id = false) :
    (x.send db req).1 = db ∧ ((x.send db req).2 = some 413 ∨ (x.send db req).2 = some 409 ↔ x.Capped db req) := by
  obtain ⟨handler, reply⟩ := x
  -- what the handler answers, and when that is a cap
  have hanswer : ∃ answer : Option Nat, Exchange.send ⟨handler, reply⟩ db req = (db, reply.status answer) ∧
      (answer = some 413 ∨ answer = some 409 ↔ Exchange.Capped ⟨handler, .own⟩ db req) := by
    cases handler with
    | none =>
        refine ⟨none, rfl, iff_of_false (by simp) ?_⟩
        rintro ⟨faults, _, _, hx, -⟩
        cases hx
    | some faults =>
        by_cases hadm : ∃ owner event, Admitted faults db req owner event
        · obtain ⟨owner, event, hadm⟩ := hadm
          obtain ⟨status, hpost, hstatus⟩ := hadm.refused hr hf hnew fun hok => h ⟨faults, owner, event, rfl, hadm, hok⟩
          refine ⟨some status, by simp only [Exchange.send, Option.bind_some, hpost], ?_⟩
          rw [Option.some_inj, Option.some_inj, hstatus]
          constructor
          · exact fun hfits => ⟨faults, owner, event, rfl, hadm, hfits⟩
          · rintro ⟨faults', owner', event', hx, hadm', hfits⟩
            cases hx
            obtain ⟨rfl, rfl⟩ := hadm.unique hadm'
            exact hfits
        · obtain ⟨status, hpost, h413, h409⟩ := (postChapter_cases faults db req).resolve_left hadm
          refine ⟨some status, by simp only [Exchange.send, Option.bind_some, hpost], iff_of_false (by simp [h413, h409]) ?_⟩
          rintro ⟨faults', owner', event', hx, hadm', -⟩
          cases hx
          exact hadm ⟨owner', event', hadm'⟩
  obtain ⟨answer, hsend, hcapped⟩ := hanswer
  rw [hsend]
  refine ⟨rfl, ?_⟩
  cases reply with
  | own => exact hcapped
  | other status => exact Iff.rfl

/-! ## The client -/

section Visit

variable {bodyBytes : RawChapter Card → Nat} {v : Visit Card} {env : Env Card} {order : PathOrder} {c : Chapter Card}

theorem Visit.request_owner (h : v.request cards bodyBytes c = some req) :
    req.userID = v.userID ∧ req.owner = v.repertoireAuthor.getD [] ∧
      req.body = if bodyBytes c.stored ≤ maxChapterBody then some (chapterEvent cards c.stored) else none := by
  unfold Visit.request at h
  split at h
  · cases h
  · rename_i author hauthor
    split at h
    · cases h
    · cases h
      rw [hauthor]
      exact ⟨rfl, rfl, rfl⟩

theorem Visit.request_fresh (h : v.request cards bodyBytes c = some req) (hid : c.uuid = Utf16.encode id) : Fresh v.db req id := by
  obtain ⟨-, -, hbody⟩ := Visit.request_owner h
  have hevent : ∀ event ∈ req.body, event = chapterEvent cards c.stored := by
    intro event hevent
    rw [hbody] at hevent
    split at hevent
    · exact (Option.some.inj hevent).symm
    · cases hevent
  constructor
  · intro event he
    rw [hevent event he]
    change Utf16.decode c.uuid = id
    rw [hid, Utf16.decode_encode]
  · intro event he
    rw [hevent event he]
    exact hasNullChild_toNode _

/-- A response is that of the owner the requests name. -/
theorem exists_getRepertoire {userID name : Domain.Text} {raws : List (RawChapter Card)}
    (h : getRepertoire cards db order userID name = some raws) :
    ∃ user, Api.ChapterRequest.resolveOwner db ⟨userID, name, none⟩ = some user ∧
      ((∃ b ∈ raws, b.uuid = Utf16.encode id) ↔ ∃ row ∈ db.chapters.rows, row.ownerId = user.tokenID ∧ row.uuid = id) := by
  unfold getRepertoire at h
  split at h
  · cases h
  · rename_i user huser
    split at h
    · exact ⟨user, huser, exists_fetched h⟩
    · cases h

theorem Visit.postChapter_eq (v : Visit Card) (x : Exchange) (c : Chapter Card) : v.postChapter cards bodyBytes x env order c =
    if (v.send cards bodyBytes x c).2 = some 413 ∨ (v.send cards bodyBytes x c).2 = some 409 then
      (v.send cards bodyBytes x c).1.fetchRepertoire cards env order
    else (v.send cards bodyBytes x c).1 := by
  unfold Visit.postChapter
  obtain ⟨w, status⟩ := v.send cards bodyBytes x c
  split
  · rename_i h
    cases h
    rfl
  · rename_i h
    cases h
    rfl
  · rename_i h413 h409 h
    cases h
    rw [if_neg]
    rintro (rfl | rfl)
    · exact h413 rfl
    · exact h409 rfl

/-- After the fetch, the client has the chapters of the owner. -/
theorem Visit.held_fetchRepertoire (env : Env Card) (id : Domain.Text)
    (h : (getRepertoire cards v.db order v.userID (v.repertoireAuthor.getD [])).isSome) :
    ∃ user, Api.ChapterRequest.resolveOwner v.db ⟨v.userID, v.repertoireAuthor.getD [], none⟩ = some user ∧
      ((∃ d ∈ (v.fetchRepertoire cards env order).store.repertoire, d.uuid = Utf16.encode id) ↔
        ∃ row ∈ v.db.chapters.rows, row.ownerId = user.tokenID ∧ row.uuid = id) := by
  obtain ⟨raws, hraws⟩ := Option.isSome_iff_exists.mp h
  obtain ⟨user, huser, hiff⟩ := exists_getRepertoire hraws
  refine ⟨user, huser, ?_⟩
  rw [← hiff, ← exists_setRepertoire v.store env raws, Visit.fetchRepertoire, hraws]
  rfl

/-! ## The chapter on both sides -/

theorem Visit.send_of_request (h : v.request cards bodyBytes c = some req) : (v.insert c).send cards bodyBytes x c =
    ((v.insert c).setDb (x.send v.db req).1, (x.send v.db req).2) := by
  have hrequest : (v.insert c).request cards bodyBytes c = some req := h
  rw [Visit.send, hrequest]
  rfl

theorem Visit.Fetched.of_request (hfetch : v.Fetched cards bodyBytes x order c) (h : v.request cards bodyBytes c = some req)
    (hstatus : (x.send v.db req).2 = some 413 ∨ (x.send v.db req).2 = some 409) :
    (getRepertoire cards (x.send v.db req).1 order v.userID (v.repertoireAuthor.getD [])).isSome := by
  rw [Visit.Fetched, Visit.send, h] at hfetch
  exact hfetch hstatus

/-- Before the request, the chapter is in the store alone. -/
theorem Visit.not_settled (hid : c.uuid = Utf16.encode id) (hnew : v.db.chapters.has id = false) : ¬(v.insert c).Settled id := by
  intro h
  have hhas := h.mp (hid ▸ exists_addNewChapterLocally v.store c)
  exact absurd (hhas.symm.trans hnew) (by decide)

theorem Visit.settled_accepted (hid : c.uuid = Utf16.encode id) (hnew : v.db.chapters.has id = false) (hr : Referenced v.db)
    (hreq : v.request cards bodyBytes c = some req) (hfetch : v.Fetched cards bodyBytes x order c) (h : x.Accepted v.db req) :
    (v.addNewChapter cards bodyBytes x env order c).Settled id := by
  obtain ⟨db', hdb', husers, hhas, hrow⟩ := h.send hr (Visit.request_fresh hreq hid) hnew
  have hfetched := hfetch.of_request hreq
  rw [Visit.addNewChapter, Visit.postChapter_eq, Visit.send_of_request hreq]
  rw [hdb'] at hfetched ⊢
  split
  · rename_i hstatus
    obtain ⟨user, huser, hheld⟩ := Visit.held_fetchRepertoire (v := (v.insert c).setDb db') env id (hfetched hstatus)
    refine iff_of_true (hheld.mpr (hrow user ?_)) hhas
    obtain ⟨huserID, howner, -⟩ := Visit.request_owner hreq
    rw [← resolveOwner_congr husers]
    simp only [Api.ChapterRequest.resolveOwner, huserID, howner]
    exact huser
  · exact iff_of_true (hid ▸ exists_addNewChapterLocally v.store c) hhas

/-- A chapter that was not accepted goes away again if the client is told about a cap. -/
theorem Visit.settled_refused_iff (hid : c.uuid = Utf16.encode id) (hnew : v.db.chapters.has id = false) (hr : Referenced v.db)
    (hreq : v.request cards bodyBytes c = some req) (hfetch : v.Fetched cards bodyBytes x order c) (h : ¬x.Accepted v.db req) :
    (v.addNewChapter cards bodyBytes x env order c).Settled id ↔ x.Capped v.db req := by
  obtain ⟨hdb, hcapped⟩ := Exchange.send_refused h hr (Visit.request_fresh hreq hid) hnew
  have hfetched := hfetch.of_request hreq
  rw [Visit.addNewChapter, Visit.postChapter_eq, Visit.send_of_request hreq, ← hcapped]
  rw [hdb] at hfetched ⊢
  split
  · rename_i hstatus
    obtain ⟨user, -, hheld⟩ := Visit.held_fetchRepertoire (v := (v.insert c).setDb v.db) env id (hfetched hstatus)
    have hnone : ¬∃ row ∈ v.db.chapters.rows, row.uuid = id := fun hrow =>
      absurd ((Table.has_iff.mpr hrow).symm.trans hnew) (by decide)
    refine iff_of_true (iff_of_false (fun hd => ?_) fun hhas => hnone (Table.has_iff.mp hhas)) hstatus
    obtain ⟨row, hrow, -, hrowid⟩ := hheld.mp hd
    exact hnone ⟨row, hrow, hrowid⟩
  · rename_i hstatus
    exact iff_of_false (Visit.not_settled hid hnew) hstatus

/-- Without a request the chapter stays in the store alone. -/
theorem Visit.settled_unsent (hid : c.uuid = Utf16.encode id) (hnew : v.db.chapters.has id = false)
    (hreq : v.request cards bodyBytes c = none) : ¬(v.addNewChapter cards bodyBytes x env order c).Settled id := by
  have hrequest : (v.insert c).request cards bodyBytes c = none := hreq
  have hsend : (v.insert c).send cards bodyBytes x c = (v.insert c, none) := by
    rw [Visit.send, hrequest]
  rw [Visit.addNewChapter, Visit.postChapter_eq, hsend, if_neg nofun]
  exact Visit.not_settled hid hnew

end Visit

end Chessrepeat.Room
