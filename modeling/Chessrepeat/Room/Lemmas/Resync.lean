import Chessrepeat.Room.Lemmas.Backup
import Chessrepeat.Room.Resync
import Chessrepeat.Store.Lemmas.Whole
import Chessrepeat.Ws.Lemmas.Dispatch

/-!
# What a client holds after its requests

Every response comes from the database after some commit, and installing it makes the client agree with that database.
-/

namespace Chessrepeat.Room

open Lib Client Ws

variable {Raw Card : Type} {chess : Chessops} {cards : CardCodec Card} {json : Codec Raw} {parse : Raw → Wire Card}
  {owner : Domain.Text} {db : Store.Db} {env : Env Card} {client client' : TrainerState Card}

/-! ## The database -/

/-- All chapters have their root, and every move under its parent. -/
def AllWhole (db : Store.Db) : Prop := ∀ row ∈ db.chapters.rows, Store.Whole db row.uuid

/-- The id of a new move has two code points. -/
def WellFormed (json : Codec Raw) (raw : Raw) : Prop := ∀ e, json.moveEvent raw = some e → e.move.id.length = 2

theorem AllWhole.congr {db' : Store.Db} (h : AllWhole db)
    (hc : ∀ id, db'.chapters.has id = true → db.chapters.has id = true)
    (hw : ∀ id, Store.Whole db id → Store.Whole db' id) : AllWhole db' := by
  intro row hrow
  obtain ⟨r, hr, hid⟩ := Table.has_iff.mp (hc _ (Table.has_iff.mpr ⟨row, hrow, rfl⟩))
  exact hw _ (hid ▸ h r hr)

theorem AllWhole.dispatch {sub : Session} {raw : Raw} (h : AllWhole db) (hraw : WellFormed json raw) :
    AllWhole (Ws.dispatch json .none db sub raw).1 := by
  rcases dispatch_writes json .none db sub raw with hdb | hwrites
  · exact hdb.symm ▸ h
  · generalize (Ws.dispatch json .none db sub raw).1 = db' at hwrites ⊢
    cases hwrites with
    | moveCreated op decoded gate up write =>
        obtain ⟨hparent, rfl⟩ := Store.Db.addMoveToChapter_ok write
        exact h.congr (fun _ => id) fun _ hid => hid.upsert hparent (hraw _ decoded)
    | setComment op decoded gate up write =>
        rw [Store.Db.setComment_ok write]
        exact h.congr (fun _ => id) fun _ hid => hid.updateComment
    | trainingUpdated op decoded gate up write =>
        obtain ⟨-, rfl⟩ := Store.Db.updateTrainingState_ok write
        exact h.congr (fun _ => id) fun _ hid => hid.congr rfl
    | nodeDeleted op decoded gate up write =>
        rcases Store.Db.deleteNodeFromChapter_ok write with ⟨-, rfl⟩ | ⟨hp, rfl⟩
        · exact h
        · exact h.congr (fun _ => id) fun _ hid => hid.deleteSubtree hp
    | chapterRenamed =>
        refine h.congr (fun _ hhas => ?_) fun _ hid => hid.congr rfl
        rwa [Store.Db.renameChapter, Table.has_update] at hhas
    | chapterDeleted =>
        intro row hrow
        obtain ⟨hrow, hne⟩ := Table.mem_deleteWhere.mp hrow
        exact (h row hrow).deleteChapter (of_decide_eq_false hne)

/-! ## The response -/

/-- A response names the chapters of the owner. -/
theorem heads_fetch {order : Store.PathOrder} {raws : List (RawChapter Card)} (h : fetch cards db order owner = some raws) :
    raws.map (fun c => (c.uuid, c.name, c.trainAs)) = (db.chapters.rows.filter fun r => r.ownerId = owner).map fun r =>
      (Utf16.encode r.uuid, Utf16.encode r.name, Utf16.encode r.trainAs) := by
  obtain ⟨resps, hresps, hraws⟩ := Option.bind_eq_some_iff.mp h
  have hleft : resps.map (fun c => (c.uuid, c.name, c.trainAs)) =
      (db.chapters.rows.filter fun r => r.ownerId = owner).map fun r => (r.uuid, r.name, r.trainAs) := by
    rw [← List.forall₂_eq_eq_eq, List.forall₂_map_left_iff, List.forall₂_map_right_iff]
    refine (Store.mapM_forall₂ hresps).flip.imp fun resp row hrow => ?_
    obtain ⟨root, -, rfl⟩ := Option.map_eq_some_iff.mp hrow
    rfl
  have hright : raws.map (fun c => (c.uuid, c.name, c.trainAs)) = resps.map fun c =>
      (Utf16.encode c.uuid, Utf16.encode c.name, Utf16.encode c.trainAs) := by
    rw [← List.forall₂_eq_eq_eq, List.forall₂_map_left_iff, List.forall₂_map_right_iff]
    refine (Store.mapM_forall₂ hraws).flip.imp fun raw resp hresp => ?_
    obtain ⟨root, -, rfl⟩ := Option.map_eq_some_iff.mp hresp
    rfl
  rw [hright]
  have := congrArg (List.map fun h : Domain.Text × Domain.Text × Domain.Text =>
    (Utf16.encode h.1, Utf16.encode h.2.1, Utf16.encode h.2.2)) hleft
  rwa [List.map_map, List.map_map] at this

/-- The objects made from a tree of the server lie at the paths of its labels. -/
theorem entries_eq {root : TrainableNode Card} {t : Store.BuildNode} (hs : Store.Spelling t) (hroot : t.label.1 = [])
    (hdata : root.map Object.data = t.map fun l => ofMove cards l.2) :
    entries root = t.labels.map fun l => (Utf16.encode l.1, ofMove cards l.2) := by
  have hid : (Object.id : Object Card → JsString) = TrainingData.id ∘ Object.data := rfl
  have hpaths : paths root = t.labels.map fun l => Utf16.encode l.1 := by
    have hspelled := (spelled_encode cards hs).map_addresses
    rw [hroot] at hspelled
    rw [paths, hid, ← Rose.addresses_map, hdata, Rose.addresses_map]
    exact hspelled
  have hnodes : forEachNode root = t.labels.map fun l => ofMove cards l.2 := by
    rw [forEachNode, ← Rose.labels_map, hdata, Rose.labels_map]
  rw [entries, hpaths, hnodes]
  exact List.zip_map'

/-- A client that has installed a response agrees with the database that the response is from. -/
theorem agrees_setRepertoire {order : Store.PathOrder} {raws : List (RawChapter Card)} (h : AllWhole db)
    (hfetch : fetch cards db order owner = some raws) : Agrees cards db owner (client.setRepertoire env raws) := by
  have hstored := stored_setRepertoire client env raws
  constructor
  · have hheads := congrArg (List.map fun c => (c.uuid, c.name, c.trainAs)) hstored
    rw [List.map_map, heads_fetch hfetch] at hheads
    exact .of_eq hheads
  · intro c hc id hid
    have htrees : ∀ row ∈ db.chapters.rows, row.ownerId = owner → ∃ t, Tree db order row t := fun row hrow _ =>
      let ⟨t, ht, _⟩ := (h row hrow).chapterTree order
      ⟨t, ht⟩
    obtain ⟨raws', hfetch', hmem⟩ := fetch_rows cards order htrees
    obtain rfl : raws' = raws := Option.some.inj (hfetch'.symm.trans hfetch)
    obtain ⟨row, hrow, -, u, hu, hcu⟩ := (hmem c.stored).mp (hstored ▸ List.mem_map_of_mem hc)
    obtain ⟨t, ht, hs, hroot, hperm⟩ := (h row hrow).chapterTree order
    obtain ⟨huuid, -, -, hdata⟩ := RawChapter.mk.inj (hcu.trans (hu.unique ht))
    obtain rfl : id = row.uuid := Utf16.encode_injective (hid.symm.trans huuid)
    rw [entries_eq hs hroot hdata]
    exact hperm.map _

theorem Agrees.congr (h : Agrees cards db owner client) (hr : client'.repertoire = client.repertoire) :
    Agrees cards db owner client' :=
  ⟨by rw [hr]; exact h.chapters, by rw [hr]; exact h.moves⟩

/-- Client and server have a comment on the chapter, or neither has. -/
theorem Agrees.uncommented_iff (h : Agrees cards db owner client) {c : Chapter Card} {id : Domain.Text}
    (hc : c ∈ client.repertoire) (hid : c.uuid = Utf16.encode id) :
    (∀ e ∈ entries c.root, e.2.comment = []) ↔ ∀ e ∈ rowEntries cards db id, e.2.comment = [] := by
  have hperm := h.moves c hc id hid
  constructor
  · exact fun hnone e he => hnone e (hperm.mem_iff.mpr he)
  · exact fun hnone e he => hnone e (hperm.mem_iff.mp he)

/-! ## The client -/

/-- A call that goes nowhere leaves the chapters alone. -/
theorem LocalCall.repertoire_call {c : LocalCall Card} (h : c.idle chess env client = true) :
    (c.call chess env client).repertoire = client.repertoire := by
  cases c with
  | makeMove san => exact (SameTrees.makeMove (Option.isNone_iff_eq_none.mp h)).repertoire
  | deleteLine path =>
      rw [call, TrainerState.deleteLine, Option.isNone_iff_eq_none.mp h]
  | setCommentAt comment path =>
      rw [call, TrainerState.setCommentAt, Option.isNone_iff_eq_none.mp h]
  | learn =>
      rw [call, TrainerState.learn, Option.isNone_iff_eq_none.mp h]
  | train correct =>
      rw [call, TrainerState.train]
      cases ht : client.trainingTarget env with
      | none => rfl
      | some e =>
          rw [idle, ht] at h
          obtain ⟨chapter, target, path⟩ := e
          have hcard : ownCard env target.data = none := Option.isNone_iff_eq_none.mp h
          simp only
          split
          · rfl
          · rfl
          · rename_i oldCard hold
            rw [userCard_eq_card, hcard] at hold
            cases hold
  | renameChapter chapterId newName =>
      rw [call, Option.isNone_iff_eq_none.mp h]
  | deleteChapterAt chapterId =>
      rw [call, Option.isNone_iff_eq_none.mp h]

/-- Only a message with an event changes the chapters. -/
theorem repertoire_receive {f : Frame (Wire Card)} (h : ∀ m, f ≠ .raw (.msg m)) :
    (receive env client f).repertoire = client.repertoire := by
  cases f with
  | raw w =>
      cases w with
      | msg m => exact absurd rfl (h m)
      | reload => rfl
      | pong => rfl
  | crowd | userJoined | userLeft => rfl

theorem repertoire_restore {path : JsString} {fetched : Option (List (RawChapter Card))} :
    (client.restore env path fetched).repertoire = (client.fetchRepertoire env fetched).repertoire := by
  rw [TrainerState.restore, repertoire_setNextTrainablePosition, TrainerState.recoverPath, apply_ite TrainerState.repertoire,
    repertoire_jump, ite_self]

namespace Link

variable {s s' : Link Card} {n : Nat}

/-! ## The history -/

theorem dbAt_commits (s : Link Card) : s.dbAt s.commits = some s.db := List.getElem?_concat_length

theorem dbAt_push (h : s.dbAt n = some db) (hp : s'.past = s.past ++ [s.db]) : s'.dbAt n = some db := by
  rw [dbAt, hp, List.getElem?_append_left (List.getElem?_eq_some_iff.mp h).1]
  exact h

theorem le_commits (h : s.dbAt n = some db) : n ≤ s.commits := by
  have hlt := (List.getElem?_eq_some_iff.mp h).1
  rw [List.length_append, List.length_singleton] at hlt
  exact Nat.lt_succ_iff.mp hlt

/-- A request is sent without a response. -/
theorem mem_sent {savedPath : Option JsString} {req : Request Card}
    (hreq : req ∈ s.requests ++ [⟨savedPath, none⟩]) : req ∈ s.requests ∨ req.response = none := by
  rcases List.mem_append.mp hreq with hreq | hreq
  · exact .inl hreq
  · rw [List.mem_singleton.mp hreq]
    exact .inr rfl

/-- Every response and the chapters of the client, if they are from a commit, are from the database after it. -/
structure Traced (cards : CardCodec Card) (owner : Domain.Text) (s : Link Card) : Prop where
  whole : AllWhole s.db
  stream : ∀ e ∈ s.stream, e.1 ≤ s.commits
  delivered : ∀ n ∈ s.delivered, n ≤ s.commits
  answers : ∀ req ∈ s.requests, ∀ n raws, req.response = some (n, some raws) →
    ∃ db order, s.dbAt n = some db ∧ AllWhole db ∧ fetch cards db order owner = some raws
  asOf : ∀ n, s.asOf = some n → ∃ db, s.dbAt n = some db ∧ Agrees cards db owner s.client

theorem dbAt_congr (hdb : s'.db = s.db) (hp : s'.past = s.past) : s'.dbAt n = s.dbAt n := by
  rw [dbAt, dbAt, hdb, hp]

/-- A step in which nothing is committed, answered or installed. -/
theorem Traced.keep (h : s.Traced cards owner) (hdb : s'.db = s.db) (hp : s'.past = s.past)
    (hstream : ∀ e ∈ s'.stream, e ∈ s.stream ∨ e.1 = 0)
    (hdelivered : ∀ n ∈ s'.delivered, n ∈ s.delivered ∨ ∃ f, (n, f) ∈ s.stream)
    (hrequests : ∀ req ∈ s'.requests, req ∈ s.requests ∨ req.response = none)
    (hasOf : ∀ n, s'.asOf = some n → s.asOf = some n ∧ s'.client.repertoire = s.client.repertoire) :
    s'.Traced cards owner := by
  have hcommits : s'.commits = s.commits := congrArg List.length hp
  refine ⟨hdb ▸ h.whole, fun e he => ?_, fun n hn => ?_, fun req hreq n raws hresp => ?_, fun n hn => ?_⟩
  · rw [hcommits]
    rcases hstream e he with he | he
    · exact h.stream e he
    · rw [he]
      exact Nat.zero_le _
  · rw [hcommits]
    rcases hdelivered n hn with hn | ⟨f, hf⟩
    · exact h.delivered n hn
    · exact h.stream _ hf
  · rw [dbAt_congr hdb hp]
    rcases hrequests req hreq with hreq | hnone
    · exact h.answers req hreq n raws hresp
    · rw [hnone] at hresp
      cases hresp
  · rw [dbAt_congr hdb hp]
    obtain ⟨hn, hrep⟩ := hasOf n hn
    obtain ⟨db, hdb, hagrees⟩ := h.asOf n hn
    exact ⟨db, hdb, hagrees.congr hrep⟩

theorem Traced.commit {sub : Session} {raw : Raw} (h : s.Traced cards owner) (hraw : WellFormed json raw) :
    (s.commit json parse sub raw).Traced cards owner := by
  have hwhole : AllWhole (dispatch json .none s.db sub raw).1 := h.whole.dispatch hraw
  rw [Link.commit]
  cases hout : (dispatch json .none s.db sub raw).2 with
  | drop =>
      have hquiet : (dispatch json .none s.db sub raw).1 = s.db := dispatch_quiet (by rw [hout]; nofun)
      simp only [hquiet]
      exact h
  | reply msg =>
      have hquiet : (dispatch json .none s.db sub raw).1 = s.db := dispatch_quiet (by rw [hout]; nofun)
      simp only [hquiet]
      exact h
  | broadcast msg =>
      have hcommits : (s.past ++ [s.db]).length = s.commits + 1 := by rw [List.length_append, List.length_singleton, commits]
      refine ⟨hwhole, fun e he => ?_, fun n hn => ?_, fun req hreq n raws hresp => ?_, fun n hn => ?_⟩
      · change e.1 ≤ (s.past ++ [s.db]).length
        rw [hcommits]
        change e ∈ (if s.socketOpen then _ else _) at he
        split at he
        · rcases List.mem_append.mp he with he | he
          · exact (h.stream e he).trans (Nat.le_succ _)
          · rw [List.mem_singleton.mp he]
        · exact (h.stream e he).trans (Nat.le_succ _)
      · change n ≤ (s.past ++ [s.db]).length
        rw [hcommits]
        exact (h.delivered n hn).trans (Nat.le_succ _)
      · obtain ⟨db, order, hdb, hrest⟩ := h.answers req hreq n raws hresp
        exact ⟨db, order, dbAt_push hdb rfl, hrest⟩
      · obtain ⟨db, hdb, hagrees⟩ := h.asOf n hn
        exact ⟨db, dbAt_push hdb rfl, hagrees⟩

theorem Traced.onmessage {k : Nat} (h : s.Traced cards owner) : (s.onmessage k env).Traced cards owner := by
  rw [Link.onmessage]
  split
  · exact h
  · rename_i n m hk
    refine h.keep rfl rfl (fun e he => .inl (List.mem_of_mem_eraseIdx he)) (fun n' hn => ?_) (fun _ => .inl) nofun
    rcases List.mem_append.mp hn with hn | hn
    · exact .inl hn
    · rw [List.mem_singleton.mp hn]
      exact .inr ⟨_, List.mem_of_getElem? hk⟩
  · rename_i f hm hk
    refine h.keep rfl rfl (fun e he => .inl (List.mem_of_mem_eraseIdx he)) (fun _ => .inl) (fun _ => .inl) fun n hn => ⟨hn, ?_⟩
    exact repertoire_receive fun m he => hm m (he ▸ rfl)

theorem Traced.resync (h : s.Traced cards owner) : s.resync.Traced cards owner := by
  rw [Link.resync]
  split
  · exact h
  · exact h.keep rfl rfl (fun _ => .inl) (fun _ => .inl) (fun _ => mem_sent) fun n hn => ⟨hn, rfl⟩

/-- What is read now is from the last commit. -/
theorem Traced.read {k : Nat} {order : Store.PathOrder} (h : s.Traced cards owner) :
    (s.read cards owner k order).Traced cards owner := by
  rw [Link.read]
  split
  · refine ⟨h.whole, h.stream, h.delivered, fun req hreq n raws hresp => ?_, h.asOf⟩
    rcases List.mem_or_eq_of_mem_set hreq with hreq | rfl
    · exact h.answers req hreq n raws hresp
    · obtain ⟨rfl, hfetch⟩ := Prod.mk.inj (Option.some.inj hresp)
      exact ⟨s.db, order, dbAt_commits s, h.whole, hfetch⟩
  · exact h

theorem repertoire_install {k : Nat} {savedPath : Option JsString} {raws : List (RawChapter Card)}
    (hk : s.requests[k]? = some ⟨savedPath, some (n, some raws)⟩) :
    (s.install k env).client.repertoire = (s.client.setRepertoire env raws).repertoire := by
  rw [Link.install, hk]
  cases savedPath with
  | none => rfl
  | some path => exact repertoire_restore

theorem Traced.install {k : Nat} (h : s.Traced cards owner) : (s.install k env).Traced cards owner := by
  cases hk : s.requests[k]? with
  | none =>
      rw [Link.install, hk]
      exact h
  | some req =>
      obtain ⟨savedPath, response⟩ := req
      cases response with
      | none =>
          rw [Link.install, hk]
          exact h
      | some r =>
          obtain ⟨n, fetched⟩ := r
          cases fetched with
          | none =>
              have hclient : (s.install k env).client.repertoire = s.client.repertoire := by
                rw [Link.install, hk]
                cases savedPath with
                | none => rfl
                | some path => exact repertoire_restore
              rw [Link.install, hk] at hclient ⊢
              exact h.keep rfl rfl (fun _ => .inl) (fun _ => .inl) (fun req hreq => .inl (List.mem_of_mem_eraseIdx hreq))
                fun n hn => ⟨hn, hclient⟩
          | some raws =>
              have hclient : (s.install k env).client.repertoire = _ := repertoire_install hk
              obtain ⟨db, order, hdb, hwhole, hfetch⟩ := h.answers _ (List.mem_of_getElem? hk) n raws rfl
              rw [Link.install, hk] at hclient ⊢
              refine ⟨h.whole, h.stream, h.delivered, fun req hreq => h.answers req (List.mem_of_mem_eraseIdx hreq),
                fun n' hn => ?_⟩
              cases hn
              exact ⟨db, hdb, (agrees_setRepertoire hwhole hfetch).congr hclient⟩

/-- New moves have ids of two code points. -/
def Proper (json : Codec Raw) : LinkAction Raw Card → Prop
  | .commit _ raw => WellFormed json raw
  | _ => True

theorem Traced.step {a : LinkAction Raw Card} (h : s.Traced cards owner) (ha : Proper json a) :
    (s.step chess cards json parse owner a).Traced cards owner := by
  cases a with
  | onopen users =>
      refine h.keep rfl rfl (fun e he => .inr ?_) (fun _ => .inl) (fun _ => .inl) fun n hn => ⟨hn, rfl⟩
      rw [List.mem_singleton.mp he]
  | onclose => exact h.keep rfl rfl nofun (fun _ => .inl) (fun _ => .inl) fun n hn => ⟨hn, rfl⟩
  | commit sub raw => exact h.commit ha
  | onmessage k env => exact h.onmessage
  | navigate env a =>
      rw [Link.step]
      split
      · rename_i hnav
        exact h.keep rfl rfl (fun _ => .inl) (fun _ => .inl) (fun _ => .inl) fun n hn =>
          ⟨hn, (SameTrees.navigation hnav).repertoire⟩
      · exact h
  | call env c =>
      rw [Link.step, Link.call]
      split
      · exact h
      · refine h.keep rfl rfl (fun _ => .inl) (fun _ => .inl) (fun _ => .inl) fun n hn => ?_
        change (if c.idle chess _ s.client = true then s.asOf else none) = some n at hn
        split at hn
        · rename_i hidle
          exact ⟨hn, LocalCall.repertoire_call hidle⟩
        · cases hn
  | fetchRepertoire => exact h.keep rfl rfl (fun _ => .inl) (fun _ => .inl) (fun _ => mem_sent) fun n hn => ⟨hn, rfl⟩
  | resync => exact h.resync
  | read k order => exact h.read
  | install k env => exact h.install

/-- Nothing is under way. If the chapters of the client are from a commit, they are what the database says. -/
structure Started (cards : CardCodec Card) (owner : Domain.Text) (s : Link Card) : Prop where
  whole : AllWhole s.db
  stream : s.stream = []
  requests : s.requests = []
  past : s.past = []
  delivered : s.delivered = []
  asOf : ∀ n, s.asOf = some n → n = 0 ∧ Agrees cards s.db owner s.client

theorem Started.traced (h : s.Started cards owner) : s.Traced cards owner := by
  refine ⟨h.whole, ?_, ?_, ?_, fun n hn => ?_⟩
  · rw [h.stream]
    nofun
  · rw [h.delivered]
    nofun
  · rw [h.requests]
    nofun
  · obtain ⟨rfl, hagrees⟩ := h.asOf n hn
    refine ⟨s.db, ?_, hagrees⟩
    rw [dbAt, h.past]
    rfl

/-! ## Events before a response -/

/-- The chapters of the client are those of the database after some commit that is not before `n`. -/
def Reflects (cards : CardCodec Card) (owner : Domain.Text) (s : Link Card) (n : Nat) : Prop :=
  ∃ r db, n ≤ r ∧ s.dbAt r = some db ∧ Agrees cards db owner s.client

/-- Whichever response is installed next, no event that has been delivered is lost. -/
def LosesNothing (cards : CardCodec Card) (owner : Domain.Text) (s : Link Card) : Prop :=
  ∀ k env savedPath r raws, s.requests[k]? = some ⟨savedPath, some (r, some raws)⟩ →
    ∀ n ∈ s.delivered, (s.install k env).Reflects cards owner n

/-- No event is delivered that was committed after the server has read a response that is not installed yet. -/
def InTime (s : Link Card) : LinkAction Raw Card → Prop
  | .onmessage k _ => ∀ n m, s.stream[k]? = some (n, .raw (.msg m)) →
      ∀ req ∈ s.requests, ∀ r raws, req.response = some (r, some raws) → n ≤ r
  | _ => True

/-- The events that have been delivered are in every response. -/
def Timely (s : Link Card) : Prop :=
  ∀ req ∈ s.requests, ∀ r raws, req.response = some (r, some raws) → ∀ n ∈ s.delivered, n ≤ r

theorem Timely.keep (h : s.Timely) (hdelivered : s'.delivered = s.delivered)
    (hrequests : ∀ req ∈ s'.requests, req ∈ s.requests ∨ req.response = none) : s'.Timely := by
  intro req hreq r raws hresp n hn
  rcases hrequests req hreq with hreq | hnone
  · exact h req hreq r raws hresp n (hdelivered ▸ hn)
  · rw [hnone] at hresp
    cases hresp

theorem Timely.step {a : LinkAction Raw Card} (h : s.Timely) (hs : s.Traced cards owner) (ha : s.InTime a) :
    (s.step chess cards json parse owner a).Timely := by
  cases a with
  | onopen | onclose => exact h.keep rfl fun _ => .inl
  | commit sub raw =>
      rw [Link.step, Link.commit]
      split
      · exact h.keep rfl fun _ => .inl
      · exact h.keep rfl fun _ => .inl
  | onmessage k env =>
      rw [Link.step, Link.onmessage]
      split
      · exact h
      · rename_i n m hk
        intro req hreq r raws hresp n' hn
        rcases List.mem_append.mp hn with hn | hn
        · exact h req hreq r raws hresp n' hn
        · rw [List.mem_singleton.mp hn]
          exact ha n m hk req hreq r raws hresp
      · exact h.keep rfl fun _ => .inl
  | navigate env a =>
      rw [Link.step]
      split
      · exact h.keep rfl fun _ => .inl
      · exact h
  | call env c =>
      rw [Link.step, Link.call]
      split
      · exact h
      · exact h.keep rfl fun _ => .inl
  | fetchRepertoire => exact h.keep rfl fun _ => mem_sent
  | resync =>
      rw [Link.step, Link.resync]
      split
      · exact h
      · exact h.keep rfl fun _ => mem_sent
  | read k order =>
      rw [Link.step, Link.read]
      split
      · intro req hreq r raws hresp n hn
        rcases List.mem_or_eq_of_mem_set hreq with hreq | rfl
        · exact h req hreq r raws hresp n hn
        · obtain ⟨rfl, -⟩ := Prod.mk.inj (Option.some.inj hresp)
          exact hs.delivered n hn
      · exact h
  | install k env =>
      rw [Link.step, Link.install]
      split
      · exact h.keep rfl fun req hreq => .inl (List.mem_of_mem_eraseIdx hreq)
      · exact h

/-- A response that has all the events keeps them all. -/
theorem Timely.losesNothing (h : s.Timely) (hs : s.Traced cards owner) : s.LosesNothing cards owner := by
  intro k env savedPath r raws hk n hn
  have hreq := List.mem_of_getElem? hk
  obtain ⟨db, order, hdb, hwhole, hfetch⟩ := hs.answers _ hreq r raws rfl
  refine ⟨r, db, h _ hreq r raws rfl n hn, ?_, (agrees_setRepertoire hwhole hfetch).congr (repertoire_install hk)⟩
  rw [← hdb]
  refine dbAt_congr ?_ ?_ <;> rw [Link.install, hk]

/-! ## Gaps -/

/-- Events are committed only while the socket is not open. -/
def InGap (s : Link Card) : LinkAction Raw Card → Prop
  | .commit .. => s.socketOpen = false
  | _ => True

/-- When the socket opens, the chapters of the client are from the last commit, and no older response is installed
after that. -/
def CaughtUp (s : Link Card) : LinkAction Raw Card → Prop
  | .onopen _ => s.asOf = some s.commits
  | .install k _ => s.socketOpen = true → ∀ savedPath r raws,
      s.requests[k]? = some ⟨savedPath, some (r, some raws)⟩ → r = s.commits
  | _ => True

structure UpToDate (s : Link Card) : Prop where
  asOf : s.socketOpen = true → s.asOf = some s.commits
  stream : ∀ e ∈ s.stream, ∀ m, e.2 ≠ .raw (.msg m)

theorem Traced.agrees (h : s.Traced cards owner) (hasOf : s.asOf = some s.commits) : Agrees cards s.db owner s.client := by
  obtain ⟨db, hdb, hagrees⟩ := h.asOf _ hasOf
  rw [dbAt_commits] at hdb
  cases hdb
  exact hagrees

theorem UpToDate.step {a : LinkAction Raw Card} (h : s.UpToDate) (hgap : s.InGap a) (ha : s.CaughtUp a) :
    (s.step chess cards json parse owner a).UpToDate := by
  cases a with
  | onopen users =>
      refine ⟨fun _ => ha, fun e he m hm => ?_⟩
      rw [List.mem_singleton.mp he] at hm
      cases hm
  | onclose => exact ⟨nofun, nofun⟩
  | commit sub raw =>
      have hclosed : s.socketOpen = false := hgap
      rw [Link.step, Link.commit]
      split
      · refine ⟨fun hopen => ?_, ?_⟩
        · exact absurd (hopen.symm.trans hclosed) nofun
        · simp only [hclosed]
          exact h.stream
      · exact ⟨fun hopen => absurd (hopen.symm.trans hclosed) nofun, h.stream⟩
  | onmessage k env =>
      rw [Link.step, Link.onmessage]
      split
      · exact h
      · rename_i n m hk
        exact absurd rfl (h.stream _ (List.mem_of_getElem? hk) m)
      · exact ⟨h.asOf, fun e he => h.stream e (List.mem_of_mem_eraseIdx he)⟩
  | navigate env a =>
      rw [Link.step]
      split
      · exact ⟨h.asOf, h.stream⟩
      · exact h
  | call env c =>
      rw [Link.step, Link.call]
      split
      · exact h
      · rename_i hclosed
        exact ⟨fun hopen => absurd (Bool.or_eq_true_iff.mpr (.inl hopen)) hclosed, h.stream⟩
  | fetchRepertoire => exact ⟨h.asOf, h.stream⟩
  | resync =>
      rw [Link.step, Link.resync]
      split
      · exact h
      · exact ⟨h.asOf, h.stream⟩
  | read k order =>
      rw [Link.step, Link.read]
      split
      · exact ⟨h.asOf, h.stream⟩
      · exact h
  | install k env =>
      rw [Link.step, Link.install]
      split
      · rename_i savedPath r fetched hk
        refine ⟨fun hopen => ?_, h.stream⟩
        cases fetched with
        | none => exact h.asOf hopen
        | some raws => exact congrArg some (ha hopen savedPath r raws hk)
      · exact h

end Link

end Chessrepeat.Room
