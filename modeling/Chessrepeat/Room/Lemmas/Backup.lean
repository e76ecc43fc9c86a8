import Chessrepeat.Client.Lemmas.Chapters
import Chessrepeat.Room.Backup
import Chessrepeat.Room.Lemmas.Reload
import Chessrepeat.Store.Lemmas.Cap

/-!
# What comes back from a backup

The tree of an imported chapter is that of the exported one without its cards, up to the order of siblings.
-/

namespace Chessrepeat.Room

open Lib Client Store

variable {Card : Type} {cards : CardCodec Card} {env : Env Card} {db db' : Db} {t u : BuildNode}

/-! ## Equal chapters -/

/-- A move without its cards. -/
def bare (d : TrainingData Card) : TrainingData Card := { d with training := none }

/-- A move with the card of the user. -/
def entry (env : Env Card) (d : TrainingData Card) : TrainingData Card × Option Card := (bare d, ownCard env d)

/-- All nodes of a tree with their paths. -/
def outline (env : Env Card) (root : Rose (TrainingData Card)) : List (JsString × TrainingData Card × Option Card) :=
  ((Rose.addresses TrainingData.id root).map List.flatten).zip (root.labels.map (entry env))

/-- Equal but for the uuid, the order of siblings and the cards of other users. -/
structure Alike (env : Env Card) (c d : Chapter Card) : Prop where
  name : c.name = d.name
  trainAs : c.trainAs = d.trainAs
  moves : (outline env (c.root.map Object.data)).Perm (outline env (d.root.map Object.data))

/-- The chapter is there under its new uuid. -/
def Restored (env : Env Card) (uuid : JsString) (c : Chapter Card) (s : TrainerState Card) : Prop :=
  ∃ d ∈ s.repertoire, d.uuid = uuid ∧ Alike env c d

/-- The chapter of a response, whatever cards its moves have now. -/
structure Mirrors (c : Chapter Card) (b : RawChapter Card) : Prop where
  name : c.name = b.name
  trainAs : c.trainAs = b.trainAs
  moves : (c.root.map Object.data).map bare = b.root.map bare

theorem entry_bare {d : TrainingData Card} (h : ownCard env d = none) : entry env d = (bare d, none) := by
  rw [entry, h]

theorem ownCard_bare (d : TrainingData Card) : ownCard env (bare d) = none := by
  simp [ownCard, bare]

/-- The outline of a tree without cards of the user. -/
theorem outline_bare {root : Rose (TrainingData Card)} (h : ∀ d ∈ root.labels, ownCard env d = none) :
    outline env root = outline env (root.map bare) := by
  have haddr : Rose.addresses TrainingData.id (root.map bare) = Rose.addresses TrainingData.id root := by
    rw [Rose.addresses_map]
    rfl
  rw [outline, outline, haddr, Rose.labels_map, List.map_map]
  congr 1
  refine List.map_congr_left fun d hd => ?_
  rw [Function.comp_apply, entry_bare (h d hd), entry_bare (ownCard_bare d)]
  rfl

/-- The nodes of a tree that comes from the server lie at the paths of its labels. -/
theorem outline_map (hs : Spelling t) (hroot : t.label.1 = []) :
    outline env (t.map fun l => ofMove cards l.2) = t.labels.map fun l => (Utf16.encode l.1, entry env (ofMove cards l.2)) := by
  have hpaths : (Rose.addresses (TrainingData.id ∘ fun l => ofMove cards l.2) t).map List.flatten =
      t.labels.map fun l => Utf16.encode l.1 := by
    have hspelled := (spelled_encode cards hs).map_addresses
    rw [hroot] at hspelled
    exact hspelled
  rw [outline, Rose.addresses_map, Rose.labels_map, List.map_map, hpaths]
  exact List.zip_map'

/-! ## Sending a tree -/

/-- What the server gets back of a label that it sent. -/
def sentBack (cards : CardCodec Card) (l : Domain.Text × Domain.TrainingData) : Domain.Text × Domain.TrainingData :=
  (l.1, toMove cards (ofMove cards l.2))

mutual
theorem toNode_map : (t : BuildNode) →
    toNode cards (t.map fun l => ofMove cards l.2) = BuildNode.response (t.map (sentBack cards))
  | .node l cs => by
      rw [Rose.map, Rose.map, toNode, BuildNode.response, toNodes_mapList cs]
      rfl

theorem toNodes_mapList : (cs : List BuildNode) →
    toNodes cards (Rose.mapList (fun l => ofMove cards l.2) cs) = BuildNode.responseList (Rose.mapList (sentBack cards) cs)
  | [] => rfl
  | c :: cs => by
      rw [Rose.mapList, Rose.mapList, toNodes, BuildNode.responseList, toNode_map c, toNodes_mapList cs]
end

mutual
theorem untrained_toNode : (t : Rose (TrainingData Card)) → (toNode cards t).untrained = toNode cards (t.map bare)
  | .node d cs => by
      rw [toNode, Domain.ChapterTreeNode.untrained, Rose.map, toNode, untrained_toNodes cs]
      rfl

theorem untrained_toNodes : (cs : List (Rose (TrainingData Card))) →
    Domain.ChapterTreeNode.untrainedList (toNodes cards cs) = toNodes cards (Rose.mapList bare cs)
  | [] => rfl
  | c :: cs => by
      rw [toNodes, Domain.ChapterTreeNode.untrainedList, Rose.mapList, toNodes, untrained_toNode c, untrained_toNodes cs]
end

theorem untrained_sentBack (l : Domain.Text × Domain.TrainingData) :
    untrainedEntry (sentBack cards l) = untrainedEntry l := by
  simp only [untrainedEntry, sentBack, toMove, ofMove, Utf16.decode_encode]

/-- A relabelling that keeps ids and paths. -/
theorem spelling_map {f : Domain.Text × Domain.TrainingData → Domain.Text × Domain.TrainingData}
    (hid : ∀ l, (f l).2.id = l.2.id) (hpath : ∀ l, (f l).1 = l.1) (h : Spelling t) : Spelling (t.map f) := by
  refine Rose.Spelled.map fun n hn d hd => ?_
  simp only [Function.comp_apply, hid, hpath]
  exact h n hn d hd

theorem id_sentBack (l : Domain.Text × Domain.TrainingData) : (sentBack cards l).2.id = l.2.id := by
  simp only [sentBack, toMove, ofMove, Utf16.decode_encode]

/-- The tree with the labels of a spelled one has ids of its own among siblings. -/
theorem keyed_response (hs : Spelling t) (hd : (t.labels.map Prod.fst).Nodup)
    (hid : Rose.Below (fun l : Domain.Text × Domain.TrainingData => l.2.id.length = 2) t) : t.response.Keyed := by
  induction t using Rose.ind with
  | h l cs ih =>
      rw [BuildNode.response, responseList_eq]
      refine .mk (fun c hc => ?_) (fun c hc => ?_) ?_
      · obtain ⟨b, hb, rfl⟩ := List.mem_map.mp hc
        exact ih b hb (hs.child hb) (Rose.nodup_of_mem_nodes hd (Rose.child_mem_nodes hb)) (hid.child hb)
      · obtain ⟨b, hb, rfl⟩ := List.mem_map.mp hc
        rw [id_response]
        exact hid.label hb
      · have hdistinct := hs.distinct hd _ (Rose.self_mem_nodes _)
        have hids : (cs.map BuildNode.response).map Domain.ChapterTreeNode.id = cs.map fun c : BuildNode => c.label.2.id := by
          rw [List.map_map]
          exact List.map_congr_left fun c _ => id_response c
        rw [hids]
        exact hdistinct

/-- What the server makes of the tree of a chapter it has sent. -/
theorem posted {r : Rose (TrainingData Card)} (hroot : t.label.1 = []) (hs : Spelling t) (hd : (t.labels.map Prod.fst).Nodup)
    (hid : Rose.Below (fun l : Domain.Text × Domain.TrainingData => l.2.id.length = 2) t)
    (hr : r.map bare = (t.map fun l => ofMove cards l.2).map bare) :
    (toNode cards r).Keyed ∧ (located [] (toNode cards r).untrained).labels = t.labels.map untrainedEntry ∧
      (located [] (toNode cards r)).labels.length = r.labels.length := by
  have hback : (toNode cards r).untrained = (BuildNode.response (t.map (sentBack cards))).untrained := by
    rw [untrained_toNode, hr, ← untrained_toNode, toNode_map]
  have hspell : Spelling (t.map (sentBack cards)) := spelling_map id_sentBack (fun _ => rfl) hs
  have hkeyed : (BuildNode.response (t.map (sentBack cards))).Keyed := by
    refine keyed_response hspell ?_ ?_
    · rw [Rose.labels_map, List.map_map]
      exact hd
    · rw [Rose.below_map]
      exact fun l hl => (congrArg List.length (id_sentBack l)).trans (hid l hl)
  have hposted : (toNode cards r).Keyed := by
    refine keyed_of_untrained _ ?_
    rw [hback]
    exact keyed_untrained hkeyed
  have hlabels : (located [] (toNode cards r).untrained).labels = t.labels.map untrainedEntry := by
    have hlocated := located_response hspell
    rw [Rose.label_map] at hlocated
    change located t.label.1 _ = _ at hlocated
    rw [hroot] at hlocated
    rw [hback, located_untrained hkeyed, hlocated, Rose.labels_map, Rose.labels_map, List.map_map]
    exact List.map_congr_left fun l _ => untrained_sentBack l
  refine ⟨hposted, hlabels, ?_⟩
  have hleft := congrArg List.length hlabels
  have hright := congrArg (fun r => (Rose.labels r).length) hr
  rw [located_untrained hposted] at hleft
  simp only [Rose.labels_map, List.length_map] at hleft hright
  exact hleft.trans hright.symm

/-! ## Restored trees -/

/-- The outline of a tree whose moves have been stored without their cards. -/
theorem outline_untrained (env : Env Card) {r : Rose (TrainingData Card)} (hroot : t.label.1 = []) (hs : Spelling t) (hu : Spelling u)
    (huroot : u.label.1 = []) (hlabels : u.labels.Perm (t.labels.map untrainedEntry))
    (hr : r.map bare = (t.map fun l => ofMove cards l.2).map bare) :
    (outline env r).Perm (outline env (u.map fun l => ofMove cards l.2)) ↔ ∀ d ∈ r.labels, ownCard env d = none := by
  have hforget : (t.map fun l => ofMove cards l.2).map bare =
      (t.map untrainedEntry).map fun l => (ofMove cards l.2 : TrainingData Card) := by
    rw [Rose.map_map, Rose.map_map]
    rfl
  have hspell : Spelling (t.map untrainedEntry) := spelling_map (fun _ => rfl) (fun _ => rfl) hs
  rw [outline_map hu huroot]
  constructor
  · intro hperm d hd
    -- the stored moves have no cards
    have hsnd : (outline env r).map Prod.snd = r.labels.map (entry env) := by
      rw [outline, List.map_snd_zip]
      rw [List.length_map, List.length_map, Rose.length_addresses]
    have hentry : entry env d ∈ (outline env r).map Prod.snd := by
      rw [hsnd]
      exact List.mem_map_of_mem hd
    obtain ⟨e, he, hed⟩ := List.mem_map.mp hentry
    obtain ⟨l, hl, rfl⟩ := List.mem_map.mp (hperm.mem_iff.mp he)
    obtain ⟨l, -, rfl⟩ := List.mem_map.mp (hlabels.mem_iff.mp hl)
    have hnone : ownCard env (ofMove cards (untrainedEntry l).2 : TrainingData Card) = none :=
      ownCard_bare (ofMove cards l.2)
    exact (congrArg Prod.snd hed).symm.trans hnone
  · intro hnone
    rw [outline_bare hnone, hr, hforget, outline_map hspell (by rw [Rose.label_map]; exact hroot), Rose.labels_map]
    exact (hlabels.map _).symm

/-! ## The chapters of the owner -/

theorem mem_mapM {α β : Type} {f : α → Option β} {xs : List α} {ys : List β} (h : xs.mapM f = some ys) {y : β} :
    y ∈ ys ↔ ∃ x ∈ xs, f x = some y := by
  constructor
  · exact exists_of_mem_forall₂ (mapM_forall₂ h)
  · rintro ⟨x, hx, hxy⟩
    obtain ⟨y', hy', hxy'⟩ := exists_of_mem_forall₂ (mapM_forall₂ h).flip hx
    rw [Option.some.inj (hxy.symm.trans hxy')]
    exact hy'

/-- Every element goes through, and nothing else comes out. -/
theorem mapM_some {α β : Type} {f : α → Option β} {xs : List α} (h : ∀ x ∈ xs, (f x).isSome) :
    ∃ ys, xs.mapM f = some ys ∧ ∀ y, y ∈ ys ↔ ∃ x ∈ xs, f x = some y := by
  have hmap : ∃ ys, xs.mapM f = some ys := by
    induction xs with
    | nil => exact ⟨[], rfl⟩
    | cons x xs ih =>
        obtain ⟨y, hy⟩ := Option.isSome_iff_exists.mp (h x List.mem_cons_self)
        obtain ⟨ys, hys⟩ := ih fun x' hx' => h x' (List.mem_cons_of_mem _ hx')
        refine ⟨y :: ys, ?_⟩
        rw [List.mapM_cons, hy, hys]
        rfl
  obtain ⟨ys, hys⟩ := hmap
  exact ⟨ys, hys, fun _ => mem_mapM hys⟩

/-- A row of the chapters table as the client gets it. -/
def rawChapter (cards : CardCodec Card) (row : ChapterRow) (t : BuildNode) : RawChapter Card :=
  ⟨Utf16.encode row.uuid, Utf16.encode row.name, Utf16.encode row.trainAs, t.map fun l => ofMove cards l.2⟩

/-- The tree that is built for a chapter. -/
def Tree (db : Db) (order : PathOrder) (row : ChapterRow) (t : BuildNode) : Prop :=
  db.chapterTree order row = some ⟨row.uuid, row.name, row.trainAs, t.response⟩

theorem fetch_rows (cards : CardCodec Card) (order : PathOrder) {owner : Domain.Text}
    (h : ∀ row ∈ db.chapters.rows, row.ownerId = owner → ∃ t, Tree db order row t) :
    ∃ raws : List (RawChapter Card), fetch cards db order owner = some raws ∧ ∀ c, c ∈ raws ↔
      ∃ row ∈ db.chapters.rows, row.ownerId = owner ∧ ∃ t, Tree db order row t ∧ c = rawChapter cards row t := by
  have hof : ∀ (row : ChapterRow) (t : BuildNode), ofResponse cards ⟨row.uuid, row.name, row.trainAs, t.response⟩ =
      some (rawChapter cards row t) := by
    intro row t
    rw [ofResponse, ofNode_response]
    rfl
  have hrows : ∀ row ∈ db.chapters.rows.filter fun r => r.ownerId = owner, ∃ t, Tree db order row t := by
    intro row hrow
    obtain ⟨hrow, ho⟩ := List.mem_filter.mp hrow
    exact h row hrow (of_decide_eq_true ho)
  obtain ⟨resps, hresps, hresp⟩ := mapM_some (f := db.chapterTree order) fun row hrow => by
    obtain ⟨t, ht⟩ := hrows row hrow
    exact Option.isSome_iff_exists.mpr ⟨_, ht⟩
  have hsome : ∀ resp ∈ resps, (ofResponse cards resp).isSome := by
    intro resp hmem
    obtain ⟨row, hrow, hbuilt⟩ := (hresp resp).mp hmem
    obtain ⟨t, ht⟩ := hrows row hrow
    rw [Option.some.inj (hbuilt.symm.trans ht), hof]
    rfl
  obtain ⟨raws, hraws, hraw⟩ := mapM_some hsome
  refine ⟨raws, ?_, fun c => ?_⟩
  · rw [fetch, Db.fetchChaptersByOwner, hresps]
    exact hraws
  · rw [hraw]
    constructor
    · rintro ⟨resp, hmem, hc⟩
      obtain ⟨row, hrow, hbuilt⟩ := (hresp resp).mp hmem
      obtain ⟨t, ht⟩ := hrows row hrow
      rw [Option.some.inj (hbuilt.symm.trans ht), hof] at hc
      obtain ⟨hrow, ho⟩ := List.mem_filter.mp hrow
      exact ⟨row, hrow, of_decide_eq_true ho, t, ht, (Option.some.inj hc).symm⟩
    · rintro ⟨row, hrow, ho, t, ht, rfl⟩
      exact ⟨_, (hresp _).mpr ⟨row, List.mem_filter.mpr ⟨hrow, decide_eq_true ho⟩, ht⟩, hof row t⟩

theorem Tree.unique {order : PathOrder} {row : ChapterRow} (ht : Tree db order row t) (hu : Tree db order row u) :
    rawChapter cards row t = rawChapter cards row u := by
  have hresponse := Option.some.inj (ht.symm.trans hu)
  have hmap : (t.map fun l => (ofMove cards l.2 : TrainingData Card)) = u.map fun l => ofMove cards l.2 := by
    have hof : some _ = ofNode cards t.response := (ofNode_response t).symm
    rw [(Domain.ChapterTreeResponse.mk.inj hresponse).2.2.2, ofNode_response] at hof
    exact (Option.some.inj hof)
  rw [rawChapter, rawChapter, hmap]

/-- A chapter of the response is made from the rows of a chapter. -/
theorem exists_treeOf {order : PathOrder} {owner : Domain.Text} {raws : List (RawChapter Card)} {b : RawChapter Card}
    (hkept : ∀ row ∈ db.chapters.rows, row.ownerId = owner → Kept db row.uuid)
    (h : fetch cards db order owner = some raws) (hb : b ∈ raws) :
    ∃ row t, TreeOf db row.uuid t ∧ b = rawChapter cards row t := by
  obtain ⟨raws', hraws, hmem⟩ := fetch_rows cards order fun row hrow ho =>
    let ⟨t, _, ht⟩ := (hkept row hrow ho).chapterTree order
    ⟨t, ht⟩
  obtain rfl : raws' = raws := Option.some.inj (hraws.symm.trans h)
  obtain ⟨row, hrow, ho, t, ht, rfl⟩ := (hmem b).mp hb
  obtain ⟨u, hu, hbuilt⟩ := (hkept row hrow ho).chapterTree order
  exact ⟨row, u, hu, ht.unique hbuilt⟩

theorem uuid_fetched (cards : CardCodec Card) (order : PathOrder) {owner id : Domain.Text} (h : db.chapters.has id = false)
    (hkept : ∀ row ∈ db.chapters.rows, row.ownerId = owner → Kept db row.uuid) :
    ∃ raws : List (RawChapter Card), fetch cards db order owner = some raws ∧ ∀ b ∈ raws, b.uuid ≠ Utf16.encode id := by
  obtain ⟨raws, hraws, hmem⟩ := fetch_rows cards order fun row hrow ho =>
    let ⟨t, _, ht⟩ := (hkept row hrow ho).chapterTree order
    ⟨t, ht⟩
  refine ⟨raws, hraws, fun b hb he => ?_⟩
  obtain ⟨row, hrow, -, t, -, rfl⟩ := (hmem b).mp hb
  have hhas : db.chapters.has id = true := Table.has_iff.mpr ⟨row, hrow, Utf16.encode_injective he⟩
  rw [h] at hhas
  cases hhas

/-- The chapters in the store are those of the response. -/
theorem stored_setRepertoire (s : TrainerState Card) (env : Env Card) (raw : List (RawChapter Card)) :
    (s.setRepertoire env raw).repertoire.map Chapter.stored = raw := by
  change (parseChapters env s.nextRef raw).1.map Chapter.stored = raw
  generalize s.nextRef = next
  induction raw generalizing next with
  | nil => rfl
  | cons c cs ih =>
      obtain ⟨-, -, hdata⟩ := allocate_spec next c.root
      rw [parseChapters, List.map_cons, ih, parseChapter]
      simp only [Chapter.stored, hdata]

/-! ## The new chapter -/

variable {event : Domain.ChapterEvent}

/-- The other chapters stay as they are. -/
theorem kept_createChapter {id : Domain.Text} (h : Kept db id) (hid : id ≠ event.chapterID)
    (hc : db.createChapter event = some (.ok db')) : Kept db' id := by
  obtain ⟨moves, -, hins⟩ := createChapter_ok hc
  obtain ⟨rows, -, hrows, rfl⟩ := insertChapter_ok hins
  have hold : ∀ m ∈ rows.rows, m.chapterId = id → m ∈ db.moves.rows := by
    intro m hm hmid
    rcases (Table.mem_insertAll? hrows).mp hm with hm | hm
    · exact hm
    · obtain ⟨e, -, rfl⟩ := List.mem_map.mp hm
      exact absurd hmid.symm hid
  constructor
  · intro m hm hmid hpath
    obtain ⟨parent, hp, hparent⟩ := h.closed m (hold m hm hmid) hmid hpath
    refine ⟨parent, hp, hparent.imp_right fun hhas => ?_⟩
    obtain ⟨m', hm', hkey⟩ := Table.has_iff.mp hhas
    exact Table.has_iff.mpr ⟨m', (Table.mem_insertAll? hrows).mpr (.inl hm'), hkey⟩
  · exact fun m hm hmid => h.ids m (hold m hm hmid) hmid

theorem chapters_createChapter (hc : db.createChapter event = some (.ok db')) :
    db'.chapters = db.chapters.upsert ⟨event.chapterID, event.ownerID, event.name, event.trainAs⟩ := by
  obtain ⟨moves, -, hins⟩ := createChapter_ok hc
  obtain ⟨rows, -, -, rfl⟩ := insertChapter_ok hins
  rfl

theorem tree_createChapter (order : PathOrder) (hr : Referenced db) (hk : event.root.Keyed)
    (hc : db.createChapter event = some (.ok db')) :
    ∃ u, Tree db' order ⟨event.chapterID, event.ownerID, event.name, event.trainAs⟩ u ∧ Spelling u ∧ u.label.1 = [] ∧
      u.labels.Perm (located [] event.root.untrained).labels := by
  obtain ⟨u, hbuilt, hs, hlabel, hperm, -⟩ := readChapterAsTree_createChapter hr hk hc order
  refine ⟨u, ?_, hs, by rw [hlabel, fst_label_located], hperm⟩
  rw [Tree, Db.chapterTree, buildTree, hbuilt]
  rfl

/-- With the new chapter, the owner gets one chapter more. -/
theorem fetch_created (cards : CardCodec Card) (order : PathOrder) (hr : Referenced db)
    (hkept : ∀ row ∈ db.chapters.rows, row.ownerId = event.ownerID → Kept db row.uuid) (hk : event.root.Keyed)
    (hc : db.createChapter event = some (.ok db')) :
    ∃ (raws : List (RawChapter Card)) (u : BuildNode), fetch cards db' order event.ownerID = some raws ∧ Spelling u ∧
      u.label.1 = [] ∧ u.labels.Perm (located [] event.root.untrained).labels ∧
        ∀ b : RawChapter Card, b.uuid = Utf16.encode event.chapterID →
          (b ∈ raws ↔ b = rawChapter cards ⟨event.chapterID, event.ownerID, event.name, event.trainAs⟩ u) := by
  obtain ⟨u, hu, hs, hroot, hperm⟩ := tree_createChapter order hr hk hc
  have hmem : ∀ row, row ∈ db'.chapters.rows ↔ row = ⟨event.chapterID, event.ownerID, event.name, event.trainAs⟩ ∨
      (row ∈ db.chapters.rows ∧ row.uuid ≠ event.chapterID) := by
    intro row
    rw [chapters_createChapter hc]
    exact Table.mem_upsert
  obtain ⟨raws, hraws, hraw⟩ := fetch_rows cards order
    fun row hrow ho => by
      rcases (hmem row).mp hrow with rfl | ⟨hrow, hne⟩
      · exact ⟨u, hu⟩
      · obtain ⟨t, -, ht⟩ := (kept_createChapter (hkept row hrow ho) hne hc).chapterTree order
        exact ⟨t, ht⟩
  refine ⟨raws, u, hraws, hs, hroot, hperm, fun b hb => ?_⟩
  rw [hraw]
  constructor
  · rintro ⟨row, hrow, -, t, ht, rfl⟩
    rcases (hmem row).mp hrow with rfl | ⟨-, hne⟩
    · exact ht.unique hu
    · exact absurd (Utf16.encode_injective hb) hne
  · rintro rfl
    exact ⟨_, (hmem _).mpr (.inl rfl), rfl, u, hu, rfl⟩

/-! ## The chapter that comes back -/

variable {c : Chapter Card}

/-- A chapter made from the rows of the new one is like the old one if the old one has no cards. -/
theorem alike_iff (env : Env Card) {row : ChapterRow} {d : Chapter Card} (hroot : t.label.1 = []) (hs : Spelling t)
    (hu : Spelling u) (huroot : u.label.1 = []) (hlabels : u.labels.Perm (t.labels.map untrainedEntry))
    (hr : (c.root.map Object.data).map bare = (t.map fun l => ofMove cards l.2).map bare)
    (hname : Utf16.encode row.name = c.name) (htrainAs : Utf16.encode row.trainAs = c.trainAs)
    (hd : d.stored = rawChapter cards row u) : Alike env c d ↔ ∀ e ∈ forEachNode c.root, ownCard env e = none := by
  obtain ⟨-, hdname, hdtrainAs, hdroot⟩ := RawChapter.mk.inj hd
  have hnodes : forEachNode c.root = (c.root.map Object.data).labels := (Rose.labels_map _ _).symm
  rw [hnodes, ← outline_untrained env hroot hs hu huroot hlabels hr, ← hdroot]
  constructor
  · exact fun h => h.moves
  · exact fun h => ⟨hname.symm.trans hdname.symm, htrainAs.symm.trans hdtrainAs.symm, h⟩

/-- Only one chapter of the response has the new uuid. -/
theorem restored_iff_of_stored {s : TrainerState Card} {raws : List (RawChapter Card)} {b : RawChapter Card}
    {uuid : JsString} {p : Prop} (hstored : s.repertoire.map Chapter.stored = raws) (hb : b.uuid = uuid)
    (hmem : ∀ b' : RawChapter Card, b'.uuid = uuid → (b' ∈ raws ↔ b' = b))
    (halike : ∀ d : Chapter Card, d.stored = b → (Alike env c d ↔ p)) : Restored env uuid c s ↔ p := by
  constructor
  · rintro ⟨d, hd, hdid, hdalike⟩
    have hdmem : d.stored ∈ raws := hstored ▸ List.mem_map_of_mem hd
    exact (halike d ((hmem d.stored hdid).mp hdmem)).mp hdalike
  · intro hp
    have hbmem := (hmem b hb).mpr rfl
    rw [← hstored] at hbmem
    obtain ⟨d, hd, hdstored⟩ := List.mem_map.mp hbmem
    exact ⟨d, hd, (congrArg RawChapter.uuid hdstored).trans hb, (halike d hdstored).mpr hp⟩

/-! ## Someone's own account -/

/-- The account is that of the session. -/
structure SignedIn (a : Account Card) : Prop where
  username : a.username ≠ []
  row : ∃ u ∈ a.db.users.table.rows, u.tokenId = a.userID ∧ u.username = some a.username

/-- There is room for one more chapter, and the chapter is no longer than a chapter may be. -/
structure WithinCaps (a : Account Card) (c : Chapter Card) : Prop where
  chapters : a.db.chapterCountByOwner a.userID < maxChaptersPerUser * a.db.ownerLimitMultiplier a.userID
  moves : (forEachNode c.root).length ≤ maxMovesPerChapter * a.db.ownerLimitMultiplier a.userID + 1

variable {bodyBytes : RawChapter Card → Nat} {a : Account Card} {id : Domain.Text} {uuid : JsString}

theorem SignedIn.has (h : SignedIn a) : a.db.users.table.has a.userID = true := by
  obtain ⟨u, hu, hid, -⟩ := h.row
  exact Table.has_iff.mpr ⟨u, hu, hid⟩

/-- The owner that a request names is the one who sends it. -/
theorem SignedIn.own (h : SignedIn a) : ∃ owner, a.db.fetchUserByUsername a.username = some owner ∧ owner.tokenID = a.userID := by
  obtain ⟨u, hu, hid, hname⟩ := h.row
  exact ⟨u.user, Db.fetchUserByUsername_of_mem hu hname, hid⟩

theorem SignedIn.postChapter_long (cards : CardCodec Card) (h : SignedIn a) (hlong : ¬bodyBytes c.stored ≤ maxChapterBody) :
    a.postChapter cards bodyBytes c = a.db := by
  obtain ⟨owner, howner, hid⟩ := h.own
  have hperm : Domain.canEdit (a.db.effectivePermissionOnRepertoire owner.tokenID a.userID) = true := Db.canEdit_iff.mpr (.inl hid)
  rw [Account.postChapter, if_neg h.username, Api.servePost, Api.postChapter]
  simp [Api.ChapterRequest.resolveOwner, h.username, howner, hperm, hlong, Faults.none]

theorem SignedIn.postChapter_created (h : SignedIn a) (hshort : bodyBytes c.stored ≤ maxChapterBody)
    (hc : a.db.createChapter { chapterEvent cards c.stored with ownerID := a.userID } = some (.ok db')) :
    a.postChapter cards bodyBytes c = db' := by
  obtain ⟨owner, howner, hid⟩ := h.own
  have hperm : Domain.canEdit (a.db.effectivePermissionOnRepertoire owner.tokenID a.userID) = true := Db.canEdit_iff.mpr (.inl hid)
  rw [← hid] at hc
  rw [Account.postChapter, if_neg h.username, Api.servePost, Api.postChapter]
  simp [Api.ChapterRequest.resolveOwner, h.username, howner, hperm, hshort, hc, Api.created, Faults.none]

theorem stored_chapterFromImport (c : Chapter Card) (uuid : JsString) (next : Nat) :
    (chapterFromImport next uuid (exportChapter c)).1.stored = { c.stored with uuid } := by
  obtain ⟨-, -, hdata⟩ := allocate_spec next (c.root.map Object.data)
  simp only [Chapter.stored, chapterFromImport, exportChapter, hdata]

/-- After the backup, the store has what the server has. -/
theorem stored_restore (env : Env Card) {order : PathOrder} {raws : List (RawChapter Card)}
    (h : fetch cards (a.postChapter cards bodyBytes (chapterFromImport a.store.nextRef uuid (exportChapter c)).1) order
      a.userID = some raws) :
    (a.restore cards bodyBytes env order uuid c).store.repertoire.map Chapter.stored = raws := by
  have hstore : (a.restore cards bodyBytes env order uuid c).store =
      (a.importChapter cards bodyBytes uuid (exportChapter c)).store.setRepertoire env raws := by
    simp only [Account.restore, Account.importBackup, repertoireAsJson, List.map_cons, List.map_nil, List.zip_cons_cons,
      List.zip_nil_right, List.foldl_cons, List.foldl_nil, Account.reload, Account.importChapter, h,
      TrainerState.fetchRepertoire]
  rw [hstore]
  exact stored_setRepertoire _ env raws

end Chessrepeat.Room
