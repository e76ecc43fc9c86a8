import Chessrepeat.Client.Lemmas.Chapters
import Chessrepeat.Client.Shelf

/-!
# The selected chapter is on the shelf
-/

namespace Chessrepeat.Client

open Lib TrainerState

variable {Card : Type} {s s' : TrainerState Card}

/-! ## Selecting -/

/-- A chapter is selected if there is one, and then one that there is. -/
structure Selected (s : TrainerState Card) : Prop where
  none_iff : s.selectedChapterId = none ↔ s.repertoire = []
  mem : ∀ id, s.selectedChapterId = some id → id ∈ s.uuids

theorem Selected.of_head (h : s.selectedChapterId = s.repertoire.head?.map Chapter.uuid) : Selected s := by
  constructor
  · rw [h, Option.map_eq_none_iff, List.head?_eq_none_iff]
  · intro id hid
    rw [h] at hid
    obtain ⟨c, hc, rfl⟩ := Option.map_eq_some_iff.mp hid
    exact mem_uuids_of_mem (List.mem_of_mem_head? hc)

theorem Selected.of_mem {id : JsString} (h : s.selectedChapterId = some id) (hid : id ∈ s.uuids) : Selected s := by
  constructor
  · refine iff_of_false (by rw [h]; exact Option.some_ne_none id) fun hnil => ?_
    rw [uuids, hnil] at hid
    cases hid
  · intro id' h'
    rw [h] at h'
    exact Option.some.inj h' ▸ hid

theorem selected_install (store : TrainerState Card) (repertoire : List (Chapter Card)) :
    Selected (Shelf.install store repertoire) := by
  by_cases hany : repertoire.any (fun c => some c.uuid = store.selectedChapterId)
  · obtain ⟨c, hc, hsel⟩ := List.any_eq_true.mp hany
    refine @Selected.of_mem Card _ c.uuid ?_ (List.mem_map_of_mem hc)
    rw [Shelf.install, if_pos hany]
    exact (of_decide_eq_true hsel).symm
  · exact Selected.of_head (by rw [Shelf.install, if_neg hany])

theorem Selected.addNewChapterLocally (h : Selected s) (chapter : Chapter Card) : Selected (s.addNewChapterLocally chapter) := by
  have hperm := (addNewChapterLocally_perm s chapter).map Chapter.uuid
  cases hsel : s.selectedChapterId with
  | none =>
      refine @Selected.of_mem Card _ chapter.uuid ?_ (hperm.mem_iff.mpr List.mem_cons_self)
      rw [TrainerState.addNewChapterLocally, hsel]
      rfl
  | some id =>
      refine @Selected.of_mem Card _ id ?_ (hperm.mem_iff.mpr (List.mem_cons_of_mem _ (h.mem id hsel)))
      rw [TrainerState.addNewChapterLocally, hsel]
      rfl

/-! ## Deleting -/

/-- The chapter is gone, and the others are left in their order. What is on the board stays, unless it was of the chapter. -/
structure Deletes (id : JsString) (s s' : TrainerState Card) : Prop where
  repertoire : s'.repertoire = s.repertoire.filter fun c => c.uuid ≠ id
  view : s.selectedChapterId ≠ some id → s'.selectedChapterId = s.selectedChapterId ∧ s'.selectedPath = s.selectedPath ∧
    s'.selectedNode = s.selectedNode ∧ s'.trainableContext = s.trainableContext

theorem deleteChapterRemote_eq (s : TrainerState Card) (id : JsString) : s.deleteChapterRemote id =
    match s.repertoire.findIdx? fun c => c.uuid = id with
    | none => s
    | some idx => s.removeChapter id idx := by
  rw [deleteChapterRemote]
  cases s.repertoire.findIdx? fun c => c.uuid = id with
  | none => rfl
  | some idx => rfl

theorem Deletes.refl {id : JsString} (h : (s.repertoire.findIdx? fun c => c.uuid = id) = none) : Deletes id s s := by
  refine { repertoire := (List.filter_eq_self.mpr fun c hc => ?_).symm, view := fun _ => ⟨rfl, rfl, rfl, rfl⟩ }
  have hne := List.findIdx?_eq_none_iff.mp h c hc
  simpa using hne

theorem filter_uuid_ne {id : JsString} {cs : List (Chapter Card)} (h : id ∉ cs.map Chapter.uuid) :
    (cs.filter fun c => c.uuid ≠ id) = cs :=
  List.filter_eq_self.mpr fun _ hc => decide_eq_true fun he => h (he ▸ List.mem_map_of_mem hc)

theorem Deletes.removeChapter {id : JsString} {idx : Nat} (hd : s.uuids.Nodup)
    (h : (s.repertoire.findIdx? fun c => c.uuid = id) = some idx) : Deletes id s (s.removeChapter id idx) := by
  obtain ⟨as, c, bs, hrep, rfl, hnew, -⟩ := removeChapter_spec h
  constructor
  · rw [uuids, hrep, List.map_append, List.map_cons, List.nodup_middle, List.nodup_cons, List.mem_append, not_or] at hd
    rw [hnew, hrep, List.filter_append, List.filter_cons_of_neg (by simp), filter_uuid_ne hd.1.1, filter_uuid_ne hd.1.2]
  · intro hne
    rw [TrainerState.removeChapter, if_neg hne]
    exact ⟨rfl, rfl, rfl, rfl⟩

/-- The place of the deleted chapter, or the end, is a place of what is left. -/
theorem Selected.removeChapter {id : JsString} {idx : Nat} (hs : Selected s)
    (h : (s.repertoire.findIdx? fun c => c.uuid = id) = some idx) : Selected (s.removeChapter id idx) := by
  by_cases hsel : s.selectedChapterId = some id
  · rw [TrainerState.removeChapter, if_pos hsel]
    cases hnext : s.repertoire.eraseIdx idx with
    | nil => exact Selected.of_head rfl
    | cons c cs =>
        have hlt : min idx ((c :: cs).length - 1) < (c :: cs).length := by
          rw [List.length_cons]; omega
        refine @Selected.of_mem Card _ (c :: cs)[min idx ((c :: cs).length - 1)].uuid ?_
          (mem_uuids_of_mem (List.getElem_mem hlt))
        exact congrArg (Option.map Chapter.uuid) (List.getElem?_eq_getElem hlt)
  · obtain ⟨as, c, bs, hrep, rfl, hnew, -⟩ := removeChapter_spec h
    have hkept : (s.removeChapter c.uuid idx).selectedChapterId = s.selectedChapterId := by
      rw [TrainerState.removeChapter, if_neg hsel]
    cases hid : s.selectedChapterId with
    | none =>
        have hnil := hs.none_iff.mp hid
        rw [hrep] at hnil
        exact absurd hnil (by simp)
    | some id =>
        refine Selected.of_mem (hkept.trans hid) ?_
        have hmem := hs.mem id hid
        have hne : id ≠ c.uuid := fun he => hsel (he ▸ hid)
        rw [uuids, hrep, List.map_append, List.map_cons, List.mem_append, List.mem_cons] at hmem
        rw [uuids, hnew, List.map_append, List.mem_append]
        exact hmem.imp_right fun hm => hm.resolve_left hne

/-! ## IndexedDB -/

/-- No id is listed twice, and every chapter is stored under its uuid. -/
structure Stored (db : Idb (Chapter Card)) : Prop where
  ids : db.readChapterIds.Nodup
  keyed : ∀ id c, db.readChapter id = some c → c.uuid = id

theorem Stored.empty : Stored (Idb.empty : Idb (Chapter Card)) where
  ids := List.nodup_nil
  keyed _ _ h := nomatch h

theorem Stored.writeChapterIds {db : Idb (Chapter Card)} (h : Stored db) {ids : List JsString} (hids : ids.Nodup) :
    Stored (db.writeChapterIds ids) where
  ids := hids
  keyed := h.keyed

theorem Stored.writeChapter {db : Idb (Chapter Card)} (h : Stored db) (c : Chapter Card) :
    Stored (db.writeChapter c.uuid c) where
  ids := h.ids
  keyed id d hd := by
    rw [Idb.readChapter_writeChapter] at hd
    split at hd
    · rename_i he
      cases hd
      exact he.symm
    · exact h.keyed id d hd

theorem Stored.deleteChapterIDB {db : Idb (Chapter Card)} (h : Stored db) (cid : JsString) :
    Stored (db.deleteChapterIDB cid) where
  ids := h.ids
  keyed id d hd := by
    rw [Idb.readChapter_deleteChapterIDB] at hd
    split at hd
    · cases hd
    · exact h.keyed id d hd

/-- The call keeps no chapter and no id twice. -/
def ShelfCall.Distinct : ShelfCall Card → Prop
  | .persistAll repertoire ids => (ids ++ repertoire.map Chapter.uuid).Nodup
  | .delete _ ids | .writeIds ids => ids.Nodup
  | .hydrating ids chapters => (chapters.map Chapter.uuid ++ ids).Nodup
  | .add _ | .added _ | .hydrate | .seed => True

/-- What is set has distinct uuids, what is added is new and has a color, and what is selected is there. -/
def Shelf.Allowed (s : Shelf Card) (a : Bool × ShelfAction Card) : Prop :=
  match a.2 with
  | .setRepertoire repertoire => (repertoire.map Chapter.uuid).Nodup
  | .addNewChapterLocally chapter => chapter.uuid ∉ s.store.uuids ∧ (chapter.trainAs = white ∨ chapter.trainAs = black)
  | .setSelectedChapterId id => id ∈ s.store.uuids
  | .resume _ exampleChapter => ∀ chapter ∈ exampleChapter, chapter.uuid ∉ s.store.uuids ∧ chapter.trainAs = white
  | .deleteChapterAt _ | .deleteChapterRemote _ | .hydrateRepertoireFromIDB => True

/-! ## The invariant -/

structure Orderly (s : Shelf Card) : Prop where
  selected : Selected s.store
  distinct : s.store.uuids.Nodup
  stored : Stored s.idb
  calls : ∀ c ∈ s.calls, c.Distinct

namespace Orderly

variable {shelf : Shelf Card} {store : TrainerState Card} {db : Idb (Chapter Card)} {c : ShelfCall Card}

theorem setStore (h : Orderly shelf) (hs : Selected store) (hd : store.uuids.Nodup) : Orderly (shelf.setStore store) :=
  { h with selected := hs, distinct := hd }

theorem setIdb (h : Orderly shelf) (hdb : Stored db) : Orderly { shelf with idb := db } := { h with stored := hdb }

theorem call (h : Orderly shelf) (hc : c.Distinct) : Orderly (shelf.call c) where
  selected := h.selected
  distinct := h.distinct
  stored := h.stored
  calls c' hc' := by
    rcases List.mem_append.mp hc' with hc' | hc'
    · exact h.calls c' hc'
    · rwa [List.mem_singleton.mp hc']

theorem callUnless (h : Orderly shelf) (isAuthenticated : Bool) (hc : c.Distinct) :
    Orderly (shelf.callUnless isAuthenticated c) := by
  rw [Shelf.callUnless]
  split
  · exact h
  · exact h.call hc

theorem dropCall (h : Orderly shelf) (k : Nat) : Orderly { shelf with calls := shelf.calls.eraseIdx k } :=
  { h with calls := fun c hc => h.calls c (List.mem_of_mem_eraseIdx hc) }

theorem setRepertoire (h : Orderly shelf) (isAuthenticated : Bool) {repertoire : List (Chapter Card)}
    (hd : (repertoire.map Chapter.uuid).Nodup) : Orderly (shelf.setRepertoire isAuthenticated repertoire) :=
  (h.setStore (selected_install shelf.store repertoire) hd).callUnless isAuthenticated hd

theorem addNewChapterLocally (h : Orderly shelf) (isAuthenticated : Bool) {chapter : Chapter Card}
    (hnew : chapter.uuid ∉ shelf.store.uuids) : Orderly (shelf.addNewChapterLocally isAuthenticated chapter) := by
  have hperm := (addNewChapterLocally_perm shelf.store chapter).map Chapter.uuid
  exact (h.setStore (h.selected.addNewChapterLocally chapter)
    (hperm.nodup_iff.mpr (List.nodup_cons.mpr ⟨hnew, h.distinct⟩))).callUnless isAuthenticated trivial

theorem removeChapter (h : Orderly shelf) {id : JsString} {idx : Nat}
    (hidx : (shelf.store.repertoire.findIdx? fun c => c.uuid = id) = some idx) :
    (shelf.store.removeChapter id idx).uuids.Nodup := by
  rw [uuids, (Deletes.removeChapter h.distinct hidx).repertoire]
  exact (List.filter_sublist.map Chapter.uuid).nodup h.distinct

theorem deleteChapterAt (h : Orderly shelf) (isAuthenticated : Bool) (id : JsString) :
    Orderly (shelf.deleteChapterAt isAuthenticated id) := by
  rw [Shelf.deleteChapterAt]
  split
  · exact h
  · rename_i idx hidx
    exact (h.setStore (h.selected.removeChapter hidx) (h.removeChapter hidx)).callUnless isAuthenticated (h.removeChapter hidx)

theorem deleteChapterRemote (h : Orderly shelf) (id : JsString) :
    Orderly (shelf.setStore (shelf.store.deleteChapterRemote id)) := by
  rw [deleteChapterRemote_eq]
  split
  · exact h
  · rename_i idx hidx
    exact h.setStore (h.selected.removeChapter hidx) (h.removeChapter hidx)

/-- What was read is set in another order, and the first chapter selected. -/
theorem hydrated (h : Orderly shelf) (localeCompare : JsString → JsString → Int) {chapters : List (Chapter Card)}
    (hd : (chapters.map Chapter.uuid).Nodup) : Orderly (shelf.setStore (Shelf.hydrated localeCompare shelf.store chapters)) := by
  have hperm : (sortChapters localeCompare chapters).Perm chapters := List.perm_insertionSort _ _
  exact h.setStore (Selected.of_head rfl) ((hperm.map Chapter.uuid).nodup_iff.mpr hd)

/-- A chapter that is read has the id under which it was looked up. -/
theorem nodup_read (h : Orderly shelf) {id : JsString} {ids : List JsString} {chapters : List (Chapter Card)}
    (hd : (chapters.map Chapter.uuid ++ id :: ids).Nodup) :
    ((chapters ++ (shelf.idb.readChapter id).toList).map Chapter.uuid ++ ids).Nodup := by
  have hread : ((shelf.idb.readChapter id).toList.map Chapter.uuid).Sublist [id] := by
    cases hc : shelf.idb.readChapter id with
    | none => exact List.nil_sublist _
    | some c => exact h.stored.keyed id c hc ▸ List.Sublist.refl _
  rw [List.map_append, List.append_assoc]
  exact ((List.Sublist.refl _).append (hread.append (List.Sublist.refl ids))).nodup hd

theorem go (h : Orderly shelf) (localeCompare : JsString → JsString → Int) (isAuthenticated : Bool)
    {exampleChapter : Option (Chapter Card)} (hex : ∀ chapter ∈ exampleChapter, chapter.uuid ∉ shelf.store.uuids)
    (hc : c.Distinct) : Orderly (shelf.go localeCompare isAuthenticated exampleChapter c) := by
  cases c with
  | persistAll repertoire ids =>
      cases repertoire with
      | nil => exact h.setIdb (h.stored.writeChapterIds (List.append_nil ids ▸ hc))
      | cons ch rest =>
          refine (h.setIdb (h.stored.writeChapter ch)).call ?_
          rwa [ShelfCall.Distinct, List.append_assoc, List.singleton_append]
  | add chapter => exact (h.setIdb (h.stored.writeChapter chapter)).call trivial
  | added cid =>
      rw [Shelf.go]
      split
      · exact h
      · rename_i hnew
        exact h.call (List.nodup_append.mpr ⟨h.stored.ids, List.nodup_singleton cid, fun a ha b hb he =>
          hnew (List.mem_singleton.mp hb ▸ he ▸ ha)⟩)
  | delete cid ids => exact (h.setIdb (h.stored.deleteChapterIDB cid)).call hc
  | writeIds ids => exact h.setIdb (h.stored.writeChapterIds hc)
  | hydrate =>
      rw [Shelf.go]
      split
      · exact h.call trivial
      · exact h.call h.stored.ids
  | seed =>
      cases exampleChapter with
      | none => exact h
      | some chapter => exact h.addNewChapterLocally isAuthenticated (hex chapter rfl)
  | hydrating ids chapters =>
      cases ids with
      | nil => exact h.hydrated localeCompare (List.append_nil (chapters.map Chapter.uuid) ▸ hc)
      | cons id ids => exact h.call (h.nodup_read hc)

theorem step (h : Orderly shelf) (localeCompare : JsString → JsString → Int) {a : Bool × ShelfAction Card}
    (ha : shelf.Allowed a) : Orderly (shelf.step localeCompare a) := by
  obtain ⟨isAuthenticated, action⟩ := a
  cases action with
  | setRepertoire repertoire => exact h.setRepertoire isAuthenticated ha
  | addNewChapterLocally chapter => exact h.addNewChapterLocally isAuthenticated ha.1
  | setSelectedChapterId id => exact h.setStore (Selected.of_mem rfl ha) h.distinct
  | deleteChapterAt chapterId => exact h.deleteChapterAt isAuthenticated chapterId
  | deleteChapterRemote chapterId => exact h.deleteChapterRemote chapterId
  | hydrateRepertoireFromIDB =>
      change Orderly shelf.hydrateRepertoireFromIDB
      rw [Shelf.hydrateRepertoireFromIDB]
      split
      · exact h.call trivial
      · exact h
  | resume k exampleChapter =>
      rw [Shelf.step]
      dsimp only
      cases hk : shelf.calls[k]? with
      | none => exact h
      | some c =>
          exact (h.dropCall k).go localeCompare isAuthenticated (fun chapter hex => (ha chapter hex).1)
            (h.calls c (List.mem_of_getElem? hk))

/-- Both ways to delete. -/
theorem deletes (h : Orderly shelf) (localeCompare : JsString → JsString → Int) (isAuthenticated : Bool) (id : JsString) :
    Deletes id shelf.store (shelf.step localeCompare (isAuthenticated, .deleteChapterAt id)).store ∧
      Deletes id shelf.store (shelf.step localeCompare (isAuthenticated, .deleteChapterRemote id)).store := by
  have hremote := deleteChapterRemote_eq shelf.store id
  change Deletes id shelf.store (shelf.deleteChapterAt isAuthenticated id).store ∧
    Deletes id shelf.store (shelf.store.deleteChapterRemote id)
  rw [Shelf.deleteChapterAt, hremote]
  cases hidx : shelf.store.repertoire.findIdx? fun c => c.uuid = id with
  | none => exact ⟨Deletes.refl hidx, Deletes.refl hidx⟩
  | some idx =>
      have hdeletes := Deletes.removeChapter h.distinct hidx
      refine ⟨?_, hdeletes⟩
      dsimp only
      rw [Shelf.callUnless]
      split
      · exact hdeletes
      · exact hdeletes

end Orderly

end Chessrepeat.Client
