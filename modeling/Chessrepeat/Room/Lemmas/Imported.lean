import Chessrepeat.Client.Lemmas.Pgn
import Chessrepeat.Room.Lemmas.Mirror
import Chessrepeat.Room.Lemmas.NewChapter

/-!
# A chapter that is posted and fetched back
-/

namespace Chessrepeat.Room

open Lib Client Store

variable {Card : Type} {cards : CardCodec Card} {env : Env Card} {c : Chapter Card} {raws : List (RawChapter Card)}

/-- The chapter, whose uuid is new, is posted and then fetched by the one who has posted it. -/
def Refetched (cards : CardCodec Card) (c : Chapter Card) (raws : List (RawChapter Card)) : Prop :=
  ∃ (faults : Faults) (db db' : Db) (order : PathOrder) (userID owner : Domain.Text) (r : Api.Response),
    Referenced db ∧ db.chapters.has (Utf16.decode c.uuid) = false ∧
      Api.postChapter faults db ⟨userID, owner, some (chapterEvent cards c.stored)⟩ = some (db', r) ∧
        getRepertoire cards db' order userID owner = some raws

/-- Lookups by path reach every node, and the counts are those of the chapter that is fetched back. -/
structure Addressable (cards : CardCodec Card) (c : Chapter Card) : Prop where
  distinct : DistinctIds c.root
  reached : ∀ n ∈ c.root.nodes, ∃! p, nodeAtPathOrNull c.root p = some n
  counts : ∀ raws, Refetched cards c raws → ∀ (env : Env Card) (next : Nat), ∀ d ∈ (parseChapters env next raws).1,
    d.uuid = c.uuid → d.enabledCount = c.enabledCount ∧ d.unseenCount = c.unseenCount

/-- What comes back of a move. -/
def returned (cards : CardCodec Card) (d : TrainingData Card) : TrainingData Card :=
  ofMove cards { toMove cards d with training := none }

/-! ## The rows -/

mutual
theorem labels_located_toNode (cards : CardCodec Card) : (pre : Domain.Text) → (t : Rose (TrainingData Card)) →
    (located pre (toNode cards t)).labels.map Prod.snd = t.labels.map (toMove cards)
  | pre, .node d cs => by
      rw [toNode, located, Rose.labels_node, Rose.labels_node, List.map_cons, List.map_cons,
        labels_locatedList_toNodes cards pre cs]

theorem labels_locatedList_toNodes (cards : CardCodec Card) : (pre : Domain.Text) → (cs : List (Rose (TrainingData Card))) →
    (Rose.labelsList (locatedList pre (toNodes cards cs))).map Prod.snd = (Rose.labelsList cs).map (toMove cards)
  | _, [] => rfl
  | pre, c :: cs => by
      rw [toNodes, locatedList, Rose.labelsList_cons, Rose.labelsList_cons, List.map_append, List.map_append,
        labels_located_toNode cards _ c, labels_locatedList_toNodes cards pre cs]
end

/-- The database after the request has the chapter only if the request has created it. -/
theorem created_of_mem {faults : Faults} {db db' : Db} {req : Api.ChapterRequest} {r : Api.Response} {event : Domain.ChapterEvent}
    {row : ChapterRow} (hpost : Api.postChapter faults db req = some (db', r)) (hevent : req.body = some event)
    (hnew : db.chapters.has event.chapterID = false) (hrow : row ∈ db'.chapters.rows) (hid : row.uuid = event.chapterID) :
    ∃ ownerID, db.createChapter { event with ownerID := ownerID } = some (.ok db') ∧
      row = ⟨event.chapterID, ownerID, event.name, event.trainAs⟩ := by
  have hold : row ∉ db.chapters.rows := by
    intro hmem
    rw [Table.has_iff.mpr ⟨row, hmem, hid⟩] at hnew
    cases hnew
  have hsame : db' ≠ db := by
    rintro rfl
    exact hold hrow
  rcases postChapter_cases faults db req with ⟨owner, event', hadm⟩ | ⟨status, hrefused, -⟩
  · obtain rfl : event' = event := Option.some.inj (hadm.body.symm.trans hevent)
    rw [hadm.postChapter] at hpost
    obtain ⟨out, hout, hcreated⟩ := Option.map_eq_some_iff.mp hpost
    have hok : out = .ok db' := by
      cases out with
      | ok db₁ =>
          rw [Api.created] at hcreated
          split at hcreated
          · exact absurd (congrArg Prod.fst hcreated).symm hsame
          · exact congrArg Except.ok (congrArg Prod.fst hcreated)
      | error e => cases e <;> exact absurd (congrArg Prod.fst hcreated).symm hsame
    rw [hok] at hout
    refine ⟨owner.tokenID, hout, ?_⟩
    rw [chapters_createChapter hout] at hrow
    rcases Table.mem_upsert.mp hrow with hrow | ⟨hrow, -⟩
    · exact hrow
    · exact absurd hrow hold
  · rw [hrefused] at hpost
    exact absurd (congrArg Prod.fst (Option.some.inj hpost)).symm hsame

/-- The moves come back without their cards. -/
theorem Refetched.labels (h : Refetched cards c raws) (hkeyed : (toNode cards (c.root.map Object.data)).Keyed)
    {b : RawChapter Card} (hb : b ∈ raws) (hid : b.uuid = c.uuid) :
    b.root.labels.Perm ((forEachNode c.root).map (returned cards)) := by
  obtain ⟨faults, db, db', order, userID, owner, r, hr, hnew, hpost, hget⟩ := h
  unfold getRepertoire at hget
  split at hget
  · cases hget
  · rename_i user huser
    split at hget
    · obtain ⟨row, hrow, -, huuid, resp, hread, hof⟩ := mem_fetch hget hb
      have hrowid : row.uuid = Utf16.decode c.uuid := by
        rw [← hid, huuid, Utf16.decode_encode]
      obtain ⟨ownerID, hcreate, rfl⟩ := created_of_mem hpost rfl hnew hrow hrowid
      obtain ⟨u, hu, -, -, hperm⟩ := tree_createChapter order hr hkeyed hcreate
      obtain rfl := Option.some.inj (hu.symm.trans hread)
      rw [ofResponse, ofNode_response] at hof
      obtain rfl := Option.some.inj hof
      rw [Rose.labels_map]
      have hback : (located [] (toNode cards (c.root.map Object.data)).untrained).labels.map
          (fun l => (ofMove cards l.2 : TrainingData Card)) = (forEachNode c.root).map (returned cards) := by
        have hlabels := congrArg (List.map fun d => (ofMove cards { d with training := none } : TrainingData Card))
          (labels_located_toNode cards [] (c.root.map Object.data))
        rw [located_untrained hkeyed, Rose.labels_map, List.map_map, forEachNode, ← Rose.labels_map Object.data]
        rw [List.map_map, List.map_map] at hlabels
        exact hlabels
      rw [← hback]
      exact hperm.map _
    · cases hget

/-- All moves that come back are unseen. -/
theorem Refetched.counts (h : Refetched cards c raws) (hkeyed : (toNode cards (c.root.map Object.data)).Keyed)
    {next : Nat} {d : Chapter Card} (hd : d ∈ (parseChapters env next raws).1) (hid : d.uuid = c.uuid) :
    d.enabledCount = countEnabled c.root ∧ d.unseenCount = countEnabled c.root := by
  obtain ⟨b, hb, hbid, hroot⟩ := parseChapters_mem hd
  have hperm : (forEachNode d.root).Perm ((forEachNode c.root).map (returned cards)) := by
    rw [forEachNode, ← Rose.labels_map, hroot]
    exact h.labels hkeyed hb (hbid.trans hid)
  obtain ⟨henabled, hunseen⟩ := parseChapters_counts env next raws d hd
  constructor
  · rw [henabled, countEnabled, hperm.countP_eq, List.countP_map]
    rfl
  · rw [hunseen, countUnseen, hperm.countP_eq, List.countP_map, countEnabled]
    congr 1
    refine List.countP_congr fun e _ => ?_
    have hnone : userCard env (returned cards e) = none := by
      simp [userCard_eq_none, ownCard, returned, ofMove]
    rw [Function.comp_apply, hnone, Option.isNone_none, Bool.and_true]
    rfl

end Chessrepeat.Room
