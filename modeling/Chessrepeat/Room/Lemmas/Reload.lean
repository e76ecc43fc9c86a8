import Chessrepeat.Client.Lemmas.Edits
import Chessrepeat.Room.System
import Chessrepeat.Store.Lemmas.Rebuild

/-!
# What a client holds after a reload
-/

namespace Chessrepeat.Room

open Lib Client Store

variable {Card : Type} {cards : CardCodec Card} {db : Db} {c : Domain.Text} {t : BuildNode}

/-! ## Responses -/

mutual
/-- No child of a tree that the server has built is `null`. -/
theorem ofNode_response : (t : BuildNode) → ofNode cards t.response = some (t.map fun l => ofMove cards l.2)
  | .node label children => by
      rw [BuildNode.response, ofNode, ofNodes_responseList children]
      rfl

theorem ofNodes_responseList : (ts : List BuildNode) →
    ofNodes cards (BuildNode.responseList ts) = some (Rose.mapList (fun l => ofMove cards l.2) ts)
  | [] => rfl
  | t :: ts => by
      rw [BuildNode.responseList, ofNodes, ofNode_response t, ofNodes_responseList ts]
      rfl
end

/-- What is found in a list is found in its image, when all goes well. -/
theorem mapM_find? {α β : Type} {f : α → Option β} {p : α → Bool} {q : β → Bool} {good : β → Prop} {xs : List α}
    (h : ∀ a ∈ xs, ∃ b, f a = some b ∧ q b = p a ∧ good b) :
    ∃ ys, xs.mapM f = some ys ∧ (∀ b ∈ ys, good b) ∧ ys.find? q = (xs.find? p).bind f := by
  induction xs with
  | nil => exact ⟨[], rfl, nofun, rfl⟩
  | cons a xs ih =>
      obtain ⟨b, hb, hq, hgood⟩ := h a List.mem_cons_self
      obtain ⟨ys, hys, hall, hfind⟩ := ih fun a' ha' => h a' (List.mem_cons_of_mem _ ha')
      refine ⟨b :: ys, ?_, ?_, ?_⟩
      · rw [List.mapM_cons, hb, hys]
        rfl
      · intro b' hb'
        rcases List.mem_cons.mp hb' with rfl | hb'
        · exact hgood
        · exact hall b' hb'
      · cases hp : p a with
        | true => rw [List.find?_cons_of_pos hp, List.find?_cons_of_pos (hq.trans hp), Option.bind_some, hb]
        | false =>
            have hp' : ¬p a = true := by simp [hp]
            have hq' : ¬q b = true := by simp [hq, hp]
            rw [List.find?_cons_of_neg hp', List.find?_cons_of_neg hq', hfind]

/-! ## Trees -/

theorem treeOf_below (h : TreeOf db c t) :
    Rose.Below (fun l : Domain.Text × Domain.TrainingData => l.2.id.length = 2 ∧ Utf16.Plain (Utf16.encode l.2.id)) t := by
  intro l hl
  have hnodup := h.nodup
  rw [← Rose.eta t, Rose.labels_node, List.map_cons, List.nodup_cons, h.root] at hnodup
  refine h.ids l ?_ fun hl0 => hnodup.1 (List.mem_map.mpr ⟨l, hl, hl0⟩)
  rw [← Rose.eta t, Rose.labels_node]
  exact List.mem_cons_of_mem _ hl

theorem length_encode {i : Domain.Text} (h : Utf16.Plain (Utf16.encode i)) : (Utf16.encode i).length = i.length := by
  rw [← h.length_decode, Utf16.decode_encode]

theorem treeOf_twoUnits (h : TreeOf db c t) :
    Rose.Below (fun d : TrainingData Card => d.id.length = 2) (t.map fun l => ofMove cards l.2) := by
  rw [Rose.below_map]
  intro l hl
  obtain ⟨hlen, hplain⟩ := treeOf_below h l hl
  exact (length_encode hplain).trans hlen

/-- The ids that a client reads spell the paths that it reads. -/
theorem spelled_encode (cards : CardCodec Card)
    (h : Rose.Spelled (fun l : Domain.Text × Domain.TrainingData => l.2.id) Prod.fst t) :
    Rose.Spelled (TrainingData.id ∘ fun l : Domain.Text × Domain.TrainingData => ofMove cards l.2)
      (fun l => Utf16.encode l.1) t := by
  intro n hn d hd
  have hd' : d.label.1 = n.label.1 ++ d.label.2.id := h n hn d hd
  change Utf16.encode d.label.1 = Utf16.encode n.label.1 ++ Utf16.encode d.label.2.id
  rw [hd', Utf16.encode_append]

/-- The objects made from the tree of a chapter lie at the paths of its rows. -/
theorem treeOf_paths (h : TreeOf db c t) {root : TrainableNode Card}
    (hroot : root.map Object.data = t.map fun l => ofMove cards l.2) :
    PlainIds root ∧ DistinctIds root ∧ paths root = t.labels.map fun l => Utf16.encode l.1 := by
  have hid : (Object.id : Object Card → JsString) = TrainingData.id ∘ Object.data := rfl
  have hspelled := spelled_encode cards h.spelled
  have hnodup : (t.labels.map fun l => Utf16.encode l.1).Nodup := by
    have := h.nodup.map (fun _ _ he => Utf16.encode_injective he)
    rwa [List.map_map] at this
  refine ⟨?_, ?_, ?_⟩
  · have hplain : Rose.Below (fun d : TrainingData Card => Utf16.Plain d.id) (root.map Object.data) := by
      rw [hroot, Rose.below_map]
      exact fun l hl => (treeOf_below h l hl).2
    rw [Rose.below_map] at hplain
    exact hplain
  · have hdist : Rose.Distinct (@TrainingData.id Card) (root.map Object.data) := by
      rw [hroot, Rose.distinct_map]
      exact hspelled.distinct hnodup
    exact Rose.distinct_map.mp hdist
  · have haddr : Rose.addresses Object.id root =
        Rose.addresses (TrainingData.id ∘ fun l : Domain.Text × Domain.TrainingData => ofMove cards l.2) t := by
      rw [hid, ← Rose.addresses_map, hroot, Rose.addresses_map]
    rw [paths, haddr, ← hspelled.map_addresses, h.root]
    rfl

/-! ## The request -/

theorem find?_filter_owner {owner : Domain.Text} {row : ChapterRow} (hrow : db.chapters.find? c = some row)
    (howner : row.ownerId = owner) :
    ((db.chapters.rows.filter fun r => r.ownerId = owner).find? fun r => r.uuid = c) = some row := by
  obtain ⟨hmem, huuid⟩ := Table.find?_eq_some.mp hrow
  cases hf : (db.chapters.rows.filter fun r => r.ownerId = owner).find? fun r => r.uuid = c with
  | none =>
      have := List.find?_eq_none.mp hf row (List.mem_filter.mpr ⟨hmem, decide_eq_true howner⟩)
      simp [huuid] at this
  | some row' =>
      have hmem' := (List.mem_filter.mp (List.mem_of_find?_eq_some hf)).1
      have huuid' : row'.uuid = c := by simpa using List.find?_some hf
      rw [List.inj_on_of_nodup_map db.chapters.nodup hmem' hmem (huuid'.trans huuid.symm)]

/-- A request is answered with all chapters of the owner. -/
theorem fetch_kept (cards : CardCodec Card) (order : PathOrder) {owner : Domain.Text} {row : ChapterRow}
    (hkept : ∀ row ∈ db.chapters.rows, row.ownerId = owner → Kept db row.uuid) (hrow : db.chapters.find? c = some row)
    (howner : row.ownerId = owner) :
    ∃ raw chapter t, fetch cards db order owner = some raw ∧ RawTwoUnits raw ∧
      (raw.find? fun d => d.uuid = Utf16.encode c) = some chapter ∧ TreeOf db c t ∧
        chapter.root = t.map fun l => ofMove cards l.2 := by
  have hrows : ∀ r ∈ db.chapters.rows.filter fun r => r.ownerId = owner, ∃ resp, db.chapterTree order r = some resp ∧
      decide (resp.uuid = c) = decide (r.uuid = c) ∧ ∃ t, TreeOf db resp.uuid t ∧ resp.root = t.response := by
    intro r hr
    obtain ⟨hr, ho⟩ := List.mem_filter.mp hr
    obtain ⟨t, ht, he⟩ := (hkept r hr (of_decide_eq_true ho)).chapterTree order
    exact ⟨_, he, rfl, t, ht, rfl⟩
  obtain ⟨resps, hresps, hgood, hfind⟩ := mapM_find? hrows
  have hraws : ∀ resp ∈ resps, ∃ raw, ofResponse cards resp = some raw ∧
      decide (raw.uuid = Utf16.encode c) = decide (resp.uuid = c) ∧
        Rose.Below (fun d : TrainingData Card => d.id.length = 2) raw.root := by
    intro resp hresp
    obtain ⟨t, ht, hroot⟩ := hgood resp hresp
    refine ⟨⟨Utf16.encode resp.uuid, Utf16.encode resp.name, Utf16.encode resp.trainAs, t.map fun l => ofMove cards l.2⟩,
      ?_, ?_, treeOf_twoUnits ht⟩
    · rw [ofResponse, hroot, ofNode_response]
      rfl
    · have hiff : Utf16.encode resp.uuid = Utf16.encode c ↔ resp.uuid = c :=
        ⟨Utf16.encode_injective, congrArg _⟩
      simp [hiff]
  obtain ⟨raws, hall, htwo, hfind'⟩ := mapM_find? hraws
  rw [find?_filter_owner hrow howner, Option.bind_some] at hfind
  obtain ⟨hmem, rfl⟩ := Table.find?_eq_some.mp hrow
  obtain ⟨t, ht, he⟩ := (hkept row hmem howner).chapterTree order
  rw [hfind, he, Option.bind_some] at hfind'
  refine ⟨raws, ⟨Utf16.encode row.uuid, Utf16.encode row.name, Utf16.encode row.trainAs, t.map fun l => ofMove cards l.2⟩, t,
    ?_, htwo, ?_, ht, rfl⟩
  · rw [fetch, Db.fetchChaptersByOwner, hresps]
    exact hall
  · rw [hfind', ofResponse, ofNode_response]
    rfl

end Chessrepeat.Room
