import Chessrepeat.Room.Mirror
import Chessrepeat.Room.Lemmas.Backup

/-!
# Trees and rows with the same contents

The tree of a client and the rows of the server are two ways to write down data at paths, in code units and in characters.
-/

namespace Chessrepeat.Room

open Lib Client Store

variable {Card : Type} {cards : CardCodec Card} {c : Domain.Text} {db : Db} {root n : TrainableNode Card} {p : JsString}
  {d : TrainingData Card}

/-- The data of the nodes as the server would write it. -/
def contents (cards : CardCodec Card) (root : TrainableNode Card) : Contents Char Domain.TrainingData :=
  (dataAt root).pull Utf16.encode (toMove cards)

theorem WellNamed.wellFormed (h : WellNamed root) (hp : (nodeAtPathOrNull root p).isSome) : Utf16.WellFormed p :=
  (h.plain.plain hp).wellFormed

theorem contents_decode (hp : Utf16.WellFormed p) : contents cards root (Utf16.decode p) = (dataAt root p).map (toMove cards) := by
  rw [contents, Contents.pull, hp.eq]

/-! ## Flattening -/

theorem toNodes_eq (cards : CardCodec Card) (ts : List (Rose (TrainingData Card))) : toNodes cards ts = ts.map (toNode cards) := by
  induction ts with
  | nil => rfl
  | cons t ts ih => rw [toNodes, ih, List.map_cons]

theorem toNode_objects (o : Object Card) (cs : List (TrainableNode Card)) :
    toNode cards (Rose.map Object.data (.node o cs)) =
      .mk (toMove cards o.data) (cs.map fun c => toNode cards (c.map Object.data)) := by
  rw [Rose.map, toNode, Rose.mapList_eq, toNodes_eq, List.map_map]
  rfl

theorem id_toNode (t : TrainableNode Card) : (toNode cards (t.map Object.data)).id = Utf16.decode t.label.id := by
  cases t with
  | node o cs => rw [toNode_objects]; rfl

theorem keyed_toNode (cards : CardCodec Card) (h2 : TwoUnits root) (hp : PlainIds root) (hd : DistinctIds root) :
    (toNode cards (root.map Object.data)).Keyed := by
  induction root using Rose.ind with
  | h o cs ih =>
      have hplain : ∀ c ∈ cs, Utf16.Plain c.label.id := fun c hc => Rose.Below.label hp hc
      rw [toNode_objects]
      refine .mk (fun t ht => ?_) (fun t ht => ?_) ?_
      · obtain ⟨c, hc, rfl⟩ := List.mem_map.mp ht
        exact ih c hc (h2.child hc) (Rose.Below.child hp hc) (hd.sub (Rose.child_mem_nodes hc))
      · obtain ⟨c, hc, rfl⟩ := List.mem_map.mp ht
        rw [id_toNode, (hplain c hc).length_decode]
        exact h2.id_child hc
      · have hids : (cs.map fun c => toNode cards (c.map Object.data)).map Domain.ChapterTreeNode.id =
            (cs.map fun c => c.label.id).map Utf16.decode := by
          rw [List.map_map, List.map_map]
          exact List.map_congr_left fun c _ => id_toNode c
        rw [hids]
        refine List.Nodup.map_on (fun i hi j hj hij => ?_) (hd _ (Rose.self_mem_nodes _))
        obtain ⟨a, ha, rfl⟩ := List.mem_map.mp hi
        obtain ⟨b, hb, rfl⟩ := List.mem_map.mp hj
        exact (hplain a ha).wellFormed.decode_inj (hplain b hb).wellFormed hij

/-- The labels are the data of the nodes, with the paths as text. -/
theorem mem_located (pre : Domain.Text) (hp : PlainIds root) (hd : DistinctIds root) {l : Domain.Text × Domain.TrainingData} :
    l ∈ (located pre (toNode cards (root.map Object.data))).labels ↔
      ∃ ks n, Rose.at? Object.id root ks = some n ∧ l = (pre ++ Utf16.decode ks.flatten, toMove cards n.label.data) := by
  induction root using Rose.ind generalizing pre with
  | h o cs ih =>
      have hplain : ∀ c ∈ cs, Utf16.WellFormed c.label.id := fun c hc => (Rose.Below.label hp hc).wellFormed
      have hchild : ∀ c ∈ cs, ∀ pre, l ∈ (located pre (toNode cards (c.map Object.data))).labels ↔
          ∃ ks n, Rose.at? Object.id c ks = some n ∧ l = (pre ++ Utf16.decode ks.flatten, toMove cards n.label.data) := fun c hc pre =>
        ih c hc pre (Rose.Below.child hp hc) (hd.sub (Rose.child_mem_nodes hc))
      rw [toNode_objects, located, locatedList_eq, Rose.labels_node, List.mem_cons, List.map_map]
      constructor
      · rintro (rfl | hl)
        · exact ⟨[], .node o cs, rfl, by simp⟩
        · obtain ⟨t, ht, hl⟩ := Rose.mem_labelsList.mp hl
          obtain ⟨c, hc, rfl⟩ := List.mem_map.mp ht
          obtain ⟨ks, n, hn, rfl⟩ := (hchild c hc _).mp hl
          refine ⟨c.label.id :: ks, n, ?_, ?_⟩
          · rw [Rose.at?_cons, Rose.Distinct.child?_key hd hc]
            exact hn
          · rw [id_toNode, List.flatten_cons, (hplain c hc).decode_append, List.append_assoc]
      · rintro ⟨ks, n, hn, rfl⟩
        cases ks with
        | nil =>
            cases hn
            left
            simp
        | cons k ks =>
            right
            obtain ⟨c, hc, hat⟩ := Option.bind_eq_some_iff.mp hn
            obtain ⟨hmem, rfl⟩ := Rose.child?_eq_some hc
            refine Rose.mem_labelsList.mpr ⟨_, List.mem_map_of_mem hmem, (hchild c hmem _).mpr ⟨ks, n, hat, ?_⟩⟩
            rw [id_toNode, List.flatten_cons, (hplain c hmem).decode_append, List.append_assoc]

/-- What `flattenTree` collects. -/
theorem flattenTree_contents (cards : CardCodec Card) (h2 : TwoUnits root) (hp : PlainIds root) (hd : DistinctIds root) :
    ∃ out, flattenTree (toNode cards (root.map Object.data)) = some out ∧ out.contents = contents cards root := by
  obtain ⟨out, hout, hperm⟩ := flattenTree_keyed (keyed_toNode cards h2 hp hd)
  refine ⟨out, hout, funext fun q => Option.ext fun e => ?_⟩
  rw [PathMap.contents_eq_some, hperm.mem_iff, mem_located [] hp hd, contents, Contents.pull, Option.map_eq_some_iff]
  constructor
  · rintro ⟨ks, n, hn, he⟩
    have hat : nodeAtPathOrNull root ks.flatten = some n := by
      rw [nodeAtPathOrNull, steps_flatten (h2.length_key hn)]
      exact hn
    have hq : Utf16.encode q = ks.flatten := by
      obtain ⟨rfl, -⟩ := Prod.mk.inj he
      exact (hp.plain (by rw [hat]; rfl)).wellFormed
    refine ⟨n.label.data, ?_, (Prod.mk.inj he).2.symm⟩
    rw [dataAt, hq, hat]
    rfl
  · rintro ⟨d, hd', rfl⟩
    obtain ⟨n, hn, rfl⟩ := Option.map_eq_some_iff.mp hd'
    exact ⟨steps (Utf16.encode q), n, hn, by simp [TrainableNode.data]⟩

theorem flattens_iff (h : WellNamed root) : Flattens cards c root db ↔ Tabulates db c (contents cards root) := by
  obtain ⟨out, hout, heq⟩ := flattenTree_contents cards h.twoUnits h.plain h.distinct
  rw [← heq]
  constructor
  · rintro ⟨out', hout', hr⟩
    rw [hout] at hout'
    cases hout'
    exact hr.tabulates
  · exact fun ht => ⟨out, hout, ht.records⟩

/-! ## The training maps -/

/-- The cards of a move that a client has. -/
theorem cardRows_toMove (q : Domain.Text) (d : TrainingData Card) : cardRows c (q, toMove cards d) =
    (d.training.getD []).map fun e => ⟨c, q, Utf16.decode e.1, cards.toServer e.2⟩ := by
  rw [cardRows]
  cases ht : d.training with
  | none => simp [toMove, ht]
  | some es => simp [toMove, ht, List.filterMap_map]

theorem training_toMove (h : d.training.getD [] = []) : (toMove cards d).training.getD [] = [] := by
  cases ht : d.training with
  | none => simp [toMove, ht]
  | some es =>
      rw [ht] at h
      simp [toMove, ht, show es = [] from h]

/-- A list of entries whose keys are text, as rows. -/
theorem trained_setEntry (cards : CardCodec Card) (c q : Domain.Text) {key : JsString} (hkey : Utf16.WellFormed key) (card : Card)
    {es : List (JsString × Card)} (hes : ∀ e ∈ es, Utf16.WellFormed e.1) (hd : (es.map fun e => Utf16.decode e.1).Nodup) :
    ((setEntry key card es).map fun e => Utf16.decode e.1).Nodup ∧ ∀ v,
      (((setEntry key card es).map fun e => (⟨c, q, Utf16.decode e.1, cards.toServer e.2⟩ : CardRow)).find? fun r =>
          r.username = v) =
        if v = Utf16.decode key then some ⟨c, q, Utf16.decode key, cards.toServer card⟩
        else (es.map fun e => (⟨c, q, Utf16.decode e.1, cards.toServer e.2⟩ : CardRow)).find? fun r => r.username = v := by
  induction es with
  | nil =>
      refine ⟨List.nodup_singleton _, fun v => ?_⟩
      by_cases hv : v = Utf16.decode key <;> simp [setEntry, hv, eq_comm]
  | cons e es ih =>
      rw [List.map_cons, List.nodup_cons] at hd
      obtain ⟨hnodup, hfind⟩ := ih (fun e' he' => hes e' (List.mem_cons_of_mem _ he')) hd.2
      by_cases he : e.1 = key
      · rw [setEntry, if_pos he]
        refine ⟨List.nodup_cons.mpr ⟨he ▸ hd.1, hd.2⟩, fun v => ?_⟩
        by_cases hv : v = Utf16.decode key
        · simp [hv]
        · simp [hv, he, Ne.symm hv]
      · have hne : Utf16.decode e.1 ≠ Utf16.decode key := mt ((hes e List.mem_cons_self).decode_inj hkey) he
        rw [setEntry, if_neg he]
        refine ⟨List.nodup_cons.mpr ⟨fun hmem => ?_, hnodup⟩, fun v => ?_⟩
        · obtain ⟨e', he', heq⟩ := List.mem_map.mp hmem
          rcases mem_setEntry he' with rfl | he'
          · exact hne heq.symm
          · exact hd.1 (List.mem_map.mpr ⟨e', he', heq⟩)
        · rw [List.map_cons, List.map_cons, List.find?_cons, List.find?_cons, hfind]
          by_cases hv : v = Utf16.decode key
          · simp [hv, hne]
          · simp [hv]

theorem trained_setCard {q : Domain.Text} {username : JsString} (card : Card) (hu : Utf16.WellFormed username)
    (hes : ∀ e ∈ d.training.getD [], Utf16.WellFormed e.1)
    (hd : ((cardRows c (q, toMove cards d)).map CardRow.username).Nodup) :
    Trained c q (Utf16.decode username) (cards.toServer card) (toMove cards d) (toMove cards (d.setCard username card)) := by
  rw [cardRows_toMove, List.map_map] at hd
  obtain ⟨hnodup, hfind⟩ := trained_setEntry cards c q hu card hes hd
  have hcards : cardRows c (q, toMove cards (d.setCard username card)) =
      (setEntry username card (d.training.getD [])).map fun e => ⟨c, q, Utf16.decode e.1, cards.toServer e.2⟩ :=
    cardRows_toMove q _
  refine ⟨rfl, fun v => ?_, ?_⟩
  · rw [hcards, hfind, cardRows_toMove]
  · rw [hcards, List.map_map]
    exact hnodup

/-! ## Events -/

theorem contents_put {root' : TrainableNode Card} (hp : Utf16.WellFormed p) (h : dataAt root' = (dataAt root).put p d) :
    contents cards root' = (contents cards root).put (Utf16.decode p) (toMove cards d) := by
  rw [contents, h, Contents.pull_put hp.encode_eq_iff]
  rfl

theorem usernames_put {root' : TrainableNode Card} (h : WellNamed root) (hd : Usernames d)
    (hput : dataAt root' = (dataAt root).put p d) : ∀ q e, dataAt root' q = some e → Usernames e := by
  intro q e he
  rw [hput] at he
  by_cases hq : q = p
  · rw [hq, Contents.put_self] at he
    cases he
    exact hd
  · rw [Contents.put_of_ne hq] at he
    exact h.usernames q e he

/-- A new move. -/
theorem Flattens.push (hf : Flattens cards c root db) (h : WellNamed root) (hr : (root.labels.map Object.ref).Nodup)
    (hc : db.chapters.has c = true) (hn : nodeAtPathOrNull root p = some n) (hid : d.id.length = 2) (hplain : Utf16.Plain d.id)
    (hnew : childById n d.id = none) (hcards : d.training.getD [] = [])
    (hcap : db.chapterMoveCount c < maxMovesPerChapter * db.chapterOwnerMultiplier c) (ref : Nat) {root' : TrainableNode Card}
    (hroot : root' = Rose.modify (fun m => m.ref = n.label.ref) (TrainableNode.push (.node ⟨ref, d⟩ [])) root) :
    ∃ db', db.addMoveToChapter ⟨c, toMove cards d, Utf16.decode p⟩ = .ok db' ∧ WellNamed root' ∧ Flattens cards c root' db' := by
  have hp : Utf16.WellFormed p := h.wellFormed (by rw [hn]; rfl)
  have hput : dataAt root' = (dataAt root).put (p ++ d.id) d := by
    rw [hroot]
    exact dataAt_push_new (l := ⟨ref, d⟩) h.twoUnits hr hn hid hnew
  have hpath : Utf16.decode (p ++ d.id) = Utf16.decode p ++ (toMove cards d).id := hp.decode_append _
  have hpid : Utf16.WellFormed (p ++ d.id) := ((h.plain.plain (by rw [hn]; rfl)).append hplain).wellFormed
  have hnone : dataAt root (p ++ d.id) = none := by
    rw [dataAt, nodeAtPathOrNull_append (h.twoUnits.even hn) hid, hn, Option.bind_some, hnew]
    rfl
  have hnamed : WellNamed root' := by
    refine ⟨?_, ?_, ?_, usernames_put h (fun e he => ?_) hput⟩
    · rw [hroot]
      refine h.twoUnits.modify (Keeps.push _) fun m hm => below_push hm fun l hl => ?_
      rw [List.mem_singleton.mp hl]
      exact hid
    · rw [hroot]
      exact h.plain.push hplain
    · rw [hroot]
      exact h.distinct.push hr (nodeAtPathOrNull_mem_nodes hn) hnew
    · rw [hcards] at he
      cases he
  have ht := (flattens_iff h).mp hf
  obtain ⟨db', hdb, ht'⟩ := ht.addMove (p := Utf16.decode p) (d := toMove cards d) hc
    (by rw [contents_decode hp, dataAt_of_found hn]; rfl) (by rw [← hpath, contents_decode hpid, hnone]; rfl)
    (training_toMove hcards) hcap
  refine ⟨db', hdb, hnamed, (flattens_iff hnamed).mpr ?_⟩
  rwa [contents_put hpid hput, hpath]

/-- A deletion. -/
theorem Flattens.delete (hf : Flattens cards c root db) (h : WellNamed root) (hr : (root.labels.map Object.ref).Nodup)
    (h0 : p ≠ []) (hp : (nodeAtPathOrNull root p).isSome) {root' : TrainableNode Card}
    (hroot : root' = Rose.modify (fun m => m.ref = (nodeAtPath root (init p)).ref) (removeChild (last p)) root) :
    ∃ db', db.deleteNodeFromChapter ⟨c, Utf16.decode p⟩ = .ok db' ∧ WellNamed root' ∧ Flattens cards c root' db' := by
  have hwf : Utf16.WellFormed p := h.wellFormed hp
  obtain ⟨n, hn⟩ := Option.isSome_iff_exists.mp hp
  obtain ⟨parent, hparent, -⟩ := h.twoUnits.parent h0 hn
  rw [nodeAtPath_of_found hparent] at hroot
  have hprune : dataAt root' = (dataAt root).prune p := by
    rw [hroot]
    exact dataAt_removeChild hr h0 (h.twoUnits.even hn) hparent
  have hnamed : WellNamed root' := by
    refine ⟨?_, ?_, ?_, fun q e he => ?_⟩
    · rw [hroot]
      exact h.twoUnits.modify (Keeps.removeChild _) fun m hm => below_removeChild hm
    · rw [hroot]
      exact h.plain.removeChild _
    · rw [hroot]
      exact h.distinct.removeChild _
    · rw [hprune, Contents.prune] at he
      split at he
      · cases he
      · exact h.usernames q e he
  have ht := (flattens_iff h).mp hf
  obtain ⟨db', hdb, ht'⟩ := ht.deleteNode (p := Utf16.decode p) (mt hwf.decode_eq_nil.mp h0)
    (by rw [contents_decode hwf, dataAt_of_found hn]; rfl)
  refine ⟨db', hdb, hnamed, (flattens_iff hnamed).mpr ?_⟩
  rwa [contents, hprune, Contents.pull_prune hwf.prefix_encode_iff]

/-- The tree after new data for the node at the path. -/
theorem WellNamed.setData (cards : CardCodec Card) {g : TrainingData Card → TrainingData Card} (h : WellNamed root) (hr : (root.labels.map Object.ref).Nodup)
    (hg : ∀ d, (g d).id = d.id) (hn : nodeAtPathOrNull root p = some n) (hu : Usernames (g n.data)) {root' : TrainableNode Card}
    (hroot : root' = Rose.modify (fun m => m.ref = (nodeAtPath root p).ref) (fun n : TrainableNode Card => n.setData (g n.data)) root) :
    WellNamed root' ∧ contents cards root' = (contents cards root).put (Utf16.decode p) (toMove cards (g n.data)) := by
  rw [nodeAtPath_of_found hn] at hroot
  have hput : dataAt root' = (dataAt root).put p (g n.data) := by
    rw [hroot]
    exact dataAt_setData hg hr hn
  refine ⟨⟨?_, ?_, ?_, usernames_put h hu hput⟩, contents_put (h.wellFormed (by rw [hn]; rfl)) hput⟩
  · rw [hroot]
    exact h.twoUnits.modify (Keeps.setData hg) fun _ hm => hm
  · rw [hroot]
    exact h.plain.setData hg
  · rw [hroot]
    exact h.distinct.setData hg

/-- A comment. -/
theorem Flattens.setComment (hf : Flattens cards c root db) (h : WellNamed root) (hr : (root.labels.map Object.ref).Nodup)
    (comment : JsString) (hp : (nodeAtPathOrNull root p).isSome) {root' : TrainableNode Card}
    (hroot : root' = Rose.modify (fun m => m.ref = (nodeAtPath root p).ref) (withComment comment) root) :
    ∃ db', db.setComment c (Utf16.decode p) (Utf16.decode comment) = .ok db' ∧ WellNamed root' ∧ Flattens cards c root' db' := by
  have hwf : Utf16.WellFormed p := h.wellFormed hp
  obtain ⟨n, hn⟩ := Option.isSome_iff_exists.mp hp
  have hdata : dataAt root p = some n.data := dataAt_of_found hn
  have hu : Usernames (n.data.setComment comment) := h.usernames p n.data hdata
  obtain ⟨hnamed, hput⟩ := h.setData cards (g := TrainingData.setComment comment) hr (fun _ => rfl) hn hu hroot
  have ht := (flattens_iff h).mp hf
  obtain ⟨db', hdb, ht'⟩ := ht.setComment (Utf16.decode comment) (by rw [contents_decode hwf, hdata]; rfl)
  exact ⟨db', hdb, hnamed, (flattens_iff hnamed).mpr (hput ▸ ht')⟩

/-- A card. -/
theorem Flattens.setCard (hf : Flattens cards c root db) (h : WellNamed root) (hr : (root.labels.map Object.ref).Nodup)
    {username : JsString} (hu : Utf16.WellFormed username) (card : Card) (hp : (nodeAtPathOrNull root p).isSome)
    {root' : TrainableNode Card}
    (hroot : root' = Rose.modify (fun m => m.ref = (nodeAtPath root p).ref) (withCard username card) root) :
    ∃ db', db.updateTrainingState ⟨c, Utf16.decode p, Utf16.decode username, cards.toServer card⟩ = .ok db' ∧
      WellNamed root' ∧ Flattens cards c root' db' := by
  have hwf : Utf16.WellFormed p := h.wellFormed hp
  obtain ⟨n, hn⟩ := Option.isSome_iff_exists.mp hp
  have hdata : dataAt root p = some n.data := dataAt_of_found hn
  have hcontents : contents cards root (Utf16.decode p) = some (toMove cards n.data) := by
    rw [contents_decode hwf, hdata]
    rfl
  have hold : Usernames n.data := h.usernames p n.data hdata
  have hnew : Usernames (n.data.setCard username card) := fun e he => by
    rcases mem_setEntry he with rfl | he
    · exact hu
    · exact hold e he
  obtain ⟨hnamed, hput⟩ := h.setData cards (g := TrainingData.setCard username card) hr (fun _ => rfl) hn hnew hroot
  have ht := (flattens_iff h).mp hf
  obtain ⟨db', hdb, ht'⟩ := ht.updateTraining hcontents (trained_setCard card hu hold (ht.users _ _ hcontents))
  exact ⟨db', hdb, hnamed, (flattens_iff hnamed).mpr (hput ▸ ht')⟩

end Chessrepeat.Room
