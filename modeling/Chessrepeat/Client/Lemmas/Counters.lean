import Chessrepeat.Client.Import
import Chessrepeat.Client.Lemmas.Missing
import Chessrepeat.Client.Lemmas.Selection

/-!
# The counters of a chapter

An edit of one object shifts the numbers of enabled and of unseen moves of the one chapter whose tree has the
object, by what it does to the object. An action keeps the counters exact when it adds the same to them.
-/

namespace Chessrepeat.Client

open Lib TrainerState

variable {Card : Type} {s s' : TrainerState Card} {env : Env Card} {chess : Chessops} {chapter : Chapter Card}
  {path uuid : JsString}

/-- An enabled move the user has no card for. -/
def unseen (env : Env Card) (d : TrainingData Card) : Bool := d.enabled && (ownCard env d).isNone

def unseenMoves (env : Env Card) (root : TrainableNode Card) : Int := (forEachNode root).countP (unseen env)

/-- Under the name of an inherited property the code counts nothing. -/
theorem countUnseen_eq (hkey : env.currentUserKey ∉ objectProperties) (root : TrainableNode Card) :
    countUnseen env root = unseenMoves env root := by
  rw [countUnseen, unseenMoves]
  congr 1
  refine List.countP_congr fun d _ => ?_
  rw [unseen, userCard_plain hkey, Option.isNone_map]

structure Chapter.Exact (env : Env Card) (c : Chapter Card) : Prop where
  enabled : c.enabledCount = countEnabled c.root
  unseen : c.unseenCount = unseenMoves env c.root

def Exact (env : Env Card) (s : TrainerState Card) : Prop := ∀ c ∈ s.repertoire, c.Exact env

theorem currentUserKey_congr {env' : Env Card} (h : env'.user = env.user) :
    env'.currentUserKey = env.currentUserKey := by
  rw [Env.currentUserKey, Env.currentUserKey, h]

theorem unseen_congr {env' : Env Card} (h : env'.user = env.user) : Client.unseen env' = Client.unseen env := by
  funext d
  rw [Client.unseen, Client.unseen, ownCard, ownCard, currentUserKey_congr h]

theorem Exact.congr {env' : Env Card} (he : Exact env s) (h : env'.user = env.user) : Exact env' s := by
  intro c hc
  obtain ⟨h1, h2⟩ := he c hc
  refine ⟨h1, h2.trans ?_⟩
  simp only [unseenMoves, unseen_congr h]

theorem Exact.of_repertoire (he : Exact env s) (h : s'.repertoire = s.repertoire) : Exact env s' := by
  rwa [Exact, h]

/-! ## Edits of objects -/

/-- The edit adds `a` to the enabled and `b` to the unseen moves of the node. -/
structure Shifts (env : Env Card) (f : TrainableNode Card → TrainableNode Card) (n : TrainableNode Card) (a b : Int) :
    Prop where
  enabled : countEnabled (f n) = countEnabled n + a
  unseen : unseenMoves env (f n) = unseenMoves env n + b

theorem Sound.countP_ref (hs : Sound s) {root n : TrainableNode Card} (ht : root ∈ s.roots) (hn : n ∈ root.nodes) :
    root.labels.countP (fun m => m.ref = n.label.ref) = 1 := by
  have hmem : n.label.ref ∈ root.labels.map Object.ref :=
    List.mem_map_of_mem (Rose.mem_labels.mpr ⟨n, hn, rfl⟩)
  have hone := List.count_eq_one_of_mem (hs.root_nodup ht) hmem
  rw [List.count, List.countP_map] at hone
  rw [← hone]
  exact List.countP_congr fun m _ => by simp

/-- What an edit of an object does to a tree that has the object. -/
theorem Shifts.modify {root n : TrainableNode Card} {f : TrainableNode Card → TrainableNode Card} {a b : Int}
    (h : Shifts env f n a b) (hs : Sound s) (ht : root ∈ s.roots) (hn : n ∈ root.nodes) :
    Shifts env (Rose.modify (fun m => m.ref = n.label.ref) f) root a b := by
  have hcount := Rose.countP_modify (f := f) (hs.countP_ref ht hn) fun m hm hp =>
    hs.eq_of_ref ht ht hm hn (of_decide_eq_true hp)
  constructor
  · have hc := hcount fun l => l.data.enabled
    have hf := h.enabled
    simp only [countEnabled, forEachNode, List.countP_map, Function.comp_def] at hf ⊢
    omega
  · have hc := hcount fun l => Client.unseen env l.data
    have hf := h.unseen
    simp only [unseenMoves, forEachNode, List.countP_map, Function.comp_def] at hf hc ⊢
    omega

/-- An edit that shifts nothing, wherever the object is. -/
theorem Exact.mutate {r : Nat} {f : TrainableNode Card → TrainableNode Card} (he : Exact env s) (hs : Sound s)
    (hf : ∀ root ∈ s.roots, ∀ n ∈ root.nodes, n.label.ref = r → Shifts env f n 0 0) : Exact env (s.mutate r f) := by
  intro c' hc'
  obtain ⟨c, hc, rfl⟩ := List.mem_map.mp hc'
  have hroot : c.root ∈ s.roots := List.mem_map_of_mem hc
  have hshift : Shifts env (Rose.modify (fun m : Object Card => m.ref = r) f) c.root 0 0 := by
    by_cases hr : ∃ n ∈ c.root.nodes, n.label.ref = r
    · obtain ⟨n, hn, rfl⟩ := hr
      exact (hf _ hroot n hn rfl).modify hs hroot hn
    · have hnone : Rose.modify (fun m : Object Card => m.ref = r) f c.root = c.root := by
        refine Rose.modify_of_none fun l hl => ?_
        obtain ⟨n, hn, rfl⟩ := Rose.mem_labels.mp hl
        exact decide_eq_false fun h => hr ⟨n, hn, h⟩
      constructor <;> rw [hnone, Int.add_zero]
  have h1 := hshift.enabled
  have h2 := hshift.unseen
  rw [Int.add_zero] at h1 h2
  exact ⟨(he c hc).enabled.trans h1.symm, (he c hc).unseen.trans h2.symm⟩

theorem updateChapter_append {f : Chapter Card → Chapter Card} {as bs : List (Chapter Card)}
    (h : ∀ c ∈ as, c.uuid ≠ chapter.uuid) :
    updateChapter chapter.uuid f (as ++ chapter :: bs) = as ++ f chapter :: bs := by
  induction as with
  | nil => simp [updateChapter]
  | cons c as ih =>
      have hc := h c List.mem_cons_self
      have ih := ih fun d hd => h d (List.mem_cons_of_mem _ hd)
      simp [updateChapter, hc, ih]

/-- The first chapter with its uuid, between the chapters before and after it. -/
theorem chapter_split (hc : s.chapter uuid = some chapter) : chapter.uuid = uuid ∧
    ∃ as bs, s.repertoire = as ++ chapter :: bs ∧ ∀ c ∈ as, c.uuid ≠ chapter.uuid := by
  obtain ⟨hu, as, bs, hrep, has⟩ := List.find?_eq_some_iff_append.mp hc
  have hu : chapter.uuid = uuid := of_decide_eq_true hu
  refine ⟨hu, as, bs, hrep, fun c hcs he => ?_⟩
  have := has c hcs
  simp [he, hu] at this

/-- No object is in the trees of two chapters. -/
theorem Separate.ref_ne (hs : Separate s) {as bs : List (Chapter Card)} (hrep : s.repertoire = as ++ chapter :: bs)
    {n : TrainableNode Card} (hn : n ∈ chapter.root.nodes) :
    ∀ c ∈ as ++ bs, ∀ l ∈ c.root.labels, l.ref ≠ n.label.ref := by
  have hnodup := hs
  rw [Separate, roots, hrep, List.map_append, List.map_cons, Rose.labelsList_append, Rose.labelsList_cons, List.map_append,
    List.map_append] at hnodup
  have hmem : n.label.ref ∈ chapter.root.labels.map Object.ref :=
    List.mem_map_of_mem (Rose.mem_labels.mpr ⟨n, hn, rfl⟩)
  have hin : ∀ {cs : List (Chapter Card)} {c : Chapter Card}, c ∈ cs → ∀ l ∈ c.root.labels,
      l.ref ∈ (Rose.labelsList (cs.map Chapter.root)).map Object.ref := fun hc l hl =>
    List.mem_map_of_mem (Rose.mem_labelsList.mpr ⟨_, List.mem_map_of_mem hc, hl⟩)
  rw [List.nodup_append, List.nodup_append] at hnodup
  obtain ⟨-, ⟨-, -, hpost⟩, hpre⟩ := hnodup
  intro c hc l hl
  rcases List.mem_append.mp hc with hc | hc
  · exact hpre _ (hin hc l hl) _ (List.mem_append_left _ hmem)
  · exact (hpost _ hmem _ (hin hc l hl)).symm

/-- An edit of an object in the tree of a chapter, whose counters are shifted with it. -/
theorem Exact.edit {n : TrainableNode Card} {f : TrainableNode Card → TrainableNode Card} {a b : Int} (he : Exact env s)
    (hs : Sound s) (hc : s.chapter uuid = some chapter) (hn : n ∈ chapter.root.nodes) (hf : Shifts env f n a b) :
    Exact env ((s.mutate n.label.ref f).onChapter chapter.uuid (Chapter.addCounts a b)) := by
  obtain ⟨-, as, bs, hrep, has⟩ := chapter_split hc
  have hroot : chapter.root ∈ s.roots := rootOf_mem (chapter_root hc)
  have hother : ∀ c ∈ as ++ bs, Chapter.mapRoot (Rose.modify (fun m : Object Card => m.ref = n.label.ref) f) c = c := by
    intro c hc
    rw [Chapter.mapRoot, Rose.modify_of_none fun l hl => decide_eq_false (hs.separate.ref_ne hrep hn c hc l hl)]
  have hmap : ∀ cs : List (Chapter Card), (∀ c ∈ cs, c ∈ as ++ bs) →
      cs.map (Chapter.mapRoot (Rose.modify (fun m : Object Card => m.ref = n.label.ref) f)) = cs := fun cs hcs =>
    (List.map_congr_left fun c hc => hother c (hcs c hc)).trans (List.map_id cs)
  have hnew : ((s.mutate n.label.ref f).onChapter chapter.uuid (Chapter.addCounts a b)).repertoire =
      as ++ Chapter.addCounts a b
        (Chapter.mapRoot (Rose.modify (fun m : Object Card => m.ref = n.label.ref) f) chapter) :: bs := by
    rw [onChapter, TrainerState.mutate, hrep, List.map_append, List.map_cons, hmap as fun c => List.mem_append_left _,
      hmap bs fun c => List.mem_append_right _]
    exact @updateChapter_append _ (Chapter.mapRoot _ chapter) _ as bs has
  intro c hc
  rw [hnew, List.mem_append, List.mem_cons] at hc
  have hold : ∀ c ∈ as ++ chapter :: bs, c.Exact env := fun c hc => he c (hrep ▸ hc)
  rcases hc with hc | rfl | hc
  · exact hold c (List.mem_append_left _ hc)
  · have hshift := hf.modify hs hroot hn
    obtain ⟨h1, h2⟩ := hold chapter (List.mem_append_right _ List.mem_cons_self)
    constructor
    · exact (congrArg (· + a) h1).trans hshift.enabled.symm
    · exact (congrArg (· + b) h2).trans hshift.unseen.symm
  · exact hold c (List.mem_append_right _ (List.mem_cons_of_mem _ hc))

/-! ## What the edits of the store shift -/

variable {n : TrainableNode Card}

theorem shifts_push (env : Env Card) (c n : TrainableNode Card) :
    Shifts env (TrainableNode.push c) n (countEnabled c) (unseenMoves env c) := by
  constructor
  · simp [countEnabled, forEachNode, labels_push]
  · simp [unseenMoves, forEachNode, labels_push]

theorem forEachNode_setData (d : TrainingData Card) (n : TrainableNode Card) :
    forEachNode (n.setData d) = d :: (Rose.labelsList n.children).map Object.data := rfl

theorem forEachNode_eq (n : TrainableNode Card) :
    forEachNode n = n.data :: (Rose.labelsList n.children).map Object.data := by
  conv_lhs => rw [← Rose.eta n]
  rfl

/-- New data for an object. -/
theorem shifts_setData (env : Env Card) {g : TrainingData Card → TrainingData Card} (hg : (g n.data).enabled = n.data.enabled) :
    Shifts env (fun n => n.setData (g n.data)) n 0
      ((if unseen env (g n.data) then 1 else 0) - if unseen env n.data then 1 else 0) := by
  constructor
  · simp only [countEnabled, forEachNode_setData, forEachNode_eq n, List.countP_cons, hg]
    omega
  · simp only [unseenMoves, forEachNode_setData, forEachNode_eq n, List.countP_cons]
    cases unseen env (g n.data) <;> cases unseen env n.data <;> simp only [if_true, Bool.false_eq_true, if_false] <;> omega

theorem shifts_setData_zero {g : TrainingData Card → TrainingData Card} (hg : (g n.data).enabled = n.data.enabled)
    (hu : unseen env (g n.data) = unseen env n.data) : Shifts env (fun n => n.setData (g n.data)) n 0 0 := by
  have h := shifts_setData env hg
  rwa [hu, Int.sub_self] at h

theorem lookup_setEntry (key k : JsString) (card : Card) (es : List (JsString × Card)) :
    (setEntry key card es).lookup k = if k = key then some card else es.lookup k := by
  have hbeq : ∀ {j : JsString}, k ≠ j → (k == j) = false := fun h => by simpa using h
  induction es with
  | nil => by_cases h : k = key <;> simp [setEntry, List.lookup_cons, h, hbeq]
  | cons e es ih =>
      obtain ⟨j, c⟩ := e
      by_cases hj : j = key
      · subst hj
        by_cases h : k = j <;> simp [setEntry, List.lookup_cons, h, hbeq]
      · by_cases h : k = j
        · subst h
          simp [setEntry, hj]
        · simp [setEntry, hj, List.lookup_cons, hbeq h, ih]

theorem ownCard_setCard (username : JsString) (card : Card) (d : TrainingData Card) :
    ownCard env (d.setCard username card) =
      if env.currentUserKey = username ∧ env.currentUserKey ≠ [] then some card else ownCard env d := by
  rw [ownCard, ownCard]
  by_cases h0 : env.currentUserKey = []
  · simp [h0]
  · by_cases hk : env.currentUserKey = username
    · subst hk
      simp [TrainingData.setCard, lookup_setEntry, h0]
    · cases ht : d.training <;> simp [TrainingData.setCard, lookup_setEntry, h0, hk, ht]

/-- A card for an unseen move of the user is the only card that shifts anything. -/
theorem shifts_setCard_zero {username : JsString} {card : Card}
    (h : username = env.currentUserKey → env.currentUserKey ≠ [] → unseen env n.data = false) :
    Shifts env (fun n => n.setData (n.data.setCard username card)) n 0 0 := by
  refine shifts_setData_zero (g := TrainingData.setCard username card) rfl ?_
  have hen : (n.data.setCard username card).enabled = n.data.enabled := rfl
  rw [unseen, unseen, ownCard_setCard, hen]
  by_cases hk : env.currentUserKey = username ∧ env.currentUserKey ≠ []
  · have hseen := h hk.1.symm hk.2
    rw [unseen] at hseen
    rw [if_pos hk, hseen]
    simp
  · rw [if_neg hk]

theorem shifts_learn {card : Card} (h0 : env.currentUserKey ≠ []) (h : unseen env n.data = true) :
    Shifts env (fun n => n.setData (n.data.setCard env.currentUserKey card)) n 0 (-1) := by
  have hs := @shifts_setData _ n env (TrainingData.setCard env.currentUserKey card) rfl
  have hu : unseen env (n.data.setCard env.currentUserKey card) = false := by
    rw [unseen, ownCard_setCard, if_pos ⟨rfl, h0⟩]
    simp
  rw [h, hu] at hs
  exact hs

/-- No other child with the id has an enabled move below it. -/
def Lone (root : TrainableNode Card) (path : JsString) : Prop :=
  ∀ c ∈ ((nodeAtPath root (init path)).children.filter fun c : TrainableNode Card => c.data.id = last path).tail,
    ∀ d ∈ forEachNode c, d.enabled = false

theorem countP_labelsList_filter {α : Type} (q : α → Bool) (p : Rose α → Bool) (cs : List (Rose α)) :
    (Rose.labelsList cs).countP q =
      (Rose.labelsList (cs.filter fun c => !p c)).countP q + (Rose.labelsList (cs.filter p)).countP q := by
  induction cs with
  | nil => rfl
  | cons c cs ih =>
      cases hc : p c with
      | false => simp [hc, ih, Nat.add_assoc]
      | true => simp [hc, ih, Nat.add_left_comm]

theorem countP_removeChild {id : JsString} {c : TrainableNode Card} (q : TrainingData Card → Bool)
    (hc : childById n id = some c)
    (hq : ∀ e ∈ (n.children.filter fun c : TrainableNode Card => c.data.id = id).tail, ∀ d ∈ forEachNode e, q d = false) :
    (forEachNode n).countP q = (forEachNode (removeChild id n)).countP q + (forEachNode c).countP q := by
  have hfind : (n.children.filter fun c : TrainableNode Card => c.data.id = id).head? = some c := by
    rw [List.head?_filter]
    exact hc
  obtain ⟨rest, hrest⟩ := List.head?_eq_some_iff.mp hfind
  have hzero : (Rose.labelsList rest).countP (fun l => q l.data) = 0 := by
    rw [List.countP_eq_zero]
    intro l hl
    obtain ⟨e, he, hl⟩ := Rose.mem_labelsList.mp hl
    have := hq e (by rw [hrest]; exact he) l.data (List.mem_map_of_mem hl)
    simp [this]
  have hsplit := countP_labelsList_filter (fun l : Object Card => q l.data)
    (fun c : TrainableNode Card => decide (c.data.id = id)) n.children
  rw [hrest, Rose.labelsList_cons, List.countP_append, hzero] at hsplit
  have hremoved : (forEachNode (removeChild id n)).countP q = (Rose.labelsList (n.children.filter fun c : TrainableNode Card =>
      !decide (c.data.id = id))).countP (fun l : Object Card => q l.data) + if q n.data then 1 else 0 := by
    simp only [removeChild, forEachNode, Rose.labels_node, List.map_cons, decide_not, List.countP_cons, List.countP_map]
    rfl
  rw [hremoved, forEachNode_eq n, forEachNode, List.countP_cons, List.countP_map, List.countP_map]
  simp only [Function.comp_def]
  rw [hsplit, Nat.add_zero]
  exact Nat.add_right_comm _ _ _

theorem shifts_removeChild {root : TrainableNode Card} {c : TrainableNode Card} (hl : Lone root path)
    (hc : childById (nodeAtPath root (init path)) (last path) = some c) :
    Shifts env (removeChild (last path)) (nodeAtPath root (init path)) (-countEnabled c) (-unseenMoves env c) := by
  constructor
  · have h := countP_removeChild (·.enabled) hc hl
    simp only [countEnabled]
    omega
  · have h := countP_removeChild (unseen env) hc fun e he d hd => by simp [unseen, hl e he d hd]
    simp only [unseenMoves]
    omega

/-! ## Chapters made from scratch -/

theorem parseChapters_counts (env : Env Card) (next : Nat) (raw : List (RawChapter Card)) :
    ∀ c ∈ (parseChapters env next raw).1, c.enabledCount = countEnabled c.root ∧ c.unseenCount = countUnseen env c.root := by
  induction raw generalizing next with
  | nil => nofun
  | cons r rs ih =>
      intro c hc
      rcases List.mem_cons.mp hc with rfl | hc
      · exact ⟨rfl, rfl⟩
      · exact ih _ c hc

theorem parseChapters_exact (hkey : env.currentUserKey ∉ objectProperties) (next : Nat) (raw : List (RawChapter Card)) :
    ∀ c ∈ (parseChapters env next raw).1, c.Exact env := by
  intro c hc
  obtain ⟨henabled, hunseen⟩ := parseChapters_counts env next raw c hc
  exact ⟨henabled, hunseen.trans (countUnseen_eq hkey c.root)⟩

/-- The callback counts the enabled moves it returns, and no move has a card. -/
theorem Called.annotate {pgn : Pgn chess} {n m : Int} {ds : List (TrainingData Card)}
    (h : Called (annotate pgn) n ds m) : m = n + ds.countP (·.enabled) ∧ ∀ d ∈ ds, d.training = some [] := by
  induction h with
  | nil n => simp
  | cons call rest ih =>
      obtain ⟨move, -, he⟩ := Option.map_eq_some_iff.mp call
      simp only [Prod.mk.injEq] at he
      obtain ⟨rfl, rfl, rfl⟩ := he
      refine ⟨?_, fun d hd => ?_⟩
      · rw [ih.1, List.countP_cons]
        split <;> simp_all
        omega
      · rcases List.mem_cons.mp hd with rfl | hd
        · rfl
        · exact ih.2 d hd

theorem forEachNode_allocate (next : Nat) (t : Rose (TrainingData Card)) :
    forEachNode (allocate next t).1 = t.labels := by
  rw [forEachNode, ← Rose.labels_map, (allocate_spec next t).2.2]

theorem chapterFromPgn_exact {pgn : Pgn chess} {next next' : Nat} {rawPgn asColor name uuid : JsString}
    {c : Chapter Card} (h : chapterFromPgn pgn next rawPgn asColor name uuid = some (c, next')) : c.Exact env := by
  rw [chapterFromPgn] at h
  split at h
  · cases h
  · cases h
  · obtain ⟨⟨moves, m⟩, hmoves, he⟩ := Option.map_eq_some_iff.mp h
    cases he
    obtain ⟨ds, hcalled, hperm⟩ := pgn.transform_called _ _ _ _ _ _ hmoves
    obtain ⟨hm, htraining⟩ := hcalled.annotate
    have hcount : m = (Rose.labelsList moves).countP (·.enabled) := by rw [hm, hperm.countP_eq, Int.zero_add]
    have hsame : (Rose.labelsList moves).countP (unseen env) = (Rose.labelsList moves).countP (·.enabled) := by
      refine List.countP_congr fun d hd => ?_
      have hnone : ownCard env d = none := by simp [ownCard, htraining d (hperm.mem_iff.mp hd)]
      simp [unseen, hnone]
    constructor
    · simp [countEnabled, forEachNode_allocate, hcount]
    · simp [unseenMoves, forEachNode_allocate, hcount, hsame, unseen]

/-- A chapter as `chapterFromPgn` or `parseChapters` makes it. -/
inductive Produced (chess : Chessops) (env : Env Card) : Chapter Card → Prop where
  | pgn {pgn : Pgn chess} {next next' : Nat} {rawPgn asColor name uuid : JsString} {c : Chapter Card}
      (h : chapterFromPgn pgn next rawPgn asColor name uuid = some (c, next')) : Produced chess env c
  | json {next : Nat} {raw : List (RawChapter Card)} {c : Chapter Card} (h : c ∈ (parseChapters env next raw).1) :
      Produced chess env c

theorem Produced.exact {c : Chapter Card} (h : Produced chess env c) (hkey : env.currentUserKey ∉ objectProperties) :
    c.Exact env := by
  cases h with
  | pgn h => exact chapterFromPgn_exact h
  | json h => exact parseChapters_exact hkey _ _ c h

/-! ## Actions -/

theorem mem_updateChapter {f : Chapter Card → Chapter Card} {cs : List (Chapter Card)} {c : Chapter Card}
    (h : c ∈ updateChapter uuid f cs) : c ∈ cs ∨ ∃ d ∈ cs, c = f d := by
  induction cs with
  | nil => cases h
  | cons d cs ih =>
      by_cases hd : d.uuid = uuid
      · rw [updateChapter, if_pos hd] at h
        rcases List.mem_cons.mp h with rfl | h
        · exact Or.inr ⟨d, List.mem_cons_self, rfl⟩
        · exact Or.inl (List.mem_cons_of_mem _ h)
      · rw [updateChapter, if_neg hd] at h
        rcases List.mem_cons.mp h with rfl | h
        · exact Or.inl List.mem_cons_self
        · rcases ih h with h | ⟨e, he, rfl⟩
          · exact Or.inl (List.mem_cons_of_mem _ h)
          · exact Or.inr ⟨e, List.mem_cons_of_mem _ he, rfl⟩

theorem Exact.updateDueCounts (he : Exact env s) : Exact env (s.updateDueCounts env) := by
  rw [TrainerState.updateDueCounts]
  split
  · exact he
  · split
    · exact he
    · intro c hc
      rcases mem_updateChapter hc with hc | ⟨d, hd, rfl⟩
      · exact he c hc
      · exact ⟨(he d hd).enabled, (he d hd).unseen⟩

theorem chapter_of_selected (h : s.selectedChapter = some chapter) : ∃ id, s.chapter id = some chapter := by
  obtain ⟨id, -, hc⟩ := Option.bind_eq_some_iff.mp h
  exact ⟨id, hc⟩

/-- Counters first or objects first, the repertoire becomes the same. -/
theorem repertoire_onChapter_mutate {r : Nat} {f : TrainableNode Card → TrainableNode Card} {a b : Int} :
    ((s.onChapter uuid (Chapter.addCounts a b)).mutate r f).repertoire =
      ((s.mutate r f).onChapter uuid (Chapter.addCounts a b)).repertoire := by
  have h : ∀ (g : TrainableNode Card → TrainableNode Card) (cs : List (Chapter Card)),
      (updateChapter uuid (Chapter.addCounts a b) cs).map (Chapter.mapRoot g) =
        updateChapter uuid (Chapter.addCounts a b) (cs.map (Chapter.mapRoot g)) := by
    intro g cs
    induction cs with
    | nil => rfl
    | cons c cs ih => by_cases hc : c.uuid = uuid <;> simp [updateChapter, hc, ih, Chapter.mapRoot, Chapter.addCounts]
  exact h _ _

/-- The path leads to a node below the root. -/
def LeadsBelow (root : TrainableNode Card) (path : JsString) : Prop :=
  path ≠ [] ∧ (nodeAtPathOrNull root path).isSome

theorem Exact.removeLine (he : Exact env s) (hkey : env.currentUserKey ∉ objectProperties) (hs : Sound s)
    (hc : s.chapter uuid = some chapter) (hp : LeadsBelow chapter.root path) (hl : Lone chapter.root path) : Exact env (s.removeLine env chapter path) := by
  obtain ⟨h0, hsome⟩ := hp
  obtain ⟨n, hn⟩ := Option.isSome_iff_exists.mp hsome
  have h2 : TwoUnits chapter.root := hs.twoUnits _ (rootOf_mem (chapter_root hc))
  obtain ⟨parent, hparent, hchild⟩ := h2.parent h0 hn
  rw [← nodeAtPath_of_found hparent] at hchild
  rw [TrainerState.removeLine, nodeAtPath_of_found hn, countUnseen_eq hkey]
  exact Exact.updateDueCounts (he.edit hs hc (nodeAtPath_mem_nodes _ _) (shifts_removeChild hl hchild))

/-- The action adds to the counters what it adds to the enabled and the unseen moves: a new move goes into the
chapter that is counted, a move of a peer has no moves below it and is not both disabled and without a card, a
peer's message has no first card of the user, and the user learns an unseen move of the chapter. -/
def Counted (chess : Chessops) (env : Env Card) (s : TrainerState Card) : Action Card → Prop
  | .makeMove san => ∀ chapter node d, s.selectedChapter = some chapter → s.selectedNode.bind s.deref = some node →
      (∀ c ∈ node.children, c.label.data.san ≠ san) → newMove chess chapter.trainAs node.data san = some d →
      d.enabled = true → node ∈ chapter.root.nodes
  | .deleteLine path => ∀ chapter, s.selectedChapter = some chapter → Lone chapter.root path
  | .learn => ∀ chapter target path, s.trainingTarget env = some (chapter, target, path) →
      target ∈ chapter.root.nodes ∧ unseen env target.data = true
  | .addMove chapterId path node => ∀ chapter, s.chapter chapterId = some chapter →
      (nodeAtPathOrNull chapter.root path).isSome →
      (node.label.enabled = true ∨ (ownCard env node.label).isSome) ∧
        ∀ d ∈ Rose.labelsList node.children, d.enabled = false
  | .deleteNodeRemote chapterId path => ∀ chapter, s.chapter chapterId = some chapter → Lone chapter.root path
  | .updateTrainingRemote chapterId path username _ => ∀ chapter, s.chapter chapterId = some chapter →
      username = env.currentUserKey → env.currentUserKey ≠ [] →
      unseen env (nodeAtPath chapter.root path).data = false
  | _ => True

/-- Lines are deleted at the paths of moves, and the ids of new nodes have two units. -/
def Aims (s : TrainerState Card) (a : Action Card) : Prop :=
  a.TwoUnits ∧ match a with
    | .deleteLine path => ∀ chapter, s.selectedChapter = some chapter → LeadsBelow chapter.root path
    | .deleteNodeRemote chapterId path => ∀ chapter, s.chapter chapterId = some chapter → LeadsBelow chapter.root path
    | _ => True

theorem Exact.send (he : Exact env s) (msg : Outgoing Card) : Exact env (s.send env msg) :=
  he.of_repertoire (repertoire_send msg)

theorem Exact.makeMove {san : JsString} (he : Exact env s) (hs : Sound s) (hc : Counted chess env s (.makeMove san)) :
    Exact env (s.makeMove chess env san) := by
  rw [TrainerState.makeMove]
  split
  · rename_i chapter node hchapter hnode
    split
    · exact he
    · rename_i s' hs'
      refine Exact.of_repertoire ?_ (repertoire_follow _ _)
      rcases extend_cases hs' with ⟨-, rfl⟩ | ⟨hnew, d, hd, k, hk, rfl⟩
      · exact he
      · apply Exact.send
        have hshift : ∀ n, Shifts env (TrainableNode.push (.node ⟨s.nextRef, d⟩ [])) n k k := by
          intro n
          have htraining : d.training = some [] := by
            obtain ⟨pos, -, hd⟩ := Option.bind_eq_some_iff.mp hd
            obtain ⟨move, -, rfl⟩ := Option.map_eq_some_iff.mp hd
            rfl
          have hnone : ownCard env d = none := by simp [ownCard, htraining]
          have h := shifts_push env (.node ⟨s.nextRef, d⟩ []) n
          have h1 : countEnabled (.node ⟨s.nextRef, d⟩ [] : TrainableNode Card) = k := by
            cases hen : d.enabled <;> simp [countEnabled, forEachNode, hk, hen]
          have h2 : unseenMoves env (.node ⟨s.nextRef, d⟩ [] : TrainableNode Card) = k := by
            cases hen : d.enabled <;> simp [unseenMoves, forEachNode, unseen, hnone, hk, hen]
          rwa [h1, h2] at h
        refine Exact.of_repertoire ?_ repertoire_onChapter_mutate
        cases hen : d.enabled with
        | true =>
            obtain ⟨id, hid⟩ := chapter_of_selected hchapter
            exact he.edit hs hid (hc chapter node d hchapter hnode hnew hd hen) (hshift node)
        | false =>
            have hk : k = 0 := by simp [hk, hen]
            subst hk
            have hm : Exact env (s.mutate node.label.ref (TrainableNode.push (.node ⟨s.nextRef, d⟩ []))) :=
              he.mutate hs fun _ _ n _ _ => hshift n
            intro c hcmem
            rcases mem_updateChapter hcmem with hcmem | ⟨e, hemem, rfl⟩
            · exact hm c hcmem
            · obtain ⟨h1, h2⟩ := hm e hemem
              exact ⟨(Int.add_zero _).trans h1, (Int.add_zero _).trans h2⟩
  · exact he

theorem Exact.deleteLine (he : Exact env s) (hkey : env.currentUserKey ∉ objectProperties) (hs : Sound s) (ha : Aims s (.deleteLine path))
    (hc : Counted chess env s (.deleteLine path)) : Exact env (s.deleteLine env path) := by
  cases hsel : s.selectedChapter with
  | none => simpa only [TrainerState.deleteLine, hsel] using he
  | some chapter =>
      obtain ⟨id, hid⟩ := chapter_of_selected hsel
      have hr : Exact env (s.removeLine env chapter path) :=
        he.removeLine hkey hs hid (ha.2 chapter hsel) (hc chapter hsel)
      cases henv : env.isAuthenticated with
      | true =>
          rw [deleteLine_signedIn henv hsel]
          exact (hr.send _).of_repertoire (repertoire_jump _)
      | false =>
          rw [deleteLine_guest henv hsel]
          exact hr.of_repertoire rfl

theorem trainingTarget_spec {target : TrainableNode Card} (h : s.trainingTarget env = some (chapter, target, path)) :
    s.selectedChapter = some chapter ∧ env.currentUserKey ≠ [] ∧ s.deref target.label.ref = some target := by
  rw [trainingTarget] at h
  split at h
  · rename_i chapter context hsel hcontext
    split at h
    · cases h
    · rename_i h0
      obtain ⟨t, ht, he⟩ := Option.map_eq_some_iff.mp h
      cases he
      have href : target.label.ref = context.targetMove := by simpa using List.find?_some ht
      exact ⟨hsel, h0, href ▸ ht⟩
  · cases h

theorem Exact.learn (he : Exact env s) (hs : Sound s) (hc : Counted chess env s .learn) :
    Exact env (s.learn env) := by
  rw [TrainerState.learn]
  split
  · exact he
  · rename_i chapter target targetPath ht
    obtain ⟨hmem, hu⟩ := hc chapter target targetPath ht
    obtain ⟨hsel, h0, -⟩ := trainingTarget_spec ht
    obtain ⟨id, hid⟩ := chapter_of_selected hsel
    rw [putCard]
    refine (Exact.of_repertoire ?_ repertoire_onChapter_mutate).send _
    exact he.edit hs hid hmem (shifts_learn h0 hu)

theorem Exact.putCard_zero {target : TrainableNode Card} {card : Card} (he : Exact env s) (hs : Sound s)
    (h : unseen env target.data = false) (ht : s.deref target.label.ref = some target) :
    Exact env (s.putCard env chapter target path card) := by
  rw [putCard]
  refine (he.mutate hs fun root hroot n hn hr => ?_).send _
  have hsame : n = target := Option.some.inj ((hs.deref hroot hn).symm.trans (hr ▸ ht))
  exact shifts_setCard_zero fun _ _ => hsame ▸ h

theorem Exact.addMove {chapterId : JsString} {node : Rose (TrainingData Card)} (he : Exact env s)
    (hkey : env.currentUserKey ∉ objectProperties) (hs : Sound s) (hc : Counted chess env s (.addMove chapterId path node)) : Exact env (s.addMove env chapterId path node) := by
  rw [TrainerState.addMove]
  split
  · exact he
  · rename_i chapter hchapter
    split
    · exact he.of_repertoire rfl
    · rename_i parent hparent
      obtain ⟨hlabel, hbelow⟩ := hc chapter hchapter (by rw [hparent]; rfl)
      have hzero : ∀ q : TrainingData Card → Bool, (∀ d, q d = true → d.enabled = true) →
          node.labels.countP q = if q node.label then 1 else 0 := by
        intro q hq
        have h0 : (Rose.labelsList node.children).countP q = 0 := by
          refine List.countP_eq_zero.mpr fun d hd hqd => ?_
          have := hq d hqd
          simp [hbelow d hd] at this
        conv_lhs => rw [← Rose.eta node, Rose.labels_node, List.countP_cons, h0, Nat.zero_add]
      have hshift := shifts_push env (allocate s.nextRef node).1 parent
      have h1 : countEnabled (allocate s.nextRef node).1 = if node.label.enabled then 1 else 0 := by
        rw [countEnabled, forEachNode_allocate, hzero (·.enabled) fun _ h => h]
        split <;> rfl
      have h2 : unseenMoves env (allocate s.nextRef node).1 = if (userCard env node.label).isNone then 1 else 0 := by
        rw [unseenMoves, forEachNode_allocate, hzero (unseen env) fun _ h => (Bool.and_eq_true_iff.mp h).1,
          userCard_plain hkey, Option.isNone_map]
        rcases hlabel with h | h <;> cases hcard : ownCard env node.label <;> simp_all [unseen]
      rw [h1, h2] at hshift
      exact he.edit hs hchapter (nodeAtPathOrNull_mem_nodes hparent) hshift

theorem Exact.restore {savedPath : JsString} {fetched : Option (List (RawChapter Card))} (he : Exact env s)
    (hkey : env.currentUserKey ∉ objectProperties) : Exact env (s.restore env savedPath fetched) := by
  rw [TrainerState.restore]
  refine Exact.of_repertoire ?_ repertoire_setNextTrainablePosition
  have hf : Exact env (s.fetchRepertoire env fetched) := by
    cases fetched with
    | none => exact he
    | some raw => exact parseChapters_exact hkey s.nextRef raw
  rcases recoverPath_cases (s.fetchRepertoire env fetched) savedPath with ⟨_, _, _, _, hr⟩ | hr <;> rw [hr]
  · exact hf.of_repertoire (repertoire_jump _)
  · exact hf.of_repertoire rfl

/-- An action that adds to the counters what it adds to the trees keeps them exact. -/
theorem Exact.step {a : Action Card} (he : Exact env s) (hkey : env.currentUserKey ∉ objectProperties) (hs : Sound s)
    (ha : Aims s a) (hc : Counted chess env s a) : Exact env (step chess s env a) := by
  cases a with
  | setRepertoire raw => exact parseChapters_exact hkey s.nextRef raw
  | jump path => exact he.of_repertoire (repertoire_jump path)
  | makeMove san => exact he.makeMove hs hc
  | deleteLine path => exact he.deleteLine hkey hs ha hc
  | setNextTrainablePosition => exact he.of_repertoire repertoire_setNextTrainablePosition
  | setCommentAt comment path =>
      simp only [Client.step, TrainerState.setCommentAt]
      split
      · exact he
      · rename_i chapter _
        have hset : Exact env (s.startSetCommentAt chapter comment path).1 :=
          he.mutate hs fun _ _ n _ _ => shifts_setData_zero (g := TrainingData.setComment _) rfl rfl
        split
        · exact hset.send _
        · exact hset.of_repertoire rfl
  | learn => exact he.learn hs hc
  | train correct =>
      simp only [Client.step, TrainerState.train]
      split
      · exact he
      · rename_i chapter target targetPath ht
        split
        · exact he
        · exact he
        · rename_i card hcard
          have hseen : unseen env target.data = false := by rw [unseen, userCard_eq_card.mp hcard]; simp
          exact he.putCard_zero hs hseen (trainingTarget_spec ht).2.2
  | addMove chapterId path node => exact he.addMove hkey hs hc
  | deleteNodeRemote chapterId path =>
      cases hchapter : s.chapter chapterId with
      | none => simpa only [Client.step, TrainerState.deleteNodeRemote, hchapter] using he
      | some chapter =>
          exact (he.removeLine hkey hs hchapter (ha.2 chapter hchapter) (hc chapter hchapter)).of_repertoire
            (deleteNodeRemote_eq env path hchapter).1
  | setCommentRemote chapterId path comment =>
      simp only [Client.step, TrainerState.setCommentRemote]
      split
      · exact he
      · exact he.mutate hs fun _ _ n _ _ => shifts_setData_zero (g := TrainingData.setComment _) rfl rfl
  | updateTrainingRemote chapterId path username card =>
      simp only [Client.step, TrainerState.updateTrainingRemote]
      split
      · exact he
      · rename_i chapter hchapter
        have hroot := rootOf_mem (chapter_root hchapter)
        refine he.mutate hs fun root ht n hn hr => shifts_setCard_zero fun hu h0 => ?_
        rw [hs.eq_of_ref ht hroot hn (nodeAtPath_mem_nodes _ path) hr]
        exact hc chapter hchapter hu h0
  | finishResync i fetched =>
      simp only [Client.step, TrainerState.finishResync]
      split
      · exact he
      · exact Exact.restore (he.of_repertoire rfl) hkey
  | finishDeleteLine i =>
      rcases finishDeleteLine_cases s env i with hd | ⟨msg, path, -, hd⟩ <;> rw [Client.step, hd]
      · exact he
      · have hr : Exact env { s with awaits := s.awaits.eraseIdx i } := he.of_repertoire rfl
        exact (hr.send msg).of_repertoire (repertoire_jump path)
  | finishSetCommentAt i counters => cases ha.1
  | render =>
      simp only [Client.step, TrainerState.render]
      split
      · exact he
      · split <;> exact he.of_repertoire rfl
  | runEffect =>
      simp only [Client.step, TrainerState.runEffect]
      split
      · exact he
      · exact he.of_repertoire rfl
  | selectChapter id => exact he.of_repertoire rfl
  | setTrainingMethod m => exact he.of_repertoire rfl
  | setSearchConfig config => exact he.of_repertoire rfl
  | resyncAndRestore => exact he.of_repertoire rfl

end Chessrepeat.Client
