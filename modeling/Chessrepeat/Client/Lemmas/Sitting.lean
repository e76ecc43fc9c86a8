import Chessrepeat.Client.Lemmas.Counters
import Chessrepeat.Client.Lemmas.Edits
import Chessrepeat.Client.Lemmas.Pgn
import Chessrepeat.Client.Sitting
import Chessrepeat.Lib.Run

/-!
# Training through a chapter

A move waits when the search could return it. What the player does leaves the waiting moves as they are, but for the
target of the search, whose card is written, and the search goes on with a move that waits.
-/

namespace Chessrepeat.Client

open Lib TrainerState

variable {Card : Type}

/-! ## The moves the search could return -/

section Waits

variable {env env' : Env Card} {method : TrainingMethod} {limit : Int} {root : TrainableNode Card} {r : Nat}

/-- The node `r` is a target, and the search gets to it. -/
def Waits (env : Env Card) (method : TrainingMethod) (limit : Int) (root : TrainableNode Card) (r : Nat) : Prop :=
  ∃ i place n, root.get? (i :: place) = some n ∧ Opened limit 0 place ∧ isTarget env method n.label.data = true ∧
    n.label.ref = r

theorem computeNextTrainableNode_none_iff {search : NodeSearch} :
    computeNextTrainableNode env root method search = none ↔ ∀ r, ¬ Waits env method search.limit root r := by
  rw [computeNextTrainableNode_eq_none]
  constructor
  · rintro h r ⟨i, place, n, hn, hopen, htarget, -⟩
    exact absurd htarget (Bool.eq_false_iff.mp (h i place n hn hopen))
  · intro h i place n hn hopen
    exact Bool.eq_false_iff.mpr fun htarget => h _ ⟨i, place, n, hn, hopen, htarget, rfl⟩

/-- What the search returns has been waiting. -/
theorem computeNextTrainableNode_waits {search : NodeSearch} {context : TrainableContext}
    (h : computeNextTrainableNode env root method search = some context) :
    Waits env method search.limit root context.targetMove := by
  obtain ⟨e, ⟨c, hc, hlead⟩, htarget, rfl⟩ := computeNextTrainableNode_entry
    (p := fun e => ∃ c ∈ root.children, DequeEntry.Leads search.limit ⟨0, [], c⟩ e)
    (fun c hc => ⟨c, hc, .refl⟩) (fun e ⟨c, hc, hlead⟩ e' he' => ⟨c, hc, hlead.tail he'⟩) h
  obtain ⟨place, hplace, hopen⟩ := DequeEntry.leads_iff.mp ⟨e, hlead, rfl⟩
  obtain ⟨i, hi⟩ := List.getElem?_of_mem hc
  exact ⟨i, place, e.targetNode, Rose.get?_cons.mpr ⟨c, hi, hplace⟩, hopen, htarget, rfl⟩

/-- The same user at a time that is no earlier. -/
structure Later (env env' : Env Card) : Prop where
  key : env'.currentUserKey = env.currentUserKey
  due : env'.due = env.due
  now : env.now ≤ env'.now

theorem userCard_of_key (h : env'.currentUserKey = env.currentUserKey) : userCard env' = userCard env := by
  funext d
  rw [userCard, userCard, ownCard, ownCard, h]

/-- As time passes cards fall due. -/
theorem Later.isTarget (h : Later env env') {d : TrainingData Card} (ht : isTarget env method d = true) :
    isTarget env' method d = true := by
  rw [isTarget_iff] at ht ⊢
  refine ⟨ht.1, ?_⟩
  have hwanted := ht.2
  simp only [Wanted, userCard_of_key h.key, h.due] at hwanted ⊢
  match method, hwanted with
  | .learn, hwanted => exact hwanted
  | .recall, ⟨card, hcard, hdue⟩ => exact ⟨card, hcard, Int.le_trans hdue h.now⟩

theorem Later.waits (h : Later env env') (hw : Waits env method limit root r) : Waits env' method limit root r := by
  obtain ⟨i, place, n, hn, hopen, htarget, hr⟩ := hw
  exact ⟨i, place, n, hn, hopen, h.isTarget htarget, hr⟩

/-- An edit of the data of the object `q`. -/
def Object.put (q : Nat) (g : TrainingData Card → TrainingData Card) (o : Object Card) : Object Card :=
  if o.ref = q then ⟨o.ref, g o.data⟩ else o

theorem ref_put (q : Nat) (g : TrainingData Card → TrainingData Card) (o : Object Card) : (o.put q g).ref = o.ref := by
  rw [Object.put]; split <;> rfl

theorem data_put (q : Nat) (g : TrainingData Card → TrainingData Card) (o : Object Card) :
    (o.put q g).data = if o.ref = q then g o.data else o.data := by
  rw [Object.put]; split <;> rfl

abbrev putAt (q : Nat) (g : TrainingData Card → TrainingData Card) : TrainableNode Card → TrainableNode Card :=
  Rose.modify (fun l => l.ref = q) fun n : TrainableNode Card => n.setData (g n.data)

theorem get?_putAt {q : Nat} {g : TrainingData Card → TrainingData Card} (hu : (root.labels.map Object.ref).Nodup)
    (place : List Nat) : ((putAt q g root).get? place).map Rose.label =
      (root.get? place).map fun n => n.label.put q g := by
  have h := @Rose.get?_relabel _ (fun l : Object Card => decide (l.ref = q)) (fun l => ⟨l.ref, g l.data⟩) root place
    fun n hn hq a ha => by
      obtain ⟨c, hc, ha⟩ := Rose.mem_labelsList.mp ha
      obtain ⟨m, hm, rfl⟩ := Rose.mem_labels.mp ha
      refine decide_eq_false fun he => Rose.ne_of_below (Rose.nodup_of_mem_nodes hu hn) hc hm ?_
      exact (of_decide_eq_true hq).trans he.symm
  simp only [decide_eq_true_eq] at h
  exact h

theorem waits_putAt {q : Nat} {g : TrainingData Card → TrainingData Card} (hu : (root.labels.map Object.ref).Nodup) :
    Waits env method limit (putAt q g root) r ↔ ∃ i place n, root.get? (i :: place) = some n ∧ Opened limit 0 place ∧
      isTarget env method (if n.label.ref = q then g n.label.data else n.label.data) = true ∧ n.label.ref = r := by
  constructor
  · rintro ⟨i, place, n', hn', hopen, htarget, hr⟩
    have h := get?_putAt (g := g) (q := q) hu (i :: place)
    rw [hn'] at h
    obtain ⟨n, hn, he⟩ := Option.map_eq_some_iff.mp h.symm
    rw [← he, data_put] at htarget
    rw [← he, ref_put] at hr
    exact ⟨i, place, n, hn, hopen, htarget, hr⟩
  · rintro ⟨i, place, n, hn, hopen, htarget, hr⟩
    have h := get?_putAt (g := g) (q := q) hu (i :: place)
    rw [hn] at h
    obtain ⟨n', hn', he⟩ := Option.map_eq_some_iff.mp h
    refine ⟨i, place, n', hn', hopen, ?_, ?_⟩
    · rw [he, data_put]
      exact htarget
    · rw [he, ref_put]
      exact hr

/-- Another node is not touched. -/
theorem waits_putAt_of_ne {q : Nat} {g : TrainingData Card → TrainingData Card} (hu : (root.labels.map Object.ref).Nodup)
    (hne : r ≠ q) : Waits env method limit (putAt q g root) r ↔ Waits env method limit root r := by
  rw [waits_putAt hu]
  refine exists_congr fun i => exists_congr fun place => exists_congr fun n => and_congr_right fun _ => and_congr_right fun _ => ?_
  refine and_congr_left fun hr => ?_
  rw [if_neg fun he => hne (hr.symm.trans he)]

theorem not_waits_putAt {q : Nat} {g : TrainingData Card → TrainingData Card} (hu : (root.labels.map Object.ref).Nodup)
    (hg : ∀ d, isTarget env method (g d) = false) : ¬ Waits env method limit (putAt q g root) q := by
  rw [waits_putAt hu]
  rintro ⟨i, place, n, -, -, htarget, hr⟩
  rw [if_pos hr, hg] at htarget
  cases htarget

/-- A new leaf that is no target. -/
theorem waits_push {p : Object Card → Bool} {o : Object Card} (ho : isTarget env method o.data = false) :
    Waits env method limit (Rose.modify p (TrainableNode.push (.node o [])) root) r ↔ Waits env method limit root r := by
  constructor
  · rintro ⟨i, place, n', hn', hopen, htarget, hr⟩
    rcases Rose.of_get?_push hn' with ⟨n, hn, he⟩ | rfl
    · exact ⟨i, place, n, hn, hopen, he ▸ htarget, he ▸ hr⟩
    · exact absurd htarget (Bool.eq_false_iff.mp ho)
  · rintro ⟨i, place, n, hn, hopen, htarget, hr⟩
    obtain ⟨n', hn', he⟩ := Rose.get?_push (p := p) (d := .node o []) hn
    exact ⟨i, place, n', hn', hopen, he ▸ htarget, he ▸ hr⟩

end Waits

/-! ## The store -/

variable {s s' : TrainerState Card} {env env' : Env Card} {chess : Chessops} {r : Nat}

/-- The move waits in the selected chapter, for the method that is chosen. -/
def Waiting (env : Env Card) (s : TrainerState Card) (r : Nat) : Prop :=
  ∃ root method, s.selectedRoot = some root ∧ s.trainingMethod = some method ∧ Waits env method s.searchConfig.limit root r

/-- What the search and its result depend on, and the tip. -/
structure Edits (f : TrainableNode Card → TrainableNode Card) (s s' : TrainerState Card) : Prop where
  selectedRoot : s'.selectedRoot = s.selectedRoot.map f
  trainingMethod : s'.trainingMethod = s.trainingMethod
  searchConfig : s'.searchConfig = s.searchConfig
  trainableContext : s'.trainableContext = s.trainableContext
  userTip : s'.userTip = s.userTip

theorem Edits.of_eq (hroot : s'.selectedRoot = s.selectedRoot) (hmethod : s'.trainingMethod = s.trainingMethod)
    (hconfig : s'.searchConfig = s.searchConfig) (hcontext : s'.trainableContext = s.trainableContext)
    (htip : s'.userTip = s.userTip) : Edits id s s' :=
  ⟨by rw [hroot, Option.map_id_fun, id], hmethod, hconfig, hcontext, htip⟩

theorem Edits.waiting {f : TrainableNode Card → TrainableNode Card} (h : Edits f s s')
    (hf : ∀ root method, s.selectedRoot = some root → s.trainingMethod = some method →
      (Waits env method s.searchConfig.limit (f root) r ↔ Waits env method s.searchConfig.limit root r)) :
    Waiting env s' r ↔ Waiting env s r := by
  rw [Waiting, Waiting, h.selectedRoot, h.trainingMethod, h.searchConfig]
  constructor
  · rintro ⟨root', method, hroot', hmethod, hw⟩
    obtain ⟨root, hroot, rfl⟩ := Option.map_eq_some_iff.mp hroot'
    exact ⟨root, method, hroot, hmethod, (hf root method hroot hmethod).mp hw⟩
  · rintro ⟨root, method, hroot, hmethod, hw⟩
    exact ⟨f root, method, by rw [hroot]; rfl, hmethod, (hf root method hroot hmethod).mpr hw⟩

theorem Edits.waiting_id (h : Edits id s s') : Waiting env s' r ↔ Waiting env s r := h.waiting fun _ _ _ _ => Iff.rfl

theorem Later.waiting (h : Later env env') (hw : Waiting env s r) : Waiting env' s r := by
  obtain ⟨root, method, hroot, hmethod, hw⟩ := hw
  exact ⟨root, method, hroot, hmethod, h.waits hw⟩

theorem Edits.jump (path : JsString) : Edits id s (s.jump path) := by
  refine .of_eq (selectedRoot_jump path) (trainingMethod_jump path) ?_ ?_ ?_ <;>
    (rw [TrainerState.jump]; split <;> rfl)

theorem Edits.updateDueCounts : Edits id s (s.updateDueCounts env) := by
  refine .of_eq ?_ (trainingMethod_of_rest (rest_updateDueCounts env)) ?_ ?_ ?_
  · rw [selectedRoot_eq, selectedRoot_eq, selectedChapterId_of_rest (rest_updateDueCounts env)]
    cases s.selectedChapterId with
    | none => rfl
    | some uuid => exact rootOf_updateDueCounts env uuid
  all_goals
    rw [TrainerState.updateDueCounts]
    split
    · rfl
    · split <;> rfl

theorem Edits.render : Edits id s s.render := by
  rw [TrainerState.render]
  split
  · exact .of_eq rfl rfl rfl rfl rfl
  · dsimp only
    split <;> exact .of_eq rfl rfl rfl rfl rfl

theorem Edits.runEffect : Edits id s s.runEffect := by
  rw [TrainerState.runEffect]
  split <;> exact .of_eq rfl rfl rfl rfl rfl

/-- Outside the edit mode a move on the board only adds a node, without cards. -/
theorem makeMove_edits (chess : Chessops) (env : Env Card) (san : JsString) (hedit : s.trainingMethod ≠ some .edit) :
    Edits id s (s.makeMove chess env san) ∨ ∃ q, ∃ o : Object Card, o.data.training = some [] ∧
      Edits (Rose.modify (fun l => l.ref = q) (TrainableNode.push (.node o []))) s (s.makeMove chess env san) := by
  have hsame : Edits id s s := .of_eq rfl rfl rfl rfl rfl
  rw [TrainerState.makeMove]
  split
  · rename_i chapter node _ _
    split
    · exact Or.inl hsame
    · rename_i s' he
      have hfollow : s'.follow node.label.ref san = s' := by
        have hmethod : s'.trainingMethod = s.trainingMethod := by
          rcases extend_cases he with ⟨-, rfl⟩ | ⟨-, d, -, n, -, rfl⟩
          · rfl
          · rw [send_eq]; rfl
        rw [TrainerState.follow, hmethod, if_neg hedit]
      rw [hfollow]
      rcases extend_cases he with ⟨-, rfl⟩ | ⟨-, d, hd, n, -, rfl⟩
      · exact Or.inl hsame
      · right
        have htraining : d.training = some [] := by
          obtain ⟨pos, -, hd⟩ := Option.bind_eq_some_iff.mp hd
          obtain ⟨move, -, rfl⟩ := Option.map_eq_some_iff.mp hd
          rfl
        refine ⟨node.ref, ⟨s.nextRef, d⟩, htraining, ?_, ?_, ?_, ?_, ?_⟩
        · rw [selectedRoot_send, selectedRoot_pushNew, selectedRoot_onChapter (Counts.addCounts _ _)]
          rfl
        all_goals
          rw [send_eq]
          rfl
  · exact Or.inl hsame

theorem putCard_edits {chapter : Chapter Card} {target : TrainableNode Card} {path : JsString} {card : Card} :
    Edits (putAt target.ref fun d => d.setCard env.currentUserKey card) s (s.putCard env chapter target path card) := by
  refine ⟨?_, ?_, ?_, ?_, ?_⟩
  · rw [putCard, selectedRoot_send, selectedRoot_mutate]
  all_goals
    rw [putCard, send_eq]
    rfl

/-! ## The way to the target -/

/-- The target is a child of the node at the starting path. -/
def Reaches (root : TrainableNode Card) (context : TrainableContext) : Prop :=
  ∃ id n, context.startingPath.length % 2 = 0 ∧ id.length = 2 ∧
    nodeAtPathOrNull root (context.startingPath ++ id) = some n ∧ n.label.ref = context.targetMove

theorem computeNextTrainableNode_reaches {root : TrainableNode Card} {method : TrainingMethod} {search : NodeSearch}
    {context : TrainableContext} (hd : DistinctIds root) (h2 : TwoUnits root)
    (h : computeNextTrainableNode env root method search = some context) : Reaches root context := by
  obtain ⟨n, c, hn, hc, hr⟩ := computeNextTrainableNode_at hd h2 h
  have hnode := nodeAtPathOrNull_mem_nodes hn
  have hid : c.label.id.length = 2 := (h2.node hnode).id_child hc
  refine ⟨c.label.id, c, h2.even hn, hid, ?_, hr⟩
  rw [nodeAtPathOrNull_append (h2.even hn) hid, hn]
  exact (hd.sub hnode).child?_key hc

theorem Reaches.push {root : TrainableNode Card} {context : TrainableContext} {p : Object Card → Bool} {c : TrainableNode Card}
    (h : Reaches root context) : Reaches (Rose.modify p (TrainableNode.push c) root) context := by
  obtain ⟨id, n, heven, hid, hn, hr⟩ := h
  obtain ⟨m, hm, he⟩ := Rose.at?_modify_keep (g := Object.ref) (p := p) (f := TrainableNode.push c) (fun _ _ => rfl)
    (fun _ _ => rfl) hn fun _ _ _ _ _ _ _ hc => childById_push hc
  exact ⟨id, m, heven, hid, hm, he.trans hr⟩

/-- Without the new child the ids are distinct all the more. -/
theorem DistinctIds.of_push {root c : TrainableNode Card} {p : Object Card → Bool}
    (h : DistinctIds (Rose.modify p (TrainableNode.push c) root)) : DistinctIds root := by
  induction root using Rose.ind with
  | h a cs ih =>
      have hsplit : ∀ {us : List (TrainableNode Card)}, (us.map fun c => c.label.id).Nodup →
          (∀ d ∈ us, DistinctIds d) → DistinctIds (Rose.node a us) := by
        intro us hus hds n hn
        rcases Rose.mem_nodes.mp hn with rfl | ⟨d, hd, hn⟩
        · exact hus
        · exact hds d hd n hn
      cases hp : p a with
      | true =>
          rw [Rose.modify_of_pos hp] at h
          have hroot := h _ (Rose.self_mem_nodes _)
          rw [TrainableNode.push, Rose.children_node, List.map_append] at hroot
          exact hsplit (List.nodup_append.mp hroot).1 fun d hd =>
            h.sub (Rose.child_mem_nodes (List.mem_append_left _ hd))
      | false =>
          rw [Rose.modify_of_neg hp] at h
          have hroot := h _ (Rose.self_mem_nodes _)
          have hkeys : ((cs.map (Rose.modify p (TrainableNode.push c))).map fun d => d.label.id) = cs.map fun d => d.label.id := by
            rw [List.map_map]
            refine List.map_congr_left fun d _ => Rose.label_modify (g := Object.id) (fun n _ => ?_) d
            rfl
          rw [Rose.children_node, Rose.children_node, hkeys] at hroot
          exact hsplit hroot fun d hd => ih d hd (h.sub (Rose.child_mem_nodes (List.mem_map_of_mem hd)))

/-! ## The search -/

/-- The search comes to its end, or goes on with a move that waits. -/
theorem setNextTrainablePosition_waiting (env : Env Card) (hm : Searching s) (hroot : s.selectedRoot ≠ none) :
    (s.setNextTrainablePosition env).selectedRoot = s.selectedRoot ∧
      (s.setNextTrainablePosition env).trainingMethod = s.trainingMethod ∧
      (s.setNextTrainablePosition env).searchConfig = s.searchConfig ∧
      (((s.setNextTrainablePosition env).trainableContext = none ∧ (s.setNextTrainablePosition env).userTip = .empty ∧
          ∀ r, ¬ Waiting env s r) ∨
        ∃ context, (s.setNextTrainablePosition env).trainableContext = some context ∧
          (s.setNextTrainablePosition env).userTip ≠ .empty ∧ Waiting env s context.targetMove ∧
            ∀ root, s.selectedRoot = some root → TwoUnits root → DistinctIds root → Reaches root context) := by
  obtain ⟨m, hm, hedit⟩ := hm
  rcases setNextTrainablePosition_cases s env with ⟨hno, -⟩ | ⟨c, m', hc, hm', -, hx, he⟩ | ⟨c, m', x, hc, hm', -, hx, he⟩
  · rcases hno with hno | hno
    · exact absurd (by rw [selectedRoot, hno]; rfl) hroot
    · exact absurd (hno m hm) hedit
  · rw [he]
    refine ⟨rfl, rfl, rfl, Or.inl ⟨rfl, rfl, ?_⟩⟩
    rintro r ⟨root, method, hr, hmethod, hw⟩
    obtain rfl : c.root = root := Option.some.inj ((selectedChapter_root hc).symm.trans hr)
    obtain rfl : m' = method := Option.some.inj (hm'.symm.trans hmethod)
    exact computeNextTrainableNode_none_iff.mp hx r hw
  · rw [he]
    have hroot' := selectedChapter_root hc
    refine ⟨rfl, rfl, rfl, Or.inr ⟨x, rfl, by simp, ⟨c.root, m', hroot', hm', computeNextTrainableNode_waits hx⟩, ?_⟩⟩
    intro root hr h2 hd
    obtain rfl : c.root = root := Option.some.inj (hroot'.symm.trans hr)
    exact computeNextTrainableNode_reaches hd h2 hx

theorem Sound.updateDueCounts (h : Sound s) : Sound (s.updateDueCounts env) :=
  h.congr (roots_updateDueCounts env) (Nat.le_of_eq (nextRef_of_rest (rest_updateDueCounts env)).symm)

/-! ## The sitting -/

section Course

/-- The environment at another time. -/
def Env.at (env : Env Card) (time : Int) : Env Card := { env with now := time }

/-- The same user, from the time of `env` to `until`. -/
structure InTime (env : Env Card) (limit : Int) (env' : Env Card) : Prop extends Later env env' where
  upTo : env'.now ≤ limit

theorem InTime.toEnd {limit : Int} (h : InTime env limit env') : Later env' (env.at limit) := ⟨h.key.symm, h.due.symm, h.upTo⟩

/-- What holds of a sitting that began with the store `s0`, until the time `limit`: nothing is lost of what waited in the
beginning, and nothing is trained that did not wait. -/
structure Underway (env : Env Card) (limit : Int) (s0 : TrainerState Card) (s : Sitting Card) : Prop where
  sound : Sound s.store
  searching : Searching s.store
  method : s.store.trainingMethod = s0.trainingMethod
  selected : s.store.selectedRoot ≠ none
  known : ∀ r, Waiting (env.at limit) s.store r → Waiting (env.at limit) s0 r
  pending : ∀ r, Waiting env s0 r → r ∈ s.trained ∨ Waiting env s.store r
  trained : ∀ r ∈ s.trained, Waiting (env.at limit) s0 r

/-- The target waits, and where there is none nothing does. -/
structure Course (env : Env Card) (limit : Int) (s0 : TrainerState Card) (s : Sitting Card) : Prop extends Underway env limit s0 s where
  ended : s.store.trainableContext = none → ∀ r, ¬ Waiting env s.store r
  target : ∀ context, s.store.trainableContext = some context → Waiting (env.at limit) s.store context.targetMove
  reaches : ∀ context root, s.store.trainableContext = some context → s.store.selectedRoot = some root → DistinctIds root →
    Reaches root context
  shown : s.empty = true ↔ s.store.trainableContext = none
  asked : s.verdict ≠ none → s.store.trainingMethod = some .recall

/-- The reviews are due after the time `limit`, if any are made. -/
def Rests (env : Env Card) (limit : Int) (s : TrainerState Card) (env' : Env Card) : Prop :=
  s.trainingMethod = some .recall → ∀ card correct, limit < env.due (env'.reviewCard card correct)

/-- The card of the user for the move `r` of the selected chapter. -/
def HasCard (env : Env Card) (s : TrainerState Card) (r : Nat) (card : Card) : Prop :=
  ∃ root, s.selectedRoot = some root ∧ ∃ n ∈ root.nodes, n.label.ref = r ∧ ownCard env n.label.data = some card

/-- A card for the move `q` is written, a review of an older one if the method is to recall. As long as it is not due the move does
not wait, and for the others nothing changes. -/
structure Writes (env env' : Env Card) (q : Nat) (card : Card) (s s' : TrainerState Card) : Prop where
  hasCard : HasCard env' s' q card
  others : ∀ e r, r ≠ q → (Waiting e s' r ↔ Waiting e s r)
  rests : ∀ e, e.currentUserKey = env.currentUserKey → (s.trainingMethod = some .recall → e.now < e.due card) → ¬ Waiting e s' q
  reviewed : s.trainingMethod = some .recall → ∃ old correct, card = env'.reviewCard old correct

/-- Either what waits and the target stay the same, or the target is trained and the next one is a move that waits. -/
inductive Advances (env : Env Card) (limit : Int) (env' : Env Card) (s s' : Sitting Card) : Prop where
  | same (trained : s'.trained = s.trained) (waiting : ∀ e r, Waiting e s'.store r ↔ Waiting e s.store r)
      (target : s'.store.trainableContext = s.store.trainableContext)
  | trains (context : TrainableContext) (card : Card) (trained : s'.trained = s.trained ++ [context.targetMove])
      (target : s.store.trainableContext = some context) (waited : Waiting (env.at limit) s.store context.targetMove)
      (writes : Writes env env' context.targetMove card s.store s'.store)
      (next : ∀ c, s'.store.trainableContext = some c → Waiting env' s'.store c.targetMove)

variable {limit : Int} {s0 : TrainerState Card} {s s' : Sitting Card}

/-- A sitting goes on until the tip says that there is nothing to train. -/
theorem Underway.search (h : Underway env limit s0 s) (hin : InTime env limit env') :
    Course env limit s0 (s.setNextTrainablePosition env') := by
  obtain ⟨hroot, hmethod, hconfig, hcontext⟩ := setNextTrainablePosition_waiting env' h.searching h.selected
  have hwaiting : ∀ e r, Waiting e (s.store.setNextTrainablePosition env') r ↔ Waiting e s.store r := fun e r => by
    rw [Waiting, Waiting, hroot, hmethod, hconfig]
  have hverdict : (s.setNextTrainablePosition env').verdict = none := by
    obtain ⟨m, hm, hedit⟩ := h.searching
    have hchapter : s.store.selectedChapter.isSome := by
      cases hc : s.store.selectedChapter with
      | none => exact absurd (by rw [selectedRoot, hc]; rfl) h.selected
      | some c => rfl
    simp only [Sitting.setNextTrainablePosition, hm, hchapter]
    simp [hedit]
  have hempty : (s.setNextTrainablePosition env').empty = true ↔
      (s.store.setNextTrainablePosition env').userTip = .empty := by
    rw [Sitting.empty, hverdict, Bool.and_eq_true, decide_eq_true_iff, decide_eq_true_iff]
    exact and_iff_left rfl
  refine { sound := h.sound.setNextTrainablePosition, searching := ?_, method := hmethod.trans h.method, selected := ?_, known := ?_, pending := ?_,
           trained := h.trained, ended := ?_, target := ?_, reaches := ?_, shown := ?_, asked := ?_ }
  · exact (Searching.congr hmethod).mpr h.searching
  · change (s.store.setNextTrainablePosition env').selectedRoot ≠ none
    rw [hroot]
    exact h.selected
  · exact fun r hr => h.known r ((hwaiting _ r).mp hr)
  · exact fun r hr => (h.pending r hr).imp_right (hwaiting _ r).mpr
  · intro hnone r hr
    rcases hcontext with ⟨-, -, hno⟩ | ⟨context, hsome, -⟩
    · exact hno r (hin.toLater.waiting ((hwaiting _ r).mp hr))
    · exact absurd (hnone.symm.trans hsome) (by simp)
  · intro context hsome
    rcases hcontext with ⟨hnone, -⟩ | ⟨context', hsome', -, hw, -⟩
    · exact absurd (hnone.symm.trans hsome) (by simp)
    · obtain rfl : context' = context := Option.some.inj (hsome'.symm.trans hsome)
      exact (hwaiting _ _).mpr (hin.toEnd.waiting hw)
  · intro context root hsome hr hd
    rcases hcontext with ⟨hnone, -⟩ | ⟨context', hsome', -, -, hreach⟩
    · exact absurd (hnone.symm.trans hsome) (by simp)
    · obtain rfl : context' = context := Option.some.inj (hsome'.symm.trans hsome)
      have hr' : s.store.selectedRoot = some root := hroot.symm.trans hr
      exact hreach root hr' (h.sound.twoUnits _ (selectedRoot_mem hr')) hd
  · rw [hempty]
    rcases hcontext with ⟨hnone, htip, -⟩ | ⟨context, hsome, htip, -⟩
    · exact iff_of_true htip hnone
    · exact iff_of_false htip (by
        change (s.store.setNextTrainablePosition env').trainableContext ≠ none
        rw [hsome]; simp)
  · exact fun hne => absurd hverdict hne

/-- What leaves the waiting moves alone and the target within reach. -/
theorem Course.edits {f : TrainableNode Card → TrainableNode Card} (h : Course env limit s0 s) (hs : Sound s'.store)
    (he : Edits f s.store s'.store) (hw : ∀ e r, Waiting e s'.store r ↔ Waiting e s.store r)
    (hf : ∀ root context, (DistinctIds root → Reaches root context) → DistinctIds (f root) → Reaches (f root) context)
    (htrained : s'.trained = s.trained) (hverdict : s'.verdict = s.verdict) : Course env limit s0 s' := by
  have hempty : s'.empty = s.empty := by rw [Sitting.empty, Sitting.empty, he.userTip, hverdict]
  refine { sound := hs, searching := ?_, method := he.trainingMethod.trans h.method, selected := ?_,
           known := fun r hr => h.known r ((hw _ r).mp hr), pending := ?_, trained := fun r hr => h.trained r (htrained ▸ hr), ended := ?_, target := ?_, reaches := ?_,
           shown := ?_, asked := ?_ }
  · exact (Searching.congr he.trainingMethod).mpr h.searching
  · rw [he.selectedRoot, ne_eq, Option.map_eq_none_iff]
    exact h.selected
  · rw [htrained]
    exact fun r hr => (h.pending r hr).imp_right (hw _ r).mpr
  · rw [he.trainableContext]
    exact fun hnone r hr => h.ended hnone r ((hw _ r).mp hr)
  · rw [he.trainableContext]
    exact fun context hsome => (hw _ _).mpr (h.target context hsome)
  · rw [he.trainableContext, he.selectedRoot]
    intro context root' hsome hroot'
    obtain ⟨root, hroot, rfl⟩ := Option.map_eq_some_iff.mp hroot'
    exact hf root context (h.reaches context root hsome hroot)
  · rw [hempty, he.trainableContext]
    exact h.shown
  · rw [hverdict, he.trainingMethod]
    exact h.asked

theorem Course.edits_id (h : Course env limit s0 s) {t : TrainerState Card} (hs : Sound t) (he : Edits id s.store t) :
    Course env limit s0 { s with store := t } := by
  refine h.edits ?_ he (fun _ _ => he.waiting_id) (fun _ _ hr => hr) rfl rfl
  exact hs

/-- The player has guessed, and the guess was not right. -/
theorem Course.answered (h : Course env limit s0 s) (hmethod : s.store.trainingMethod = some .recall)
    (hcontext : s.store.trainableContext ≠ none) (san : JsString) (verdict : Verdict) :
    Course env limit s0 { s with lastGuess := san, verdict := some verdict } :=
  { h with
    shown := iff_of_false (by simp [Sitting.empty]) hcontext
    asked := fun _ => hmethod }

theorem Course.context_of_verdict (h : Course env limit s0 s) (hverdict : s.verdict ≠ none) :
    ∃ context, s.store.trainableContext = some context := by
  refine Option.ne_none_iff_exists'.mp fun hnone => ?_
  have hempty := h.shown.mpr hnone
  rw [Sitting.empty, Bool.and_eq_true, decide_eq_true_iff, decide_eq_true_iff] at hempty
  exact hverdict hempty.2

theorem Course.resetTip (h : Course env limit s0 s) (hverdict : s.verdict ≠ none) : Course env limit s0 s.resetTip := by
  obtain ⟨context, hcontext⟩ := h.context_of_verdict hverdict
  have hsome : s.store.trainableContext ≠ none := by rw [hcontext]; simp
  exact
    { h with
      sound := h.sound.of_repertoire rfl rfl
      shown := iff_of_false (by simp [Sitting.empty, Sitting.resetTip]) hsome
      asked := fun hne => absurd rfl hne }

/-- The target is found where the cards are written. -/
theorem Course.exists_target (h : Course env limit s0 s) (hkey : env'.currentUserKey ≠ []) {context : TrainableContext}
    (hcontext : s.store.trainableContext = some context) :
    ∃ chapter n path method, s.store.trainingTarget env' = some (chapter, n, path) ∧ n.label.ref = context.targetMove ∧
      s.store.trainingMethod = some method ∧ isTarget (env.at limit) method n.label.data = true := by
  obtain ⟨root, method, hroot, hmethod, i, place, n, hn, -, htarget, hr⟩ := h.target context hcontext
  have hderef := h.sound.deref (selectedRoot_mem hroot) (Rose.get?_mem_nodes hn)
  obtain ⟨chapter, hchapter, -⟩ := Option.map_eq_some_iff.mp hroot
  refine ⟨chapter, n, context.startingPath ++ n.label.data.id, method, ?_, hr, hmethod, htarget⟩
  rw [trainingTarget, hchapter, hcontext]
  simp only [if_neg hkey, ← hr, hderef, Option.map_some]

/-- The card of the target is written. -/
theorem Underway.put {q : Nat} {f : TrainableNode Card → TrainableNode Card} (h : Underway env limit s0 s)
    (hq : Waiting (env.at limit) s.store q) (hs : Sound s'.store) (he : Edits f s.store s'.store)
    (hothers : ∀ e r, r ≠ q → (Waiting e s'.store r ↔ Waiting e s.store r)) (htrained : s'.trained = s.trained ++ [q]) :
    Underway env limit s0 s' := by
  refine { sound := hs, searching := ?_, method := he.trainingMethod.trans h.method, selected := ?_, known := ?_,
           pending := ?_, trained := ?_ }
  · exact (Searching.congr he.trainingMethod).mpr h.searching
  · rw [he.selectedRoot, ne_eq, Option.map_eq_none_iff]
    exact h.selected
  · intro r hr
    by_cases hne : r = q
    · exact h.known r (hne ▸ hq)
    · exact h.known r ((hothers _ r hne).mp hr)
  · intro r hr
    rw [htrained, List.mem_append, List.mem_singleton]
    by_cases hne : r = q
    · exact Or.inl (Or.inr hne)
    · exact (h.pending r hr).imp Or.inl (hothers _ r hne).mpr
  · intro r hr
    rw [htrained, List.mem_append, List.mem_singleton] at hr
    rcases hr with hr | rfl
    · exact h.trained r hr
    · exact h.known r hq

/-- A move that has its card, or one whose card does not fall due again, is no target. -/
theorem not_isTarget_setCard (env : Env Card) {method : TrainingMethod} {card : Card} {d : TrainingData Card}
    (hkey : env.currentUserKey ≠ []) (hdue : method = .recall → env.now < env.due card) :
    isTarget env method (d.setCard env.currentUserKey card) = false := by
  have hcard : userCard env (d.setCard env.currentUserKey card) = some (.card card) :=
    userCard_of_ownCard (by rw [ownCard_setCard, if_pos ⟨rfl, hkey⟩])
  rw [Bool.eq_false_iff, ne_eq, isTarget_iff]
  rintro ⟨-, hwanted⟩
  match method, hwanted with
  | .learn, hwanted => exact absurd (hcard.symm.trans hwanted) (by simp)
  | .recall, ⟨card', hcard', hle⟩ =>
      obtain rfl : card = card' := by simpa using hcard.symm.trans hcard'
      exact absurd (hdue rfl) (Int.not_lt.mpr hle)

/-- A new card for the move `q`. -/
structure Puts (env' : Env Card) (q : Nat) (card : Card) (s s' : Sitting Card) : Prop where
  sound : Sound s'.store
  edits : Edits (putAt q fun d => d.setCard env'.currentUserKey card) s.store s'.store
  trained : s'.trained = s.trained ++ [q]
  reviewed : s.store.trainingMethod = some .recall → ∃ old correct, card = env'.reviewCard old correct

theorem Course.learn_puts (h : Course env limit s0 s) (hkey : env'.currentUserKey ≠ []) (hmethod : s.store.trainingMethod = some .learn)
    {context : TrainableContext} (hcontext : s.store.trainableContext = some context) :
    ∃ card, Puts env' context.targetMove card s (s.learn env') := by
  obtain ⟨chapter, n, path, method, ht, hn, -⟩ := h.exists_target hkey hcontext
  have hstore : (s.learn env').store =
      (s.store.onChapter chapter.uuid (Chapter.addCounts 0 (-1))).putCard env' chapter n path env'.createCard := by
    simp only [Sitting.learn, TrainerState.learn, ht]
  have he := @putCard_edits _ (s.store.onChapter chapter.uuid (Chapter.addCounts 0 (-1))) env' chapter n path env'.createCard
  rw [← hstore] at he
  rw [← hn]
  refine ⟨env'.createCard, ?_, ⟨?_, he.trainingMethod, he.searchConfig, he.trainableContext, he.userTip⟩, ?_, ?_⟩
  · rw [hstore]
    exact (h.sound.onChapter (Counts.addCounts _ _)).putCard
  · rw [he.selectedRoot, selectedRoot_onChapter (Counts.addCounts _ _)]
    rfl
  · simp only [Sitting.learn, ht, Option.map_some, Option.toList_some]
    rfl
  · exact fun hrecall => absurd (hmethod.symm.trans hrecall) (by simp)

theorem Course.train_puts (h : Course env limit s0 s) (hin : InTime env limit env') (hkey : env'.currentUserKey ≠ [])
    (hmethod : s.store.trainingMethod = some .recall) {context : TrainableContext}
    (hcontext : s.store.trainableContext = some context) (correct : Bool) :
    ∃ card, Puts env' context.targetMove card s (s.train env' correct) := by
  obtain ⟨chapter, n, path, method, ht, hn, hmethod', htarget⟩ := h.exists_target hkey hcontext
  obtain rfl : TrainingMethod.recall = method := Option.some.inj (hmethod.symm.trans hmethod')
  obtain ⟨oldCard, hcard, -⟩ := (isTarget_iff.mp htarget).2
  have hcard : userCard env' n.data = some (.card oldCard) := by
    rw [← hcard, userCard_of_key hin.toEnd.key]
    rfl
  have hstore : (s.train env' correct).store = s.store.putCard env' chapter n path (env'.reviewCard oldCard correct) := by
    simp only [Sitting.train, TrainerState.train, ht, hcard]
  rw [← hn]
  refine ⟨env'.reviewCard oldCard correct, ?_, ?_, ?_, fun _ => ⟨oldCard, correct, rfl⟩⟩
  · rw [hstore]
    exact h.sound.putCard
  · rw [hstore]
    exact putCard_edits
  · simp only [Sitting.train, ht, Option.bind_some, userCard_eq_card.mp hcard, Option.map_some, Option.toList_some]
    rfl

theorem Puts.writes {q : Nat} {card : Card} (hp : Puts env' q card s s') (hs : Sound s.store) {e : Env Card}
    (hwaited : Waiting e s.store q) (hkey : env'.currentUserKey ≠ []) (hsame : env'.currentUserKey = env.currentUserKey) :
    Writes env env' q card s.store s'.store where
  hasCard := by
    obtain ⟨root, -, hroot, -, i, place, n, hn, -, -, hr⟩ := hwaited
    refine ⟨_, by rw [hp.edits.selectedRoot, hroot]; rfl, ?_⟩
    have h := get?_putAt (q := q) (g := fun d : TrainingData Card => d.setCard env'.currentUserKey card)
      (hs.root_nodup (selectedRoot_mem hroot)) (i :: place)
    rw [hn] at h
    obtain ⟨n', hn', he⟩ := Option.map_eq_some_iff.mp h
    refine ⟨n', Rose.get?_mem_nodes hn', by rw [he, ref_put, hr], ?_⟩
    rw [he, data_put, if_pos hr, ownCard_setCard, if_pos ⟨rfl, hkey⟩]
  others e r hne := hp.edits.waiting fun root method hroot _ => waits_putAt_of_ne (hs.root_nodup (selectedRoot_mem hroot)) hne
  rests := by
    rintro e hekey hdue ⟨root', method, hroot', hmethod, hw⟩
    rw [hp.edits.selectedRoot] at hroot'
    obtain ⟨root, hroot, rfl⟩ := Option.map_eq_some_iff.mp hroot'
    rw [hp.edits.trainingMethod] at hmethod
    refine not_waits_putAt (hs.root_nodup (selectedRoot_mem hroot)) (fun d => ?_) hw
    rw [hsame, ← hekey] at hkey ⊢
    exact not_isTarget_setCard e hkey fun hrecall => hdue (hmethod.trans (congrArg some hrecall))
  reviewed := hp.reviewed

/-- The target has its card, and the search goes on. -/
theorem Puts.advances {context : TrainableContext} {card : Card} (hp : Puts env' context.targetMove card s s')
    (h : Course env limit s0 s) (hin : InTime env limit env') (hkey : env'.currentUserKey ≠ [])
    (hcontext : s.store.trainableContext = some context) :
    Course env limit s0 (s'.setNextTrainablePosition env') ∧ Advances env limit env' s (s'.setNextTrainablePosition env') := by
  have hq := h.target context hcontext
  have hw : Writes env env' context.targetMove card s.store s'.store := hp.writes h.sound hq hkey hin.key
  have hunderway : Underway env limit s0 s' := h.toUnderway.put hq hp.sound hp.edits hw.others hp.trained
  obtain ⟨hroot, hmethod, hconfig, hnext⟩ := setNextTrainablePosition_waiting env' hunderway.searching hunderway.selected
  have hwaiting : ∀ e r, Waiting e (s'.store.setNextTrainablePosition env') r ↔ Waiting e s'.store r := fun e r => by
    rw [Waiting, Waiting, hroot, hmethod, hconfig]
  refine ⟨hunderway.search hin, .trains context card hp.trained hcontext hq ⟨?_, ?_, ?_, hw.reviewed⟩ fun c hc => ?_⟩
  · obtain ⟨root, hroot', hn⟩ := hw.hasCard
    exact ⟨root, hroot.trans hroot', hn⟩
  · exact fun e r hne => (hwaiting e r).trans (hw.others e r hne)
  · exact fun e hekey hdue hwaits => hw.rests e hekey hdue ((hwaiting e _).mp hwaits)
  · rcases hnext with ⟨hnone, -⟩ | ⟨c', hc', -, hw', -⟩
    · exact absurd (hnone.symm.trans hc) (by simp)
    · obtain rfl : c' = c := Option.some.inj (hc'.symm.trans hc)
      exact (hwaiting env' _).mpr hw'

/-- The card goes with another one of the same id. -/
theorem Puts.distinctIds {q : Nat} {card : Card} (hp : Puts env' q card s s') {root : TrainableNode Card}
    (hroot : s.store.selectedRoot = some root) (hd : DistinctIds root) :
    ∃ root', s'.store.selectedRoot = some root' ∧ DistinctIds root' := by
  refine ⟨_, by rw [hp.edits.selectedRoot, hroot]; rfl, ?_⟩
  exact Rose.Distinct.modify (fun _ _ => rfl) (fun n _ _ hn m hm => by
    rcases Rose.mem_nodes.mp hm with rfl | ⟨c, hc, hm⟩
    · exact hn n (Rose.self_mem_nodes n)
    · exact hn m (Rose.mem_nodes.mpr (Or.inr ⟨c, hc, hm⟩))) hd

theorem Course.learn (h : Course env limit s0 s) (hin : InTime env limit env') (hkey : env'.currentUserKey ≠ [])
    (hmethod : s.store.trainingMethod = some .learn) {context : TrainableContext}
    (hcontext : s.store.trainableContext = some context) :
    Course env limit s0 ((s.learn env').setNextTrainablePosition env') ∧
      Advances env limit env' s ((s.learn env').setNextTrainablePosition env') := by
  obtain ⟨card, hp⟩ := h.learn_puts hkey hmethod hcontext
  exact hp.advances h hin hkey hcontext

theorem Course.train (h : Course env limit s0 s) (hin : InTime env limit env') (hkey : env'.currentUserKey ≠ [])
    (hmethod : s.store.trainingMethod = some .recall) {context : TrainableContext}
    (hcontext : s.store.trainableContext = some context) (correct : Bool) :
    Course env limit s0 ((s.train env' correct).setNextTrainablePosition env') ∧
      Advances env limit env' s ((s.train env' correct).setNextTrainablePosition env') := by
  obtain ⟨card, hp⟩ := h.train_puts hin hkey hmethod hcontext correct
  exact hp.advances h hin hkey hcontext

/-- What touches neither the waiting moves nor the target may come before and after. -/
theorem Advances.before {u : Sitting Card} (h : Advances env limit env' u s') (he : Edits id s.store u.store)
    (htrained : u.trained = s.trained) : Advances env limit env' s s' := by
  have hw : ∀ e r, Waiting e u.store r ↔ Waiting e s.store r := fun _ _ => he.waiting_id
  cases h with
  | same trained waiting target =>
      exact .same (trained.trans htrained) (fun e r => (waiting e r).trans (hw e r)) (target.trans he.trainableContext)
  | trains context card trained target waited writes next =>
      refine .trains context card (trained.trans (by rw [htrained])) (he.trainableContext.symm.trans target) ((hw _ _).mp waited)
        ⟨writes.hasCard, fun e r hne => (writes.others e r hne).trans (hw e r), ?_, ?_⟩ next
      · rw [← he.trainingMethod]
        exact writes.rests
      · rw [← he.trainingMethod]
        exact writes.reviewed

theorem Advances.after {u : Sitting Card} (h : Advances env limit env' s u) (he : Edits id u.store s'.store)
    (htrained : s'.trained = u.trained) : Advances env limit env' s s' := by
  have hw : ∀ e r, Waiting e s'.store r ↔ Waiting e u.store r := fun _ _ => he.waiting_id
  cases h with
  | same trained waiting target =>
      exact .same (htrained.trans trained) (fun e r => (hw e r).trans (waiting e r)) (he.trainableContext.trans target)
  | trains context card trained target waited writes next =>
      refine .trains context card (htrained.trans trained) target waited ⟨?_, ?_, ?_, writes.reviewed⟩ fun c hc => ?_
      · obtain ⟨root, hroot, hn⟩ := writes.hasCard
        exact ⟨root, by rw [he.selectedRoot, hroot]; rfl, hn⟩
      · exact fun e r hne => (hw e r).trans (writes.others e r hne)
      · exact fun e hekey hdue hwaits => writes.rests e hekey hdue ((hw e _).mp hwaits)
      · exact (hw _ _).mpr (next c (he.trainableContext.symm.trans hc))

theorem Course.goes_id (h : Course env limit s0 s) {t : TrainerState Card} (hs : Sound t) (he : Edits id s.store t) :
    Course env limit s0 { s with store := t } ∧ Advances env limit env' s { s with store := t } :=
  ⟨h.edits_id hs he, .same rfl (fun _ _ => he.waiting_id) he.trainableContext⟩

theorem Course.learn_or_recall (h : Course env limit s0 s) :
    s.store.trainingMethod = some .learn ∨ s.store.trainingMethod = some .recall := by
  obtain ⟨method, hmethod, hedit⟩ := h.searching
  match method, hedit with
  | .learn, _ => exact Or.inl hmethod
  | .recall, _ => exact Or.inr hmethod
  | .edit, hedit => exact absurd rfl hedit

theorem Course.finishMove (chess : Chessops) (h : Course env limit s0 s) (hin : InTime env limit env') (hkey : env'.currentUserKey ≠ []) (san : JsString) :
    Course env limit s0 (s.finishMove chess env' san) ∧ Advances env limit env' s (s.finishMove chess env' san) := by
  have hsame : Course env limit s0 s ∧ Advances env limit env' s s := ⟨h, .same rfl (fun _ _ => Iff.rfl) rfl⟩
  have hedit : s.store.trainingMethod ≠ some .edit := by
    rcases h.learn_or_recall with hm | hm <;> rw [hm] <;> simp
  rw [Sitting.finishMove, if_neg hedit]
  cases hlast : s.store.atLast with
  | false => exact hsame
  | true =>
      rw [if_pos rfl]
      obtain ⟨context, hcontext, -⟩ := (Option.any_eq_true _ _).mp hlast
      generalize hu : s.onStore (·.updateDueCounts env') = u
      have he : Edits id s.store u.store := hu ▸ .updateDueCounts
      have htrained : u.trained = s.trained := by rw [← hu]; rfl
      have hcourse : Course env limit s0 u :=
        h.edits (hu ▸ h.sound.updateDueCounts) he (fun _ _ => he.waiting_id) (fun _ _ hr => hr) htrained (by rw [← hu]; rfl)
      have hcontext := he.trainableContext.trans hcontext
      -- from here on the state is `u`, in which the same moves wait
      suffices hgoes : ∀ v, Course env limit s0 v ∧ Advances env limit env' u v →
          Course env limit s0 v ∧ Advances env limit env' s v by
        rcases h.learn_or_recall with hm | hm <;> have hm := he.trainingMethod.trans hm <;> simp only [hm]
        · exact hgoes _ (hcourse.learn hin hkey hm hcontext)
        · split
          · exact hgoes _ (hcourse.train hin hkey hm hcontext false)
          · have hguess : Course env limit s0 { u with lastGuess := san } := { hcourse with shown := hcourse.shown }
            have hnone : u.store.trainableContext ≠ none := by rw [hcontext]; simp
            have hwrong : ∀ verdict, Course env limit s0 { u with lastGuess := san, verdict := some verdict } ∧
                Advances env limit env' u { u with lastGuess := san, verdict := some verdict } :=
              fun verdict => ⟨hcourse.answered hm hnone san verdict, .same rfl (fun _ _ => Iff.rfl) rfl⟩
            cases u.store.guess san with
            | none => exact hgoes _ ⟨hguess, .same rfl (fun _ _ => Iff.rfl) rfl⟩
            | some outcome =>
                cases outcome with
                | success =>
                    obtain ⟨hu, hadv⟩ := hguess.train hin hkey hm hcontext true
                    exact hgoes _ ⟨hu, hadv.before (.of_eq rfl rfl rfl rfl rfl) rfl⟩
                | alternate => exact hgoes _ (hwrong .alternate)
                | failure => exact hgoes _ (hwrong .fail)
      exact fun v hv => ⟨hv.1, hv.2.before he htrained⟩

/-- A guess that is added has no card, so it is not to recall. -/
theorem Course.makeMove (chess : Chessops) (env' : Env Card) (h : Course env limit s0 s) (hmethod : s.store.trainingMethod = some .recall) (san : JsString) :
    Course env limit s0 (s.onStore (·.makeMove chess env' san)) ∧
      (∀ e r, Waiting e (s.store.makeMove chess env' san) r ↔ Waiting e s.store r) ∧
      (s.store.makeMove chess env' san).trainableContext = s.store.trainableContext := by
  have hsound : Sound (s.store.makeMove chess env' san) := h.sound.makeMove san
  rcases makeMove_edits chess env' san (by rw [hmethod]; simp) with he | ⟨q, o, ho, he⟩
  · exact ⟨h.edits_id hsound he, fun _ _ => he.waiting_id, he.trainableContext⟩
  · have hw : ∀ e r, Waiting e (s.store.makeMove chess env' san) r ↔ Waiting e s.store r := fun e r =>
      he.waiting fun root method _ hmethod' => waits_push (by
        obtain rfl : TrainingMethod.recall = method := Option.some.inj (hmethod.symm.trans hmethod')
        have hcard : ownCard e o.data = none := by rw [ownCard, ho]; split <;> rfl
        refine Bool.eq_false_iff.mpr fun htarget => ?_
        obtain ⟨-, card, hsome, -⟩ := isTarget_iff.mp htarget
        exact absurd (hcard.symm.trans (userCard_eq_card.mp hsome)) (by simp))
    exact ⟨h.edits hsound he hw (fun root context hr hd => (hr hd.of_push).push) rfl rfl, hw, he.trainableContext⟩

theorem nextMove_cases (s : TrainerState Card) : s.nextMove = s ∨ ∃ path, s.nextMove = s.jump path := by
  rw [TrainerState.nextMove]
  split <;> split
  · exact Or.inl rfl
  · exact Or.inr ⟨_, rfl⟩
  · exact Or.inr ⟨_, rfl⟩
  · exact Or.inl rfl

theorem lastMove_cases (s : TrainerState Card) : s.lastMove = s ∨ ∃ path, s.lastMove = s.jump path := by
  rw [TrainerState.lastMove]
  split
  · split
    · exact Or.inl rfl
    · exact Or.inr ⟨_, rfl⟩
  · exact Or.inr ⟨_, rfl⟩

theorem Sitting.failed_verdict (h : s.failed = true) : s.verdict ≠ none := by
  simp only [Sitting.failed, Bool.and_eq_true, decide_eq_true_eq] at h
  rw [h.1.1.1]
  simp

/-- Whatever the player does, a sitting stays on its course. -/
theorem Course.input (chess : Chessops) (h : Course env limit s0 s) (hin : InTime env limit env') (hkey : env'.currentUserKey ≠ []) (input : Input) :
    Course env limit s0 (s.input chess env' input) ∧ Advances env limit env' s (s.input chess env' input) := by
  have hsame : Course env limit s0 s ∧ Advances env limit env' s s := ⟨h, .same rfl (fun _ _ => Iff.rfl) rfl⟩
  have hjump : ∀ path, Course env limit s0 (s.onStore (·.jump path)) ∧ Advances env limit env' s (s.onStore (·.jump path)) :=
    fun path => h.goes_id (h.sound.jump path) (.jump path)
  cases input with
  | board san =>
      obtain ⟨hcourse, hadv⟩ := h.finishMove chess hin hkey san
      have he : Edits id (s.finishMove chess env' san).store ((s.finishMove chess env' san).store.updateDueCounts env') :=
        .updateDueCounts
      exact ⟨hcourse.edits_id hcourse.sound.updateDueCounts he, hadv.after he rfl⟩
  | onContinue =>
      rw [Sitting.input]
      split
      · rename_i hfailed
        have hverdict := Sitting.failed_verdict hfailed
        obtain ⟨context, hcontext⟩ := h.context_of_verdict hverdict
        exact h.train hin hkey (h.asked hverdict) hcontext false
      · exact hsame
  | onUndo =>
      rw [Sitting.input]
      split
      · exact ⟨h.resetTip (Sitting.failed_verdict ‹_›), .same rfl (fun _ _ => Iff.rfl) rfl⟩
      · exact hsame
  | onAdd =>
      rw [Sitting.input]
      split
      · rename_i hfailed
        have hverdict := Sitting.failed_verdict hfailed
        obtain ⟨hcourse, hw, htarget⟩ := h.makeMove chess env' (h.asked hverdict) s.lastGuess
        exact ⟨hcourse.resetTip hverdict, .same rfl hw htarget⟩
      · exact hsame
  | firstMove => exact hjump []
  | prevMove => exact hjump _
  | nextMove =>
      rw [Sitting.input]
      rcases nextMove_cases s.store with he | ⟨path, he⟩
      · rw [Sitting.onStore, he]
        exact hsame
      · rw [Sitting.onStore, he]
        exact hjump path
  | lastMove =>
      rw [Sitting.input]
      rcases lastMove_cases s.store with he | ⟨path, he⟩
      · rw [Sitting.onStore, he]
        exact hsame
      · rw [Sitting.onStore, he]
        exact hjump path
  | jump path => exact hjump path
  | render =>
      have hsame : SameTrees s.store (Client.step chess s.store env' .render) := .navigation rfl
      exact h.goes_id (hsame.sound h.sound) .render
  | runEffect =>
      have hsame : SameTrees s.store (Client.step chess s.store env' .runEffect) := .navigation rfl
      exact h.goes_id (hsame.sound h.sound) .runEffect

/-! ## Beginning and end -/

theorem Underway.start {store : TrainerState Card} (hs : Sound store) (hselected : store.selectedRoot ≠ none) {method : TrainingMethod}
    (hedit : method ≠ .edit) (verdict : Option Verdict) (lastGuess : JsString) :
    Underway env limit (store.setTrainingMethod method) ⟨store.setTrainingMethod method, verdict, lastGuess, []⟩ where
  sound := hs.of_repertoire rfl rfl
  searching := ⟨method, rfl, hedit⟩
  method := rfl
  selected := hselected
  known _ hr := hr
  pending _ hr := Or.inr hr
  trained _ hr := by cases hr

theorem Course.start {store : TrainerState Card} (hs : Sound store) (hselected : store.selectedRoot ≠ none) {method : TrainingMethod}
    (hedit : method ≠ .edit) (hlimit : env.now ≤ limit) (verdict : Option Verdict) (lastGuess : JsString) :
    Course env limit (store.setTrainingMethod method) ((Sitting.mk store verdict lastGuess []).startTraining env method) := by
  have hin : InTime env limit env := ⟨⟨rfl, rfl, Int.le_refl _⟩, hlimit⟩
  have hunderway : Underway env limit (store.setTrainingMethod method) ⟨store.setTrainingMethod method, verdict, lastGuess, []⟩ :=
    .start hs hselected hedit verdict lastGuess
  have hcourse := hunderway.search hin
  exact hcourse.edits_id hcourse.sound.updateDueCounts .updateDueCounts

/-- After the first `k` trainings no move has been trained twice, and those that have been do not wait. -/
structure Fresh (env : Env Card) (limit : Int) (k : Nat) (s : Sitting Card) : Prop where
  since : k ≤ s.trained.length
  nodup : (s.trained.drop k).Nodup
  rested : ∀ r ∈ s.trained.drop k, ¬ Waiting (env.at limit) s.store r

theorem Fresh.now (s : Sitting Card) : Fresh env limit s.trained.length s := by
  refine ⟨Nat.le_refl _, ?_, ?_⟩ <;> rw [List.drop_length]
  · exact List.nodup_nil
  · exact fun r hr => by cases hr

theorem Fresh.advances {k : Nat} (h : Fresh env limit k s) (hadv : Advances env limit env' s s')
    (hreview : Rests env limit s.store env') : Fresh env limit k s' := by
  cases hadv with
  | same trained waiting target =>
      refine ⟨trained ▸ h.since, trained ▸ h.nodup, fun r hr => ?_⟩
      rw [waiting]
      exact h.rested r (trained ▸ hr)
  | trains context card trained target waited writes next =>
      have hdrop : s'.trained.drop k = s.trained.drop k ++ [context.targetMove] := by
        rw [trained, List.drop_append_of_le_length h.since]
      have hnew : context.targetMove ∉ s.trained.drop k := fun hr => h.rested _ hr waited
      refine ⟨?_, ?_, ?_⟩
      · rw [trained, List.length_append]
        exact Nat.le_add_right_of_le h.since
      · rw [hdrop]
        exact List.nodup_append.mpr ⟨h.nodup, List.nodup_singleton _, fun q hq p hp he =>
          hnew (List.mem_singleton.mp hp ▸ he ▸ hq)⟩
      · intro q hq
        rw [hdrop, List.mem_append, List.mem_singleton] at hq
        by_cases hne : q = context.targetMove
        · subst hne
          refine writes.rests _ rfl fun hrecall => ?_
          obtain ⟨old, correct, rfl⟩ := writes.reviewed hrecall
          exact hreview hrecall old correct
        · rw [writes.others _ q hne]
          exact h.rested q (hq.resolve_right hne)

/-! ## A move whose card is not due -/

theorem Advances.length_trained (h : Advances env limit env' s s') : s'.trained.length ≤ s.trained.length + 1 := by
  cases h with
  | same trained waiting target => rw [trained]; exact Nat.le_succ _
  | trains context card trained target waited writes next => rw [trained, List.length_append, List.length_singleton]

/-- The move is not asked for as long as it does not wait at the time of `e`. -/
structure Unasked (e : Env Card) (r : Nat) (s : Sitting Card) : Prop where
  rested : ¬ Waiting e s.store r
  target : ∀ context, s.store.trainableContext = some context → context.targetMove ≠ r

theorem Unasked.advances {e : Env Card} {r : Nat} (h : Unasked e r s) (hadv : Advances env limit env' s s') (hlater : Later env' e) :
    Unasked e r s' := by
  cases hadv with
  | same trained waiting target =>
      exact ⟨fun hw => h.rested ((waiting e r).mp hw), fun context hcontext => h.target context (target.symm.trans hcontext)⟩
  | trains context card trained target waited writes next =>
      have hne : r ≠ context.targetMove := (h.target context target).symm
      have hrested : ¬ Waiting e s'.store r := fun hw => h.rested ((writes.others e r hne).mp hw)
      exact ⟨hrested, fun c hc he => hrested (he ▸ hlater.waiting (next c hc))⟩

theorem Unasked.not_trained {e : Env Card} {r : Nat} (h : Unasked e r s) (hadv : Advances env limit env' s s') :
    r ∉ s'.trained.drop s.trained.length := by
  cases hadv with
  | same trained waiting target =>
      rw [trained, List.drop_length]
      exact List.not_mem_nil
  | trains context card trained target waited writes next =>
      rw [trained, List.drop_left, List.mem_singleton]
      exact (h.target context target).symm

/-- After its training a move is not asked for until its card is due. -/
theorem Advances.unasked (h : Advances env limit env' s s') {r : Nat} (hr : r ∈ s'.trained.drop s.trained.length) :
    ∃ card, HasCard env' s'.store r card ∧ ∀ e, e.currentUserKey = env.currentUserKey → Later env' e →
      (s.store.trainingMethod = some .recall → e.now < e.due card) → Unasked e r s' := by
  cases h with
  | same trained waiting target =>
      rw [trained, List.drop_length] at hr
      cases hr
  | trains context card trained target waited writes next =>
      rw [trained, List.drop_left, List.mem_singleton] at hr
      subst hr
      refine ⟨card, writes.hasCard, fun e hekey hlater hdue => ?_⟩
      have hrested := writes.rests e hekey hdue
      exact ⟨hrested, fun c hc he => hrested (he ▸ hlater.waiting (next c hc))⟩

/-! ## The right move -/

/-- The target's own move is the right guess. -/
theorem Course.guess (h : Course env limit s0 s) (hmethod : s.store.trainingMethod = some .recall) {context : TrainableContext}
    (hcontext : s.store.trainableContext = some context) {root : TrainableNode Card} (hroot : s.store.selectedRoot = some root)
    (hd : DistinctIds root) : ∃ san, s.store.guess san = some .success := by
  obtain ⟨chapter, hchapter, rfl⟩ := Option.map_eq_some_iff.mp hroot
  obtain ⟨id, n, heven, hid, hn, hr⟩ := h.reaches context _ hcontext hroot hd
  have hderef := h.sound.deref (selectedRoot_mem hroot) (nodeAtPathOrNull_mem_nodes hn)
  rw [nodeAtPathOrNull_append heven hid] at hn
  obtain ⟨parent, hparent, hchild⟩ := Option.bind_eq_some_iff.mp hn
  refine ⟨n.label.data.san, guess_target hchapter (by rw [hmethod]; simp) hparent ?_ hderef (Rose.child?_eq_some hchild).1⟩
  rw [hcontext, hr]

/-- At the position to train there is a move that writes the card of the target, and the search goes on. -/
theorem Course.finish (chess : Chessops) (h : Course env limit s0 s) (hin : InTime env limit env') (hkey : env'.currentUserKey ≠ [])
    (hlast : s.store.atLast = true) {context : TrainableContext} (hcontext : s.store.trainableContext = some context)
    {root : TrainableNode Card} (hroot : s.store.selectedRoot = some root) (hd : DistinctIds root) :
    ∃ san, (s.finishMove chess env' san).trained = s.trained ++ [context.targetMove] ∧
      ∃ root', (s.finishMove chess env' san).store.selectedRoot = some root' ∧ DistinctIds root' := by
  have hedit : s.store.trainingMethod ≠ some .edit := by
    rcases h.learn_or_recall with hm | hm <;> rw [hm] <;> simp
  generalize hu : s.onStore (·.updateDueCounts env') = u
  have he : Edits id s.store u.store := hu ▸ .updateDueCounts
  have htrained : u.trained = s.trained := by rw [← hu]; rfl
  have hcourse : Course env limit s0 u :=
    h.edits (hu ▸ h.sound.updateDueCounts) he (fun _ _ => he.waiting_id) (fun _ _ hr => hr) htrained (by rw [← hu]; rfl)
  have hcontext := he.trainableContext.trans hcontext
  have hroot : u.store.selectedRoot = some root := by rw [he.selectedRoot, hroot]; rfl
  -- a card for the target, then the search
  have hput : ∀ {t v : Sitting Card} {card : Card}, t.store = u.store → t.trained = u.trained →
      Course env limit s0 t → Puts env' context.targetMove card t v →
      (v.setNextTrainablePosition env').trained = s.trained ++ [context.targetMove] ∧
        ∃ root', (v.setNextTrainablePosition env').store.selectedRoot = some root' ∧ DistinctIds root' := by
    intro t v card ht htt hcourse' hp
    obtain ⟨root', hroot', hd'⟩ := hp.distinctIds (ht ▸ hroot) hd
    have hmethod : Searching v.store := (Searching.congr hp.edits.trainingMethod).mpr hcourse'.searching
    obtain ⟨hsame, -⟩ := setNextTrainablePosition_waiting env' hmethod (by rw [hroot']; simp)
    exact ⟨hp.trained.trans (by rw [htt, htrained]), root', hsame.trans hroot', hd'⟩
  rcases h.learn_or_recall with hm | hm <;> have hm' := he.trainingMethod.trans hm
  · obtain ⟨card, hp⟩ := hcourse.learn_puts hkey hm' hcontext
    refine ⟨[], ?_⟩
    rw [Sitting.finishMove, if_neg hedit, if_pos hlast]
    simp only [hu, hm']
    exact hput rfl rfl hcourse hp
  · obtain ⟨san, hguess⟩ := hcourse.guess hm' hcontext hroot hd
    refine ⟨san, ?_⟩
    rw [Sitting.finishMove, if_neg hedit, if_pos hlast]
    simp only [hu, hm']
    split
    · obtain ⟨card, hp⟩ := hcourse.train_puts hin hkey hm' hcontext false
      exact hput rfl rfl hcourse hp
    · have hcourse' : Course env limit s0 { u with lastGuess := san } := { hcourse with shown := hcourse.shown }
      obtain ⟨card, hp⟩ := hcourse'.train_puts hin hkey hm' hcontext true
      simp only [hguess]
      exact hput (t := { u with lastGuess := san }) rfl rfl hcourse' hp

/-- Back to the position to train, and a move. -/
def atPosition (env : Env Card) (san : JsString) : List (Env Card × Input) := [(env, .lastMove), (env, .board san)]

theorem Course.round (chess : Chessops) (h : Course env limit s0 s) (hin : InTime env limit env') (hkey : env'.currentUserKey ≠ [])
    {context : TrainableContext} (hcontext : s.store.trainableContext = some context) {root : TrainableNode Card}
    (hroot : s.store.selectedRoot = some root) (hd : DistinctIds root) :
    ∃ san, (run (Sitting.step chess) s (atPosition env' san)).trained = s.trained ++ [context.targetMove] ∧
      ∃ root', (run (Sitting.step chess) s (atPosition env' san)).store.selectedRoot = some root' ∧ DistinctIds root' := by
  have hedit : s.store.trainingMethod ≠ some .edit := by
    rcases h.learn_or_recall with hm | hm <;> rw [hm] <;> simp
  have hjump : s.store.lastMove = s.store.jump context.startingPath := by
    rw [TrainerState.lastMove, if_neg hedit, pathToTrain, hcontext]
    rfl
  generalize hu : s.onStore (·.lastMove) = u
  have he : Edits id s.store u.store := by
    rw [← hu, Sitting.onStore, hjump]
    exact .jump _
  have hcourse : Course env limit s0 u := by
    rw [← hu]
    exact (h.input chess hin hkey .lastMove).1
  have hlast : u.store.atLast = true := by
    obtain ⟨chapter, hchapter, -⟩ := Option.map_eq_some_iff.mp hroot
    rw [atLast, he.trainableContext, hcontext, ← hu, Sitting.onStore, hjump, TrainerState.jump, hchapter]
    simp
  have hroot : u.store.selectedRoot = some root := by rw [he.selectedRoot, hroot]; rfl
  obtain ⟨san, htrained, root', hroot', hd'⟩ := hcourse.finish chess hin hkey hlast
    (he.trainableContext.trans hcontext) hroot hd
  refine ⟨san, ?_, root', ?_, hd'⟩
  · have htrained' : u.trained = s.trained := by rw [← hu]; rfl
    rw [← htrained', ← htrained, ← hu]
    rfl
  · have hsame : Edits id (u.finishMove chess env' san).store ((u.finishMove chess env' san).store.updateDueCounts env') :=
      .updateDueCounts
    rw [← hu] at hsame hroot'
    have := hsame.selectedRoot
    rw [hroot'] at this
    exact this

/-! ## Whole sittings -/

theorem Course.run (chess : Chessops) (h : Course env limit s0 s) (hkey : env.currentUserKey ≠ []) {inputs : List (Env Card × Input)}
    (hin : ∀ p ∈ inputs, InTime env limit p.1) : Course env limit s0 (run (Sitting.step chess) s inputs) :=
  (meets_of_forall hin).invariant (fun _ p hs hp => (hs.input chess hp (hp.key ▸ hkey) p.2).1) h

theorem Fresh.run {k : Nat} (chess : Chessops) (h : Course env limit s0 s) (hf : Fresh env limit k s) (hkey : env.currentUserKey ≠ [])
    {inputs : List (Env Card × Input)} (hin : ∀ p ∈ inputs, InTime env limit p.1) (hrests : ∀ p ∈ inputs, Rests env limit s0 p.1) :
    Fresh env limit k (Lib.run (Sitting.step chess) s inputs) := by
  have hstep : ∀ (t : Sitting Card) (p : Env Card × Input), Course env limit s0 t ∧ Fresh env limit k t →
      InTime env limit p.1 ∧ Rests env limit s0 p.1 →
        Course env limit s0 (Sitting.step chess t p) ∧ Fresh env limit k (Sitting.step chess t p) := by
    rintro t p ⟨hcourse, hfresh⟩ ⟨hp, hrests⟩
    obtain ⟨hcourse', hadv⟩ := hcourse.input chess hp (hp.key ▸ hkey) p.2
    refine ⟨hcourse', hfresh.advances hadv fun hrecall => hrests ?_⟩
    rw [← hcourse.method]
    exact hrecall
  exact ((meets_of_forall fun p hp => And.intro (hin p hp) (hrests p hp)).invariant hstep ⟨h, hf⟩).2

theorem Unasked.run {e : Env Card} {r : Nat} (chess : Chessops) (h : Course env limit s0 s) (hunasked : Unasked e r s)
    (hkey : env.currentUserKey ≠ []) {inputs : List (Env Card × Input)} (hin : ∀ p ∈ inputs, InTime env limit p.1)
    (hlater : ∀ p ∈ inputs, Later p.1 e) : Unasked e r (Lib.run (Sitting.step chess) s inputs) := by
  have hstep : ∀ (t : Sitting Card) (p : Env Card × Input), Course env limit s0 t ∧ Unasked e r t →
      InTime env limit p.1 ∧ Later p.1 e → Course env limit s0 (Sitting.step chess t p) ∧ Unasked e r (Sitting.step chess t p) := by
    rintro t p ⟨hcourse, hunasked⟩ ⟨hp, hlater⟩
    obtain ⟨hcourse', hadv⟩ := hcourse.input chess hp (hp.key ▸ hkey) p.2
    exact ⟨hcourse', hunasked.advances hadv hlater⟩
  exact ((meets_of_forall fun p hp => And.intro (hin p hp) (hlater p hp)).invariant hstep ⟨h, hunasked⟩).2

/-- The input trains the move `r`. -/
def TrainsAt (chess : Chessops) (s : Sitting Card) (p : Env Card × Input) (r : Nat) : Prop :=
  r ∈ (Sitting.step chess s p).trained.drop s.trained.length

/-- Between two trainings of a move its card has fallen due. -/
theorem Course.again (chess : Chessops) (h : Course env limit s0 s) (hkey : env.currentUserKey ≠ []) {p q : Env Card × Input}
    {mid : List (Env Card × Input)} (hp : InTime env limit p.1) (hmid : ∀ x ∈ mid, InTime env limit x.1)
    (hq : InTime env limit q.1) {r : Nat} (htrains : TrainsAt chess s p r)
    (hagain : TrainsAt chess (Lib.run (Sitting.step chess) s (p :: mid)) q r) :
    s0.trainingMethod = some .recall ∧ ∃ card, HasCard env (Sitting.step chess s p).store r card ∧
      ∃ x ∈ p :: mid, env.due card ≤ x.1.now := by
  obtain ⟨hcourse, hadv⟩ := h.input chess hp (hp.key ▸ hkey) p.2
  obtain ⟨card, hcard, hunasked⟩ := hadv.unasked htrains
  have htimes : ∀ x ∈ p :: mid, InTime env limit x.1 := fun x hx => by
    rcases List.mem_cons.mp hx with rfl | hx
    · exact hp
    · exact hmid x hx
  -- at a time that is not earlier than any of these inputs the move would not be asked for
  have hno : ∀ e : Env Card, e.currentUserKey = env.currentUserKey → e.due = env.due →
      (∀ x ∈ p :: mid, x.1.now ≤ e.now) → ¬ (s.store.trainingMethod = some .recall → e.now < e.due card) := by
    intro e hekey hedue hnow hdue
    have hlater : ∀ x ∈ p :: mid, Later x.1 e := fun x hx =>
      ⟨hekey.trans (htimes x hx).key.symm, hedue.trans (htimes x hx).due.symm, hnow x hx⟩
    have hstart := hunasked e hekey (hlater p List.mem_cons_self) hdue
    have hend := hstart.run chess hcourse hkey hmid fun x hx => hlater x (List.mem_cons_of_mem p hx)
    exact hend.not_trained ((hcourse.run chess hkey hmid).input chess hq (hq.key ▸ hkey) q.2).2 hagain
  have hrecall : s.store.trainingMethod = some .recall := by
    by_contra hne
    exact hno (env.at limit) rfl rfl (fun x hx => (htimes x hx).upTo) fun h => absurd h hne
  refine ⟨h.method ▸ hrecall, card, ?_, ?_⟩
  · obtain ⟨root, hroot, n, hn, hr, hown⟩ := hcard
    refine ⟨root, hroot, n, hn, hr, ?_⟩
    rw [← hown, ownCard, ownCard, hp.key]
  · by_contra hnone
    refine hno (env.at (env.due card - 1)) rfl rfl (fun x hx => Int.le_sub_one_of_lt (Int.not_le.mp fun hle => hnone ⟨x, hx, hle⟩)) fun _ => ?_
    exact Int.sub_one_lt_of_le (Int.le_refl _)

/-- There are no more trainings than moves. -/
theorem Course.length_trained {k : Nat} (h : Course env limit s0 s) (hf : Fresh env limit k s) {root : TrainableNode Card}
    (hroot : s0.selectedRoot = some root) : (s.trained.drop k).length ≤ root.labels.length := by
  have hsub : s.trained.drop k ⊆ root.labels.map Object.ref := by
    intro r hr
    obtain ⟨root', method, hroot', -, i, place, n, hn, -, -, rfl⟩ := h.trained r (List.mem_of_mem_drop hr)
    obtain rfl : root = root' := Option.some.inj (hroot.symm.trans hroot')
    exact List.mem_map_of_mem (Rose.mem_labels.mpr ⟨n, Rose.get?_mem_nodes hn, rfl⟩)
  have hlen := (List.subperm_of_subset hf.nodup hsub).length_le
  rwa [List.length_map] at hlen

/-- A right move where there is something to train. -/
theorem Course.next {k : Nat} (chess : Chessops) (hin : InTime env limit env') (hkey : env.currentUserKey ≠ [])
    (hrests : Rests env limit s0 env') {root : TrainableNode Card} (h : Course env limit s0 s) (hf : Fresh env limit k s)
    (hroot : s.store.selectedRoot = some root) (hd : DistinctIds root) {context : TrainableContext}
    (hcontext : s.store.trainableContext = some context) :
    ∃ san s' root', Lib.run (Sitting.step chess) s (atPosition env' san) = s' ∧ Course env limit s0 s' ∧ Fresh env limit k s' ∧
      s'.store.selectedRoot = some root' ∧ DistinctIds root' ∧ s'.trained.length = s.trained.length + 1 := by
  obtain ⟨san, htrained, root', hroot', hd'⟩ := h.round chess hin (hin.key ▸ hkey) hcontext hroot hd
  have hmem : ∀ p ∈ atPosition env' san, InTime env limit p.1 ∧ Rests env limit s0 p.1 := by
    intro p hp
    simp only [atPosition, List.mem_cons, List.not_mem_nil, or_false] at hp
    rcases hp with rfl | rfl <;> exact ⟨hin, hrests⟩
  refine ⟨san, _, root', rfl, h.run chess hkey fun p hp => (hmem p hp).1, ?_, hroot', hd', ?_⟩
  · exact hf.run chess h hkey (fun p hp => (hmem p hp).1) fun p hp => (hmem p hp).2
  · rw [htrained, List.length_append, List.length_singleton]

/-- A sitting can be brought to its end with right moves. -/
theorem Course.finished {k : Nat} (chess : Chessops) (hin : InTime env limit env') (hkey : env.currentUserKey ≠ [])
    (hrests : Rests env limit s0 env') {root0 : TrainableNode Card} (hroot0 : s0.selectedRoot = some root0) (m : Nat)
    {root : TrainableNode Card} (h : Course env limit s0 s) (hf : Fresh env limit k s) (hroot : s.store.selectedRoot = some root)
    (hd : DistinctIds root) (hm : root0.labels.length ≤ (s.trained.drop k).length + m) :
    ∃ sans : List JsString, sans.length ≤ m ∧ (Lib.run (Sitting.step chess) s (sans.flatMap (atPosition env'))).empty = true := by
  induction m generalizing s root with
  | zero =>
      refine ⟨[], Nat.le_refl 0, h.shown.mpr (Option.eq_none_iff_forall_ne_some.mpr fun context hcontext => ?_)⟩
      obtain ⟨san, s', root', -, hcourse, hfresh, -, -, hlen⟩ := h.next chess hin hkey hrests hf hroot hd hcontext
      have hle := hcourse.length_trained hfresh hroot0
      have hsince := hf.since
      rw [List.length_drop] at hm hle
      omega
  | succ k ih =>
      cases hcontext : s.store.trainableContext with
      | none => exact ⟨[], Nat.zero_le _, h.shown.mpr hcontext⟩
      | some context =>
          obtain ⟨san, s', root', hrun, hcourse, hfresh, hroot', hd', hlen⟩ := h.next chess hin hkey hrests hf hroot hd hcontext
          obtain ⟨sans, hsans, hempty⟩ := ih hcourse hfresh hroot' hd' (by
            have hsince := hf.since
            rw [List.length_drop] at hm ⊢
            omega)
          refine ⟨san :: sans, Nat.succ_le_succ hsans, ?_⟩
          rw [List.flatMap_cons, run_append, hrun]
          exact hempty

end Course

end Chessrepeat.Client
