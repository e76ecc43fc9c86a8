import Chessrepeat.Components.Lemmas.InsightChart
import Chessrepeat.Components.Lemmas.Signup
import Chessrepeat.Components.Lemmas.Tree
import Chessrepeat.Hooks.Theorems
import Chessrepeat.Site.Theorems

/-!
# What the components show
-/

namespace Chessrepeat.Components

open Lib Domain Client Hooks Store Api Ws Site

/-! ## The calendar of due moves -/

/-- Every later day shows the cards that fall due on it, today those that do so before midnight, and no card is left out. -/
structure OnDueDates (now : Date) (dueTimes : List Int) (chart : Chart) : Prop where
  later : ∀ day, now.day < day → countOn chart.values day = dueTimes.countP fun ms => Date.day (now + ms) = day
  today : countOn chart.values now.day = dueTimes.countP fun ms => ms < 0 ∨ now + ms < (now.day + 1) * dayMs
  total : (chart.values.map HeatValue.count).sum = dueTimes.length

theorem countOn_insightChart (now : Date) (dueTimes : List Int) (day : Int) :
    countOn (insightChart now dueTimes).values day = dueTimes.countP fun ms => bookedOn now.startOfDay ms = day :=
  countOn_bucketByDate dueTimes now.startOfDay day

/-- No card counts for a day that is over. -/
theorem countP_before_today (now : Date) (dueTimes : List Int) {day : Int} (h : day < now.day) :
    (dueTimes.countP fun ms => bookedOn now.startOfDay ms = day) = 0 ∧ (dueTimes.countP fun ms => dueOn now ms = day) = 0 := by
  constructor
  · refine List.countP_eq_zero.mpr fun ms _ hms => ?_
    have hbooked : now.day + max 0 (ms / dayMs) = day := (bookedOn_startOfDay now ms).symm.trans (of_decide_eq_true hms)
    omega
  · refine List.countP_eq_zero.mpr fun ms _ hms => ?_
    have hdue := of_decide_eq_true hms
    rw [dueOn] at hdue
    omega

theorem onDueDates_iff (now : Date) (dueTimes : List Int) : OnDueDates now dueTimes (insightChart now dueTimes) ↔
    ∀ ms ∈ dueTimes, bookedOn now.startOfDay ms = dueOn now ms := by
  constructor
  · intro h
    refine eq_of_countP_eq (fun ms _ => bookedOn_le_dueOn now ms) fun day => ?_
    rcases lt_trichotomy day now.day with hday | rfl | hday
    · exact (countP_before_today now dueTimes hday).1.trans (countP_before_today now dueTimes hday).2.symm
    · rw [← countOn_insightChart, h.today]
      simp only [dueOn_eq_today_iff]
    · rw [← countOn_insightChart, h.later day hday]
      simp only [dueOn_eq_later_iff hday]
  · intro h
    have hcount : ∀ day, countOn (insightChart now dueTimes).values day = dueTimes.countP fun ms => dueOn now ms = day :=
      fun day => (countOn_insightChart now dueTimes day).trans (List.countP_congr fun ms hms => by rw [h ms hms])
    refine { later := fun day hday => ?_, today := ?_, total := sum_bucketByDate dueTimes now.startOfDay }
    · rw [hcount]
      simp only [dueOn_eq_later_iff hday]
    · rw [hcount]
      simp only [dueOn_eq_today_iff]

/-- The calendar is right if and only if every card that is not overdue falls due at a time of day that is not before the
present one. Any other card is shown a day too early. -/
theorem insightChart_onDueDates_iff (now : Date) (dueTimes : List Int) :
    OnDueDates now dueTimes (insightChart now dueTimes) ↔
      ∀ ms ∈ dueTimes, 0 ≤ ms → now % dayMs + ms % dayMs < dayMs := by
  rw [onDueDates_iff]
  exact forall₂_congr fun ms _ => bookedOn_eq_dueOn_iff now ms

/-- It is noon, and a card that falls due at one o'clock in the night counts for today. -/
theorem not_onDueDates_noon : ¬ OnDueDates 43200000 [46800000] (insightChart 43200000 [46800000]) := fun h =>
  absurd ((countOn_insightChart 43200000 [46800000] 0).symm.trans h.today) (by decide)

/-! ## The move list -/

/-- The move list has one move for every node that is reached through the visible children, labelled with the ids on the way,
and its mainline is the first visible child of the root, the first visible child of this one, and so on. -/
theorem treeBody_complete {Card : Type} (trainingMethod : Option TrainingMethod) (context : Option TrainableContext)
    (showComments : Bool) (root : TrainableNode Card) :
    let ctx := treeCtx trainingMethod context showComments root
    let shown := treeBody ctx root
    (places shown).Perm (ctx.visibleChildren.walk Object.id [] (ctx.visibleChildren.children root)) ∧
      ((places shown).map Prod.fst).Subperm (Rose.nodesList root.children) ∧
      (∀ n path, (n, path) ∈ places shown ↔
        ∃ line, ctx.visibleChildren.Line root line ∧ line.getLast? = some n ∧ path = fromNodeList line) ∧
      ((movesList shown).filter Move.isMainline).map (fun m => (m.node, m.path)) =
        ctx.visibleChildren.firsts Object.id [] (ctx.visibleChildren.children root) := by
  intro ctx shown
  have hcolumn := column_treeBody ctx root
  have hbelow := Rose.Pruning.nodesList_sublist (ctx.visibleChildren.sublist root)
  refine ⟨hcolumn.places, ?_, fun n path => ?_, hcolumn.mainline⟩
  · exact (hcolumn.places.map Prod.fst).subperm.trans
      ((ctx.visibleChildren.walk_sublist Object.id [] (ctx.visibleChildren.children root)).trans hbelow).subperm
  · rw [hcolumn.places.mem_iff, ctx.visibleChildren.mem_walk_children]
    exact Iff.rfl

/-! ## Signing up -/

/-- However late Firebase, the checks, the uploads and the server answer, and whatever is typed, dismissed and begun again
in the meantime: only a check of the name that stands in the field can still say something, the dialog says of this name
what came of it, and every sign-up has a name that a check found available and that the server takes as it is. -/
theorem signup_careful {User : Type} (case : Casing) (hlower : case.lower [] = []) (Q : JsString → CheckReply → Prop)
    (as : List (LoginModal.Action User))
    (h : Meets (LoginModal.step case) (LoginModal.Honest Q) (LoginModal.mounted.commit case) as) :
    Always (LoginModal.step case) (LoginModal.Careful case Q) (LoginModal.mounted.commit case) as :=
  (LoginModal.always_inv hlower h).mono fun _ hs => hs.careful

/-- Ann is registered. -/
def annIsTaken (name : JsString) : CheckReply := if name = js "ann" then .body false (js "taken") else .body true []

/-- The answer for `ann` comes after the second `a`. -/
def annasSignup : List (LoginModal.Action Unit) :=
  [.signIn, .resume 0 ⟨some (), true, .ok⟩, .resume 0 ⟨none, true, .needsUsername⟩, .input (js "Ann"), .fire 0,
    .input (js "Anna"), .checked 0 (.body false (js "taken")), .fire 1, .checked 1 (.body true []), .submitUsername,
    .resume 0 ⟨none, true, .ok⟩]

theorem annasSignup_careful :
    Always (LoginModal.step asciiCase) (LoginModal.Careful asciiCase fun name reply => reply = annIsTaken name)
        (LoginModal.mounted.commit asciiCase) annasSignup ∧
      (annasSignup.foldl (LoginModal.step asciiCase) (LoginModal.mounted.commit asciiCase)).posted =
        [⟨(), js "anna", []⟩] := by
  refine ⟨signup_careful asciiCase rfl _ annasSignup
    ⟨trivial, trivial, trivial, trivial, trivial, trivial, fun t ht => ?_, trivial, fun t ht => ?_, trivial, trivial,
      trivial⟩, by decide⟩
  · cases ht
    decide
  · cases ht
    decide

/-- The same with the server behind the dialog, whatever states it goes through and whatever gets lost on the way: a name is
called invalid only where it does not fit the pattern, and available only where nobody had it in one of these states; and
nothing else is asked for in a sign-up. -/
theorem signup_advised {User Raw : Type} (case : Casing) (hlower : case.lower [] = []) (json : Codec Raw)
    (parse : Text → Option Url) (order : PathOrder) (W : Set World) (as : List (LoginModal.Action User))
    (h : Meets (LoginModal.step case) (LoginModal.Honest (Served json parse order W)) (LoginModal.mounted.commit case) as) :
    Always (LoginModal.step case) (Advised W case) (LoginModal.mounted.commit case) as :=
  (LoginModal.always_inv hlower h).mono fun _ hs => hs.careful.advised

/-- The states of a server at which Ann signs up. -/
def annsStates : Set World :=
  {w | ∃ n, w = (after Message.codec (fun _ => none) PathOrder.insertion 0 (annSignsIn.take n)).shared}

/-- It is asked for `ann` after that. -/
theorem annasSignup_advised :
    Always (LoginModal.step asciiCase) (Advised annsStates asciiCase) (LoginModal.mounted.commit asciiCase) annasSignup := by
  refine signup_advised asciiCase rfl Message.codec (fun _ => none) PathOrder.insertion annsStates annasSignup
    ⟨trivial, trivial, trivial, trivial, trivial, trivial, fun t ht => ?_, trivial, fun t ht => ?_, trivial, trivial,
      trivial⟩
  · cases ht
    exact ⟨_, ⟨6, rfl⟩, "taken", rfl, rfl⟩
  · cases ht
    exact ⟨_, ⟨6, rfl⟩, "", rfl, rfl⟩

end Chessrepeat.Components
