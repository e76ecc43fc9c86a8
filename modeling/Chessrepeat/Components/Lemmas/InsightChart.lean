import Chessrepeat.Components.InsightChart
import Mathlib.Algebra.Order.BigOperators.Group.List

/-!
# What the calendar of due moves counts
-/

namespace Chessrepeat.Components

open Lib

/-! ## One key for each day -/

theorem day_add_mul (t k : Int) : (t / dayMs + k) * dayMs + t % dayMs = t + k * dayMs := by
  rw [Int.add_mul, Int.add_right_comm, Int.ediv_mul_add_emod]

theorem setDate_getDate (d : Date) (k : Int) : d.setDate (d.getDate + k) = d + k * dayMs := by
  have hday := Calendar.makeDay_date d.day
  have hmove : Calendar.makeDay d.getFullYear d.getMonth (d.getDate + k) = d.day + k := by
    rw [Calendar.makeDay] at hday ⊢
    rw [Date.getFullYear, Date.getMonth, Date.getDate]
    omega
  rw [Date.setDate, hmove]
  exact day_add_mul d k

theorem getMonth_lt (d : Date) : d.getMonth < 12 := (Calendar.month_date_bounds d.day).1

theorem getDate_bounds (d : Date) : 0 ≤ d.getDate ∧ d.getDate < 100 := by
  obtain ⟨-, h1, h2⟩ := Calendar.month_date_bounds d.day
  rw [Date.getDate]
  omega

/-- The two dashes stand at the third and the sixth place from the end. -/
theorem toDateKey_eq_iff {d e : Date} : toDateKey d = toDateKey e ↔ d.day = e.day := by
  refine ⟨fun h => ?_, fun h => by simp only [toDateKey, Date.getFullYear, Date.getMonth, Date.getDate, h]⟩
  obtain ⟨hd0, hd⟩ := getDate_bounds d
  obtain ⟨he0, he⟩ := getDate_bounds e
  have hmd := getMonth_lt d
  have hme := getMonth_lt e
  obtain ⟨hfront, hdate⟩ := List.append_inj' (Utf16.encode_injective h) (by
    rw [List.length_cons, List.length_cons, length_pad hd0 hd, length_pad he0 he])
  obtain ⟨hyear, hmonth⟩ := List.append_inj' hfront (by
    rw [List.length_cons, List.length_cons, length_pad (by omega) (by omega), length_pad (by omega) (by omega)])
  have hm : (d.getMonth + 1 : Int) = e.getMonth + 1 := pad_injective (by omega) (by omega) (List.cons.inj hmonth).2
  have hm' : d.getMonth = e.getMonth := by omega
  rw [← Calendar.makeDay_date d.day, ← Calendar.makeDay_date e.day]
  exact congr (congr (congrArg Calendar.makeDay (decimal_injective hyear)) hm') (pad_injective hd0 he0 (List.cons.inj hdate).2)

/-! ## The counts -/

/-- The day that the loop books a card on. -/
def bookedOn (today : Date) (ms : Int) : Int := today.day + max 0 (ms / dayMs)

/-- What the calendar shows on a day. -/
def countOn (values : List HeatValue) (day : Int) : Nat :=
  ((values.filter fun v => v.key = toDateKey (day * dayMs)).map HeatValue.count).sum

theorem day_mul (day : Int) : Date.day (day * dayMs) = day := Int.mul_ediv_cancel day (by decide)

theorem countOn_rows (map : HeatMap) (day : Int) :
    countOn map.rows day = ((map.find? (toDateKey (day * dayMs))).map HeatValue.count).getD 0 := by
  rw [countOn, Table.filter_key]
  cases map.find? (toDateKey (day * dayMs)) with
  | none => rfl
  | some v => exact Nat.add_zero _

/-- A turn adds a card to the cell of the day that it is booked on. -/
theorem bucket_eq (today : Date) (map : HeatMap) (ms : Int) : ∃ v : HeatValue,
    bucket today map ms = map.upsert v ∧ v.key = toDateKey (bookedOn today ms * dayMs) ∧
      v.count = ((map.find? v.key).map HeatValue.count).getD 0 + 1 := by
  have hkey : toDateKey (today.setDate (today.getDate + max 0 (ms / dayMs))) = toDateKey (bookedOn today ms * dayMs) := by
    rw [setDate_getDate, toDateKey_eq_iff, day_mul]
    exact Int.add_mul_ediv_right _ _ (by decide)
  rw [bucket]
  cases hfind : map.find? (toDateKey (today.setDate (today.getDate + max 0 (ms / dayMs)))) with
  | none => exact ⟨_, rfl, hkey, by rw [hfind]; rfl⟩
  | some existing =>
      obtain ⟨-, hexisting⟩ := Table.find?_eq_some.mp hfind
      exact ⟨_, rfl, hexisting.trans hkey, by rw [hexisting, hfind]; rfl⟩

theorem countOn_bucket (today : Date) (map : HeatMap) (ms day : Int) :
    countOn (bucket today map ms).rows day = countOn map.rows day + if bookedOn today ms = day then 1 else 0 := by
  obtain ⟨v, hv, hkey, hcount⟩ := bucket_eq today map ms
  rw [hv, countOn_rows, countOn_rows, Table.find?_upsert, hkey]
  split
  · rename_i hsame
    have hday : bookedOn today ms = day := by
      have := toDateKey_eq_iff.mp hsame
      rwa [day_mul, day_mul] at this
    rw [if_pos hday, Option.map_some, Option.getD_some, hcount, hkey, hsame]
  · rename_i hother
    rw [if_neg fun hday => hother (by rw [hday]), Nat.add_zero]

theorem countOn_bucketByDate (dueTimes : List Int) (today : Date) (day : Int) :
    countOn (bucketByDate dueTimes today).rows day = dueTimes.countP fun ms => bookedOn today ms = day := by
  suffices hfrom : ∀ map : HeatMap, countOn (dueTimes.foldl (bucket today) map).rows day =
      countOn map.rows day + dueTimes.countP fun ms => bookedOn today ms = day from
    (hfrom .empty).trans (Nat.zero_add _)
  induction dueTimes with
  | nil => exact fun map => rfl
  | cons ms dueTimes ih =>
      intro map
      rw [List.foldl_cons, ih, countOn_bucket, List.countP_cons, Nat.add_assoc, Nat.add_comm (List.countP _ _)]
      simp only [decide_eq_true_eq]

theorem sum_bucket (today : Date) (map : HeatMap) (ms : Int) :
    ((bucket today map ms).rows.map HeatValue.count).sum = (map.rows.map HeatValue.count).sum + 1 := by
  obtain ⟨v, hv, -, hcount⟩ := bucket_eq today map ms
  have hsum := Table.sum_upsert HeatValue.count v map
  rw [hv]
  omega

theorem sum_bucketByDate (dueTimes : List Int) (today : Date) :
    ((bucketByDate dueTimes today).rows.map HeatValue.count).sum = dueTimes.length := by
  suffices hfrom : ∀ map : HeatMap, ((dueTimes.foldl (bucket today) map).rows.map HeatValue.count).sum =
      (map.rows.map HeatValue.count).sum + dueTimes.length from (hfrom .empty).trans (Nat.zero_add _)
  induction dueTimes with
  | nil => exact fun map => rfl
  | cons ms dueTimes ih =>
      intro map
      rw [List.foldl_cons, ih, sum_bucket, List.length_cons, Nat.add_assoc, Nat.add_comm 1]

/-! ## Booked and due -/

/-- The day that a card counts for: the one it falls due on, or today. -/
def dueOn (now : Date) (ms : Int) : Int := max now.day (Date.day (now + ms))

theorem bookedOn_startOfDay (now ms : Int) : bookedOn (Date.startOfDay now) ms = now / dayMs + max 0 (ms / dayMs) := by
  have hstart : (now - now % dayMs) / dayMs = now / dayMs := by
    rw [dayMs]; omega
  exact congrArg (· + max 0 (ms / dayMs)) hstart

theorem bookedOn_le_dueOn (now ms : Int) : bookedOn (Date.startOfDay now) ms ≤ dueOn now ms := by
  rw [bookedOn_startOfDay, dueOn, Date.day, Date.day, dayMs]
  omega

/-- Only where the times of day add up to a day does the card fall due a day later. -/
theorem bookedOn_eq_dueOn_iff (now ms : Int) :
    bookedOn (Date.startOfDay now) ms = dueOn now ms ↔ (0 ≤ ms → now % dayMs + ms % dayMs < dayMs) := by
  rw [bookedOn_startOfDay, dueOn, Date.day, Date.day, dayMs]
  omega

theorem dueOn_eq_today_iff (now ms : Int) : dueOn now ms = Date.day now ↔ ms < 0 ∨ now + ms < (Date.day now + 1) * dayMs := by
  rw [dueOn, Date.day, Date.day, dayMs]
  omega

theorem dueOn_eq_later_iff {now ms day : Int} (h : Date.day now < day) : dueOn now ms = day ↔ Date.day (now + ms) = day := by
  rw [dueOn]
  omega

/-- Two ways to book, one never later than the other, that fill every day alike are the same. -/
theorem eq_of_countP_eq {α : Type} {l : List α} {f g : α → Int} (hle : ∀ a ∈ l, f a ≤ g a)
    (hcount : ∀ k, (l.countP fun a => f a = k) = l.countP fun a => g a = k) : ∀ a ∈ l, f a = g a := by
  have hperm : (l.map f).Perm (l.map g) := by
    refine List.perm_iff_count.mpr fun k => ?_
    rw [List.count_eq_countP, List.count_eq_countP, List.countP_map, List.countP_map]
    exact hcount k
  intro a ha
  by_contra hne
  have hlt := List.sum_lt_sum f g hle ⟨a, ha, lt_of_le_of_ne (hle a ha) hne⟩
  exact absurd hperm.sum_eq hlt.ne

end Chessrepeat.Components
