import Mathlib.Algebra.Order.Field.Rat
import Mathlib.Tactic.NormNum
import Chessrepeat.Lib.TokenBucket
import Chessrepeat.Ratelimit.Limiter

/-!
# What holds of the limiter

A limiter answers like one that has a bucket for every key from the beginning and never forgets one.
-/

namespace Chessrepeat.Ratelimit

open Lib Domain Ws

variable {c : Nat} {r : ℚ} {idle now now' t : Int} {l : Limiter} {key : Text} {b : Bucket}

def seconds (t : Int) : ℚ := t / 1000000000

theorem seconds_le (h : now ≤ t) : seconds now ≤ seconds t :=
  div_le_div_of_nonneg_right (Int.cast_le.mpr h) (by norm_num)

theorem seconds_injective : Function.Injective seconds := by
  intro x y h
  have hne : (1000000000 : ℚ) ≠ 0 := by norm_num
  exact Int.cast_inj.mp ((div_left_inj' hne).mp h)

/-! ## Buckets -/

/-- A bucket with these parameters that was last used at or before a reading of the clock. -/
structure Fits (c : Nat) (r : ℚ) (now : Int) (b : Bucket) : Prop where
  capacity : b.capacity = c
  refill : b.refillPerSecond = r
  last : b.last ≤ now
  nonneg : 0 ≤ b.tokens
  full : b.tokens ≤ c

/-- The bucket as the library has it. -/
def bucketOf (b : Bucket) : TokenBucket.Bucket ℚ := ⟨b.tokens, seconds b.last⟩

theorem Fits.refill_eq (h : Fits c r now b) :
    b.refill now = ⟨(bucketOf b).at (c : ℚ) r (seconds now), c, r, now⟩ := by
  unfold Bucket.refill bucketOf TokenBucket.Bucket.at
  split
  · simp only [h.capacity, h.refill, seconds, sub_div, min_def, Bucket.mk.injEq, and_true]
    split <;> split <;> linarith
  · rename_i hlast
    have hnow : b.last = now := le_antisymm h.last (not_lt.mp hlast)
    have htokens : min (c : ℚ) (b.tokens + (seconds now - seconds now) * r) = b.tokens := by
      rw [sub_self, zero_mul, add_zero, min_eq_right h.full]
    rw [hnow, htokens, ← h.capacity, ← h.refill, ← hnow]

/-- Taking a token is what it is in the library. -/
theorem Fits.allow_eq (h : Fits c r now b) :
    b.allow now = (⟨((bucketOf b).take (c : ℚ) r (seconds now)).1.level, c, r, now⟩,
      ((bucketOf b).take (c : ℚ) r (seconds now)).2) := by
  unfold Bucket.allow TokenBucket.Bucket.take
  rw [h.refill_eq]
  simp only
  split <;> rfl

theorem fits_new (hc : (0 : ℚ) ≤ c) : Fits c r now (Bucket.new c r now) :=
  ⟨rfl, rfl, le_refl _, hc, le_refl _⟩

theorem Fits.allow (h : Fits c r now b) (hr : 0 ≤ r) : Fits c r now (b.allow now).1 := by
  rw [h.allow_eq]
  have hc : (0 : ℚ) ≤ c := h.nonneg.trans h.full
  exact ⟨rfl, rfl, le_refl _, TokenBucket.level_take_nonneg hc hr h.nonneg (seconds_le h.last), TokenBucket.level_take_le⟩

/-! ## Limiters -/

/-- A limiter with these parameters at a reading of the clock, every entry of which was last used when it was last seen. -/
structure Limiter.Fits (c : Nat) (r : ℚ) (idle now : Int) (l : Limiter) : Prop where
  capacity : l.capacity = c
  refill : l.refillPerSecond = r
  idle : l.idle = idle
  entries : ∀ e ∈ l.buckets.rows, Ratelimit.Fits c r now e.2.bucket ∧ e.2.bucket.last = e.2.lastSeen

theorem Limiter.Fits.mono (h : l.Fits c r idle now) (hle : now ≤ t) : l.Fits c r idle t :=
  ⟨h.capacity, h.refill, h.idle, fun e he =>
    have hfits := (h.entries e he).1
    ⟨⟨hfits.capacity, hfits.refill, hfits.last.trans hle, hfits.nonneg, hfits.full⟩, (h.entries e he).2⟩⟩

theorem Limiter.Fits.bucket (h : l.Fits c r idle now) (key : Text) : Ratelimit.Fits c r now (l.bucket key now) := by
  rw [Limiter.bucket]
  split
  · rw [h.capacity, h.refill]
    exact fits_new (Nat.cast_nonneg c)
  · rename_i e he
    exact (h.entries e (Table.find?_eq_some.mp he).1).1

theorem Limiter.Fits.step (h : l.Fits c r idle now) (hr : 0 ≤ r) (op : Op) : (l.step (now, op)).Fits c r idle now := by
  cases op with
  | gc => exact ⟨h.capacity, h.refill, h.idle, fun e he => h.entries e (Table.mem_deleteWhere.mp he).1⟩
  | allow key =>
      refine ⟨h.capacity, h.refill, h.idle, fun e he => ?_⟩
      rcases Table.mem_upsert.mp he with rfl | ⟨he, -⟩
      · refine ⟨(h.bucket key).allow hr, ?_⟩
        change ((l.bucket key now).allow now).1.last = now
        rw [(h.bucket key).allow_eq]
      · exact h.entries e he

/-- At every time from now on each key has as much in the limiter as in the buckets of the library. -/
def Limiter.Like (c : Nat) (r : ℚ) (now : Int) (l : Limiter) (g : Text → TokenBucket.Bucket ℚ) : Prop :=
  ∀ key t, now ≤ t → (bucketOf (l.bucket key t)).at (c : ℚ) r (seconds t) = (g key).at (c : ℚ) r (seconds t)

/-- A request finds the same and leaves the same. -/
theorem Limiter.Like.allow {g : Text → TokenBucket.Bucket ℚ} (h : l.Like c r now g) (hf : l.Fits c r idle now) (key : Text) :
    (l.allow key now).2 = ((g key).take (c : ℚ) r (seconds now)).2 ∧
      (l.allow key now).1.Like c r now (Function.update g key ((g key).take (c : ℚ) r (seconds now)).1) := by
  have htake : (bucketOf (l.bucket key now)).take (c : ℚ) r (seconds now) = (g key).take (c : ℚ) r (seconds now) := by
    simp only [TokenBucket.Bucket.take, h key now (le_refl _)]
  have hallow := (hf.bucket key).allow_eq
  rw [htake] at hallow
  refine ⟨by rw [Limiter.allow, hallow], fun key' t ht => ?_⟩
  have hfind : (l.allow key now).1.buckets.find? key' =
      if key = key' then some (key, ⟨((l.bucket key now).allow now).1, now⟩) else l.buckets.find? key' := Table.find?_upsert
  by_cases hk : key = key'
  · subst hk
    rw [Function.update_self, Limiter.bucket, hfind, if_pos rfl, hallow]
    rw [TokenBucket.fst_take]
    rfl
  · rw [Function.update_of_ne (Ne.symm hk), ← h key' t ht, Limiter.bucket, hfind, if_neg hk, Limiter.bucket]
    rfl

/-- The entries that go are full again. -/
theorem Limiter.Like.gc {g : Text → TokenBucket.Bucket ℚ} (h : l.Like c r now g) (hf : l.Fits c r idle now) (hr : 0 ≤ r)
    (hidle : (c : ℚ) ≤ idle / 1000000000 * r) : (l.gc now).Like c r now g := by
  intro key t ht
  rw [← h key t ht]
  have hfind : (l.gc now).buckets.find? key = (l.buckets.find? key).filter fun e => !decide (e.2.lastSeen < now - l.idle) :=
    Table.find?_deleteWhere
  cases hkey : l.buckets.find? key with
  | none =>
      rw [Limiter.bucket, hfind, hkey, Limiter.bucket, hkey]
      rfl
  | some e =>
      by_cases hgone : e.2.lastSeen < now - l.idle
      · obtain ⟨hfits, hlast⟩ := hf.entries e (Table.find?_eq_some.mp hkey).1
        have hold : (l.bucket key t) = e.2.bucket := by rw [Limiter.bucket, hkey]
        have hnew : ((l.gc now).bucket key t) = Bucket.new c r t := by
          rw [Limiter.bucket, hfind, hkey, Option.filter_some, decide_eq_true hgone]
          rw [← hf.capacity, ← hf.refill]
          rfl
        have hlong : (idle : ℚ) / 1000000000 ≤ seconds t - seconds e.2.bucket.last := by
          rw [seconds, seconds, ← sub_div]
          refine div_le_div_of_nonneg_right ?_ (by norm_num)
          rw [hf.idle] at hgone
          have hint : idle ≤ t - e.2.bucket.last := by omega
          exact_mod_cast hint
        have hfull : (c : ℚ) ≤ e.2.bucket.tokens + (seconds t - seconds e.2.bucket.last) * r :=
          calc (c : ℚ) ≤ idle / 1000000000 * r := hidle
            _ ≤ (seconds t - seconds e.2.bucket.last) * r := mul_le_mul_of_nonneg_right hlong hr
            _ ≤ e.2.bucket.tokens + (seconds t - seconds e.2.bucket.last) * r := le_add_of_nonneg_left hfits.nonneg
        rw [hnew, hold]
        simp only [TokenBucket.Bucket.at, bucketOf, Bucket.new, sub_self, zero_mul, add_zero, min_self, min_eq_left hfull]
      · rw [Limiter.bucket, hfind, hkey, Option.filter_some, decide_eq_false hgone, Limiter.bucket, hkey]
        rfl

/-! ## Runs -/

/-- The requests for tokens among the events. -/
def requests : List (Int × Op) → List (ℚ × Text)
  | [] => []
  | (now, .allow key) :: rest => (seconds now, key) :: requests rest
  | (_, .gc) :: rest => requests rest

theorem exists_of_mem_requests {x : ℚ × Text} {ops : List (Int × Op)} (h : x ∈ requests ops) :
    ∃ e ∈ ops, x.1 = seconds e.1 := by
  induction ops with
  | nil => cases h
  | cons e ops ih =>
      obtain ⟨now, op⟩ := e
      have hrest : x ∈ requests ops → ∃ e ∈ (now, op) :: ops, x.1 = seconds e.1 := fun h =>
        (ih h).imp fun _ he => ⟨List.mem_cons_of_mem _ he.1, he.2⟩
      cases op with
      | gc => exact hrest h
      | allow key =>
          rcases List.mem_cons.mp h with rfl | h
          · exact ⟨_, List.mem_cons_self, rfl⟩
          · exact hrest h

theorem pairwise_requests {ops : List (Int × Op)} (h : ops.Pairwise fun x y => x.1 ≤ y.1) :
    (requests ops).Pairwise fun x y => x.1 ≤ y.1 := by
  induction ops with
  | nil => exact List.Pairwise.nil
  | cons e ops ih =>
      obtain ⟨now, op⟩ := e
      obtain ⟨hhead, hrest⟩ := List.pairwise_cons.mp h
      cases op with
      | gc => exact ih hrest
      | allow key =>
          refine List.pairwise_cons.mpr ⟨fun x hx => ?_, ih hrest⟩
          obtain ⟨e, he, hxe⟩ := exists_of_mem_requests hx
          exact hxe ▸ seconds_le (hhead e he)

theorem requests_filter (ops : List (Int × Op)) : requests (ops.filter fun e => e.2 ≠ .gc) = requests ops := by
  induction ops with
  | nil => rfl
  | cons e ops ih =>
      obtain ⟨now, op⟩ := e
      cases op with
      | gc => exact ih
      | allow key =>
          rw [requests, ← ih]
          rfl

theorem clock_tail {t : Int} {op : Op} {ops : List (Int × Op)}
    (h : ((now, Op.gc) :: (t, op) :: ops).Pairwise fun x y => x.1 ≤ y.1) :
    now ≤ t ∧ ((t, Op.gc) :: ops).Pairwise fun x y => x.1 ≤ y.1 := by
  obtain ⟨hnow, hops⟩ := List.pairwise_cons.mp h
  exact ⟨hnow _ List.mem_cons_self, List.pairwise_cons.mpr (List.pairwise_cons.mp hops)⟩

/-- The limiter answers like the buckets of the library, with or without its evictions. -/
theorem Limiter.Like.answers_eq {g : Text → TokenBucket.Bucket ℚ} {ops : List (Int × Op)} (h : l.Like c r now g)
    (hf : l.Fits c r idle now) (hr : 0 ≤ r) (hidle : (c : ℚ) ≤ idle / 1000000000 * r)
    (hclock : ((now, Op.gc) :: ops).Pairwise fun x y => x.1 ≤ y.1) :
    (l.answers ops).map (fun x => (seconds x.1, x.2)) = TokenBucket.answers (c : ℚ) r g (requests ops) := by
  induction ops generalizing l g now with
  | nil => rfl
  | cons e ops ih =>
      obtain ⟨t, op⟩ := e
      obtain ⟨ht, hrest⟩ := clock_tail hclock
      have hlike : l.Like c r t g := fun key u hu => h key u (ht.trans hu)
      have hfits := hf.mono ht
      cases op with
      | gc => exact ih (hlike.gc hfits hr hidle) (hfits.step hr .gc) hrest
      | allow key =>
          obtain ⟨hanswer, hnext⟩ := hlike.allow hfits key
          rw [Limiter.answers, List.map_cons, ih hnext (hfits.step hr (.allow key)) hrest, hanswer]
          rfl

theorem Limiter.Fits.always {ops : List (Int × Op)} (h : l.Fits c r idle now) (hr : 0 ≤ r)
    (hclock : ((now, Op.gc) :: ops).Pairwise fun x y => x.1 ≤ y.1) :
    Always Limiter.step (fun l => ∀ e ∈ l.buckets.rows, 0 ≤ e.2.bucket.tokens ∧ e.2.bucket.tokens ≤ c) l ops := by
  have hnow : ∀ e ∈ l.buckets.rows, 0 ≤ e.2.bucket.tokens ∧ e.2.bucket.tokens ≤ c := fun e he =>
    ⟨(h.entries e he).1.nonneg, (h.entries e he).1.full⟩
  induction ops generalizing l now with
  | nil => exact hnow
  | cons e ops ih =>
      obtain ⟨t, op⟩ := e
      obtain ⟨ht, hrest⟩ := clock_tail hclock
      have hstep := (h.mono ht).step hr op
      exact ⟨hnow, ih hstep hrest fun e he => ⟨(hstep.entries e he).1.nonneg, (hstep.entries e he).1.full⟩⟩

/-! ## Limits -/

/-- A call under the key that got its token between two times, in seconds. -/
def AllowedIn (key : Text) (a z : ℚ) (x : Int × Text × Bool) : Prop :=
  x.2.1 = key ∧ x.2.2 = true ∧ a ≤ seconds x.1 ∧ seconds x.1 ≤ z

instance (key : Text) (a z : ℚ) (x : Int × Text × Bool) : Decidable (AllowedIn key a z x) :=
  inferInstanceAs (Decidable (_ ∧ _))

/-- In no window of time are more calls under one key allowed than the burst and what comes in, no bucket holds less than
nothing or more than the burst, and no answer depends on the evictions. -/
theorem allow_limited (hr : 0 ≤ r) (hidle : (c : ℚ) ≤ idle / 1000000000 * r) {ops : List (Int × Op)}
    (hclock : ops.Pairwise fun x y => x.1 ≤ y.1) :
    (∀ (key : Text) (a z : ℚ), a ≤ z →
      (((newLimiter c r idle).answers ops).countP (fun x => AllowedIn key a z x) : ℚ) ≤ c + r * (z - a)) ∧
    Always Limiter.step (fun l => ∀ e ∈ l.buckets.rows, 0 ≤ e.2.bucket.tokens ∧ e.2.bucket.tokens ≤ c)
      (newLimiter c r idle) ops ∧
    (newLimiter c r idle).answers ops = (newLimiter c r idle).answers (ops.filter fun e => e.2 ≠ .gc) := by
  have hc : (0 : ℚ) ≤ c := Nat.cast_nonneg c
  have hfits : ∀ now, (newLimiter c r idle).Fits c r idle now := fun now => ⟨rfl, rfl, rfl, fun e he => by cases he⟩
  -- the clock before the first event
  obtain ⟨start, hstart⟩ : ∃ start, ((start, Op.gc) :: ops).Pairwise fun x y => x.1 ≤ y.1 := by
    cases ops with
    | nil => exact ⟨0, List.pairwise_singleton _ _⟩
    | cons e ops =>
        refine ⟨e.1, List.pairwise_cons.mpr ⟨fun x hx => ?_, hclock⟩⟩
        rcases List.mem_cons.mp hx with rfl | hx
        · exact le_refl _
        · exact (List.pairwise_cons.mp hclock).1 x hx
  have hlike : (newLimiter c r idle).Like c r start fun _ => ⟨c, seconds start⟩ := fun key t ht => by
    have hrise : 0 ≤ (seconds t - seconds start) * r := mul_nonneg (sub_nonneg.mpr (seconds_le ht)) hr
    have hbucket : (newLimiter c r idle).bucket key t = Bucket.new c r t := rfl
    rw [hbucket]
    simp only [TokenBucket.Bucket.at, bucketOf, Bucket.new, sub_self, zero_mul, add_zero, min_self,
      min_eq_left (le_add_of_nonneg_right hrise)]
  have hanswers := hlike.answers_eq (hfits start) hr hidle hstart
  have hsorted := pairwise_requests hclock
  refine ⟨fun key a z haz => ?_, (hfits start).always hr hstart, ?_⟩
  · have hle : ∀ e ∈ requests ops, seconds start ≤ e.1 := fun e he => by
      obtain ⟨x, hx, hex⟩ := exists_of_mem_requests he
      exact hex ▸ seconds_le ((List.pairwise_cons.mp hstart).1 x hx)
    have hwindow := @TokenBucket.countP_le_window ℚ Text _ _ _ c r (fun _ => ⟨c, seconds start⟩) key a z _ _ hc hr hsorted
      hle hc haz
    rw [← hanswers, List.countP_map] at hwindow
    rw [mul_comm r]
    refine le_trans (Nat.cast_le.mpr (List.countP_mono_left fun x _ hx => ?_)) hwindow
    obtain ⟨hkey, hallowed, hfrom, hto⟩ := of_decide_eq_true hx
    simp [TokenBucket.granted, hkey, hallowed, hfrom, hto]
  · have hless : ((start, Op.gc) :: ops.filter fun e => e.2 ≠ .gc).Pairwise fun x y => x.1 ≤ y.1 :=
      hstart.sublist (List.filter_sublist.cons_cons _)
    have hanswers' := hlike.answers_eq (hfits start) hr hidle hless
    rw [requests_filter, ← hanswers] at hanswers'
    refine List.map_injective_iff.mpr (fun x y h => ?_) hanswers'.symm
    exact Prod.ext (seconds_injective (Prod.mk.inj h).1) (Prod.mk.inj h).2

/-- Two requests at once, a collection after the idle time and a third request. -/
def quietSpell : List (Int × Op) :=
  [(0, .allow ['a']), (0, .allow ['a']), (5000000000, .gc), (5000000000, .allow ['a'])]

theorem quietSpell_limited : (((newLimiter 2 1 2000000000).answers quietSpell).countP
      (fun x => AllowedIn ['a'] 0 1 x) : ℚ) ≤ 2 + 1 * (1 - 0) ∧
    (newLimiter 2 1 2000000000).answers quietSpell =
      (newLimiter 2 1 2000000000).answers (quietSpell.filter fun e => e.2 ≠ .gc) := by
  obtain ⟨hwindow, -, hsame⟩ := @allow_limited 2 1 2000000000 (by norm_num) (by norm_num) quietSpell (by decide)
  exact ⟨by exact_mod_cast hwindow ['a'] 0 1 (by norm_num), hsame⟩

end Chessrepeat.Ratelimit
