import Mathlib.Algebra.Order.Field.Basic
import Mathlib.Logic.Function.Basic
import Mathlib.Tactic.Linarith
import Mathlib.Tactic.Ring

/-!
# Token buckets

A level that rises at a rate up to a capacity, and tokens taken from it one at a time. There is a bucket for each key,
and it is there from the beginning.
-/

namespace Chessrepeat.Lib.TokenBucket

variable {K κ : Type*} [Field K] [LinearOrder K] [DecidableEq κ]

/-- What was left when a token was last asked for, and when that was. -/
structure Bucket (K : Type*) where
  level : K
  since : K

/-- The level at a later time. -/
def Bucket.at (c r : K) (b : Bucket K) (t : K) : K := min c (b.level + (t - b.since) * r)

def Bucket.take (c r : K) (b : Bucket K) (t : K) : Bucket K × Bool :=
  if b.at c r t < 1 then (⟨b.at c r t, t⟩, false) else (⟨b.at c r t - 1, t⟩, true)

/-- Tokens are asked for at the times, under the keys; each request with its answer. -/
def answers (c r : K) (b : κ → Bucket K) : List (K × κ) → List (K × κ × Bool)
  | [] => []
  | (t, k) :: rest =>
      (t, k, ((b k).take c r t).2) :: answers c r (Function.update b k ((b k).take c r t).1) rest

variable {c r : K} {b : κ → Bucket K} {g : Bucket K} {k : κ} {t a z : K} {rest : List (K × κ)}

/-! ## One request -/

@[simp] theorem since_take : (g.take c r t).1.since = t := by
  unfold Bucket.take
  split <;> rfl

theorem fst_take : (g.take c r t).1 = ⟨(g.take c r t).1.level, t⟩ := by
  unfold Bucket.take
  split <;> rfl

theorem level_take : (g.take c r t).1.level + (if (g.take c r t).2 then 1 else 0) = g.at c r t := by
  unfold Bucket.take
  split
  · exact add_zero _
  · exact sub_add_cancel _ _

theorem at_le : g.at c r t ≤ c := min_le_left _ _

theorem mem_answers {x : K × κ × Bool} {es : List (K × κ)} (h : x ∈ answers c r b es) : ∃ e ∈ es, x.1 = e.1 := by
  induction es generalizing b with
  | nil => cases h
  | cons e es ih =>
      rcases List.mem_cons.mp h with rfl | h
      · exact ⟨e, List.mem_cons_self, rfl⟩
      · obtain ⟨e', he', hx⟩ := ih h
        exact ⟨e', List.mem_cons_of_mem _ he', hx⟩

variable [IsStrictOrderedRing K]

theorem level_take_le : (g.take c r t).1.level ≤ c := by
  have h := level_take (c := c) (r := r) (g := g) (t := t)
  have hat := at_le (c := c) (r := r) (g := g) (t := t)
  split at h <;> linarith

theorem at_nonneg (hc : 0 ≤ c) (hr : 0 ≤ r) (hg : 0 ≤ g.level) (ht : g.since ≤ t) : 0 ≤ g.at c r t :=
  le_min hc (add_nonneg hg (mul_nonneg (sub_nonneg.mpr ht) hr))

theorem level_take_nonneg (hc : 0 ≤ c) (hr : 0 ≤ r) (hg : 0 ≤ g.level) (ht : g.since ≤ t) :
    0 ≤ (g.take c r t).1.level := by
  have h := at_nonneg hc hr hg ht
  unfold Bucket.take
  split
  · exact h
  · rename_i hone
    exact sub_nonneg.mpr (not_lt.mp hone)

/-! ## Windows of time -/

/-- A request under the key that got its token between two times. -/
def granted (k : κ) (a z : K) (x : K × κ × Bool) : Bool := x.2.1 = k && x.2.2 && decide (a ≤ x.1) && decide (x.1 ≤ z)

omit [Field K] [IsStrictOrderedRing K] in
theorem granted_le {x : K × κ × Bool} (h : granted k a z x = true) : a ≤ x.1 ∧ x.1 ≤ z := by
  simp only [granted, Bool.and_eq_true, decide_eq_true_eq] at h
  exact ⟨h.1.2, h.2⟩

omit [IsStrictOrderedRing K] in
theorem countP_eq_zero_of_lt {es : List (K × κ)} (h : ∀ e ∈ es, z < e.1) : (answers c r b es).countP (granted k a z) = 0 := by
  refine List.countP_eq_zero.mpr fun x hx hgranted => ?_
  obtain ⟨e, he, ht⟩ := mem_answers hx
  exact absurd (granted_le hgranted).2 (not_le.mpr (ht ▸ h e he))

/-- The head of the answers counts only under its key. -/
theorem countP_cons_le : ((answers c r b ((t, k) :: rest)).countP (granted k a z) : K) ≤
    (if ((b k).take c r t).2 then 1 else 0) +
      (answers c r (Function.update b k ((b k).take c r t).1) rest).countP (granted k a z) := by
  rw [answers, List.countP_cons, Nat.cast_add, add_comm]
  refine add_le_add_left ?_ _
  by_cases hallowed : ((b k).take c r t).2 = true
  · rw [if_pos hallowed]
    split
    · exact Nat.cast_one.le
    · exact Nat.cast_zero.le.trans zero_le_one
  · rw [if_neg hallowed, if_neg (by simp [granted, hallowed])]
    exact Nat.cast_zero.le

omit [IsStrictOrderedRing K] in
theorem countP_cons_of_ne {k' : κ} (h : k' ≠ k) : (answers c r b ((t, k') :: rest)).countP (granted k a z) =
    (answers c r (Function.update b k' ((b k').take c r t).1) rest).countP (granted k a z) := by
  rw [answers, List.countP_cons_of_neg]
  simp [granted, h]

omit [IsStrictOrderedRing K] in
theorem countP_of_late {k' : κ} (htz : ¬t ≤ z) (hhead : ∀ e ∈ rest, t ≤ e.1) :
    (answers c r b ((t, k') :: rest)).countP (granted k a z) = 0 := by
  refine countP_eq_zero_of_lt fun e he => ?_
  rcases List.mem_cons.mp he with rfl | he
  · exact not_le.mp htz
  · exact (not_le.mp htz).trans_le (hhead e he)

/-- From now on a key gets no more tokens than it has and than come in. -/
theorem countP_le_level {es : List (K × κ)} (hc : 0 ≤ c) (hr : 0 ≤ r) (hs : es.Pairwise fun x y => x.1 ≤ y.1)
    (hle : ∀ e ∈ es, (b k).since ≤ e.1) (hz : (b k).since ≤ z) (hlevel : 0 ≤ (b k).level) :
    ((answers c r b es).countP (granted k a z) : K) ≤ (b k).level + (z - (b k).since) * r := by
  have hnonneg : 0 ≤ (b k).level + (z - (b k).since) * r := add_nonneg hlevel (mul_nonneg (sub_nonneg.mpr hz) hr)
  induction es generalizing b with
  | nil => exact Nat.cast_zero.le.trans hnonneg
  | cons e es ih =>
      obtain ⟨t, k'⟩ := e
      obtain ⟨hhead, hs⟩ := List.pairwise_cons.mp hs
      have hlt := fun e he => hle e (List.mem_cons_of_mem (t, k') he)
      by_cases hk : k' = k
      · subst hk
        have ht : (b k').since ≤ t := hle _ List.mem_cons_self
        by_cases htz : t ≤ z
        · have hnext := @ih (Function.update b k' ((b k').take c r t).1) hs
          rw [Function.update_self, since_take] at hnext
          have hrest := hnext hhead htz (level_take_nonneg hc hr hlevel ht)
            (add_nonneg (level_take_nonneg hc hr hlevel ht) (mul_nonneg (sub_nonneg.mpr htz) hr))
          have hat : (b k').at c r t ≤ (b k').level + (t - (b k').since) * r := min_le_right _ _
          have htake := level_take (c := c) (r := r) (g := b k') (t := t)
          have hcons := @countP_cons_le K κ _ _ _ c r b k' t a z es _
          calc ((answers c r b ((t, k') :: es)).countP (granted k' a z) : K)
              ≤ (if ((b k').take c r t).2 then 1 else 0) + (((b k').take c r t).1.level + (z - t) * r) :=
                hcons.trans (by linarith)
            _ = (b k').at c r t + (z - t) * r := by rw [← htake]; ring
            _ ≤ (b k').level + (z - (b k').since) * r := by linarith
        · rw [countP_of_late htz hhead]
          exact Nat.cast_zero.le.trans hnonneg
      · rw [countP_cons_of_ne hk]
        have hsame : Function.update b k' ((b k').take c r t).1 k = b k := Function.update_of_ne (Ne.symm hk) _ _
        have hnext := @ih (Function.update b k' ((b k').take c r t).1) hs
        rw [hsame] at hnext
        exact hnext hlt hz hlevel hnonneg

/-- In a window of time a key gets no more tokens than fit into its bucket and than come in. -/
theorem countP_le_window {es : List (K × κ)} (hc : 0 ≤ c) (hr : 0 ≤ r) (hs : es.Pairwise fun x y => x.1 ≤ y.1)
    (hle : ∀ e ∈ es, (b k).since ≤ e.1) (hlevel : 0 ≤ (b k).level) (haz : a ≤ z) :
    ((answers c r b es).countP (granted k a z) : K) ≤ c + (z - a) * r := by
  have hnonneg : 0 ≤ c + (z - a) * r := add_nonneg hc (mul_nonneg (sub_nonneg.mpr haz) hr)
  induction es generalizing b with
  | nil => exact Nat.cast_zero.le.trans hnonneg
  | cons e es ih =>
      obtain ⟨t, k'⟩ := e
      obtain ⟨hhead, hs⟩ := List.pairwise_cons.mp hs
      have hlt := fun e he => hle e (List.mem_cons_of_mem (t, k') he)
      by_cases hk : k' = k
      · subst hk
        have ht : (b k').since ≤ t := hle _ List.mem_cons_self
        have hlevel' := level_take_nonneg hc hr hlevel ht
        by_cases hta : t < a
        · -- the window has not begun
          have hnot : granted k' a z (t, k', ((b k').take c r t).2) = false := by
            simp [granted, not_le.mpr hta]
          rw [answers, List.countP_cons_of_neg (by simp [hnot])]
          have hnext := @ih (Function.update b k' ((b k').take c r t).1) hs
          rw [Function.update_self, since_take] at hnext
          exact hnext hhead hlevel'
        · by_cases htz : t ≤ z
          · -- the first request in the window finds at most a full bucket
            have hrest := @countP_le_level K κ _ _ _ c r (Function.update b k' ((b k').take c r t).1) k' a z _ es hc hr hs
            rw [Function.update_self, since_take] at hrest
            have hrest := hrest hhead htz hlevel'
            have htake := level_take (c := c) (r := r) (g := b k') (t := t)
            have hat := at_le (c := c) (r := r) (g := b k') (t := t)
            have hcons := @countP_cons_le K κ _ _ _ c r b k' t a z es _
            have hwindow : (z - t) * r ≤ (z - a) * r := mul_le_mul_of_nonneg_right (by linarith [not_lt.mp hta]) hr
            linarith
          · rw [countP_of_late htz hhead]
            exact Nat.cast_zero.le.trans hnonneg
      · rw [countP_cons_of_ne hk]
        have hsame : Function.update b k' ((b k').take c r t).1 k = b k := Function.update_of_ne (Ne.symm hk) _ _
        have hnext := @ih (Function.update b k' ((b k').take c r t).1) hs
        rw [hsame] at hnext
        exact hnext hlt hlevel

end Chessrepeat.Lib.TokenBucket
