import Chessrepeat.Auth.Certs
import Chessrepeat.Lib.Run

/-!
# What the cache of the signing keys guarantees

It hands out no key after the time of its set, but for the calls that come within a minute of a request; and its
requests are a minute apart as long as they are answered.
-/

namespace Chessrepeat.Auth

open Lib Domain

variable {Key : Type} {c : CertCache Key} {s : CertRun Key} {call : KeyCall Key}

/-! ## Cache-Control -/

theorem maxAgeSeconds_pos {cacheControl : Text} {secs : Int} (h : maxAgeSeconds cacheControl = some secs) : 0 < secs := by
  obtain ⟨part, -, hpart⟩ := List.exists_of_findSome?_eq_some h
  exact of_decide_eq_true (Option.filter_eq_some_iff.mp hpart).2

theorem servedAge_pos (cacheControl : Text) : 0 < servedAge cacheControl := by
  rw [servedAge]
  split
  · rename_i secs h
    have := maxAgeSeconds_pos h
    unfold second
    omega
  · decide

/-- An age that does not fit into 64 bits gets shorter. -/
theorem maxAge_le (cacheControl : Text) : maxAge cacheControl ≤ servedAge cacheControl := by
  rw [maxAge, servedAge]
  split
  · rename_i secs h
    have hpos : 0 < secs * second := by
      have := maxAgeSeconds_pos h
      unfold second
      omega
    rw [Int.bmod_eq_emod]
    split <;> omega
  · exact Int.le_refl _

/-! ## What a call does -/

/-- A call that makes no request returns the key of the set, whether or not the set is in time. -/
theorem CertCache.key_of_not_fetches {now fetched : Int} {kid : Text} {response : Option (CertsResponse Key)}
    (h : c.fetches now kid = false) : c.key now kid fetched response = (c, c.lookup kid) := by
  rw [CertCache.key]
  cases hc : c.cached now kid with
  | some k =>
      have hk : c.keys kid = some k := by
        rw [CertCache.cached] at hc
        split at hc
        · exact hc
        · cases hc
      simp only [CertCache.lookup, hk]
  | none =>
      have ht : c.throttled now = true := by
        rw [CertCache.fetches, hc] at h
        simpa using h
      simp only [ht, if_true]

theorem CertCache.key_of_fetches {now fetched : Int} {kid : Text} {response : Option (CertsResponse Key)}
    (h : c.fetches now kid = true) : c.key now kid fetched response = match c.refresh fetched response with
      | (c, some e) => (c, .error e)
      | (c, none) => (c, c.lookup kid) := by
  rw [CertCache.fetches, Bool.and_eq_true, Option.isNone_iff_eq_none, Bool.not_eq_true'] at h
  have hold : ¬c.throttled now = true := Bool.eq_false_iff.mp h.2
  rw [CertCache.key, h.1]
  exact if_neg hold

theorem CertCache.toOption_lookup (c : CertCache Key) (kid : Text) : (c.lookup kid).toOption = c.keys kid := by
  rw [CertCache.lookup]
  cases c.keys kid <;> rfl

/-! ## Keys in time -/

/-- The key that was returned last is one of the set installed last, and in time. -/
def Fresh (s : CertRun Key) : Prop :=
  ∀ kid k t, s.returned = some (kid, k, t) → ∃ set, s.installed = some set ∧ set.keys kid = some k ∧ t < set.expiry

/-- No call that asks for a key of the set comes after the time of the set and within a minute of the last answer. -/
def InTime (s : CertRun Key) (call : KeyCall Key) : Prop :=
  ∀ set, s.installed = some set → set.expiry ≤ s.now + call.elapsed →
    s.cache.throttled (s.now + call.elapsed) = true → set.keys call.kid = none

/-- The cache has the keys of the set installed last, and no longer than it may. -/
structure Mirrored (s : CertRun Key) : Prop where
  keys : s.cache.keys = fun kid => s.installed.bind fun set => set.keys kid
  expires : ∀ set, s.installed = some set → s.cache.expires ≤ set.expiry

theorem Mirrored.start (now : Int) : Mirrored (CertRun.start now : CertRun Key) := ⟨rfl, nofun⟩

theorem step_of_fetches (h : s.cache.fetches (s.now + call.elapsed) call.kid = true) : s.step call = s.fetch call := by
  simp only [CertRun.step, h, if_true]

theorem step_of_not_fetches (h : s.cache.fetches (s.now + call.elapsed) call.kid = false) :
    s.step call = { s with
      now := s.now + call.elapsed
      returned := (s.cache.keys call.kid).map fun k => (call.kid, k, s.now + call.elapsed) } := by
  simp only [CertRun.step, h, Bool.false_eq_true, if_false, CertCache.key_of_not_fetches h, CertCache.toOption_lookup]

/-- A request gets a new set, or the call returns no key. -/
theorem fetch_cases (h : s.cache.fetches (s.now + call.elapsed) call.kid = true) :
    ((s.fetch call).returned = none ∧ (s.fetch call).installed = s.installed ∧
      (s.fetch call).cache.keys = s.cache.keys ∧ (s.fetch call).cache.expires = s.cache.expires) ∨
    ∃ set, (s.fetch call).installed = some set ∧ (s.fetch call).cache.keys = set.keys ∧
      (s.fetch call).cache.expires = set.fetched + maxAge set.cacheControl ∧
      (s.fetch call).returned = (set.keys call.kid).map fun k => (call.kid, k, set.fetched) := by
  cases hr : call.response with
  | none =>
      left
      simp only [CertRun.fetch, CertCache.key_of_fetches h, hr, CertCache.refresh]
      exact ⟨rfl, trivial, trivial, trivial⟩
  | some r =>
      cases hk : r.keys with
      | error e =>
          left
          simp only [CertRun.fetch, CertCache.key_of_fetches h, hr, CertCache.refresh, hk]
          exact ⟨rfl, trivial, trivial, trivial⟩
      | ok keys =>
          right
          refine ⟨⟨keys, s.now + call.elapsed + call.took, r.cacheControl⟩, ?_⟩
          simp only [CertRun.fetch, CertCache.key_of_fetches h, hr, CertCache.refresh, hk, CertCache.toOption_lookup,
            and_self]

theorem Mirrored.step (h : Mirrored s) (call : KeyCall Key) : Mirrored (s.step call) := by
  cases hf : s.cache.fetches (s.now + call.elapsed) call.kid with
  | false =>
      rw [step_of_not_fetches hf]
      exact ⟨h.keys, h.expires⟩
  | true =>
      rw [step_of_fetches hf]
      rcases fetch_cases hf with ⟨-, hi, hk, he⟩ | ⟨set, hi, hk, he, -⟩
      · exact ⟨by rw [hk, hi, h.keys], fun set hset => by rw [he]; exact h.expires set (hi ▸ hset)⟩
      · refine ⟨by rw [hk, hi]; rfl, fun set' hset => ?_⟩
        rw [hi] at hset
        cases hset
        have := maxAge_le set.cacheControl
        rw [he, Installed.expiry]
        omega

theorem CertCache.cached_of_not_throttled {now : Int} {kid : Text} (hf : c.fetches now kid = false)
    (ht : c.throttled now = false) : now < c.expires := by
  rw [CertCache.fetches, ht, Bool.not_false, Bool.and_true, CertCache.cached] at hf
  by_contra hlate
  rw [if_neg hlate] at hf
  cases hf

theorem Mirrored.fresh_iff (h : Mirrored s) (call : KeyCall Key) : Fresh (s.step call) ↔ InTime s call := by
  cases hf : s.cache.fetches (s.now + call.elapsed) call.kid with
  | true =>
      rw [step_of_fetches hf]
      have hnot : s.cache.throttled (s.now + call.elapsed) = false := by
        rw [CertCache.fetches, Bool.and_eq_true, Bool.not_eq_true'] at hf
        exact hf.2
      refine iff_of_true (fun kid k t hret => ?_) fun set _ _ ht => by rw [hnot] at ht; cases ht
      rcases fetch_cases hf with ⟨hnone, -⟩ | ⟨set, hi, -, -, hsome⟩
      · rw [hnone] at hret
        cases hret
      · rw [hsome, Option.map_eq_some_iff] at hret
        obtain ⟨k', hk', he⟩ := hret
        cases he
        refine ⟨set, hi, hk', ?_⟩
        have := servedAge_pos set.cacheControl
        rw [Installed.expiry]
        omega
  | false =>
      rw [step_of_not_fetches hf]
      simp only [Fresh, InTime, h.keys]
      constructor
      · intro hfresh set hset hlate _
        by_contra hsome
        obtain ⟨k, hk⟩ := Option.ne_none_iff_exists'.mp hsome
        obtain ⟨set', hset', -, ht⟩ := hfresh call.kid k (s.now + call.elapsed) (by rw [hset, Option.bind_some, hk]; rfl)
        rw [hset] at hset'
        cases hset'
        omega
      · intro htime kid k t hret
        obtain ⟨k', hk', he⟩ := Option.map_eq_some_iff.mp hret
        cases he
        obtain ⟨set, hset, hk⟩ := Option.bind_eq_some_iff.mp hk'
        refine ⟨set, hset, hk, ?_⟩
        by_contra hlate
        have hle : set.expiry ≤ s.now + call.elapsed := by omega
        cases ht : s.cache.throttled (s.now + call.elapsed) with
        | true =>
            rw [htime set hset hle ht] at hk
            cases hk
        | false =>
            have hlt := CertCache.cached_of_not_throttled hf ht
            have := h.expires set hset
            omega

/-- The keys a run hands out are all in time exactly if its calls are. -/
theorem always_fresh (now : Int) (calls : List (KeyCall Key)) :
    Always CertRun.step Fresh (CertRun.start now) calls ↔ Meets CertRun.step InTime (CertRun.start now) calls :=
  always_iff_meets (fun _ call h => h.step call) (fun _ call h _ => h.fresh_iff call) (Mirrored.start now) nofun calls

def kid : Text := ['k', '1']

/-- Google has one key and says nothing about how long it is good for. -/
def oneKey : CertsResponse Unit := ⟨200, some ⟨[(kid, some ())], List.nodup_singleton kid⟩, []⟩

/-- The set is an hour old when the next request gets an error, and a second later the key is asked for again. -/
def refetchFailed : List (KeyCall Unit) :=
  [⟨0, kid, 0, some oneKey⟩, ⟨3600000000000, kid, 0, some ⟨500, none, []⟩⟩, ⟨1000000000, kid, 0, none⟩]

/-- The key is handed out. -/
theorem refetchFailed_stale : ¬ Always CertRun.step Fresh (CertRun.start (62135596800 * second)) refetchFailed := by
  intro h
  obtain ⟨set, hset, -, hlt⟩ := h.last kid () (62135600401 * second) rfl
  cases hset
  exact absurd hlt (by decide)

/-! ## Requests a minute apart -/

/-- Any two requests are at least a minute apart. -/
def Spaced (s : CertRun Key) : Prop := s.attempts.Pairwise fun a b => minRefetchInterval ≤ b - a

/-- A call in the minute after a request that was not answered finds its key in a set that is in time. -/
def Calm (s : CertRun Key) (call : KeyCall Key) : Prop :=
  ∀ a, s.unanswered = some a → s.now + call.elapsed < a + minRefetchInterval →
    (s.cache.cached (s.now + call.elapsed) call.kid).isSome = true

/-- Where the cache stands with the requests made so far: `lastFetch` is the last of them if that was answered, and a
minute before it otherwise. -/
structure Timed (s : CertRun Key) : Prop where
  past : ∀ a ∈ s.attempts, a ≤ s.now
  answered : s.unanswered = none → ∀ a ∈ s.attempts, a ≤ s.cache.lastFetch
  unanswered : ∀ a, s.unanswered = some a →
    a ∈ s.attempts ∧ (∀ b ∈ s.attempts, b ≤ a) ∧ minRefetchInterval ≤ a - s.cache.lastFetch

theorem Timed.start (now : Int) : Timed (CertRun.start now : CertRun Key) := ⟨nofun, nofun, nofun⟩

theorem CertCache.fetches_iff {now : Int} {kid : Text} :
    c.fetches now kid = true ↔ (c.cached now kid).isSome = false ∧ minRefetchInterval ≤ now - c.lastFetch := by
  simp only [CertCache.fetches, CertCache.throttled, Bool.and_eq_true, Option.isNone_iff_eq_none,
    Bool.not_eq_true', decide_eq_false_iff_not, Int.not_lt, Option.isSome_eq_false_iff]

/-- Only an answer moves `lastFetch`. -/
theorem CertCache.lastFetch_key {now fetched : Int} {kid : Text} {response : Option (CertsResponse Key)}
    (h : c.fetches now kid = true) :
    (c.key now kid fetched response).1.lastFetch = if response.isNone then c.lastFetch else fetched := by
  rw [CertCache.key_of_fetches h]
  cases response with
  | none => rfl
  | some r =>
      cases hk : r.keys <;> simp only [CertCache.refresh, hk] <;> rfl

theorem stepInstant_of_not_fetches (h : s.cache.fetches (s.now + call.elapsed) call.kid = false) :
    s.stepInstant call = { s with
      now := s.now + call.elapsed
      returned := (s.cache.keys call.kid).map fun k => (call.kid, k, s.now + call.elapsed) } :=
  (step_of_not_fetches h : s.step { call with took := 0 } = _)

theorem stepInstant_of_fetches (h : s.cache.fetches (s.now + call.elapsed) call.kid = true) :
    s.stepInstant call = s.fetch { call with took := 0 } :=
  (step_of_fetches h : s.step { call with took := 0 } = _)

theorem lastFetch_fetch (h : s.cache.fetches (s.now + call.elapsed) call.kid = true) :
    (s.fetch { call with took := 0 }).cache.lastFetch =
      if call.response.isNone then s.cache.lastFetch else s.now + call.elapsed :=
  (CertCache.lastFetch_key h).trans (by simp)

theorem Timed.step (h : Timed s) (call : KeyCall Key) : Timed (s.stepInstant call) := by
  cases hf : s.cache.fetches (s.now + call.elapsed) call.kid with
  | false =>
      rw [stepInstant_of_not_fetches hf]
      refine ⟨fun a ha => ?_, h.answered, h.unanswered⟩
      have := h.past a ha
      simp only
      omega
  | true =>
      have hmin := (CertCache.fetches_iff.mp hf).2
      have hlast := lastFetch_fetch hf
      have hpast : ∀ a ∈ s.attempts ++ [s.now + (call.elapsed : Int)], a ≤ s.now + call.elapsed := by
        intro a ha
        rcases List.mem_append.mp ha with ha | ha
        · have := h.past a ha
          omega
        · exact Int.le_of_eq (List.mem_singleton.mp ha)
      rw [stepInstant_of_fetches hf]
      refine ⟨fun a ha => ?_, fun hu a ha => ?_, fun a hu => ?_⟩
      · simpa [CertRun.fetch] using hpast a ha
      · cases hr : call.response with
        | none => rw [CertRun.fetch, hr] at hu; cases hu
        | some r =>
            rw [hr, Option.isNone_some, if_neg Bool.false_ne_true] at hlast
            rw [hlast]
            exact hpast a ha
      · cases hr : call.response with
        | some r => rw [CertRun.fetch, hr] at hu; cases hu
        | none =>
            rw [hr, Option.isNone_none, if_pos rfl] at hlast
            simp only [CertRun.fetch, hr, Option.isNone_none, if_true, Option.some.injEq] at hu
            rw [hlast, ← hu]
            exact ⟨List.mem_append_right _ (List.mem_singleton_self _), hpast, hmin⟩

/-- A request that was answered throttles the next one, a request that was not leaves the throttle a minute behind. -/
theorem Timed.spaced_iff (h : Timed s) (hs : Spaced s) (call : KeyCall Key) :
    Spaced (s.stepInstant call) ↔ Calm s call := by
  cases hf : s.cache.fetches (s.now + call.elapsed) call.kid with
  | false =>
      rw [stepInstant_of_not_fetches hf]
      refine iff_of_true hs fun a ha _ => ?_
      obtain ⟨hmem, -, hmin⟩ := h.unanswered a ha
      have hpast := h.past a hmem
      by_contra hnone
      rw [CertCache.fetches_iff.mpr ⟨by simpa using hnone, by omega⟩] at hf
      cases hf
  | true =>
      obtain ⟨hnone, hmin⟩ := CertCache.fetches_iff.mp hf
      have hspaced : Spaced (s.stepInstant call) ↔
          ∀ a ∈ s.attempts, minRefetchInterval ≤ s.now + call.elapsed - a := by
        rw [stepInstant_of_fetches hf]
        simp only [Spaced, CertRun.fetch, List.pairwise_append, List.pairwise_singleton, List.mem_singleton,
          forall_eq, true_and]
        exact and_iff_right hs
      rw [hspaced]
      cases hu : s.unanswered with
      | none =>
          refine iff_of_true (fun a ha => ?_) fun a ha => by rw [hu] at ha; cases ha
          have := h.answered hu a ha
          omega
      | some a =>
          obtain ⟨hmem, hlast, -⟩ := h.unanswered a hu
          constructor
          · intro hall b hb hsoon
            rw [hu] at hb
            cases hb
            have := hall a hmem
            omega
          · intro hcalm b hb
            have hle := hlast b hb
            by_contra hsoon
            have hhit := hcalm a hu (by omega)
            rw [hnone] at hhit
            cases hhit

/-- The requests of a run are a minute apart exactly if its calls are calm. -/
theorem always_spaced (now : Int) (calls : List (KeyCall Key)) :
    Always CertRun.stepInstant Spaced (CertRun.start now) calls ↔
      Meets CertRun.stepInstant Calm (CertRun.start now) calls :=
  always_iff_meets (fun _ call h => h.step call) (fun _ call h hs => h.spaced_iff hs call) (Timed.start now)
    List.Pairwise.nil calls

/-- Google cannot be reached, and a second later another token has an unknown key. -/
def unreachable : List (KeyCall Unit) := [⟨0, kid, 0, none⟩, ⟨1000000000, kid, 0, none⟩]

/-- It is asked twice. -/
theorem unreachable_floods : ¬ Always CertRun.stepInstant Spaced (CertRun.start (62135596800 * second)) unreachable := by
  intro h
  exact absurd (List.rel_of_pairwise_cons h.last List.mem_cons_self) (by decide)

end Chessrepeat.Auth
