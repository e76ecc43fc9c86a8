import Chessrepeat.Scripts.Main
import Mathlib.Data.List.Perm.Subperm
import Mathlib.Data.List.Range

/-!
# The users of the dump, a batch at a time

The batches are the records in their order, and every record of a batch is counted once.
-/

namespace Chessrepeat.Scripts

open Lib

/-! ## Batches -/

/-- Pieces of one length are the front of a list. -/
theorem flatten_slices {α : Type} (n k : Nat) (l : List α) :
    ((List.range k).map fun j => (l.drop (n * j)).take n).flatten = l.take (n * k) := by
  induction k with
  | zero => simp
  | succ k ih =>
      rw [List.range_succ, List.map_append, List.flatten_append, ih, Nat.mul_succ, List.take_add]
      simp

theorem flatten_batches (records : List UserImportRecord) : (batches records).flatten = records := by
  rw [batches, flatten_slices]
  refine List.take_of_length_le ?_
  rw [batchSize]
  omega

theorem mem_batches {records batch : List UserImportRecord} (h : batch ∈ batches records) :
    batch ≠ [] ∧ batch.length ≤ batchSize := by
  obtain ⟨k, hk, rfl⟩ := List.mem_map.mp h
  rw [List.mem_range, batchSize] at hk
  have hlen : 0 < ((records.drop (batchSize * k)).take batchSize).length := by
    rw [List.length_take, List.length_drop, batchSize]
    omega
  exact ⟨List.length_pos_iff.mp hlen, List.length_take_le _ _⟩

/-! ## One batch -/

/-- The errors other than that the account is there. -/
def failures (es : List ImportError) : Nat := es.countP fun e => e.code ≠ uidAlreadyExists

theorem tally_eq {batch : List UserImportRecord} {es : List ImportError} {ok failed : Nat}
    (h : ∀ e ∈ es, e.index < batch.length) :
    tally batch es (ok, failed) = some (ok + (es.length - failures es), failed + failures es) := by
  induction es generalizing ok failed with
  | nil => simp [tally, failures]
  | cons e es ih =>
      have hle : failures es ≤ es.length := List.countP_le_length
      have htail := fun e' he' => h e' (List.mem_cons_of_mem e he')
      rw [tally]
      by_cases hcode : e.code = uidAlreadyExists
      · have hf : failures (e :: es) = failures es := List.countP_cons_of_neg (by simp [hcode])
        rw [if_pos hcode, ih htail, hf, List.length_cons, show es.length + 1 - failures es = es.length - failures es + 1 by omega]
        simp only [Option.some.injEq, Prod.mk.injEq, and_true]
        omega
      · have hf : failures (e :: es) = failures es + 1 := List.countP_cons_of_pos (by simp [hcode])
        rw [if_neg hcode, List.getElem?_eq_getElem (h e List.mem_cons_self), hf, List.length_cons]
        simp only
        rw [ih htail, Nat.add_sub_add_right]
        simp only [Option.some.injEq, Prod.mk.injEq, true_and]
        omega

variable {σ : Type} {firebase : Firebase σ} {has : σ → JsString → Bool} {auth auth' : σ}
  {batch records : List UserImportRecord} {result : UserImportResult} {s s' : Importing σ}

/-- A record that is missing after its batch has an error of its own. -/
theorem Firebase.Documented.missing_le (h : firebase.Documented has)
    (hcall : firebase.importUsers auth batch = (some result, auth')) : missing has auth' batch ≤ failures result.errors := by
  let lost := batch.zipIdx.filter fun x => !has auth' x.1.uid
  have hlength : missing has auth' batch = (lost.map Prod.snd).length := by
    rw [missing, List.length_map, ← List.countP_eq_length_filter]
    conv_lhs => rw [← List.zipIdx_map_fst 0 batch, List.countP_map]
    rfl
  have hnodup : (lost.map Prod.snd).Nodup := by
    have hsub : (lost.map Prod.snd).Sublist (batch.zipIdx.map Prod.snd) := List.filter_sublist.map Prod.snd
    rw [List.zipIdx_map_snd] at hsub
    exact hsub.nodup List.nodup_range'
  have hsubset : lost.map Prod.snd ⊆ (result.errors.filter fun e => e.code ≠ uidAlreadyExists).map ImportError.index := by
    intro i hi
    obtain ⟨⟨r, j⟩, hx, rfl⟩ := List.mem_map.mp hi
    obtain ⟨hmem, hlost⟩ := List.mem_filter.mp hx
    by_contra hnot
    have hthere := h.imported hcall j r (List.mem_zipIdx_iff_getElem?.mp hmem) fun e he hindex => by
      by_contra hcode
      exact hnot (List.mem_map.mpr ⟨e, List.mem_filter.mpr ⟨he, by simpa using hcode⟩, hindex⟩)
    simp [hthere] at hlost
  rw [hlength, failures, List.countP_eq_length_filter]
  simpa using (List.subperm_of_subset hnodup hsubset).length_le

theorem Firebase.Documented.missing_mono (h : firebase.Documented has) {out : Option UserImportResult}
    (hcall : firebase.importUsers auth batch = (out, auth')) (records : List UserImportRecord) :
    missing has auth' records ≤ missing has auth records := by
  refine List.countP_mono_left fun r _ hr => ?_
  cases hthere : has auth r.uid with
  | false => rfl
  | true => simp [h.kept hcall r.uid hthere] at hr

/-! ## The loop -/

/-- What was sent is counted, and what is missing of it has failed. -/
structure Importing.Sound (has : σ → JsString → Bool) (s : Importing σ) : Prop where
  counted : s.ok + s.failed = s.sent.flatten.length
  missing : missing has s.auth s.sent.flatten ≤ s.failed

theorem Importing.Sound.importBatch (h : firebase.Documented has) (hs : s.Sound has)
    (hrun : importBatch firebase s batch = .ok s') : s'.sent = s.sent ++ [batch] ∧ s'.Sound has := by
  rw [Scripts.importBatch] at hrun
  cases hcall : firebase.importUsers s.auth batch with
  | mk out auth' =>
      cases out with
      | none =>
          rw [hcall] at hrun
          cases hrun
      | some result =>
          have hcounts := h.counts hcall
          have hfail : failures result.errors ≤ result.errors.length := List.countP_le_length
          simp only [hcall, Option.bind_some, tally_eq (h.inBounds hcall)] at hrun
          cases hrun
          refine ⟨rfl, ?_, ?_⟩
          · have := hs.counted
            simp only [List.flatten_append, List.flatten_singleton, List.length_append]
            omega
          · have hold := (h.missing_mono hcall s.sent.flatten).trans hs.missing
            have hnew := h.missing_le hcall
            simp only [Scripts.missing, List.flatten_append, List.flatten_singleton, List.countP_append] at hold hnew ⊢
            omega

theorem sent_importBatch_error (hrun : importBatch firebase s batch = .error s') : s'.sent = s.sent ++ [batch] := by
  rw [importBatch] at hrun
  split at hrun
  · cases hrun
    rfl
  · cases hrun

theorem none_of_importBatch_error (h : firebase.Documented has) (hrun : importBatch firebase s batch = .error s') :
    (firebase.importUsers s.auth batch).1 = none := by
  cases hcall : firebase.importUsers s.auth batch with
  | mk out auth' =>
      cases out with
      | none => rfl
      | some result =>
          rw [importBatch] at hrun
          simp only [hcall, Option.bind_some, tally_eq (h.inBounds hcall)] at hrun
          cases hrun

/-- All batches were sent, one after the other. -/
theorem Importing.Sound.foldlM (h : firebase.Documented has) {bs : List (List UserImportRecord)} (hs : s.Sound has)
    (hrun : bs.foldlM (Scripts.importBatch firebase) s = .ok s') : s'.sent = s.sent ++ bs ∧ s'.Sound has := by
  induction bs generalizing s with
  | nil =>
      cases hrun
      exact ⟨(List.append_nil _).symm, hs⟩
  | cons batch bs ih =>
      rw [List.foldlM_cons] at hrun
      cases hone : Scripts.importBatch firebase s batch with
      | error e =>
          rw [hone] at hrun
          cases hrun
      | ok t =>
          rw [hone] at hrun
          obtain ⟨hsent, ht⟩ := hs.importBatch h hone
          obtain ⟨hsent', hs'⟩ := ih ht hrun
          exact ⟨by rw [hsent', hsent, List.append_assoc, List.singleton_append], hs'⟩

/-- The script ended in the middle: a front part of the batches was sent. -/
theorem sent_foldlM_error {bs : List (List UserImportRecord)} (hrun : bs.foldlM (importBatch firebase) s = .error s') :
    ∃ sent, sent <+: bs ∧ s'.sent = s.sent ++ sent := by
  induction bs generalizing s with
  | nil => cases hrun
  | cons batch bs ih =>
      rw [List.foldlM_cons] at hrun
      cases hone : importBatch firebase s batch with
      | error e =>
          rw [hone] at hrun
          cases hrun
          exact ⟨[batch], ⟨bs, rfl⟩, sent_importBatch_error hone⟩
      | ok t =>
          rw [hone] at hrun
          have hsent : t.sent = s.sent ++ [batch] := by
            rw [importBatch] at hone
            split at hone
            · cases hone
            · cases hone
              rfl
          obtain ⟨sent, hpre, hs'⟩ := ih hrun
          exact ⟨batch :: sent, List.cons_prefix_cons.mpr ⟨rfl, hpre⟩, by rw [hs', hsent, List.append_assoc]; rfl⟩

/-- It ended because a call rejected. -/
theorem rejects_of_foldlM_error (h : firebase.Documented has) {bs : List (List UserImportRecord)}
    (hrun : bs.foldlM (importBatch firebase) s = .error s') :
    ∃ pre batch rest t, bs = pre ++ batch :: rest ∧ pre.foldlM (importBatch firebase) s = .ok t ∧
      (firebase.importUsers t.auth batch).1 = none := by
  induction bs generalizing s with
  | nil => cases hrun
  | cons batch bs ih =>
      rw [List.foldlM_cons] at hrun
      cases hone : importBatch firebase s batch with
      | error e => exact ⟨[], batch, bs, s, rfl, rfl, none_of_importBatch_error h hone⟩
      | ok t =>
          rw [hone] at hrun
          obtain ⟨pre, next, rest, u, rfl, hpre, hnone⟩ := ih hrun
          refine ⟨batch :: pre, next, rest, u, rfl, ?_, hnone⟩
          rw [List.foldlM_cons, hone]
          exact hpre

theorem finishes_iff (h : firebase.Documented has) (rows : List Row) :
    Finishes firebase auth rows ↔ ¬ CallRejects firebase auth rows := by
  constructor
  · rintro ⟨s, hs⟩ ⟨t, batch, rest, hbatches, hpre, hnone⟩
    rw [importAll, hbatches, List.foldlM_append, hpre] at hs
    have herror : importBatch firebase t batch = .error
        { t with sent := t.sent ++ [batch], auth := (firebase.importUsers t.auth batch).2 } := by
      simp only [importBatch, hnone, Option.bind_none]
    change (batch :: rest).foldlM (importBatch firebase) t = .ok s at hs
    rw [List.foldlM_cons, herror] at hs
    cases hs
  · intro hnot
    cases hrun : importAll firebase auth (importable rows) with
    | ok s => exact ⟨s, hrun⟩
    | error s =>
        obtain ⟨pre, batch, rest, t, hbatches, hpre, hnone⟩ := rejects_of_foldlM_error h hrun
        have hstart : (⟨0, 0, [], auth⟩ : Importing σ).Sound has := ⟨rfl, Nat.le_refl 0⟩
        obtain ⟨hsent, -⟩ := hstart.foldlM h hpre
        obtain rfl : t.sent = pre := hsent
        exact absurd ⟨t, batch, rest, hbatches, hpre, hnone⟩ hnot

end Chessrepeat.Scripts
