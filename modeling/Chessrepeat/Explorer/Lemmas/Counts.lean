import Mathlib.Algebra.BigOperators.Group.List.Basic
import Mathlib.Algebra.Group.Prod
import Mathlib.Algebra.Group.Pi.Basic
import Mathlib.Algebra.Ring.Int.Defs
import Chessrepeat.Explorer.Main

/-!
# What the merged results count
-/

namespace Chessrepeat.Explorer

open Lib Domain

variable {Position Move Raw : Type} {chess : Chess Position Move} {json : Json Raw}
variable {m : SanMap} {agg : Agg} {v : PebbleValue} {winner : Color} {key san : Text}

/-- Wins of white, wins of black and draws. -/
abbrev Counts := Int × Int × Int

def ResultSummary.counts (s : ResultSummary) : Counts := (s.whiteWins, s.blackWins, s.draws)

def SanMap.counts (m : SanMap) (san : Text) : Counts :=
  match m.find? san with
  | none => 0
  | some s => s.counts

/-- The counts of all entries for a move. -/
def PebbleValue.counts (v : PebbleValue) (san : Text) : Counts :=
  ((v.results.filter (fun s => s.san = san)).map ResultSummary.counts).sum

/-! ## Maps from moves -/

theorem SanMap.counts_upsert (m : SanMap) (s : ResultSummary) (san : Text) :
    SanMap.counts (m.upsert s) san = if s.san = san then s.counts else SanMap.counts m san := by
  by_cases hsan : s.san = san
  · rw [SanMap.counts, Table.find?_upsert, if_pos hsan, if_pos hsan]
  · rw [SanMap.counts, Table.find?_upsert, if_neg hsan, if_neg hsan, SanMap.counts]

theorem PebbleValue.counts_cons (r : ResultSummary) (rs : List ResultSummary) (san : Text) :
    PebbleValue.counts ⟨r :: rs⟩ san = (if r.san = san then r.counts else 0) + PebbleValue.counts ⟨rs⟩ san := by
  unfold PebbleValue.counts
  by_cases hsan : r.san = san
  · rw [if_pos hsan]
    change (((r :: rs).filter _).map _).sum = _
    rw [List.filter_cons_of_pos (by simp [hsan]), List.map_cons, List.sum_cons]
  · rw [if_neg hsan, zero_add]
    change (((r :: rs).filter _).map _).sum = _
    rw [List.filter_cons_of_neg (by simp [hsan])]

/-- The entries of a map, in any order, count what the map counts. -/
theorem counts_of_perm (h : v.results.Perm m.rows) : v.counts san = SanMap.counts m san := by
  rw [PebbleValue.counts, ((h.filter _).map _).sum_eq, Table.filter_key, SanMap.counts]
  cases m.find? san with
  | none => rfl
  | some s => exact add_zero _

theorem nodup_of_perm (h : v.results.Perm m.rows) : (v.results.map ResultSummary.san).Nodup :=
  (h.map _).nodup_iff.mpr m.nodup

/-! ## Merging -/

theorem counts_mergeResult (m : SanMap) (newRes : ResultSummary) (san : Text) :
    SanMap.counts (mergeResult m newRes) san = SanMap.counts m san + if newRes.san = san then newRes.counts else 0 := by
  unfold mergeResult
  cases hf : m.find? newRes.san with
  | none =>
      rw [SanMap.counts_upsert]
      split
      · rename_i hsan
        have hzero : SanMap.counts m san = 0 := by rw [SanMap.counts, ← hsan, hf]
        rw [hzero, zero_add]
      · exact (add_zero _).symm
  | some existing =>
      have hold : SanMap.counts m newRes.san = existing.counts := by rw [SanMap.counts, hf]
      rw [SanMap.counts_upsert]
      split
      · rename_i hsan
        rw [← hsan, hold]
        rfl
      · exact (add_zero _).symm

theorem counts_foldl_mergeResult (news : List ResultSummary) (m : SanMap) (san : Text) :
    SanMap.counts (news.foldl mergeResult m) san = SanMap.counts m san + PebbleValue.counts ⟨news⟩ san := by
  induction news generalizing m with
  | nil => exact (add_zero _).symm
  | cons r news ih =>
      rw [List.foldl_cons, ih, counts_mergeResult, PebbleValue.counts_cons, add_assoc]

/-- A map filled with results of different moves has their counts. -/
theorem counts_foldl_upsert (olds : List ResultSummary) (m : SanMap) (hd : (olds.map ResultSummary.san).Nodup)
    (hnew : ∀ s ∈ olds, m.find? s.san = none) (san : Text) :
    SanMap.counts (olds.foldl (fun m res => m.upsert res) m) san = SanMap.counts m san + PebbleValue.counts ⟨olds⟩ san := by
  induction olds generalizing m with
  | nil => exact (add_zero _).symm
  | cons r olds ih =>
      rw [List.map_cons, List.nodup_cons] at hd
      have hnone : ∀ s ∈ olds, (m.upsert r).find? s.san = none := fun s hs => by
        have hne : r.san ≠ s.san := fun he => hd.1 (he ▸ List.mem_map_of_mem hs)
        rw [Table.find?_upsert, if_neg hne]
        exact hnew s (List.mem_cons_of_mem _ hs)
      rw [List.foldl_cons, ih _ hd.2 hnone, SanMap.counts_upsert, PebbleValue.counts_cons]
      split
      · rename_i hsan
        have hzero : SanMap.counts m san = 0 := by
          rw [SanMap.counts, ← hsan, hnew r List.mem_cons_self]
        rw [hzero, zero_add]
      · rw [zero_add]

/-- Merging adds. -/
theorem counts_mergedMap {oldVal newVal : PebbleValue} (hd : (oldVal.results.map ResultSummary.san).Nodup) (san : Text) :
    SanMap.counts (mergedMap oldVal newVal) san = oldVal.counts san + newVal.counts san := by
  rw [mergedMap, counts_foldl_mergeResult, counts_foldl_upsert _ _ hd fun s _ => rfl]
  have hempty : SanMap.counts Table.empty san = 0 := rfl
  rw [hempty, zero_add]

/-! ## Operands -/

/-- `encoding/json` reads back what it has written, which is never empty. -/
structure Json.RoundTrips (json : Json Raw) : Prop where
  unmarshal_marshal : ∀ v, json.unmarshal (json.marshal v) = some v
  len_marshal : ∀ v, json.len (json.marshal v) ≠ 0

/-- A written value with at most one entry for a move. -/
def Written (json : Json Raw) (raw : Raw) : Prop :=
  ∃ v, raw = json.marshal v ∧ (v.results.map ResultSummary.san).Nodup

/-- What the bytes of a value count. -/
def Json.counts (json : Json Raw) (raw : Raw) (san : Text) : Counts :=
  match json.unmarshal raw with
  | none => 0
  | some v => v.counts san

theorem Json.RoundTrips.counts_marshal (h : json.RoundTrips) (v : PebbleValue) : json.counts (json.marshal v) = v.counts := by
  funext san
  rw [Json.counts, h.unmarshal_marshal]

/-- Either call of pebble merges two written values into one. -/
theorem Json.RoundTrips.mergeSide (h : json.RoundTrips) (call : Side × MapOrder ResultSummary) {a b : Raw}
    (ha : Written json a) (hb : Written json b) :
    ∃ c, mergeSide json call a b = some c ∧ Written json c ∧ json.counts c = json.counts a + json.counts b := by
  obtain ⟨oldVal, rfl, hold⟩ := ha
  obtain ⟨newVal, rfl, -⟩ := hb
  have hperm := call.2.perm (mergedMap oldVal newVal).rows
  refine ⟨json.marshal ⟨call.2.entries (mergedMap oldVal newVal).rows⟩, ?_, ⟨_, rfl, nodup_of_perm hperm⟩, ?_⟩
  · have hmerge : mergeResultSummaries json call.2 (json.marshal oldVal) (json.marshal newVal) =
        some (json.marshal ⟨call.2.entries (mergedMap oldVal newVal).rows⟩) := by
      rw [mergeResultSummaries, h.unmarshal_marshal, Option.bind_some, if_neg (h.len_marshal oldVal), h.unmarshal_marshal]
      rfl
    rw [Explorer.mergeSide]
    cases call.1 with
    | newer => exact hmerge
    | older => exact hmerge
  · rw [h.counts_marshal, h.counts_marshal, h.counts_marshal]
    funext san
    rw [counts_of_perm hperm, counts_mergedMap hold]
    rfl

end Chessrepeat.Explorer
