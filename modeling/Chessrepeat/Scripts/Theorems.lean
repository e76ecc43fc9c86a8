import Chessrepeat.Scripts.Import
import Chessrepeat.Scripts.Lemmas.Main
import Mathlib.Data.List.Induction
import Mathlib.Data.List.Perm.Subperm

/-!
# firebase-import: results

The dump is read back as it was written, and its users are imported.
-/

namespace Chessrepeat.Scripts

open Lib Client

variable {records : List (List JsString)} {record : List JsString} {field rest text : JsString}

/-! ## One step of the loop -/

@[simp] theorem readLoop_nil (r : Reader) : readLoop r [] = r := by rw [readLoop]

theorem readLoop_inside {c : UInt16} (h : c ≠ csv.quote) :
    readLoop ⟨records, field, record, true⟩ (c :: rest) = readLoop ⟨records, field ++ [c], record, true⟩ rest := by
  rw [readLoop.eq_def]
  simp only [if_neg h, if_true, Reader.append]

theorem readLoop_doubled :
    readLoop ⟨records, field, record, true⟩ (csv.quote :: csv.quote :: rest) =
      readLoop ⟨records, field ++ [csv.quote], record, true⟩ rest := by
  rw [readLoop.eq_def]
  simp only [if_true, Reader.append]

theorem readLoop_close (h : rest.head? ≠ some csv.quote) :
    readLoop ⟨records, field, record, true⟩ (csv.quote :: rest) = readLoop ⟨records, field, record, false⟩ rest := by
  rw [readLoop.eq_def]
  simp only [if_true]
  cases rest with
  | nil => exact (readLoop_nil _).symm
  | cons c rest => exact if_neg fun hc => h (congrArg some hc)

theorem readLoop_open :
    readLoop ⟨records, field, record, false⟩ (csv.quote :: rest) = readLoop ⟨records, field, record, true⟩ rest := by
  rw [readLoop.eq_def]
  simp only [if_true, Bool.false_eq_true, if_false]

theorem readLoop_plain {c : UInt16} (h : c ≠ csv.quote ∧ c ≠ csv.comma ∧ c ≠ csv.cr ∧ c ≠ csv.lf) :
    readLoop ⟨records, field, record, false⟩ (c :: rest) = readLoop ⟨records, field ++ [c], record, false⟩ rest := by
  rw [readLoop.eq_def]
  simp only [Bool.false_eq_true, if_false, h.1, h.2.1, h.2.2.1, h.2.2.2, or_self, Reader.append]

theorem readLoop_comma :
    readLoop ⟨records, field, record, false⟩ (csv.comma :: rest) = readLoop ⟨records, [], record ++ [field], false⟩ rest := by
  rw [readLoop.eq_def]
  simp only [Bool.false_eq_true, if_false, if_true, csv.comma_ne_quote, Reader.endField]

theorem readLoop_lineBreak {eol : JsString} (h : csv.LineBreak eol) :
    readLoop ⟨records, field, record, false⟩ (eol ++ rest) = readLoop ⟨records ++ [record ++ [field]], [], [], false⟩ rest := by
  cases h with
  | lf =>
      rw [List.singleton_append, readLoop.eq_def]
      simp only [Bool.false_eq_true, if_false, if_true, csv.lf_ne_quote, csv.lf_ne_comma, csv.lf_ne_cr, true_or, false_and,
        Reader.endRecord]
      cases rest with
      | nil => exact (readLoop_nil _).symm
      | cons c rest => rfl
  | crlf =>
      rw [List.cons_append, List.singleton_append, readLoop.eq_def]
      simp only [Bool.false_eq_true, if_false, if_true, csv.cr_ne_quote, csv.cr_ne_comma, or_true, and_self, Reader.endRecord]

/-! ## What is written is read -/

theorem readLoop_bare (h : csv.Bare text) :
    readLoop ⟨records, field, record, false⟩ (text ++ rest) = readLoop ⟨records, field ++ text, record, false⟩ rest := by
  induction text generalizing field with
  | nil => rw [List.nil_append, List.append_nil]
  | cons c text ih =>
      rw [List.cons_append, readLoop_plain (h c List.mem_cons_self), ih fun d hd => h d (List.mem_cons_of_mem _ hd),
        List.append_assoc, List.singleton_append]

theorem readLoop_escape :
    readLoop ⟨records, field, record, true⟩ (csv.escape text ++ rest) = readLoop ⟨records, field ++ text, record, true⟩ rest := by
  induction text generalizing field with
  | nil => rw [csv.escape_nil, List.nil_append, List.append_nil]
  | cons c text ih =>
      by_cases hc : c = csv.quote
      · rw [hc, csv.escape_quote, List.cons_append, List.cons_append, readLoop_doubled, ih, List.append_assoc,
          List.singleton_append]
      · rw [csv.escape_cons hc, List.cons_append, readLoop_inside hc, ih, List.append_assoc, List.singleton_append]

theorem readLoop_field (h : csv.Field field text) (hr : rest.head? ≠ some csv.quote) :
    readLoop ⟨records, [], record, false⟩ (text ++ rest) = readLoop ⟨records, field, record, false⟩ rest := by
  cases h with
  | bare h => rw [readLoop_bare h, List.nil_append]
  | quoted =>
      rw [List.cons_append, List.cons_append, readLoop_open, List.append_assoc, readLoop_escape, List.nil_append,
        List.singleton_append, readLoop_close hr]

/-- After a record its last field is still pending. -/
theorem readLoop_record {fields : List JsString} (h : csv.Record fields text) (hr : rest.head? ≠ some csv.quote) :
    ∃ before last, fields = before ++ [last] ∧
      readLoop ⟨records, [], record, false⟩ (text ++ rest) = readLoop ⟨records, last, record ++ before, false⟩ rest := by
  induction h generalizing record with
  | @last field text hf => exact ⟨[], field, rfl, by rw [readLoop_field hf hr, List.append_nil]⟩
  | @cons field text tail fields hf hs ih =>
      obtain ⟨before, last, rfl, hread⟩ := @ih (record ++ [field])
      refine ⟨field :: before, last, rfl, ?_⟩
      have hcomma : (csv.comma :: (tail ++ rest)).head? ≠ some csv.quote := fun hc => csv.comma_ne_quote (Option.some.inj hc)
      rw [List.append_assoc, List.cons_append, readLoop_field hf hcomma, readLoop_comma, hread, List.append_assoc,
        List.singleton_append]

/-- Only a record of one empty field, without a line break, leaves nothing pending. -/
theorem finish_pending {before : List JsString} (h : before ++ [field] ≠ [[]]) :
    Reader.finish ⟨records, field, before, false⟩ = records ++ [before ++ [field]] := by
  refine if_pos ?_
  by_contra hn
  obtain ⟨hf, hb⟩ : field = [] ∧ before = [] := by simpa using hn
  exact h (by rw [hf, hb]; rfl)

theorem finish_readLoop {table : List (List JsString)} (h : csv.Written table text) (hne : ∀ r ∈ table, r ≠ [[]]) :
    (readLoop ⟨records, [], [], false⟩ text).finish = records ++ table := by
  induction h generalizing records with
  | @last record text hrec =>
      obtain ⟨before, last, rfl, hread⟩ := @readLoop_record records [] [] text record hrec (by simp)
      rw [List.append_nil] at hread
      rw [hread, readLoop_nil, List.nil_append, finish_pending (hne _ List.mem_cons_self)]
  | @ended record text eol hrec he =>
      have hr : eol.head? ≠ some csv.quote := by simpa using he.head?_ne []
      obtain ⟨before, last, rfl, hread⟩ := @readLoop_record records [] eol text record hrec hr
      have hend := @readLoop_lineBreak records before last [] eol he
      rw [List.append_nil] at hend
      rw [hread, List.nil_append, hend]
      exact readLoop_nil _ ▸ if_neg (by simp)
  | @cons record table text eol tail hrec he hs ih =>
      obtain ⟨before, last, rfl, hread⟩ := @readLoop_record records [] (eol ++ tail) text record hrec (he.head?_ne tail)
      rw [hread, List.nil_append, readLoop_lineBreak he, ih fun r hr => hne r (List.mem_cons_of_mem _ hr), List.append_assoc,
        List.singleton_append]

theorem readRecords_written {table : List (List JsString)} (h : csv.Written table text) (hne : ∀ r ∈ table, r ≠ [[]]) :
    readRecords text = table := finish_readLoop h hne

/-! ## Rows under their column names -/

/-- Entries whose keys differ are kept as they are. -/
theorem rows_fromEntries {entries : List (JsString × JsString)} (h : (entries.map Prod.fst).Nodup) :
    (fromEntries entries).rows = entries := by
  induction entries using List.reverseRecOn with
  | nil => rfl
  | append_singleton entries e ih =>
      rw [List.map_append, List.nodup_append] at h
      have hrows : (entries.foldl (fun row e => row.upsert e) (.empty : Row)).rows = entries := ih h.1
      have hnew : e.1 ∉ entries.map Prod.fst := fun hmem => h.2.2 _ hmem _ List.mem_cons_self rfl
      rw [fromEntries, List.foldl_append, List.foldl_cons, List.foldl_nil, Table.rows_upsert_of_not_mem (by rwa [hrows]), hrows]

theorem rowEntries_eq_zip {header row : List JsString} (h : row.length = header.length) : rowEntries header row = header.zip row := by
  refine List.ext_getElem (by simp [rowEntries, h]) fun i hi hj => ?_
  have hr : i < row.length := by simp [rowEntries] at hi; omega
  simp [rowEntries, List.getElem?_eq_getElem hr]

theorem three_le_length {header : List JsString} (h : ∀ col ∈ required, col ∈ header) : 3 ≤ header.length :=
  (List.subperm_of_subset (by decide : required.Nodup) h).length_le

/-- A table whose header names the three columns, each column once, and whose rows are complete is read back row by row. -/
theorem readCsv_written {header : List JsString} {rows : List (List JsString)} {text : JsString} (hd : header.Nodup)
    (ht : ∀ name ∈ header, trim name = name) (hreq : ∀ col ∈ required, col ∈ header)
    (hlen : ∀ row ∈ rows, row.length = header.length) (hw : csv.Written (header :: rows) text) :
    (readCsv text).map (List.map fun row => row.rows) = .ok (rows.map header.zip) := by
  have h3 := three_le_length hreq
  have hne : ∀ r ∈ header :: rows, r ≠ [[]] := by
    intro r hr he
    have hr' : r.length = header.length := by
      rcases List.mem_cons.mp hr with rfl | hr
      · rfl
      · exact hlen r hr
    rw [he, List.length_singleton] at hr'
    omega
  have htrim : header.map trim = header := (List.map_congr_left ht).trans (List.map_id _)
  have hfound : (required.find? fun col => col ∉ header) = none :=
    List.find?_eq_none.mpr fun col hcol hn => of_decide_eq_true hn (hreq col hcol)
  have hkept : (rows.filter fun r => 1 < r.length || r[0]? ≠ some []) = rows := by
    refine List.filter_eq_self.mpr fun r hr => ?_
    have hr' := hlen r hr
    simp only [decide_eq_true (by omega : 1 < r.length), Bool.true_or]
  rw [readCsv, readRecords_written hw hne]
  simp only [htrim, hfound, hkept, Except.map, List.map_map]
  refine congrArg Except.ok (List.map_congr_left fun row hrow => ?_)
  have hzip : (header.zip row).map Prod.fst = header := List.map_fst_zip (Nat.le_of_eq (hlen row hrow).symm)
  rw [Function.comp_apply, rowEntries_eq_zip (hlen row hrow), rows_fromEntries (by rwa [hzip])]

/-- A line feed, a comma and a quote in a field, and no line break at the end. -/
def dump : JsString :=
  (tokenId ++ csv.comma :: ((csv.quote :: csv.escape email ++ [csv.quote]) ++ csv.comma :: picture)) ++ ([csv.cr, csv.lf] ++
    ([0x31] ++ csv.comma :: ((csv.quote :: csv.escape [0x61, csv.lf, csv.quote, csv.comma] ++ [csv.quote]) ++ csv.comma :: [])))

theorem dump_written : csv.Written [[tokenId, email, picture], [[0x31], [0x61, csv.lf, csv.quote, csv.comma], []]] dump :=
  .cons (.cons (.bare (by decide)) (.cons (.quoted email) (.last (.bare (by decide))))) .crlf
    (.last (.cons (.bare (by decide)) (.cons (.quoted _) (.last (.bare (by decide))))))

theorem readCsv_dump :
    (readCsv dump).map (List.map fun row => row.rows) =
      .ok [[(tokenId, [0x31]), (email, [0x61, csv.lf, csv.quote, csv.comma]), (picture, [])]] :=
  readCsv_written (by decide) (by decide) (by decide) (by decide) dump_written

/-! ## The import -/

/-- What the script leaves behind: the records were sent in small batches, each of them once if no call rejected, and an exit
code of 0 means that every one of them is there. -/
theorem migrate_complete {σ : Type} (firebase : Firebase σ) (has : σ → JsString → Bool) (h : firebase.Documented has)
    (auth : σ) (rows : List Row) : Migrates firebase has auth rows (migrate firebase false auth rows) := by
  have hsmall : ∀ sent, sent <+: batches (importable rows) → ∀ batch ∈ sent, batch ≠ [] ∧ batch.length ≤ batchSize :=
    fun sent hsent batch hb => mem_batches (hsent.subset hb)
  have horder : ∀ sent, sent <+: batches (importable rows) → sent.flatten <+: importable rows := by
    rintro sent ⟨rest, hrest⟩
    exact ⟨rest.flatten, by rw [← List.flatten_append, hrest, flatten_batches]⟩
  rw [migrate, if_neg Bool.false_ne_true, importAll]
  cases hrun : (batches (importable rows)).foldlM (importBatch firebase) (⟨0, 0, [], auth⟩ : Importing σ) with
  | error s =>
      obtain ⟨sent, hpre, hsent⟩ := sent_foldlM_error hrun
      rw [List.nil_append] at hsent
      have hnot : ¬ Finishes firebase auth rows := by
        rintro ⟨t, ht⟩
        rw [importAll, hrun] at ht
        cases ht
      have hexit : (1 : Nat) ≠ 0 := by decide
      exact ⟨hsent ▸ hsmall sent hpre, hsent ▸ horder sent hpre, finishes_iff h rows, fun h => absurd h hnot,
        ⟨fun h => absurd h hexit, fun h => absurd h.1 hnot⟩, fun h => absurd h hexit⟩
  | ok s =>
      have hstart : (⟨0, 0, [], auth⟩ : Importing σ).Sound has := ⟨rfl, Nat.le_refl 0⟩
      obtain ⟨hsent, hcounted, hmissing⟩ := hstart.foldlM h hrun
      rw [List.nil_append] at hsent
      rw [hsent, flatten_batches] at hcounted hmissing
      have hexit : (if s.failed = 0 then 0 else 1) = 0 ↔ s.failed = 0 := by simp
      refine ⟨hsent ▸ hsmall _ (List.prefix_refl _), hsent ▸ horder _ (List.prefix_refl _), finishes_iff h rows,
        fun _ => ⟨by rw [hsent, flatten_batches], hcounted, hmissing⟩, ?_, fun hzero r hr => ?_⟩
      · exact hexit.trans (and_iff_right ⟨s, hrun⟩).symm
      · have hnone := List.countP_eq_zero.mp (Nat.le_zero.mp (hexit.mp hzero ▸ hmissing)) r hr
        simpa using hnone

/-- Accounts by their uid; who is there already is an error. -/
def accounts : Firebase (List JsString) where
  importUsers auth batch :=
    let there := batch.zipIdx.filter fun x => x.1.uid ∈ auth
    (some ⟨batch.length - there.length, there.map fun x => ⟨x.2, uidAlreadyExists⟩⟩, auth ++ batch.map UserImportRecord.uid)

theorem accounts_documented : accounts.Documented fun auth uid => uid ∈ auth where
  counts := by
    intro auth auth' batch result h
    cases h
    have hle := (List.filter_sublist (l := batch.zipIdx) (p := fun x => x.1.uid ∈ auth)).length_le
    rw [List.length_zipIdx] at hle
    simp only [List.length_map]
    omega
  inBounds := by
    intro auth auth' batch result h e he
    cases h
    obtain ⟨x, hx, rfl⟩ := List.mem_map.mp he
    exact (List.getElem?_eq_some_iff.mp (List.mem_zipIdx_iff_getElem?.mp (List.mem_filter.mp hx).1)).1
  imported := by
    intro auth auth' batch result h i r hr _
    cases h
    exact decide_eq_true (List.mem_append_right _ (List.mem_map_of_mem (List.mem_of_getElem? hr)))
  kept := by
    intro auth auth' batch result h uid huid
    cases h
    exact decide_eq_true (List.mem_append_left _ (of_decide_eq_true huid))

/-- Two accounts, of which the second is there already. -/
def twoUsers : List Row :=
  [fromEntries [(tokenId, [0x31]), (email, [0x61]), (picture, [])],
    fromEntries [(tokenId, [0x32]), (email, [0x62]), (picture, [0x70])]]

theorem twoUsers_complete :
    Migrates accounts (fun auth uid => decide (uid ∈ auth)) [[0x32]] twoUsers (migrate accounts false [[0x32]] twoUsers) :=
  migrate_complete accounts _ accounts_documented [[0x32]] twoUsers

end Chessrepeat.Scripts
