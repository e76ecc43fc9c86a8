import Mathlib.Data.List.Nodup

/-!
# Comma-separated values

How a table of fields is written after RFC 4180, as a relation between the table and a text: the writer may quote a field
that does not need it, breaks each line as it likes, and may leave the last one open.
-/

namespace Chessrepeat.Lib

variable {α : Type*}

/-- The four characters that have a meaning. -/
structure Csv (α : Type*) where
  quote : α
  comma : α
  cr : α
  lf : α
  nodup : [quote, comma, cr, lf].Nodup

namespace Csv

variable (csv : Csv α)

theorem comma_ne_quote : csv.comma ≠ csv.quote := fun h => by simpa [h] using csv.nodup

theorem cr_ne_quote : csv.cr ≠ csv.quote := fun h => by simpa [h] using csv.nodup

theorem lf_ne_quote : csv.lf ≠ csv.quote := fun h => by simpa [h] using csv.nodup

theorem cr_ne_comma : csv.cr ≠ csv.comma := fun h => by simpa [h] using csv.nodup

theorem lf_ne_comma : csv.lf ≠ csv.comma := fun h => by simpa [h] using csv.nodup

theorem lf_ne_cr : csv.lf ≠ csv.cr := fun h => by simpa [h] using csv.nodup

/-- None of the four occurs, so that the field can stand bare. -/
def Bare (field : List α) : Prop := ∀ c ∈ field, c ≠ csv.quote ∧ c ≠ csv.comma ∧ c ≠ csv.cr ∧ c ≠ csv.lf

inductive LineBreak : List α → Prop
  | lf : LineBreak [csv.lf]
  | crlf : LineBreak [csv.cr, csv.lf]

/-- No doubled quote can arise where a field ends. -/
theorem LineBreak.head?_ne {csv : Csv α} {eol : List α} (h : csv.LineBreak eol) (rest : List α) :
    (eol ++ rest).head? ≠ some csv.quote := by
  cases h with
  | lf => simpa using csv.lf_ne_quote
  | crlf => simpa using csv.cr_ne_quote

variable [DecidableEq α]

instance (field : List α) : Decidable (csv.Bare field) := by delta Bare; infer_instance

/-- Each quote doubled. -/
def escape (field : List α) : List α := field.flatMap fun c => if c = csv.quote then [c, c] else [c]

@[simp] theorem escape_nil : csv.escape [] = [] := rfl

@[simp] theorem escape_quote (field : List α) : csv.escape (csv.quote :: field) = csv.quote :: csv.quote :: csv.escape field := by
  simp [escape]

theorem escape_cons {c : α} (h : c ≠ csv.quote) (field : List α) : csv.escape (c :: field) = c :: csv.escape field := by
  simp [escape, h]

/-- The second is a way to write the first. -/
inductive Field : List α → List α → Prop
  | bare {field : List α} (h : csv.Bare field) : Field field field
  | quoted (field : List α) : Field field (csv.quote :: csv.escape field ++ [csv.quote])

inductive Record : List (List α) → List α → Prop
  | last {field text : List α} (h : csv.Field field text) : Record [field] text
  | cons {field text rest : List α} {fields : List (List α)} (h : csv.Field field text) (hs : Record fields rest) :
      Record (field :: fields) (text ++ csv.comma :: rest)

inductive Written : List (List (List α)) → List α → Prop
  | last {record : List (List α)} {text : List α} (h : csv.Record record text) : Written [record] text
  | ended {record : List (List α)} {text eol : List α} (h : csv.Record record text) (he : csv.LineBreak eol) :
      Written [record] (text ++ eol)
  | cons {record : List (List α)} {records : List (List (List α))} {text eol rest : List α} (h : csv.Record record text)
      (he : csv.LineBreak eol) (hs : Written records rest) : Written (record :: records) (text ++ (eol ++ rest))

end Csv

end Chessrepeat.Lib
