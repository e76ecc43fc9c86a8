import Chessrepeat.Client.Board
import Chessrepeat.Lib.Csv
import Chessrepeat.Lib.Table

/-!
# firebase-import: reading the dump of the users

`readCsv` of `import.mjs`, from the text of the file on. `die` ends the process, so what it prints is the error.
-/

namespace Chessrepeat.Scripts

open Lib Client

/-- The characters that the reader compares with. -/
def csv : Csv UInt16 where
  quote := 0x22
  comma := 0x2C
  cr := 0x0D
  lf := 0x0A
  nodup := by decide

/-- The variables of the loop. -/
structure Reader where
  records : List (List JsString)
  field : JsString
  record : List JsString
  quoted : Bool
  deriving DecidableEq, Repr

def Reader.init : Reader := { records := [], field := [], record := [], quoted := false }

/-- `field += c`. -/
def Reader.append (r : Reader) (c : UInt16) : Reader := { r with field := r.field ++ [c] }

def Reader.endField (r : Reader) : Reader := { r with record := r.record ++ [r.field], field := [] }

def Reader.endRecord (r : Reader) : Reader :=
  { r with records := r.records ++ [r.record ++ [r.field]], field := [], record := [] }

/-- The loop over the text, which skips a character (`i++`) where it has looked at the one after `c`. -/
def readLoop : Reader → JsString → Reader
  | r, [] => r
  | r, c :: text =>
      if r.quoted then
        if c = csv.quote then
          match text with
          | [] => { r with quoted := false }
          | c' :: text' =>
              if c' = csv.quote then readLoop (r.append csv.quote) text'
              else readLoop { r with quoted := false } (c' :: text')
        else readLoop (r.append c) text
      else if c = csv.quote then readLoop { r with quoted := true } text
      else if c = csv.comma then readLoop r.endField text
      else if c = csv.lf ∨ c = csv.cr then
        match text with
        | [] => r.endRecord
        | c' :: text' =>
            if c = csv.cr ∧ c' = csv.lf then readLoop r.endRecord text' else readLoop r.endRecord (c' :: text')
      else readLoop (r.append c) text

/-- What is pending at the end of the text is a record without a line break. -/
def Reader.finish (r : Reader) : List (List JsString) :=
  if r.field ≠ [] ∨ r.record ≠ [] then r.endRecord.records else r.records

def readRecords (text : JsString) : List (List JsString) := (readLoop .init text).finish

/-- An object by its entries. -/
abbrev Row : Type := Table fun e : JsString × JsString => e.1

/-- `Object.fromEntries`. -/
def fromEntries (entries : List (JsString × JsString)) : Row := entries.foldl (fun row e => row.upsert e) .empty

def tokenId : JsString := Utf16.encode ['t', 'o', 'k', 'e', 'n', '_', 'i', 'd']

def email : JsString := Utf16.encode ['e', 'm', 'a', 'i', 'l']

def picture : JsString := Utf16.encode ['p', 'i', 'c', 't', 'u', 'r', 'e']

def required : List JsString := [tokenId, email, picture]

/-- `csv is missing a "${col}" column (got: ${header.join(', ')})`. -/
def missingColumn (col : JsString) (header : List JsString) : JsString :=
  Utf16.encode ['c', 's', 'v', ' ', 'i', 's', ' ', 'm', 'i', 's', 's', 'i', 'n', 'g', ' ', 'a', ' ', '"'] ++ col ++
    Utf16.encode ['"', ' ', 'c', 'o', 'l', 'u', 'm', 'n', ' ', '(', 'g', 'o', 't', ':', ' '] ++
    List.intercalate (Utf16.encode [',', ' ']) header ++ Utf16.encode [')']

/-- `header.map((h, i) => [h, r[i] ?? ''])`. -/
def rowEntries (header record : List JsString) : List (JsString × JsString) :=
  header.zipIdx.map fun h => (h.1, record[h.2]?.getD [])

def readCsv (text : JsString) : Except JsString (List Row) :=
  match readRecords text with
  | [] => .ok []
  | first :: records =>
      let header := first.map trim
      match required.find? fun col => col ∉ header with
      | some col => .error (missingColumn col header)
      | none =>
          .ok ((records.filter fun r => 1 < r.length || r[0]? ≠ some []).map fun r => fromEntries (rowEntries header r))

end Chessrepeat.Scripts
