import Chessrepeat.Scripts.Import

/-!
# firebase-import: the users of the dump

The rest of `import.mjs`: the rows that are Google accounts are given to Firebase, a batch at a time. What it prints on
the way is left out.
-/

namespace Chessrepeat.Scripts

open Lib

/-- A column of a row. -/
def Row.get (r : Row) (col : JsString) : JsString := ((r.find? col).map Prod.snd).getD []

/-- `/^\d+$/`. -/
def isSubject (tokenId : JsString) : Bool := tokenId ≠ [] && tokenId.all fun u => 0x30 ≤ u && u ≤ 0x39

def googleCom : JsString := Utf16.encode ['g', 'o', 'o', 'g', 'l', 'e', '.', 'c', 'o', 'm']

structure UserProvider where
  providerId : JsString
  uid : JsString
  email : JsString
  photoURL : Option JsString
  deriving DecidableEq, Repr

structure UserImportRecord where
  uid : JsString
  email : JsString
  emailVerified : Bool
  photoURL : Option JsString
  providerData : List UserProvider
  deriving DecidableEq, Repr

def photo (r : Row) : Option JsString := if r.get picture = [] then none else some (r.get picture)

def record (r : Row) : UserImportRecord where
  uid := r.get tokenId
  email := r.get email
  emailVerified := true
  photoURL := photo r
  providerData := [⟨googleCom, r.get tokenId, r.get email, photo r⟩]

/-- The accounts of the time before Firebase that have an address. -/
def importable (rows : List Row) : List UserImportRecord :=
  (rows.filter fun r => isSubject (r.get tokenId) && r.get email ≠ []).map record

/-! ## The batches -/

def batchSize : Nat := 1000

/-- `slice(i, i + BATCH)` for each `i` of the loop. -/
def batches (records : List UserImportRecord) : List (List UserImportRecord) :=
  (List.range ((records.length + (batchSize - 1)) / batchSize)).map fun k =>
    (records.drop (batchSize * k)).take batchSize

def uidAlreadyExists : JsString := Utf16.encode "auth/uid-already-exists".toList

structure ImportError where
  index : Nat
  code : JsString
  deriving DecidableEq, Repr

structure UserImportResult where
  successCount : Nat
  errors : List ImportError
  deriving DecidableEq, Repr

/-- Firebase Auth with what it stores. A call that rejects has no result. -/
structure Firebase (σ : Type) where
  importUsers : σ → List UserImportRecord → Option UserImportResult × σ

/-- `sent` is a history variable: the batches `importUsers` was called with. -/
structure Importing (σ : Type) where
  ok : Nat
  failed : Nat
  sent : List (List UserImportRecord)
  auth : σ
  deriving DecidableEq, Repr

/-- The loop over the errors; `none` is the exception of reading the `uid` of no record. -/
def tally (batch : List UserImportRecord) : List ImportError → Nat × Nat → Option (Nat × Nat)
  | [], out => some out
  | e :: es, (ok, failed) =>
      if e.code = uidAlreadyExists then tally batch es (ok + 1, failed)
      else match batch[e.index]? with
        | none => none
        | some _ => tally batch es (ok, failed + 1)

variable {σ : Type} (firebase : Firebase σ)

/-- One turn of the loop. An exception ends the script. -/
def importBatch (s : Importing σ) (batch : List UserImportRecord) : Except (Importing σ) (Importing σ) :=
  let out := firebase.importUsers s.auth batch
  let s := { s with sent := s.sent ++ [batch], auth := out.2 }
  match out.1.bind fun result => tally batch result.errors (s.ok + result.successCount, s.failed) with
  | none => .error s
  | some (ok, failed) => .ok { s with ok := ok, failed := failed }

def importAll (auth : σ) (records : List UserImportRecord) : Except (Importing σ) (Importing σ) :=
  (batches records).foldlM (importBatch firebase) ⟨0, 0, [], auth⟩

/-- What the script leaves, and its exit code. -/
def migrate (dryRun : Bool) (auth : σ) (rows : List Row) : Importing σ × Nat :=
  if dryRun then (⟨0, 0, [], auth⟩, 0)
  else match importAll firebase auth (importable rows) with
    | .error s => (s, 1)
    | .ok s => (s, if s.failed = 0 then 0 else 1)

/-! ## What should hold -/

/-- What `importUsers` is documented to do: a record without an error, and one whose uid was already there, is there
afterwards; no account is lost. -/
structure Firebase.Documented (has : σ → JsString → Bool) : Prop where
  counts : ∀ {auth auth' batch result}, firebase.importUsers auth batch = (some result, auth') →
    result.successCount + result.errors.length = batch.length
  inBounds : ∀ {auth auth' batch result}, firebase.importUsers auth batch = (some result, auth') →
    ∀ e ∈ result.errors, e.index < batch.length
  imported : ∀ {auth auth' batch result}, firebase.importUsers auth batch = (some result, auth') →
    ∀ (i : Nat) r, batch[i]? = some r → (∀ e ∈ result.errors, e.index = i → e.code = uidAlreadyExists) →
      has auth' r.uid = true
  kept : ∀ {auth auth' batch result}, firebase.importUsers auth batch = (result, auth') →
    ∀ uid, has auth uid = true → has auth' uid = true

/-- The records that are not there. -/
def missing (has : σ → JsString → Bool) (auth : σ) (records : List UserImportRecord) : Nat :=
  records.countP fun r => !has auth r.uid

/-- The script gets through its loop. -/
def Finishes (firebase : Firebase σ) (auth : σ) (rows : List Row) : Prop :=
  ∃ s, importAll firebase auth (importable rows) = .ok s

/-- The calls for some first batches come back, and that for the next one rejects. -/
def CallRejects (firebase : Firebase σ) (auth : σ) (rows : List Row) : Prop :=
  ∃ (s : Importing σ) (batch : List UserImportRecord) (rest : List (List UserImportRecord)),
    batches (importable rows) = s.sent ++ batch :: rest ∧
    s.sent.foldlM (importBatch firebase) ⟨0, 0, [], auth⟩ = .ok s ∧ (firebase.importUsers s.auth batch).1 = none

/-- The batches are small, and the records of the dump one after the other. When no call rejects, every record has been sent and
counted once, and no more of them are missing than are counted as failed. -/
structure Migrates (firebase : Firebase σ) (has : σ → JsString → Bool) (auth : σ) (rows : List Row) (out : Importing σ × Nat) :
    Prop where
  small : ∀ batch ∈ out.1.sent, batch ≠ [] ∧ batch.length ≤ batchSize
  inOrder : out.1.sent.flatten <+: importable rows
  through : Finishes firebase auth rows ↔ ¬ CallRejects firebase auth rows
  finished : Finishes firebase auth rows → out.1.sent.flatten = importable rows ∧
    out.1.ok + out.1.failed = (importable rows).length ∧ missing has out.1.auth (importable rows) ≤ out.1.failed
  exit : out.2 = 0 ↔ Finishes firebase auth rows ∧ out.1.failed = 0
  imported : out.2 = 0 → ∀ r ∈ importable rows, has out.1.auth r.uid = true

end Chessrepeat.Scripts
