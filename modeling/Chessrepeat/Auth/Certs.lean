import Mathlib.Algebra.Ring.Int.Defs
import Chessrepeat.Lib.Strings
import Chessrepeat.Store.Domain

/-!
# auth/firebase.go

The cache of the keys that sign the tokens. A call of `key` holds the mutex to its end, so calls come one after the
other. A reading of the clock is a number of nanoseconds from the zero `time.Time` on.
-/

namespace Chessrepeat.Auth

open Lib Domain

def second : Int := 1000000000

def minute : Int := 60 * second

def hour : Int := 60 * minute

def minRefetchInterval : Int := minute

/-! ## Cache-Control -/

def digits (s : Text) : Option Nat :=
  if s ≠ [] ∧ s.all Char.isDigit then some (s.foldl (fun n c => 10 * n + (c.toNat - '0'.toNat)) 0) else none

/-- `strconv.Atoi`, where an `int` has 64 bits. -/
def atoi (s : Text) : Option Int :=
  let n : Option Int := match s with
    | '-' :: ds => (digits ds).map fun n => -Int.ofNat n
    | '+' :: ds => (digits ds).map Int.ofNat
    | ds => (digits ds).map Int.ofNat
  n.filter fun n => -2 ^ 63 ≤ n ∧ n < 2 ^ 63

/-- `strings.CutPrefix`. -/
def cutPrefix (pre s : Text) : Option Text := if pre.isPrefixOf s then some (s.drop pre.length) else none

/-- The loop of `maxAge`: the first part that has a number of seconds. -/
def maxAgeSeconds (cacheControl : Text) : Option Int :=
  (cacheControl.splitOn ',').findSome? fun part =>
    ((cutPrefix ['m', 'a', 'x', '-', 'a', 'g', 'e', '='] (trimSpace part)).bind atoi).filter fun secs => 0 < secs

/-- The product is one of 64 bits. -/
def maxAge (cacheControl : Text) : Int :=
  match maxAgeSeconds cacheControl with
  | some secs => (secs * second).bmod (2 ^ 64)
  | none => hour

/-! ## Responses -/

inductive CertError where
  | unknownKey (kid : Text)
  | unreachable
  | status (code : Nat)
  | malformed
  | noKeys
  deriving DecidableEq, Repr

variable {Key : Type}

/-- `certs` is the body once it is read and decoded. A certificate that is not PEM, not X.509 or not of an RSA key has
no key. -/
structure CertsResponse (Key : Type) where
  statusCode : Nat
  certs : Option (Table (Prod.fst : Text × Option Key → Text))
  cacheControl : Text

/-- The new keys, or the error `refresh` returns. -/
def CertsResponse.keys (r : CertsResponse Key) : Except CertError (Text → Option Key) :=
  if r.statusCode ≠ 200 then .error (.status r.statusCode)
  else match r.certs with
    | none => .error .malformed
    | some pems =>
        if pems.rows.any fun e => e.2.isNone then .error .malformed
        else if pems.rows.isEmpty then .error .noKeys
        else .ok fun kid => (pems.find? kid).bind Prod.snd

/-! ## The cache -/

structure CertCache (Key : Type) where
  keys : Text → Option Key
  expires : Int
  lastFetch : Int

namespace CertCache

def empty : CertCache Key := ⟨fun _ => none, 0, 0⟩

variable (c : CertCache Key)

def lookup (kid : Text) : Except CertError Key :=
  match c.keys kid with
  | some k => .ok k
  | none => .error (.unknownKey kid)

/-- `response` is `none` where the request fails; otherwise its header is there at `fetched`. -/
def refresh (fetched : Int) (response : Option (CertsResponse Key)) : CertCache Key × Option CertError :=
  match response with
  | none => (c, some .unreachable)
  | some r =>
      match r.keys with
      | .error e => ({ c with lastFetch := fetched }, some e)
      | .ok keys => (⟨keys, fetched + maxAge r.cacheControl, fetched⟩, none)

/-- The first lookup of `key`. -/
def cached (now : Int) (kid : Text) : Option Key := if now < c.expires then c.keys kid else none

def throttled (now : Int) : Bool := now - c.lastFetch < minRefetchInterval

def key (now : Int) (kid : Text) (fetched : Int) (response : Option (CertsResponse Key)) :
    CertCache Key × Except CertError Key :=
  match c.cached now kid with
  | some k => (c, .ok k)
  | none =>
      if c.throttled now then (c, c.lookup kid)
      else match c.refresh fetched response with
        | (c, some e) => (c, .error e)
        | (c, none) => (c, c.lookup kid)

/-- Whether a call gets as far as `refresh`. -/
def fetches (now : Int) (kid : Text) : Bool := (c.cached now kid).isNone && !c.throttled now

end CertCache

/-! ## Runs -/

/-- A call comes `elapsed` after the one before it has returned, and its request, if it makes one, is answered or fails
`took` after that. -/
structure KeyCall (Key : Type) where
  elapsed : Nat
  kid : Text
  took : Nat
  response : Option (CertsResponse Key)

/-- The keys of a successful refresh, with the response they came with. -/
structure Installed (Key : Type) where
  keys : Text → Option Key
  fetched : Int
  cacheControl : Text

/-- The time the header gives, an hour if it gives none. -/
def servedAge (cacheControl : Text) : Int :=
  match maxAgeSeconds cacheControl with
  | some secs => secs * second
  | none => hour

def Installed.expiry (i : Installed Key) : Int := i.fetched + servedAge i.cacheControl

/-- The history beside the cache: the set of the last successful refresh, the key the last call has returned with its
last reading of the clock, when the requests were made, and the last request if it was not answered. -/
structure CertRun (Key : Type) where
  cache : CertCache Key
  now : Int
  installed : Option (Installed Key)
  returned : Option (Text × Key × Int)
  attempts : List Int
  unanswered : Option Int

namespace CertRun

def start (now : Int) : CertRun Key := ⟨.empty, now, none, none, [], none⟩

variable (s : CertRun Key)

/-- The call makes a request. -/
def fetch (call : KeyCall Key) : CertRun Key :=
  let now := s.now + call.elapsed
  let fetched := now + call.took
  let out := s.cache.key now call.kid fetched call.response
  { cache := out.1
    now := fetched
    installed := match call.response with
      | none => s.installed
      | some r => match r.keys with
        | .error _ => s.installed
        | .ok keys => some ⟨keys, fetched, r.cacheControl⟩
    returned := out.2.toOption.map fun k => (call.kid, k, fetched)
    attempts := s.attempts ++ [now]
    unanswered := if call.response.isNone then some now else none }

def step (call : KeyCall Key) : CertRun Key :=
  let now := s.now + call.elapsed
  if s.cache.fetches now call.kid then s.fetch call
  else
    let out := s.cache.key now call.kid now call.response
    { s with cache := out.1, now := now, returned := out.2.toOption.map fun k => (call.kid, k, now) }

/-- Requests that take no time. -/
def stepInstant (call : KeyCall Key) : CertRun Key := s.step { call with took := 0 }

end CertRun

end Chessrepeat.Auth
