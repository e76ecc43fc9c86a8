import Chessrepeat.Lib.Run
import Chessrepeat.Lib.Table
import Chessrepeat.Ws.Reader

/-!
# ratelimit/limiter.go

The limiter of an endpoint: a bucket for each key that was seen not too long ago. A call reads the clock once, and its
reading comes with it.
-/

namespace Chessrepeat.Ratelimit

open Lib Domain Ws

structure Entry where
  bucket : Bucket
  lastSeen : Int

/-- `idle` is a number of nanoseconds. -/
structure Limiter where
  capacity : Nat
  refillPerSecond : ℚ
  idle : Int
  buckets : Table (Prod.fst : Text × Entry → Text)

def newLimiter (capacity : Nat) (refillPerSecond : ℚ) (idle : Int) : Limiter :=
  ⟨capacity, refillPerSecond, idle, Table.empty⟩

/-- The bucket of a key, a full one if it has none. -/
def Limiter.bucket (l : Limiter) (key : Text) (now : Int) : Bucket :=
  match l.buckets.find? key with
  | none => Bucket.new l.capacity l.refillPerSecond now
  | some e => e.2.bucket

def Limiter.allow (l : Limiter) (key : Text) (now : Int) : Limiter × Bool :=
  let out := (l.bucket key now).allow now
  ({ l with buckets := l.buckets.upsert (key, ⟨out.1, now⟩) }, out.2)

def Limiter.gc (l : Limiter) (now : Int) : Limiter :=
  { l with buckets := l.buckets.deleteWhere fun e => e.2.lastSeen < now - l.idle }

inductive Op where
  | allow (key : Text)
  | gc
  deriving DecidableEq

def Limiter.step (l : Limiter) : Int × Op → Limiter
  | (now, .allow key) => (l.allow key now).1
  | (now, .gc) => l.gc now

/-- The calls of `Allow` with what they return. -/
def Limiter.answers (l : Limiter) : List (Int × Op) → List (Int × Text × Bool)
  | [] => []
  | (now, .allow key) :: rest => (now, key, (l.allow key now).2) :: answers (l.allow key now).1 rest
  | (now, .gc) :: rest => answers (l.gc now) rest

end Chessrepeat.Ratelimit
