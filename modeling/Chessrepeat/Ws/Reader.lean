import Mathlib.Data.Rat.Defs
import Mathlib.Algebra.Order.Ring.Unbundled.Rat
import Chessrepeat.Ws.Dispatch

/-!
# The reader of ws/server.go and the bucket of ratelimit/limiter.go
-/

namespace Chessrepeat.Ws

open Store

variable {Raw : Type}

/-- The numbers are exact where the source has `float64`, and the times are in nanoseconds. -/
structure Bucket where
  tokens : ℚ
  capacity : ℚ
  refillPerSecond : ℚ
  last : Int

def Bucket.new (capacity : Nat) (refillPerSecond : ℚ) (now : Int) : Bucket :=
  ⟨capacity, capacity, refillPerSecond, now⟩

def Bucket.refill (b : Bucket) (now : Int) : Bucket :=
  if b.last < now then
    let tokens := b.tokens + (now - b.last) / 1000000000 * b.refillPerSecond
    { b with tokens := if b.capacity < tokens then b.capacity else tokens, last := now }
  else b

/-- Whether there was a token to take. -/
def Bucket.allow (b : Bucket) (now : Int) : Bucket × Bool :=
  let b := b.refill now
  if b.tokens < 1 then (b, false) else ({ b with tokens := b.tokens - 1 }, true)

def wsBucketCapacity : Nat := 30

def wsRefillPerSec : ℚ := 10

def readLimitBytes : Nat := 64 * 1024

/-- One turn of the reader of the subscriber `i`, `size` being the number of bytes of a message. A message over
the limit fails the read, which ends the connection; one over the budget is dropped. -/
def readMessage (json : Codec Raw) (size : Raw → Nat) (faults : Faults) (db : Db) (w : Server Raw) (i : Nat)
    (readBudget : Bucket) (now : Int) (raw : Raw) : Db × Server Raw × Bucket :=
  if readLimitBytes < size raw then (db, w.mapSubs {i} Subscriber.disconnect, readBudget)
  else
    let allowed := readBudget.allow now
    if allowed.2 then
      let out := handleMessage json faults db w i raw
      (out.1, out.2, allowed.1)
    else (db, w, allowed.1)

end Chessrepeat.Ws
