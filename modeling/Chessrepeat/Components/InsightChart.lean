import Chessrepeat.Lib.Calendar
import Chessrepeat.Lib.Decimal
import Chessrepeat.Lib.Table
import Chessrepeat.Lib.Utf16

/-!
# components/InsightChart.tsx

The calendar of the moves that fall due. A `Date` is a local time, in milliseconds since the midnight of 1970-01-01, and
every day of it has 24 hours.
-/

namespace Chessrepeat.Components

open Lib

/-- `DAY_MS`. -/
def dayMs : Int := 86400000

def weeksToShow : Int := 20

abbrev Date : Type := Int

namespace Date

/-- The calendar date, as a number of days. -/
def day (d : Date) : Int := d / dayMs

def getFullYear (d : Date) : Int := Calendar.year d.day

def getMonth (d : Date) : Nat := Calendar.month d.day

def getDate (d : Date) : Int := Calendar.date d.day

def setDate (d : Date) (date : Int) : Date := Calendar.makeDay d.getFullYear d.getMonth date * dayMs + d % dayMs

/-- `setHours(0, 0, 0, 0)`. -/
def startOfDay (d : Date) : Date := d - d % dayMs

end Date

def toDateKey (d : Date) : JsString :=
  let y := decimal d.getFullYear
  let m := (decimal (d.getMonth + 1)).leftpad 2 '0'
  let day := (decimal d.getDate).leftpad 2 '0'
  Utf16.encode (y ++ ('-' :: m) ++ ('-' :: day))

structure HeatValue where
  date : Date
  key : JsString
  count : Nat
  deriving DecidableEq, Repr

/-- A `Map<string, HeatValue>`. -/
abbrev HeatMap : Type := Table HeatValue.key

/-- One turn of the loop. -/
def bucket (today : Date) (map : HeatMap) (ms : Int) : HeatMap :=
  let dayOffset := max 0 (ms / dayMs)
  let date := today.setDate (today.getDate + dayOffset)
  let key := toDateKey date
  match map.find? key with
  | some existing => map.upsert { existing with count := existing.count + 1 }
  | none => map.upsert { date := date, key := key, count := 1 }

def bucketByDate (dueTimes : List Int) (today : Date) : HeatMap := dueTimes.foldl (bucket today) .empty

/-- What the component memoizes. -/
structure Chart where
  values : List HeatValue
  startDate : Date
  endDate : Date
  maxCount : Nat
  totalMoves : Nat
  dueNow : Nat
  todayKey : JsString
  deriving DecidableEq, Repr

def insightChart (now : Date) (dueTimes : List Int) : Chart :=
  let today := now.startOfDay
  let todayKey := toDateKey today
  let byDate := bucketByDate dueTimes today
  { values := byDate.rows
    startDate := today
    endDate := today.setDate (today.getDate + weeksToShow * 7 - 1)
    maxCount := byDate.rows.foldl (fun max v => if v.count > max then v.count else max) 0
    totalMoves := dueTimes.length
    dueNow := ((byDate.find? todayKey).map HeatValue.count).getD 0
    todayKey := todayKey }

end Chessrepeat.Components
