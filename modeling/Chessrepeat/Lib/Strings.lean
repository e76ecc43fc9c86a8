import Mathlib.Data.List.DropRight
import Mathlib.Data.List.SplitOn

/-!
# Go's strings and unicode packages

On lists of code points, and on bytes where a text may be no UTF-8.
-/

namespace Chessrepeat.Lib

/-- `unicode.IsSpace`. -/
def isSpace (c : Char) : Bool :=
  c ∈ ['\t', '\n', '\r', ' '] || c.toNat ∈ [0x0B, 0x0C, 0x85, 0xA0, 0x1680, 0x2028, 0x2029, 0x202F, 0x205F, 0x3000] ||
    (0x2000 ≤ c.toNat && c.toNat ≤ 0x200A)

/-- `strings.Fields`. -/
def fields (s : List Char) : List (List Char) := (s.splitOnP isSpace).filter (· ≠ [])

/-- `strings.TrimSpace`. -/
def trimSpace (s : List Char) : List Char := (s.dropWhile isSpace).rdropWhile isSpace

/-- `unicode.ToLower` where the result is in ASCII. A letter whose lower case is not in ASCII stays as it is, which
no comparison of the result with ASCII text can tell. -/
def lowerRune (c : Char) : Char :=
  if c.toNat = 0x130 then 'i' else if c.toNat = 0x212A then 'k' else c.toLower

/-- `strings.ToLower`, up to `lowerRune`. -/
def toLower (s : List Char) : List Char := s.map lowerRune

/-- The code points of `isSpace`. -/
def spaces : List Char :=
  ([0x09, 0x0A, 0x0B, 0x0C, 0x0D, 0x20, 0x85, 0xA0, 0x1680, 0x2000, 0x2001, 0x2002, 0x2003, 0x2004, 0x2005, 0x2006, 0x2007,
    0x2008, 0x2009, 0x200A, 0x2028, 0x2029, 0x202F, 0x205F, 0x3000] : List Nat).map Char.ofNat

/-- The bytes are those of one white space character. -/
def isSpaceBytes (bytes : List UInt8) : Bool := spaces.any fun c => String.utf8EncodeChar c = bytes

/-- `strings.TrimSpace(s) == ""`: the bytes are white space characters of one to three bytes, and nothing else. -/
def isBlank : List UInt8 → Bool
  | [] => true
  | a :: s =>
      if isSpaceBytes [a] then isBlank s
      else match s with
        | [] => false
        | b :: s =>
            if isSpaceBytes [a, b] then isBlank s
            else match s with
              | [] => false
              | c :: s => isSpaceBytes [a, b, c] && isBlank s

end Chessrepeat.Lib
