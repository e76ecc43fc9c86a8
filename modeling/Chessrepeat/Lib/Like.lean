import Mathlib.Data.List.Infix

/-!
# SQL `LIKE` with an escape character

A pattern is read into tokens first: `%` stands for any text, `_` for one character, and a character
after the escape character for itself. A pattern that ends in the escape character is an error.
-/

namespace Chessrepeat.Lib.Like

inductive Token where
  | any
  | one
  | lit (c : Char)
  deriving DecidableEq, Repr

/-- The tokens of a pattern, `none` for a pattern SQL refuses. -/
def tokens (esc : Char) : List Char → Option (List Token)
  | [] => some []
  | [c] => if c = esc then none else some [if c = '%' then .any else if c = '_' then .one else .lit c]
  | c :: d :: rest =>
      if c = esc then (tokens esc rest).map (.lit d :: ·)
      else (tokens esc (d :: rest)).map
        ((if c = '%' then .any else if c = '_' then .one else .lit c) :: ·)

def fits : List Token → List Char → Bool
  | [], t => t.isEmpty
  | .any :: ts, t => t.tails.any (fits ts)
  | .one :: ts, t => match t with
    | [] => false
    | _ :: t => fits ts t
  | .lit c :: ts, t => match t with
    | [] => false
    | d :: t => c = d && fits ts t

/-- `text LIKE pattern ESCAPE esc`. -/
def like (esc : Char) (pattern text : List Char) : Bool :=
  match tokens esc pattern with
  | none => false
  | some ts => fits ts text

/-- A pattern of literals followed by `%` matches the texts that begin with the literals. -/
theorem fits_lits_any (s t : List Char) : fits (s.map .lit ++ [.any]) t = true ↔ s <+: t := by
  induction s generalizing t with
  | nil =>
      simp only [List.map_nil, List.nil_append, fits, List.any_eq_true, List.nil_prefix, iff_true]
      exact ⟨[], (List.mem_tails [] t).mpr (List.nil_suffix), rfl⟩
  | cons c s ih =>
      cases t with
      | nil => simp [fits]
      | cons d t =>
          simp only [List.map_cons, List.cons_append, fits, Bool.and_eq_true, decide_eq_true_eq, ih,
            List.cons_prefix_cons]

end Chessrepeat.Lib.Like
