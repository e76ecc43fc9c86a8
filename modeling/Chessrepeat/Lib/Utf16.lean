import Mathlib.Data.List.Basic

/-!
# UTF-16

A JavaScript string is a list of code units, in which a surrogate may stand alone. Whoever reads one as text
(`decode`) gets U+FFFD in the place of a lone surrogate, so only a well-formed string survives the way out
and back.
-/

namespace Chessrepeat.Lib

abbrev JsString := List UInt16

instance : LawfulBEq JsString := inferInstance

namespace Utf16

def isHigh (u : UInt16) : Bool := 0xd800 ≤ u.toNat && u.toNat < 0xdc00

def isLow (u : UInt16) : Bool := 0xdc00 ≤ u.toNat && u.toNat < 0xe000

def isSurrogate (u : UInt16) : Bool := 0xd800 ≤ u.toNat && u.toNat < 0xe000

def encodeChar (c : Char) : JsString :=
  if c.toNat < 0x10000 then [UInt16.ofNat c.toNat]
  else [UInt16.ofNat (0xd800 + (c.toNat - 0x10000) / 0x400), UInt16.ofNat (0xdc00 + (c.toNat - 0x10000) % 0x400)]

def encode (s : List Char) : JsString := s.flatMap encodeChar

/-- The replacement character. -/
def replacement : Char := Char.ofNat 0xfffd

/-- A code unit that is not half of a pair. -/
def decodeUnit (u : UInt16) : Char := if isSurrogate u then replacement else Char.ofNat u.toNat

def decodePair (u v : UInt16) : Char := Char.ofNat (0x10000 + (u.toNat - 0xd800) * 0x400 + (v.toNat - 0xdc00))

def decode : JsString → List Char
  | [] => []
  | [u] => [decodeUnit u]
  | u :: v :: us =>
      if isHigh u && isLow v then decodePair u v :: decode us else decodeUnit u :: decode (v :: us)

/-- No lone surrogate. -/
def WellFormed (s : JsString) : Prop := encode (decode s) = s

instance (s : JsString) : Decidable (WellFormed s) := by delta WellFormed; infer_instance

@[simp] theorem encode_nil : encode [] = [] := rfl

@[simp] theorem encode_cons (c : Char) (s : List Char) : encode (c :: s) = encodeChar c ++ encode s := by
  simp [encode]

theorem encode_append (s t : List Char) : encode (s ++ t) = encode s ++ encode t := by
  simp [encode]

@[simp] theorem decode_nil : decode [] = [] := rfl

theorem toNat_lt (c : Char) : c.toNat < 0xd800 ∨ 0xe000 ≤ c.toNat ∧ c.toNat < 0x110000 := by
  have h := c.valid
  simp only [UInt32.isValidChar, Nat.isValidChar] at h
  simp only [Char.toNat]
  omega

theorem decode_unit_cons {u : UInt16} (h : isSurrogate u = false) (us : JsString) :
    decode (u :: us) = Char.ofNat u.toNat :: decode us := by
  have hh : isHigh u = false := by
    simp only [isSurrogate, isHigh, Bool.and_eq_false_iff, decide_eq_false_iff_not] at *
    omega
  cases us with
  | nil => simp [decode, decodeUnit, h]
  | cons v us => simp [decode, decodeUnit, h, hh]

theorem decode_encodeChar (c : Char) (us : JsString) : decode (encodeChar c ++ us) = c :: decode us := by
  have hv := toNat_lt c
  by_cases hc : c.toNat < 0x10000
  · have hu : (UInt16.ofNat c.toNat).toNat = c.toNat := by
      rw [UInt16.toNat_ofNat']; exact Nat.mod_eq_of_lt hc
    have hs : isSurrogate (UInt16.ofNat c.toNat) = false := by
      simp only [isSurrogate, hu, Bool.and_eq_false_iff, decide_eq_false_iff_not]
      omega
    simp [encodeChar, hc, decode_unit_cons hs, hu]
  · have hc' : c.toNat < 0x110000 := by omega
    have hhi : (UInt16.ofNat (0xd800 + (c.toNat - 0x10000) / 0x400)).toNat =
        0xd800 + (c.toNat - 0x10000) / 0x400 := by
      rw [UInt16.toNat_ofNat']; exact Nat.mod_eq_of_lt (by omega)
    have hlo : (UInt16.ofNat (0xdc00 + (c.toNat - 0x10000) % 0x400)).toNat =
        0xdc00 + (c.toNat - 0x10000) % 0x400 := by
      rw [UInt16.toNat_ofNat']; exact Nat.mod_eq_of_lt (by omega)
    have h1 : isHigh (UInt16.ofNat (0xd800 + (c.toNat - 0x10000) / 0x400)) = true := by
      simp only [isHigh, hhi, Bool.and_eq_true, decide_eq_true_eq]; omega
    have h2 : isLow (UInt16.ofNat (0xdc00 + (c.toNat - 0x10000) % 0x400)) = true := by
      simp only [isLow, hlo, Bool.and_eq_true, decide_eq_true_eq]; omega
    have h3 : decodePair (UInt16.ofNat (0xd800 + (c.toNat - 0x10000) / 0x400))
        (UInt16.ofNat (0xdc00 + (c.toNat - 0x10000) % 0x400)) = c := by
      have he : 0x10000 + (0xd800 + (c.toNat - 0x10000) / 0x400 - 0xd800) * 0x400 +
          (0xdc00 + (c.toNat - 0x10000) % 0x400 - 0xdc00) = c.toNat := by omega
      rw [decodePair, hhi, hlo, he, Char.ofNat_toNat]
    rw [encodeChar, if_neg hc]
    simp only [List.cons_append, List.nil_append, decode, h1, h2, h3, Bool.and_self, if_true]

/-- Text comes back from its encoding. -/
@[simp] theorem decode_encode (s : List Char) : decode (encode s) = s := by
  induction s with
  | nil => rfl
  | cons c s ih => rw [encode_cons, decode_encodeChar, ih]

theorem decode_encode_append (s : List Char) (us : JsString) : decode (encode s ++ us) = s ++ decode us := by
  induction s with
  | nil => rfl
  | cons c s ih => rw [encode_cons, List.append_assoc, decode_encodeChar, ih, List.cons_append]

/-- No code unit of a text is read as part of what comes before it. -/
theorem encode_prefix_iff {s t : List Char} : encode s <+: encode t ↔ s <+: t := by
  constructor
  · rintro ⟨us, h⟩
    refine ⟨decode us, ?_⟩
    rw [← decode_encode_append, h, decode_encode]
  · rintro ⟨r, rfl⟩
    exact ⟨encode r, (encode_append s r).symm⟩

theorem encode_injective {s t : List Char} (h : encode s = encode t) : s = t := by
  rw [← decode_encode s, h, decode_encode]

section WellFormed

variable {s t : JsString}

theorem WellFormed.eq (h : WellFormed s) : encode (decode s) = s := h

theorem WellFormed.decode_append (h : WellFormed s) (t : JsString) : decode (s ++ t) = decode s ++ decode t := by
  have happend := decode_encode_append (decode s) t
  rwa [h.eq] at happend

theorem WellFormed.append (hs : WellFormed s) (ht : WellFormed t) : WellFormed (s ++ t) := by
  rw [WellFormed, hs.decode_append, encode_append, hs.eq, ht.eq]

theorem WellFormed.decode_inj (hs : WellFormed s) (ht : WellFormed t) (h : decode s = decode t) : s = t := by
  rw [← hs.eq, h, ht.eq]

theorem WellFormed.decode_eq_nil (h : WellFormed s) : decode s = [] ↔ s = [] := by
  constructor
  · intro hs
    rw [← h.eq, hs, encode_nil]
  · rintro rfl
    rfl

/-- The text that a string without lone surrogates stands for. -/
theorem WellFormed.encode_eq_iff (h : WellFormed s) (q : List Char) : encode q = s ↔ q = decode s := by
  constructor
  · rintro rfl
    exact (decode_encode q).symm
  · rintro rfl
    exact h

theorem WellFormed.prefix_encode_iff (h : WellFormed s) (q : List Char) : s <+: encode q ↔ decode s <+: q := by
  rw [← encode_prefix_iff, h.eq]

/-- A text before a string has no part in whether the string is well-formed. -/
theorem wellFormed_encode_append (s : List Char) : WellFormed (encode s ++ t) ↔ WellFormed t := by
  rw [WellFormed, WellFormed, decode_encode_append, encode_append, List.append_cancel_left_eq]

end WellFormed

/-- A character takes at least one code unit. -/
theorem length_decode_le (s : JsString) : (decode s).length ≤ s.length := by
  induction s using decode.induct with
  | case1 => exact Nat.le_refl _
  | case2 u => exact Nat.le_refl _
  | case3 u v us h ih =>
      rw [decode, if_pos h]
      simp only [List.length_cons]
      omega
  | case4 u v us h ih =>
      rw [decode, if_neg h]
      simp only [List.length_cons] at ih ⊢
      omega

/-! ## Strings without surrogates -/

/-- Every code unit is a character. -/
def Plain (s : JsString) : Prop := ∀ u ∈ s, isSurrogate u = false

instance (s : JsString) : Decidable (Plain s) := List.decidableBAll _ s

theorem Plain.decode_eq {s : JsString} (h : Plain s) : decode s = s.map fun u => Char.ofNat u.toNat := by
  induction s with
  | nil => rfl
  | cons u us ih =>
      rw [decode_unit_cons (h u List.mem_cons_self), ih fun v hv => h v (List.mem_cons_of_mem _ hv), List.map_cons]

theorem encodeChar_ofNat {u : UInt16} (h : isSurrogate u = false) : encodeChar (Char.ofNat u.toNat) = [u] := by
  have hu := u.toNat_lt
  simp only [isSurrogate, Bool.and_eq_false_iff, decide_eq_false_iff_not] at h
  have hv : u.toNat.isValidChar := by simp only [Nat.isValidChar]; omega
  have hn : (Char.ofNat u.toNat).toNat = u.toNat := by
    rw [Char.ofNat, dif_pos hv]
    rfl
  rw [encodeChar, hn, if_pos (by omega), UInt16.ofNat_toNat]

theorem Plain.wellFormed {s : JsString} (h : Plain s) : WellFormed s := by
  rw [WellFormed, h.decode_eq]
  induction s with
  | nil => rfl
  | cons u us ih =>
      rw [List.map_cons, encode_cons, encodeChar_ofNat (h u List.mem_cons_self),
        ih fun v hv => h v (List.mem_cons_of_mem _ hv), List.singleton_append]

theorem Plain.append {s t : JsString} (hs : Plain s) (ht : Plain t) : Plain (s ++ t) := by
  intro u hu
  rcases List.mem_append.mp hu with hu | hu
  · exact hs u hu
  · exact ht u hu

theorem Plain.length_decode {s : JsString} (h : Plain s) : (decode s).length = s.length := by
  rw [h.decode_eq, List.length_map]

end Utf16

end Chessrepeat.Lib
