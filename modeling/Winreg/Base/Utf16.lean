/-
  UTF-16: the encoding of strings, and that lossy decoding inverts it.

  A character up to U+FFFF is one unit, any other is a high and a low surrogate; no character is a
  surrogate, so the units of an encoded string decode in the pieces in which they were written.

  1. **Pieces** — a unit that is no surrogate decodes alone, a high and a low one together
     (`fromUtf16Lossy_unit`, `fromUtf16Lossy_pair`).
  2. **Round trips** — of units as bytes (`utf16Units_bytes`) and of strings as units
     (`fromUtf16Lossy_encodeUtf16`).
-/
import Winreg.Base.Text

namespace Rust

/-- `c.encode_utf16(..)`. -/
def encodeUtf16Char (c : Char) : List UInt16 :=
  if c.toNat < 0x10000 then [UInt16.ofNat c.toNat]
  else
    let above := c.toNat - 0x10000
    [UInt16.ofNat (0xD800 + above / 0x400), UInt16.ofNat (0xDC00 + above % 0x400)]

/-- `s.encode_utf16()`. -/
def encodeUtf16 (s : Str) : List UInt16 := s.flatMap encodeUtf16Char

/-- `s.encode_utf16().flat_map(u16::to_le_bytes)`. -/
def utf16leBytes (s : Str) : Bytes := (encodeUtf16 s).flatMap u16Bytes

/-! ## Pieces -/

/-- A unit that is no surrogate is a character by itself. -/
theorem fromUtf16Lossy_unit {u : UInt16} (hhigh : isHighSurrogate u = false)
    (hlow : isLowSurrogate u = false) (rest : List UInt16) :
    fromUtf16Lossy (u :: rest) = Char.ofNat u.toNat :: fromUtf16Lossy rest := by
  cases rest with
  | nil => simp [fromUtf16Lossy, hhigh, hlow]
  | cons v rest => simp [fromUtf16Lossy, hhigh, hlow]

/-- A high and a low surrogate are one character together. -/
theorem fromUtf16Lossy_pair {u v : UInt16} (hhigh : isHighSurrogate u = true)
    (hlow : isLowSurrogate v = true) (rest : List UInt16) :
    fromUtf16Lossy (u :: v :: rest) =
      Char.ofNat (0x10000 + (u.toNat - 0xD800) * 0x400 + (v.toNat - 0xDC00)) ::
        fromUtf16Lossy rest := by
  rw [fromUtf16Lossy, if_pos hhigh, if_pos hlow]

/-- The units below and above the range of high surrogates. -/
theorem isHighSurrogate_eq_false {u : UInt16} (h : u.toNat < 0xD800 ∨ 0xDC00 ≤ u.toNat) :
    isHighSurrogate u = false := by
  unfold isHighSurrogate
  rw [Bool.and_eq_false_iff, decide_eq_false_iff_not, decide_eq_false_iff_not]
  omega

/-- The units below and above the range of low ones. -/
theorem isLowSurrogate_eq_false {u : UInt16} (h : u.toNat < 0xDC00 ∨ 0xE000 ≤ u.toNat) :
    isLowSurrogate u = false := by
  unfold isLowSurrogate
  rw [Bool.and_eq_false_iff, decide_eq_false_iff_not, decide_eq_false_iff_not]
  omega

/-- A character is no surrogate. -/
theorem char_not_surrogate (c : Char) :
    c.toNat < 0xD800 ∨ 0xE000 ≤ c.toNat ∧ c.toNat < 0x110000 := by
  have hvalid : c.toNat < 0xD800 ∨ 0xDFFF < c.toNat ∧ c.toNat < 0x110000 := c.valid
  omega

theorem toNat_ofNat_u16 {n : Nat} (h : n < 0x10000) : (UInt16.ofNat n).toNat = n := by
  rw [UInt16.toNat_ofNat']
  exact Nat.mod_eq_of_lt h

/-- **A character decodes** before anything that follows it. -/
theorem fromUtf16Lossy_encodeUtf16Char (c : Char) (rest : List UInt16) :
    fromUtf16Lossy (encodeUtf16Char c ++ rest) = c :: fromUtf16Lossy rest := by
  have hchar := char_not_surrogate c
  unfold encodeUtf16Char
  by_cases hbmp : c.toNat < 0x10000
  · have hunit := toNat_ofNat_u16 hbmp
    rw [if_pos hbmp, List.singleton_append,
      fromUtf16Lossy_unit (isHighSurrogate_eq_false (by omega))
        (isLowSurrogate_eq_false (by omega)),
      hunit, Char.ofNat_toNat]
  · -- above U+FFFF: both halves are in the ranges that tell them apart
    have hhigh : (UInt16.ofNat (0xD800 + (c.toNat - 0x10000) / 0x400)).toNat =
        0xD800 + (c.toNat - 0x10000) / 0x400 := toNat_ofNat_u16 (by omega)
    have hlow : (UInt16.ofNat (0xDC00 + (c.toNat - 0x10000) % 0x400)).toNat =
        0xDC00 + (c.toNat - 0x10000) % 0x400 := toNat_ofNat_u16 (by omega)
    have hcode : 0x10000 + (0xD800 + (c.toNat - 0x10000) / 0x400 - 0xD800) * 0x400 +
        (0xDC00 + (c.toNat - 0x10000) % 0x400 - 0xDC00) = c.toNat := by omega
    rw [if_neg hbmp]
    dsimp only [List.cons_append, List.nil_append]
    rw [fromUtf16Lossy_pair, hhigh, hlow, hcode, Char.ofNat_toNat]
    · unfold isHighSurrogate
      rw [hhigh, Bool.and_eq_true, decide_eq_true_eq, decide_eq_true_eq]
      omega
    · unfold isLowSurrogate
      rw [hlow, Bool.and_eq_true, decide_eq_true_eq, decide_eq_true_eq]
      omega

/-! ## Round trips -/

/-- **An encoded string decodes to itself.** -/
theorem fromUtf16Lossy_encodeUtf16 : ∀ s : Str, fromUtf16Lossy (encodeUtf16 s) = s
  | [] => rfl
  | c :: s => by
    show fromUtf16Lossy (encodeUtf16Char c ++ encodeUtf16 s) = c :: s
    rw [fromUtf16Lossy_encodeUtf16Char, fromUtf16Lossy_encodeUtf16 s]

/-- **Units written as bytes** are read as the same units. -/
theorem utf16Units_bytes : ∀ us : List UInt16, utf16Units (us.flatMap u16Bytes) = us
  | [] => rfl
  | u :: us => by
    have hu : u.toNat < 0x10000 := u.toNat_lt
    have hbytes : u16Bytes u = [UInt8.ofNat u.toNat, UInt8.ofNat (u.toNat / 256)] := rfl
    have hlo : (UInt8.ofNat u.toNat).toNat = u.toNat % 256 := UInt8.toNat_ofNat' ..
    have hhi : (UInt8.ofNat (u.toNat / 256)).toNat = u.toNat / 256 := by
      rw [UInt8.toNat_ofNat']
      omega
    rw [List.flatMap_cons, hbytes, List.cons_append, List.cons_append, List.nil_append, utf16Units,
      hlo, hhi, utf16Units_bytes us, show u.toNat % 256 + 256 * (u.toNat / 256) = u.toNat by omega,
      UInt16.ofNat_toNat]

/-- A string without NUL has no unit that is zero. -/
theorem encodeUtf16_ne_zero {s : Str} (h : '\x00' ∉ s) : ∀ u ∈ encodeUtf16 s, u ≠ 0 := by
  intro u hu hzero
  obtain ⟨c, hc, hu⟩ := List.mem_flatMap.mp hu
  have hchar := char_not_surrogate c
  have hnul : u.toNat = 0 := by rw [hzero]; rfl
  unfold encodeUtf16Char at hu
  split at hu
  · rename_i hbmp
    rw [List.mem_singleton.mp hu, toNat_ofNat_u16 hbmp] at hnul
    have hc' : c = '\x00' := by rw [← Char.ofNat_toNat c, hnul]
    exact h (hc' ▸ hc)
  · -- surrogates are not zero
    rcases List.mem_cons.mp hu with rfl | hu
    · rw [toNat_ofNat_u16 (by omega)] at hnul
      omega
    · rw [List.mem_singleton.mp hu, toNat_ofNat_u16 (by omega)] at hnul
      omega

/-- Two bytes for each unit. -/
theorem length_utf16leBytes (s : Str) : (utf16leBytes s).length = 2 * (encodeUtf16 s).length :=
  (length_flatMap_of_width length_u16Bytes (encodeUtf16 s)).trans (Nat.mul_comm _ _)

end Rust
