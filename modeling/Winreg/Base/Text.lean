/-
  TEXT: strings as sequences of Unicode scalar values.

  A `Str` is the list of characters of a string.  Comparing two strings byte by byte in UTF-8 is
  comparing their characters in code-point order, so `<` on `List Char` is the order of the
  source language.  `fromUtf16Lossy` decodes UTF-16 code units, giving U+FFFD for every unpaired
  surrogate; `latin1` reads one byte as one character.
-/
import Winreg.Base.Bytes
import Mathlib.Data.Char
import Mathlib.Data.List.DropRight
import Mathlib.Data.List.Lex

namespace Rust

/-- A string, character by character. -/
abbrev Str := List Char

/-- `s.to_ascii_uppercase()`: only `a`–`z` change. -/
def toAsciiUppercase (s : Str) : Str := s.map Char.toUpper

/-- `s.to_ascii_lowercase()`: only `A`–`Z` change. -/
def toAsciiLowercase (s : Str) : Str := s.map Char.toLower

/-- `a.eq_ignore_ascii_case(b)`. -/
def eqIgnoreAsciiCase (a b : Str) : Bool := toAsciiLowercase a = toAsciiLowercase b

/-- `s.len()`: the number of bytes of the UTF-8 encoding. -/
def utf8Len (s : Str) : Nat := (s.map Char.utf8Size).sum

/-- The part of a string before byte `n` and the part from it on; `none` if `n` is beyond the end or
    inside a character. -/
def splitAtByte : Str → Nat → Option (Str × Str)
  | s, 0 => some ([], s)
  | [], _ + 1 => none
  | c :: s, n + 1 =>
    if c.utf8Size ≤ n + 1 then
      (splitAtByte s (n + 1 - c.utf8Size)).map fun (head, tail) => (c :: head, tail)
    else none

/-- `s.split_once(sep)`. -/
def splitOnce (sep : Char) : Str → Option (Str × Str)
  | [] => none
  | c :: s =>
    if c = sep then some ([], s) else (splitOnce sep s).map fun (head, tail) => (c :: head, tail)

/-- `n.to_string()`. -/
def decimal (n : Nat) : Str := (Nat.repr n).toList

/-- `format!("{n:0widthX}")`. -/
def hexUpper (width n : Nat) : Str :=
  let digits := (Nat.toDigits 16 n).map Char.toUpper
  List.replicate (width - digits.length) '0' ++ digits

/-- `char::is_control`: the general category Cc. -/
def isControl (c : Char) : Bool := c.toNat < 0x20 || (0x7F ≤ c.toNat && c.toNat < 0xA0)

/-- U+FFFD, what lossy decoding puts for a malformed sequence. -/
def replacementChar : Char := '\uFFFD'

/-- `b as char` for every byte: Latin-1. -/
def latin1 (bs : Bytes) : Str := bs.map fun b => Char.ofNat b.toNat

/-- `chunks_exact(2)` read as little-endian 16-bit units; an odd last byte is dropped. -/
def utf16Units : Bytes → List UInt16
  | lo :: hi :: rest => UInt16.ofNat (lo.toNat + 256 * hi.toNat) :: utf16Units rest
  | _ => []

/-- The first half of a pair. -/
def isHighSurrogate (u : UInt16) : Bool := 0xD800 ≤ u.toNat && u.toNat < 0xDC00
/-- The second half of a pair. -/
def isLowSurrogate (u : UInt16) : Bool := 0xDC00 ≤ u.toNat && u.toNat < 0xE000

/-- `String::from_utf16_lossy`. -/
def fromUtf16Lossy : List UInt16 → Str
  | [] => []
  | [u] =>
    if isHighSurrogate u || isLowSurrogate u then [replacementChar] else [Char.ofNat u.toNat]
  | u :: v :: rest =>
    if isHighSurrogate u then
      if isLowSurrogate v then
        Char.ofNat (0x10000 + (u.toNat - 0xD800) * 0x400 + (v.toNat - 0xDC00))
          :: fromUtf16Lossy rest
      else
        -- the unit after an unpaired surrogate is decoded on its own
        replacementChar :: fromUtf16Lossy (v :: rest)
    else if isLowSurrogate u then replacementChar :: fromUtf16Lossy (v :: rest)
    else Char.ofNat u.toNat :: fromUtf16Lossy (v :: rest)

/-- An ASCII character: one byte in UTF-8. -/
def isAsciiChar (c : Char) : Bool := c.toNat < 128

/-- `s.is_ascii()`. -/
def isAscii (s : Str) : Bool := s.all isAsciiChar

/-- `s.as_bytes()`. -/
def asBytes (s : Str) : Bytes := s.flatMap String.utf8EncodeChar

/-! ## Cutting at a byte -/

/-- Lengths in bytes add up. -/
theorem utf8Len_append (s t : Str) : utf8Len (s ++ t) = utf8Len s + utf8Len t := by
  unfold utf8Len
  rw [List.map_append, List.sum_append]

theorem utf8Len_cons (c : Char) (s : Str) : utf8Len (c :: s) = c.utf8Size + utf8Len s := by
  unfold utf8Len
  rw [List.map_cons, List.sum_cons]

/-- `s.is_char_boundary(n)`: byte `n` is where some character begins, or the end. -/
def IsCharBoundary (s : Str) (n : Nat) : Prop := ∃ head tail, s = head ++ tail ∧ utf8Len head = n

/-- A text is cut at a byte exactly where a prefix has that many bytes. -/
theorem splitAtByte_eq_some_iff : ∀ {s : Str} {n : Nat} {head tail : Str},
    splitAtByte s n = some (head, tail) ↔ s = head ++ tail ∧ utf8Len head = n
  | s, 0, head, tail => by
    rw [splitAtByte, Option.some.injEq, Prod.mk.injEq]
    constructor
    · rintro ⟨rfl, rfl⟩
      exact ⟨rfl, rfl⟩
    · rintro ⟨rfl, hlen⟩
      cases head with
      | nil => exact ⟨rfl, rfl⟩
      | cons c head =>
        rw [utf8Len_cons] at hlen
        have := c.utf8Size_pos
        omega
  | [], n + 1, head, tail => by
    rw [splitAtByte]
    refine ⟨nofun, fun ⟨hs, hlen⟩ => ?_⟩
    obtain ⟨rfl, rfl⟩ := List.append_eq_nil_iff.mp hs.symm
    cases hlen
  | c :: s, n + 1, head, tail => by
    rw [splitAtByte]
    have hpos := c.utf8Size_pos
    split
    · -- the first character fits: the cut is in the rest
      rename_i hle
      rw [Option.map_eq_some_iff]
      constructor
      · rintro ⟨⟨head', tail'⟩, hrest, heq⟩
        obtain ⟨rfl, hlen⟩ := splitAtByte_eq_some_iff.mp hrest
        cases heq
        exact ⟨rfl, by rw [utf8Len_cons]; omega⟩
      · rintro ⟨hs, hlen⟩
        cases head with
        | nil => cases hlen
        | cons d head =>
          obtain ⟨rfl, rfl⟩ := List.cons.inj hs
          rw [utf8Len_cons] at hlen
          exact ⟨(head, tail), splitAtByte_eq_some_iff.mpr ⟨rfl, by omega⟩, rfl⟩
    · -- it does not: no prefix has so few bytes
      rename_i hlt
      refine ⟨nofun, fun ⟨hs, hlen⟩ => ?_⟩
      cases head with
      | nil => cases hlen
      | cons d head =>
        obtain ⟨rfl, rfl⟩ := List.cons.inj hs
        rw [utf8Len_cons] at hlen
        omega

/-- It is not cut inside a character, nor behind the end. -/
theorem splitAtByte_eq_none_iff {s : Str} {n : Nat} :
    splitAtByte s n = none ↔ ¬ IsCharBoundary s n := by
  rw [Option.eq_none_iff_forall_ne_some]
  constructor
  · rintro h ⟨head, tail, hcut⟩
    exact h (head, tail) (splitAtByte_eq_some_iff.mpr hcut)
  · rintro h ⟨head, tail⟩ hcut
    exact h ⟨head, tail, splitAtByte_eq_some_iff.mp hcut⟩

/-- Byte `n` is inside a character. -/
def InsideChar (s : Str) (n : Nat) : Prop :=
  ∃ before c after, s = before ++ c :: after ∧
    utf8Len before < n ∧ n < utf8Len before + c.utf8Size

/-- A place inside a character is inside the text. -/
theorem InsideChar.le_utf8Len {s : Str} {n : Nat} (h : InsideChar s n) : n ≤ utf8Len s := by
  obtain ⟨before, c, after, rfl, _, hhi⟩ := h
  rw [utf8Len_append, utf8Len_cons]
  omega

/-- A boundary is not inside a character. -/
theorem IsCharBoundary.not_insideChar {s : Str} {n : Nat} (h : IsCharBoundary s n) :
    ¬ InsideChar s n := by
  obtain ⟨head, tail, rfl, rfl⟩ := h
  rintro ⟨before, c, after, hs, hlo, hhi⟩
  rcases List.append_eq_append_iff.mp hs with ⟨mid, rfl, _⟩ | ⟨mid, rfl, hmid⟩
  · rw [utf8Len_append] at hlo
    omega
  · rw [utf8Len_append] at hlo hhi
    cases mid with
    | nil =>
      rw [show utf8Len [] = 0 from rfl] at hlo
      omega
    | cons d mid =>
      obtain ⟨rfl, _⟩ := List.cons.inj hmid
      rw [utf8Len_cons] at hhi
      omega

/-- A byte up to the end is a boundary or inside a character. -/
theorem isCharBoundary_or_insideChar : ∀ {s : Str} {n : Nat}, n ≤ utf8Len s →
    IsCharBoundary s n ∨ InsideChar s n
  | s, 0, _ => .inl ⟨[], s, rfl, rfl⟩
  | [], n + 1, h => absurd h (Nat.not_succ_le_zero n)
  | c :: s, n + 1, h => by
    by_cases hc : n + 1 < c.utf8Size
    · refine .inr ⟨[], c, s, rfl, Nat.succ_pos n, ?_⟩
      show n + 1 < 0 + c.utf8Size
      omega
    · rw [utf8Len_cons] at h
      have hrest : n + 1 - c.utf8Size ≤ utf8Len s := by omega
      rcases isCharBoundary_or_insideChar hrest with
        ⟨head, tail, rfl, hlen⟩ | ⟨before, d, after, rfl, hlo, hhi⟩
      · refine .inl ⟨c :: head, tail, rfl, ?_⟩
        rw [utf8Len_cons]
        omega
      · refine .inr ⟨c :: before, d, after, rfl, ?_, ?_⟩ <;> rw [utf8Len_cons] <;> omega

/-- Up to the end, a place is a boundary or inside a character. -/
theorem insideChar_iff {s : Str} {n : Nat} :
    InsideChar s n ↔ n ≤ utf8Len s ∧ ¬ IsCharBoundary s n := by
  constructor
  · intro h
    exact ⟨h.le_utf8Len, fun hcut => hcut.not_insideChar h⟩
  · rintro ⟨hlen, hcut⟩
    exact (isCharBoundary_or_insideChar hlen).resolve_left hcut

theorem isAscii_cons_iff {c : Char} {s : Str} :
    isAscii (c :: s) = true ↔ isAsciiChar c = true ∧ isAscii s = true := by
  rw [isAscii, List.all_cons, Bool.and_eq_true]
  rfl

theorem isAscii_append_iff {s t : Str} :
    isAscii (s ++ t) = true ↔ isAscii s = true ∧ isAscii t = true := by
  rw [isAscii, List.all_append, Bool.and_eq_true]
  rfl

/-- An ASCII character has one byte. -/
theorem utf8Size_of_isAsciiChar {c : Char} (h : isAsciiChar c = true) : c.utf8Size = 1 := by
  have hc : c.toNat < 128 := of_decide_eq_true h
  exact Char.utf8Size_eq_one_iff.mpr (UInt32.le_iff_toNat_le.mpr (Nat.le_of_lt_succ hc))

/-- An ASCII string has as many bytes as characters. -/
theorem utf8Len_of_isAscii : ∀ {s : Str}, isAscii s = true → utf8Len s = s.length
  | [], _ => rfl
  | c :: s, h => by
    obtain ⟨hc, hs⟩ := isAscii_cons_iff.mp h
    rw [utf8Len_cons, utf8Size_of_isAsciiChar hc, utf8Len_of_isAscii hs, List.length_cons,
      Nat.add_comm]

/-- No byte of an ASCII string is inside a character. -/
theorem not_insideChar_of_isAscii {s : Str} (h : isAscii s = true) (n : Nat) :
    ¬ InsideChar s n := by
  rintro ⟨before, c, after, rfl, hlo, hhi⟩
  obtain ⟨_, hafter⟩ := isAscii_append_iff.mp h
  obtain ⟨hc, _⟩ := isAscii_cons_iff.mp hafter
  rw [utf8Size_of_isAsciiChar hc] at hhi
  omega

/-- The cut is at the first separator. -/
theorem splitOnce_eq_some_iff {sep : Char} : ∀ {s head tail : Str},
    splitOnce sep s = some (head, tail) ↔ s = head ++ sep :: tail ∧ sep ∉ head
  | [], head, tail => by simp [splitOnce]
  | c :: s, head, tail => by
    rw [splitOnce]
    split
    · rename_i hc
      subst hc
      rw [Option.some.injEq, Prod.mk.injEq]
      constructor
      · rintro ⟨rfl, rfl⟩
        exact ⟨rfl, List.not_mem_nil⟩
      · rintro ⟨hs, hsep⟩
        cases head with
        | nil => exact ⟨rfl, (List.cons.inj hs).2⟩
        | cons d head =>
          obtain ⟨rfl, _⟩ := List.cons.inj hs
          exact absurd List.mem_cons_self hsep
    · rename_i hc
      rw [Option.map_eq_some_iff]
      constructor
      · rintro ⟨⟨head', tail'⟩, hrest, heq⟩
        obtain ⟨rfl, hsep⟩ := splitOnce_eq_some_iff.mp hrest
        cases heq
        refine ⟨rfl, fun hmem => ?_⟩
        rcases List.mem_cons.mp hmem with rfl | hmem
        · exact hc rfl
        · exact hsep hmem
      · rintro ⟨hs, hsep⟩
        cases head with
        | nil => exact absurd (List.cons.inj hs).1 hc
        | cons d head =>
          obtain ⟨rfl, rfl⟩ := List.cons.inj hs
          refine ⟨(head, tail), splitOnce_eq_some_iff.mpr ⟨rfl, fun hmem => ?_⟩, rfl⟩
          exact hsep (List.mem_cons_of_mem _ hmem)

/-! ## Bytes of a string -/

/-- The bytes of a text are as many as its length says. -/
theorem length_asBytes (s : Str) : (asBytes s).length = utf8Len s := by
  unfold asBytes utf8Len
  rw [List.length_flatMap]
  simp only [String.length_utf8EncodeChar]

/-- An ASCII character is one byte, and Latin-1 reads it back. -/
theorem latin1_utf8EncodeChar {c : Char} (h : isAsciiChar c = true) :
    latin1 (String.utf8EncodeChar c) = [c] := by
  have hc : c.toNat < 128 := of_decide_eq_true h
  have hle : c.val.toNat ≤ 0x7F := Nat.le_of_lt_succ hc
  have hbyte : (UInt8.ofNat c.toNat).toNat = c.toNat :=
    UInt8.toNat_ofNat_of_lt' (show c.toNat < 256 by omega)
  unfold String.utf8EncodeChar latin1
  dsimp only
  rw [if_pos hle, List.map_singleton, show c.val.toNat = c.toNat from rfl, hbyte,
    Char.ofNat_toNat]

/-- **An ASCII string** is read back from its bytes as Latin-1. -/
theorem latin1_asBytes : ∀ {s : Str}, isAscii s = true → latin1 (asBytes s) = s
  | [], _ => rfl
  | c :: s, h => by
    obtain ⟨hc, hs⟩ := isAscii_cons_iff.mp h
    have hrest := latin1_asBytes hs
    have hfirst := latin1_utf8EncodeChar hc
    unfold asBytes latin1 at *
    rw [List.flatMap_cons, List.map_append, hfirst, hrest, List.singleton_append]

/-- Text whose bytes are below 128 is ASCII text. -/
theorem isAscii_of_asBytes {s : Str} (h : ∀ b ∈ asBytes s, b.toNat < 128) : isAscii s = true := by
  refine List.all_eq_true.mpr fun c hc => decide_eq_true (Nat.lt_of_not_le fun hlarge => ?_)
  have hfirst : ∃ b ∈ String.utf8EncodeChar c, 128 ≤ b.toNat := by
    unfold String.utf8EncodeChar
    dsimp only
    rw [if_neg (show ¬ c.val.toNat ≤ 0x7F from Nat.not_le.mpr hlarge)]
    split
    · exact ⟨_, List.mem_cons_self, by rw [UInt8.toNat_ofNat']; omega⟩
    · split
      · exact ⟨_, List.mem_cons_self, by rw [UInt8.toNat_ofNat']; omega⟩
      · exact ⟨_, List.mem_cons_self, by rw [UInt8.toNat_ofNat']; omega⟩
  obtain ⟨b, hb, hlarge⟩ := hfirst
  exact Nat.not_lt.mpr hlarge (h b (List.mem_flatMap.mpr ⟨c, hc, hb⟩))

/-! ## Comparing without case -/

/-- Comparing without ASCII case is comparing the lower-case texts. -/
theorem eqIgnoreAsciiCase_iff {a b : Str} :
    eqIgnoreAsciiCase a b ↔ toAsciiLowercase a = toAsciiLowercase b := by
  unfold eqIgnoreAsciiCase
  rw [decide_eq_true_iff]

/-- Lower case moves the ASCII capitals by 32 and nothing else. -/
theorem toNat_toLower (c : Char) :
    c.toLower.toNat = if 65 ≤ c.toNat ∧ c.toNat ≤ 90 then c.toNat + 32 else c.toNat := by
  unfold Char.toLower
  by_cases h : c.val ≥ 'A'.val ∧ c.val ≤ 'Z'.val
  · have hlo : 65 ≤ c.val.toNat := UInt32.le_iff_toNat_le.mp h.1
    have hhi : c.val.toNat ≤ 90 := UInt32.le_iff_toNat_le.mp h.2
    rw [dif_pos h, if_pos ⟨hlo, hhi⟩]
    show (c.val + 32).toNat = c.val.toNat + 32
    rw [UInt32.toNat_add]
    exact Nat.mod_eq_of_lt (show c.val.toNat + 32 < 2 ^ 32 by omega)
  · rw [dif_neg h, if_neg]
    exact fun ⟨hlo, hhi⟩ => h ⟨UInt32.le_iff_toNat_le.mpr hlo, UInt32.le_iff_toNat_le.mpr hhi⟩

/-- Upper case moves the ASCII small letters back. -/
theorem toNat_toUpper (c : Char) :
    c.toUpper.toNat = if 97 ≤ c.toNat ∧ c.toNat ≤ 122 then c.toNat - 32 else c.toNat := by
  unfold Char.toUpper
  by_cases h : c.val ≥ 'a'.val ∧ c.val ≤ 'z'.val
  · have hlo : 97 ≤ c.val.toNat := UInt32.le_iff_toNat_le.mp h.1
    have hhi : c.val.toNat ≤ 122 := UInt32.le_iff_toNat_le.mp h.2
    rw [dif_pos h, if_pos ⟨hlo, hhi⟩]
    -- the distance between the cases is added modulo `2 ^ 32`
    show (c.val + ('A'.val - 'a'.val)).toNat = c.val.toNat - 32
    rw [UInt32.toNat_add]
    show (c.val.toNat + 4294967264) % 2 ^ 32 = c.val.toNat - 32
    omega
  · rw [dif_neg h, if_neg]
    exact fun ⟨hlo, hhi⟩ => h ⟨UInt32.le_iff_toNat_le.mpr hlo, UInt32.le_iff_toNat_le.mpr hhi⟩

/-- Folding to upper and to lower case identify the same characters. -/
theorem toUpper_eq_iff (c d : Char) : c.toUpper = d.toUpper ↔ c.toLower = d.toLower := by
  rw [← Char.toNat_inj, ← Char.toNat_inj, toNat_toUpper, toNat_toUpper, toNat_toLower,
    toNat_toLower]
  split <;> split <;> split <;> split <;> omega

/-- Comparing in upper case is comparing in lower case. -/
theorem toAsciiUppercase_eq_iff : ∀ {a b : Str},
    toAsciiUppercase a = toAsciiUppercase b ↔ toAsciiLowercase a = toAsciiLowercase b
  | [], b => by cases b <;> simp [toAsciiUppercase, toAsciiLowercase]
  | c :: a, [] => by simp [toAsciiUppercase, toAsciiLowercase]
  | c :: a, d :: b => by
    have htail := toAsciiUppercase_eq_iff (a := a) (b := b)
    unfold toAsciiUppercase toAsciiLowercase at htail ⊢
    rw [List.map_cons, List.map_cons, List.map_cons, List.map_cons, List.cons.injEq,
      List.cons.injEq, toUpper_eq_iff, htail]

/-- Changing ASCII case keeps the width of a character. -/
theorem utf8Size_toLower (c : Char) : c.toLower.utf8Size = c.utf8Size := by
  by_cases h : 65 ≤ c.toNat ∧ c.toNat ≤ 90
  · have hlower : c.toLower.toNat = c.toNat + 32 := by rw [toNat_toLower, if_pos h]
    rw [Char.utf8Size_eq_one_iff.mpr (UInt32.le_iff_toNat_le.mpr (show c.toNat ≤ 127 by omega)),
      Char.utf8Size_eq_one_iff.mpr
        (UInt32.le_iff_toNat_le.mpr (show c.toLower.toNat ≤ 127 by omega))]
  · rw [Char.toNat_inj.mp (show c.toLower.toNat = c.toNat by rw [toNat_toLower, if_neg h])]

/-- Folding keeps the length in bytes. -/
theorem utf8Len_toAsciiLowercase (s : Str) : utf8Len (toAsciiLowercase s) = utf8Len s := by
  unfold utf8Len toAsciiLowercase
  rw [List.map_map]
  exact congrArg List.sum (List.map_congr_left fun c _ => utf8Size_toLower c)

/-- Texts that agree but for ASCII case have the same length in bytes. -/
theorem utf8Len_eq_of_eqIgnoreAsciiCase {a b : Str} (h : eqIgnoreAsciiCase a b) :
    utf8Len a = utf8Len b := by
  rw [← utf8Len_toAsciiLowercase a, eqIgnoreAsciiCase_iff.mp h, utf8Len_toAsciiLowercase]

/-- What equals a joined string but for case is joined in the same way. -/
theorem eqIgnoreAsciiCase_append_iff {a b c : Str} :
    eqIgnoreAsciiCase a (b ++ c) ↔
      ∃ a₁ a₂, a = a₁ ++ a₂ ∧ eqIgnoreAsciiCase a₁ b ∧ eqIgnoreAsciiCase a₂ c := by
  simp only [eqIgnoreAsciiCase_iff]
  unfold toAsciiLowercase
  rw [List.map_append, List.map_eq_append_iff]

/-- A string that begins with ASCII is cut between characters everywhere there. -/
theorem isCharBoundary_of_eqIgnoreAsciiCase {front root : Str} {n : Nat}
    (h : eqIgnoreAsciiCase front root) (hascii : isAscii root = true)
    (hn : n ≤ root.length) (rest : Str) : IsCharBoundary (front ++ rest) n := by
  rw [← List.take_append_drop n root] at h
  obtain ⟨first, second, rfl, hfirst, _⟩ := eqIgnoreAsciiCase_append_iff.mp h
  refine ⟨first, second ++ rest, List.append_assoc _ _ _, ?_⟩
  have htake : isAscii (root.take n) = true :=
    List.all_eq_true.mpr fun c hc => List.all_eq_true.mp hascii c (List.mem_of_mem_take hc)
  calc utf8Len first = utf8Len (root.take n) := utf8Len_eq_of_eqIgnoreAsciiCase hfirst
    _ = (root.take n).length := utf8Len_of_isAscii htake
    _ = n := List.length_take_of_le hn

/-! ## Joining -/

/-- A separator between the strings is a separator in front of every string but the first. -/
theorem intercalate_cons (sep : Char) (name : Str) : ∀ names : List Str,
    [sep].intercalate (name :: names) = name ++ names.flatMap (sep :: ·)
  | [] => by rw [List.intercalate_singleton, List.flatMap_nil, List.append_nil]
  | next :: names => by
    rw [List.intercalate_cons_cons, intercalate_cons sep next names, List.flatMap_cons]
    simp

/-- A join that puts a separator behind a nonempty string. -/
theorem foldl_append_separated {sep : Char} {join : Str → Str → Str}
    (hjoin : ∀ path name, path ≠ [] → join path name = path ++ sep :: name) :
    ∀ (names : List Str) {path : Str}, path ≠ [] →
      names.foldl join path = path ++ names.flatMap (sep :: ·)
  | [], path, _ => by rw [List.foldl_nil, List.flatMap_nil, List.append_nil]
  | name :: names, path, hpath => by
    rw [List.foldl_cons, hjoin path name hpath, List.flatMap_cons,
      foldl_append_separated hjoin names (by simp), List.append_assoc, List.cons_append]

/-- Joining names from nothing: the empty names at the front leave no trace. -/
theorem foldl_separated {sep : Char} {join : Str → Str → Str} (hnil : ∀ name, join [] name = name)
    (hjoin : ∀ path name, path ≠ [] → join path name = path ++ sep :: name) : ∀ names : List Str,
    names.foldl join [] = [sep].intercalate (names.dropWhile (· = []))
  | [] => rfl
  | name :: names => by
    rw [List.foldl_cons, hnil]
    by_cases hname : name = []
    · subst hname
      rw [List.dropWhile_cons_of_pos (by simp)]
      exact foldl_separated hnil hjoin names
    · rw [List.dropWhile_cons_of_neg (by simpa using hname), intercalate_cons,
        foldl_append_separated hjoin names hname]

/-! ## Trimming -/

/-- `char::is_whitespace`: the characters of the Unicode property `White_Space`. -/
def isWhitespace (c : Char) : Bool :=
  (9 ≤ c.toNat && c.toNat ≤ 13) || c.toNat = 0x20 || c.toNat = 0x85 || c.toNat = 0xA0 ||
    c.toNat = 0x1680 || (0x2000 ≤ c.toNat && c.toNat ≤ 0x200A) || c.toNat = 0x2028 ||
    c.toNat = 0x2029 || c.toNat = 0x202F || c.toNat = 0x205F || c.toNat = 0x3000

/-- `s.trim()` -/
def trim (s : Str) : Str := (s.dropWhile isWhitespace).rdropWhile isWhitespace

/-- What is trimmed away is whitespace. -/
theorem exists_trim (s : Str) : ∃ front back, s = front ++ (trim s ++ back) ∧
    (∀ c ∈ front, isWhitespace c) ∧ ∀ c ∈ back, isWhitespace c := by
  refine ⟨s.takeWhile isWhitespace, (s.dropWhile isWhitespace).rtakeWhile isWhitespace, ?_,
    fun c hc => List.mem_takeWhile_imp hc, fun c hc => List.mem_rtakeWhile_imp hc⟩
  rw [trim, List.rdropWhile_append_rtakeWhile, List.takeWhile_append_dropWhile]

/-- Whitespace on both sides is trimmed away, up to characters that are none. -/
theorem trim_append {front back : Str} {first last : Char} {s : Str}
    (hfront : ∀ c ∈ front, isWhitespace c) (hback : ∀ c ∈ back, isWhitespace c)
    (hhead : s.head? = some first) (hfirst : isWhitespace first = false)
    (htail : s.getLast? = some last) (hlast : isWhitespace last = false) :
    trim (front ++ (s ++ back)) = s := by
  obtain ⟨rest, rfl⟩ := List.head?_eq_some_iff.mp hhead
  have hdrop : (front ++ (first :: rest ++ back)).dropWhile isWhitespace =
      first :: rest ++ back := by
    rw [List.dropWhile_append_of_pos hfront, List.cons_append,
      List.dropWhile_cons_of_neg (by simp [hfirst])]
  obtain ⟨init, hinit⟩ := List.getLast?_eq_some_iff.mp htail
  rw [trim, hdrop, hinit, List.append_assoc, List.rdropWhile]
  simp only [List.reverse_append, List.reverse_cons, List.reverse_nil, List.nil_append]
  rw [List.append_assoc, List.dropWhile_append_of_pos (by simpa using hback), List.singleton_append,
    List.dropWhile_cons_of_neg (by simp [hlast])]
  simp
/-! ## Hexadecimal numbers -/

/-- The value of an uppercase hexadecimal digit. -/
def hexDigitValue (c : Char) : Nat := if c.toNat < 65 then c.toNat - 48 else c.toNat - 55

/-- The value of uppercase hexadecimal digits. -/
def hexValue (s : Str) : Nat := s.foldl (fun n c => n * 16 + hexDigitValue c) 0

/-- A hexadecimal digit is read back. -/
theorem hexDigitValue_digitChar : ∀ {d : Nat}, d < 16 →
    hexDigitValue (Nat.digitChar d).toUpper = d := by
  decide

/-- So is a number that is written in hexadecimal digits. -/
theorem hexValue_toDigits (n : Nat) : hexValue ((Nat.toDigits 16 n).map Char.toUpper) = n := by
  induction n using Nat.strongRecOn with
  | ind n ih =>
    by_cases h : n < 16
    · rw [Nat.toDigits_of_lt_base h]
      show 0 * 16 + hexDigitValue _ = n
      rw [hexDigitValue_digitChar h, Nat.zero_mul, Nat.zero_add]
    · rw [Nat.toDigits_of_base_le (by decide) (Nat.le_of_not_lt h), List.map_append, hexValue,
        List.foldl_append]
      show hexValue _ * 16 + hexDigitValue _ = n
      rw [ih (n / 16) (by omega), hexDigitValue_digitChar (Nat.mod_lt n (by decide))]
      omega

/-- **Padded digits** have the value of the number. -/
theorem hexValue_hexUpper (width n : Nat) : hexValue (hexUpper width n) = n := by
  have hzeros : ∀ k, (List.replicate k '0').foldl (fun n c => n * 16 + hexDigitValue c) 0 = 0 := by
    intro k
    induction k with
    | zero => rfl
    | succ k ih => exact ih
  rw [hexUpper, hexValue, List.foldl_append, hzeros]
  exact hexValue_toDigits n

/-- Folding twice is folding once. -/
theorem toUpper_toUpper (c : Char) : c.toUpper.toUpper = c.toUpper := by
  apply Char.toNat_inj.mp
  have hup := toNat_toUpper c
  rw [toNat_toUpper c.toUpper, if_neg]
  rw [hup]
  split <;> omega

/-- Padded digits are in upper case. -/
theorem toAsciiUppercase_hexUpper (width n : Nat) :
    toAsciiUppercase (hexUpper width n) = hexUpper width n := by
  rw [hexUpper, toAsciiUppercase, List.map_append, List.map_replicate, List.map_map]
  exact congrArg _ (List.map_congr_left fun c _ => toUpper_toUpper c)

end Rust
