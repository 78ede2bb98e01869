/-
  BYTE BUFFERS: ranges, in-place writes and little-endian integers.

  1. **Ranges** — `bytesAt data off n` is the `n` bytes from `off` on (fewer at the end of the
     buffer).  `slice` is the checked form that aborts when the range is not inside the buffer,
     `getRange` the checked form that gives `none`, `index` the checked single byte.
  2. **Writes** — `patch data off bs` overwrites the bytes from `off` on.  A range that the write
     does not touch is unchanged (`bytesAt_patch_disjoint`), the written range reads back what was
     written (`bytesAt_patch_self`).
  3. **Integers** — `fromLe`/`toLe` are inverse on `w` bytes and numbers below `256 ^ w`; `u16At`,
     `u32At`, `u64At`, `i32At` read fixed-width integers, `u32Bytes` and its like write them.
  4. **Profiles** — whether an overflowing addition aborts depends on the build.
-/
import Winreg.Base.Exec
import Mathlib.Data.Nat.Basic
import Mathlib.Tactic.Ring

namespace Rust

/-- A byte buffer. -/
abbrev Bytes := List UInt8

/-! ## Ranges -/

/-- The `n` bytes of `data` from `off` on. -/
def bytesAt (data : Bytes) (off n : Nat) : Bytes := (data.drop off).take n

/-- A read past the end is short: there is no failure, the callers check bounds. -/
@[simp] theorem length_bytesAt (data : Bytes) (off n : Nat) :
    (bytesAt data off n).length = min n (data.length - off) := by
  simp [bytesAt]

theorem length_bytesAt_of_le {data : Bytes} {off n : Nat} (h : off + n ≤ data.length) :
    (bytesAt data off n).length = n := by
  rw [length_bytesAt]; omega

theorem getElem?_bytesAt (data : Bytes) (off n i : Nat) :
    (bytesAt data off n)[i]? = if i < n then data[off + i]? else none := by
  unfold bytesAt
  rw [List.getElem?_take]
  split
  · rw [List.getElem?_drop]
  · rfl

/-- A range of a range is a range, as long as it does not reach past the outer one. -/
theorem bytesAt_bytesAt {data : Bytes} {off n o m : Nat} (h : o + m ≤ n) :
    bytesAt (bytesAt data off n) o m = bytesAt data (off + o) m := by
  apply List.ext_getElem?
  intro i
  rw [getElem?_bytesAt, getElem?_bytesAt, getElem?_bytesAt]
  by_cases hi : i < m
  · rw [if_pos hi, if_pos hi, if_pos (by omega), Nat.add_assoc]
  · rw [if_neg hi, if_neg hi]

/-- A read that ends in the first part does not see the second. -/
theorem bytesAt_append_left {a b : Bytes} {off n : Nat} (h : off + n ≤ a.length) :
    bytesAt (a ++ b) off n = bytesAt a off n := by
  apply List.ext_getElem?
  intro i
  rw [getElem?_bytesAt, getElem?_bytesAt]
  by_cases hi : i < n
  · rw [if_pos hi, if_pos hi, List.getElem?_append_left (by omega)]
  · rw [if_neg hi, if_neg hi]

/-- A read that starts in the second part does not see the first. -/
theorem bytesAt_append_right {a b : Bytes} {off n : Nat} (h : a.length ≤ off) :
    bytesAt (a ++ b) off n = bytesAt b (off - a.length) n := by
  apply List.ext_getElem?
  intro i
  rw [getElem?_bytesAt, getElem?_bytesAt]
  by_cases hi : i < n
  · rw [if_pos hi, if_pos hi, List.getElem?_append_right (by omega)]
    congr 1; omega
  · rw [if_neg hi, if_neg hi]

theorem bytesAt_zero_of_length_le {data : Bytes} {n : Nat} (h : data.length ≤ n) :
    bytesAt data 0 n = data := by
  unfold bytesAt
  rw [List.drop_zero, List.take_of_length_le h]

/-- **A part of a buffer**, between what comes before it and what comes behind it. -/
theorem bytesAt_part {data before part after : Bytes} {off n : Nat}
    (h : data = before ++ (part ++ after)) (hoff : before.length = off) (hn : part.length = n) :
    bytesAt data off n = part := by
  rw [h, bytesAt_append_right hoff.le, hoff, Nat.sub_self, bytesAt_append_left (by omega)]
  exact bytesAt_zero_of_length_le hn.le

/-- A range is its first part and its rest. -/
theorem bytesAt_add (data : Bytes) (off n m : Nat) :
    bytesAt data off (n + m) = bytesAt data off n ++ bytesAt data (off + n) m := by
  unfold bytesAt
  rw [List.take_add, List.drop_drop]

/-- Two buffers that agree byte by byte on a range have equal ranges there. -/
theorem bytesAt_congr {a b : Bytes} {off n : Nat}
    (h : ∀ i, off ≤ i → i < off + n → a[i]? = b[i]?) : bytesAt a off n = bytesAt b off n := by
  apply List.ext_getElem?
  intro i
  rw [getElem?_bytesAt, getElem?_bytesAt]
  by_cases hi : i < n
  · rw [if_pos hi, if_pos hi, h (off + i) (by omega) (by omega)]
  · rw [if_neg hi, if_neg hi]

/-- `&data[a..b]`: aborts unless `a ≤ b ≤ data.len()`. -/
def slice {ε : Type} (data : Bytes) (a b : Nat) : Exec ε Bytes :=
  if a ≤ b ∧ b ≤ data.length then .ok (bytesAt data a (b - a)) else .panic

/-- A range within the data is cut out. -/
theorem slice_eq_ok {ε : Type} {data : Bytes} {a b : Nat} (hab : a ≤ b) (hb : b ≤ data.length) :
    (slice data a b : Exec ε Bytes) = .ok (bytesAt data a (b - a)) :=
  if_pos ⟨hab, hb⟩

/-- Any other range panics, as indexing with a range does in the source. -/
theorem slice_eq_panic {ε : Type} {data : Bytes} {a b : Nat} (h : b < a ∨ data.length < b) :
    (slice data a b : Exec ε Bytes) = .panic :=
  if_neg (by omega)

/-- `data[i]`: aborts when `i` is out of range. -/
def index {ε : Type} (data : Bytes) (i : Nat) : Exec ε UInt8 :=
  match data[i]? with
  | some b => .ok b
  | none => .panic

theorem index_eq_ok {ε : Type} {data : Bytes} {i : Nat} (h : i < data.length) :
    (index data i : Exec ε UInt8) = .ok data[i] := by
  unfold index
  rw [List.getElem?_eq_getElem h]

/-- `data.get(a..b)`: `none` unless `a ≤ b ≤ data.len()`. -/
def getRange (data : Bytes) (a b : Nat) : Option Bytes :=
  if a ≤ b ∧ b ≤ data.length then some (bytesAt data a (b - a)) else none

/-- The checked form of a range within the data. -/
theorem getRange_eq_some {data : Bytes} {a b : Nat} (hab : a ≤ b) (hb : b ≤ data.length) :
    getRange data a b = some (bytesAt data a (b - a)) :=
  if_pos ⟨hab, hb⟩

/-! ## Writes -/

/-- Overwrite the bytes of `data` from `off` on by `bs` (`copy_from_slice` inside the buffer). -/
def patch (data : Bytes) (off : Nat) (bs : Bytes) : Bytes :=
  data.take off ++ bs ++ data.drop (off + bs.length)

/-- `data[off..off + bs.len()].copy_from_slice(bs)`: aborts when the range is out of bounds. -/
def copyInto {ε : Type} (data : Bytes) (off : Nat) (bs : Bytes) : Exec ε Bytes :=
  if off + bs.length ≤ data.length then .ok (patch data off bs) else .panic

/-- Copying into a range within the data overwrites it. -/
theorem copyInto_eq_ok {ε : Type} {data : Bytes} {off : Nat} {bs : Bytes}
    (h : off + bs.length ≤ data.length) :
    (copyInto data off bs : Exec ε Bytes) = .ok (patch data off bs) :=
  if_pos h

theorem length_patch {data : Bytes} {off : Nat} {bs : Bytes}
    (h : off + bs.length ≤ data.length) : (patch data off bs).length = data.length := by
  simp only [patch, List.length_append, List.length_take, List.length_drop]; omega

/-- Byte by byte: inside the written range the new byte, outside the old one. -/
theorem getElem?_patch {data : Bytes} {off : Nat} {bs : Bytes} (h : off + bs.length ≤ data.length)
    (i : Nat) :
    (patch data off bs)[i]? =
      if off ≤ i ∧ i < off + bs.length then bs[i - off]? else data[i]? := by
  have htake : (data.take off).length = off := by rw [List.length_take]; omega
  unfold patch
  rw [List.append_assoc]
  rcases Nat.lt_or_ge i off with hlt | hge
  · rw [if_neg (by omega), List.getElem?_append_left (by omega), List.getElem?_take, if_pos hlt]
  · rw [List.getElem?_append_right (by omega), htake]
    rcases Nat.lt_or_ge i (off + bs.length) with hlt' | hge'
    · rw [if_pos ⟨hge, hlt'⟩, List.getElem?_append_left (by omega)]
    · rw [if_neg (by omega), List.getElem?_append_right (by omega), List.getElem?_drop]
      congr 1; omega

/-- What has been written is read back. -/
theorem bytesAt_patch_self {data : Bytes} {off : Nat} {bs : Bytes}
    (h : off + bs.length ≤ data.length) : bytesAt (patch data off bs) off bs.length = bs := by
  apply List.ext_getElem?
  intro i
  rw [getElem?_bytesAt]
  by_cases hi : i < bs.length
  · rw [if_pos hi, getElem?_patch h, if_pos (by omega), Nat.add_sub_cancel_left]
  · rw [if_neg hi, List.getElem?_eq_none (by omega)]

/-- What has not been written is read as before. -/
theorem bytesAt_patch_disjoint {data : Bytes} {off : Nat} {bs : Bytes}
    (h : off + bs.length ≤ data.length) {o n : Nat} (hd : o + n ≤ off ∨ off + bs.length ≤ o) :
    bytesAt (patch data off bs) o n = bytesAt data o n := by
  refine bytesAt_congr (fun i hi1 hi2 => ?_)
  rw [getElem?_patch h, if_neg (by omega)]

/-- Overwriting the first of the zeros behind `a`. -/
theorem patch_append_zeros (a bs : Bytes) (k : Nat) :
    patch (a ++ List.replicate (bs.length + k) 0) a.length bs =
      (a ++ bs) ++ List.replicate k 0 := by
  unfold patch
  rw [List.take_left, List.drop_append, List.drop_of_length_le (by omega), List.nil_append,
    Nat.add_sub_cancel_left, List.drop_replicate, Nat.add_sub_cancel_left]

/-- Writing into the first part leaves the second. -/
theorem patch_append_left {a b : Bytes} {off : Nat} {bs : Bytes} (h : off + bs.length ≤ a.length) :
    patch (a ++ b) off bs = patch a off bs ++ b := by
  unfold patch
  rw [List.take_append_of_le_length (by omega), List.drop_append_of_le_length h,
    List.append_assoc _ _ b]

/-- Writing into the second part leaves the first. -/
theorem patch_append_right {a b : Bytes} {off : Nat} {bs : Bytes} (h : a.length ≤ off) :
    patch (a ++ b) off bs = a ++ patch b (off - a.length) bs := by
  unfold patch
  rw [List.take_append, List.take_of_length_le h, List.drop_append, List.drop_of_length_le
    (by omega), List.nil_append, show off + bs.length - a.length = off - a.length + bs.length by
    omega, List.append_assoc, List.append_assoc, List.append_assoc]

/-- A write inside a range is a write into that range. -/
theorem bytesAt_patch_inside {data : Bytes} {pos n o : Nat} {bs : Bytes}
    (hn : pos + n ≤ data.length) (ho : o + bs.length ≤ n) :
    bytesAt (patch data (pos + o) bs) pos n = patch (bytesAt data pos n) o bs := by
  have hlen := length_bytesAt_of_le hn
  apply List.ext_getElem?
  intro i
  rw [getElem?_bytesAt, getElem?_patch (by omega), getElem?_patch (by omega), getElem?_bytesAt]
  by_cases hi : i < n
  · rw [if_pos hi, if_pos hi]
    by_cases hin : o ≤ i ∧ i < o + bs.length
    · rw [if_pos (by omega), if_pos hin]
      congr 1; omega
    · rw [if_neg (by omega), if_neg hin]
  · rw [if_neg hi, if_neg hi, if_neg (by omega)]

/-- Two writes side by side are one write. -/
theorem copyInto_append {ε : Type} (data : Bytes) (off : Nat) (xs ys : Bytes) :
    (copyInto data off (xs ++ ys) : Exec ε Bytes) =
      copyInto data off xs >>= fun data => copyInto data (off + xs.length) ys := by
  have hlen : (xs ++ ys).length = xs.length + ys.length := List.length_append
  by_cases hx : off + xs.length ≤ data.length
  · rw [copyInto_eq_ok hx, Exec.ok_bind]
    have hpatch := length_patch hx
    by_cases hy : off + xs.length + ys.length ≤ data.length
    · rw [copyInto_eq_ok (by omega), copyInto_eq_ok (by omega)]
      refine congrArg Exec.ok (List.ext_getElem? fun i => ?_)
      rw [getElem?_patch (by omega), getElem?_patch (by omega), getElem?_patch hx]
      by_cases h1 : off + xs.length ≤ i ∧ i < off + xs.length + ys.length
      · rw [if_pos h1, if_pos (by omega), List.getElem?_append_right (by omega)]
        congr 1; omega
      · rw [if_neg h1]
        by_cases h2 : off ≤ i ∧ i < off + xs.length
        · rw [if_pos h2, if_pos (by omega), List.getElem?_append_left (by omega)]
        · rw [if_neg h2, if_neg (by omega)]
    · rw [copyInto, if_neg (by omega), copyInto, if_neg (by omega)]
  · rw [copyInto, if_neg (by omega), copyInto, if_neg hx, Exec.panic_bind]

/-! ## Arrays of fixed width -/

section Arrays

variable {α : Type} {enc : α → Bytes} {w : Nat}

/-- Records of one width take as many bytes as their number times the width. -/
theorem length_flatMap_of_mem {xs : List α} (hw : ∀ x ∈ xs, (enc x).length = w) :
    (xs.flatMap enc).length = xs.length * w := by
  induction xs with
  | nil => rw [List.flatMap_nil, List.length_nil, List.length_nil, Nat.zero_mul]
  | cons x xs ih =>
    rw [List.flatMap_cons, List.length_append, ih fun y hy => hw y (List.mem_cons_of_mem x hy),
      hw x List.mem_cons_self, List.length_cons, Nat.succ_mul, Nat.add_comm]

/-- The same where the width is that of every record. -/
theorem length_flatMap_of_width (hw : ∀ x, (enc x).length = w) (xs : List α) :
    (xs.flatMap enc).length = xs.length * w :=
  length_flatMap_of_mem fun x _ => hw x

/-- **A range inside element `i`** of an array whose elements have one width. -/
theorem bytesAt_flatMap_of_mem (tail : Bytes) {o n : Nat} (h : o + n ≤ w) :
    ∀ {xs : List α}, (∀ x ∈ xs, (enc x).length = w) → ∀ (i : Nat) (hi : i < xs.length),
      bytesAt (xs.flatMap enc ++ tail) (i * w + o) n = bytesAt (enc xs[i]) o n
  | [], _, i, hi => absurd hi (Nat.not_lt_zero i)
  | x :: xs, hw, 0, _ => by
    rw [List.flatMap_cons, List.append_assoc, Nat.zero_mul, Nat.zero_add,
      bytesAt_append_left (by rw [hw x List.mem_cons_self]; exact h), List.getElem_cons_zero]
  | x :: xs, hw, i + 1, hi => by
    have hi' : i < xs.length := Nat.lt_of_succ_lt_succ hi
    have hx := hw x List.mem_cons_self
    have hsplit : (i + 1) * w + o = w + (i * w + o) := by rw [Nat.succ_mul]; omega
    rw [List.flatMap_cons, List.append_assoc, hsplit, bytesAt_append_right (by rw [hx]; omega), hx,
      Nat.add_sub_cancel_left,
      bytesAt_flatMap_of_mem tail h (fun y hy => hw y (List.mem_cons_of_mem x hy)) i hi',
      List.getElem_cons_succ]

/-- A field of the record with number `i` stands `i` widths behind the first. -/
theorem bytesAt_flatMap (hw : ∀ x, (enc x).length = w) (tail : Bytes) {o n : Nat} (h : o + n ≤ w)
    (xs : List α) (i : Nat) (hi : i < xs.length) :
    bytesAt (xs.flatMap enc ++ tail) (i * w + o) n = bytesAt (enc xs[i]) o n :=
  bytesAt_flatMap_of_mem tail h (fun x _ => hw x) i hi

/-- Element `i` of an array, whatever the widths of the elements. -/
theorem bytesAt_flatMap_getElem (enc : α → Bytes) (tail : Bytes) {xs : List α} {i : Nat}
    (hi : i < xs.length) :
    bytesAt (xs.flatMap enc ++ tail) ((xs.take i).flatMap enc).length (enc xs[i]).length =
      enc xs[i] := by
  have hsplit : xs = xs.take i ++ xs[i] :: xs.drop (i + 1) := by
    rw [← List.drop_eq_getElem_cons hi, List.take_append_drop]
  have hparts : xs.flatMap enc ++ tail = (xs.take i).flatMap enc ++
      (enc xs[i] ++ ((xs.drop (i + 1)).flatMap enc ++ tail)) := by
    conv_lhs => rw [hsplit]
    rw [List.flatMap_append, List.flatMap_cons, List.append_assoc, List.append_assoc]
  exact bytesAt_part hparts rfl rfl

end Arrays

/-! ## Little-endian integers -/

/-- The number with the given little-endian bytes. -/
def fromLe : Bytes → Nat
  | [] => 0
  | b :: bs => b.toNat + 256 * fromLe bs

/-- The `w` little-endian bytes of `n` (bits above `8 * w` are dropped). -/
def toLe : Nat → Nat → Bytes
  | 0, _ => []
  | w + 1, n => UInt8.ofNat n :: toLe w (n / 256)

@[simp] theorem length_toLe (w n : Nat) : (toLe w n).length = w := by
  induction w generalizing n with
  | zero => rfl
  | succ w ih => rw [toLe, List.length_cons, ih]

/-- A number of `n` bytes is below `256 ^ n`. -/
theorem fromLe_lt (bs : Bytes) : fromLe bs < 256 ^ bs.length := by
  induction bs with
  | nil => exact Nat.one_pos
  | cons b bs ih =>
    have hb : b.toNat < 256 := b.toNat_lt
    rw [fromLe, List.length_cons, Nat.pow_succ]
    omega

/-- Writing a number and reading it back cuts it to the width. -/
theorem fromLe_toLe (w n : Nat) : fromLe (toLe w n) = n % 256 ^ w := by
  induction w generalizing n with
  | zero => rw [toLe, fromLe, Nat.pow_zero, Nat.mod_one]
  | succ w ih =>
    have hpow : 256 ^ (w + 1) = 256 * 256 ^ w := Nat.pow_succ'
    rw [toLe, fromLe, ih, UInt8.toNat_ofNat', hpow, Nat.mod_mul]

/-- A number that fits is read back as it is. -/
theorem fromLe_toLe_of_lt {w n : Nat} (h : n < 256 ^ w) : fromLe (toLe w n) = n := by
  rw [fromLe_toLe, Nat.mod_eq_of_lt h]

/-- Equal numbers have equal bytes: `w` bytes are determined by the number they spell. -/
theorem fromLe_inj {a b : Bytes} (hl : a.length = b.length) (h : fromLe a = fromLe b) : a = b := by
  induction a generalizing b with
  | nil => exact (List.eq_nil_of_length_eq_zero hl.symm).symm
  | cons x xs ih =>
    cases b with
    | nil => cases hl
    | cons y ys =>
      have hx : x.toNat < 256 := x.toNat_lt
      have hy : y.toNat < 256 := y.toNat_lt
      rw [fromLe, fromLe] at h
      have hxy : x.toNat = y.toNat := by omega
      have htl : fromLe xs = fromLe ys := by omega
      rw [UInt8.toNat_inj.mp hxy, ih (Nat.succ.inj hl) htl]

/-- `u16::from_le_bytes` on the two bytes at `off`. -/
def u16At (data : Bytes) (off : Nat) : UInt16 := UInt16.ofNat (fromLe (bytesAt data off 2))

/-- `u32::from_le_bytes` on the four bytes at `off`. -/
def u32At (data : Bytes) (off : Nat) : UInt32 := UInt32.ofNat (fromLe (bytesAt data off 4))

/-- `u64::from_le_bytes` on the eight bytes at `off`. -/
def u64At (data : Bytes) (off : Nat) : UInt64 := UInt64.ofNat (fromLe (bytesAt data off 8))

/-- Read an unsigned 32-bit number as a two's complement `i32`. -/
def asI32 (n : Nat) : Int := if n < 2 ^ 31 then (n : Int) else (n : Int) - 2 ^ 32

/-- `i32::from_le_bytes` on the four bytes at `off`. -/
def i32At (data : Bytes) (off : Nat) : Int := asI32 (fromLe (bytesAt data off 4))

/-- `x.to_le_bytes()` for a `u16`, a `u32` and a `u64`. -/
def u16Bytes (x : UInt16) : Bytes := toLe 2 x.toNat
/-- The four bytes of a number, lowest first. -/
def u32Bytes (x : UInt32) : Bytes := toLe 4 x.toNat
/-- The eight bytes of a number, lowest first. -/
def u64Bytes (x : UInt64) : Bytes := toLe 8 x.toNat

/-- `x.to_le_bytes()` for an `i32` (two's complement). -/
def i32Bytes (x : Int) : Bytes := toLe 4 (x % 2 ^ 32).toNat

@[simp] theorem length_u16Bytes (x : UInt16) : (u16Bytes x).length = 2 := length_toLe 2 _
@[simp] theorem length_u32Bytes (x : UInt32) : (u32Bytes x).length = 4 := length_toLe 4 _
@[simp] theorem length_u64Bytes (x : UInt64) : (u64Bytes x).length = 8 := length_toLe 8 _
@[simp] theorem length_i32Bytes (x : Int) : (i32Bytes x).length = 4 := length_toLe 4 _

/-- A word of an array of words. -/
theorem bytesAt_words {α : Type} (f : α → UInt32) (tail : Bytes) {xs : List α} {i : Nat}
    (hi : i < xs.length) :
    bytesAt ((xs.flatMap fun x => u32Bytes (f x)) ++ tail) (i * 4) 4 = u32Bytes (f xs[i]) := by
  have hword := @bytesAt_flatMap α (fun x => u32Bytes (f x)) 4 (fun x => length_u32Bytes (f x))
    tail 0 4 (Nat.le_refl 4) xs i hi
  rw [Nat.add_zero] at hword
  exact hword.trans (bytesAt_zero_of_length_le (length_u32Bytes _).le)

theorem u32At_toNat_lt (data : Bytes) (off : Nat) : (u32At data off).toNat < 2 ^ 32 :=
  (u32At data off).toNat_lt

theorem u32At_toNat (data : Bytes) (off : Nat) :
    (u32At data off).toNat = fromLe (bytesAt data off 4) := by
  have hlt := fromLe_lt (bytesAt data off 4)
  have hlen : (bytesAt data off 4).length ≤ 4 := by rw [length_bytesAt]; omega
  have hpow : 256 ^ (bytesAt data off 4).length ≤ 256 ^ 4 :=
    Nat.pow_le_pow_right (by decide) hlen
  rw [u32At, UInt32.toNat_ofNat']
  exact Nat.mod_eq_of_lt (by omega)

/-- A field is read as the number that was written there. -/
theorem u16At_of_bytesAt {data : Bytes} {off : Nat} {x : UInt16}
    (h : bytesAt data off 2 = u16Bytes x) : u16At data off = x := by
  have hx : x.toNat < 256 ^ 2 := x.toNat_lt
  rw [u16At, h, u16Bytes, fromLe_toLe_of_lt hx, UInt16.ofNat_toNat]

theorem u32At_of_bytesAt {data : Bytes} {off : Nat} {x : UInt32}
    (h : bytesAt data off 4 = u32Bytes x) : u32At data off = x := by
  have hx : x.toNat < 256 ^ 4 := x.toNat_lt
  rw [u32At, h, u32Bytes, fromLe_toLe_of_lt hx, UInt32.ofNat_toNat]

/-- Writing what was read gives the bytes that were read. -/
theorem u32Bytes_u32At {data : Bytes} {off : Nat} (h : off + 4 ≤ data.length) :
    u32Bytes (u32At data off) = bytesAt data off 4 := by
  have hlen := length_bytesAt_of_le h
  refine fromLe_inj (by rw [length_u32Bytes, hlen]) ?_
  rw [u32Bytes, fromLe_toLe_of_lt (u32At data off).toNat_lt, u32At_toNat]

theorem u64At_of_bytesAt {data : Bytes} {off : Nat} {x : UInt64}
    (h : bytesAt data off 8 = u64Bytes x) : u64At data off = x := by
  have hx : x.toNat < 256 ^ 8 := x.toNat_lt
  rw [u64At, h, u64Bytes, fromLe_toLe_of_lt hx, UInt64.ofNat_toNat]

/-- A signed field is read as the number that was written, where that fits in 32 bits. -/
theorem i32At_of_bytesAt {data : Bytes} {off : Nat} {x : Int} (hlo : -2 ^ 31 ≤ x)
    (hhi : x < 2 ^ 31) (h : bytesAt data off 4 = i32Bytes x) : i32At data off = x := by
  rw [i32At, h, i32Bytes, fromLe_toLe_of_lt (by omega), asI32]
  split <;> omega

theorem i32At_lower (data : Bytes) (off : Nat) : -2 ^ 31 ≤ i32At data off := by
  unfold i32At asI32; split <;> omega

theorem i32At_upper (data : Bytes) (off : Nat) : i32At data off < 2 ^ 31 := by
  have h := u32At_toNat data off
  have hlt := u32At_toNat_lt data off
  unfold i32At asI32
  split <;> omega

/-- A field depends on its own four bytes only. -/
theorem u32At_congr {a b : Bytes} {o p : Nat} (h : bytesAt a o 4 = bytesAt b p 4) :
    u32At a o = u32At b p := by
  rw [u32At, u32At, h]

/-- An integer read inside a range is read at its place in the buffer. -/
theorem u32At_bytesAt {data : Bytes} {off n o : Nat} (h : o + 4 ≤ n) :
    u32At (bytesAt data off n) o = u32At data (off + o) :=
  u32At_congr (bytesAt_bytesAt h)

/-- So does a signed one. -/
theorem i32At_congr {a b : Bytes} {o p : Nat} (h : bytesAt a o 4 = bytesAt b p 4) :
    i32At a o = i32At b p := by
  rw [i32At, i32At, h]

/-- Bounds-checked `u32` read: `0` when the four bytes are not all inside the buffer. -/
def leU32 (data : Bytes) (off : Nat) : UInt32 :=
  if off + 4 ≤ data.length then u32At data off else 0

/-- Within the data the lenient read and the plain one agree. -/
theorem leU32_eq_u32At {data : Bytes} {off : Nat} (h : off + 4 ≤ data.length) :
    leU32 data off = u32At data off :=
  if_pos h

/-- Bounds-checked `u64` read: `0` when the eight bytes are not all inside the buffer. -/
def leU64 (data : Bytes) (off : Nat) : UInt64 :=
  if off + 8 ≤ data.length then u64At data off else 0

/-- The same for eight bytes. -/
theorem leU64_eq_u64At {data : Bytes} {off : Nat} (h : off + 8 ≤ data.length) :
    leU64 data off = u64At data off :=
  if_pos h

/-- Writing back what was read gives the same bytes. -/
theorem u64Bytes_u64At {data : Bytes} {off : Nat} (h : off + 8 ≤ data.length) :
    u64Bytes (u64At data off) = bytesAt data off 8 := by
  have hlen : (bytesAt data off 8).length = 8 := length_bytesAt_of_le h
  have hlt := fromLe_lt (bytesAt data off 8)
  rw [hlen] at hlt
  refine fromLe_inj (by rw [length_u64Bytes, hlen]) ?_
  rw [u64Bytes, u64At, UInt64.toNat_ofNat_of_lt' hlt, fromLe_toLe_of_lt hlt]

/-! ## Build profiles -/

/-- What `+` does on overflow: abort (`debug`) or wrap (`release`). -/
inductive Profile where
  | debug
  | release
deriving DecidableEq, Repr

/-- `a + b` on `u32`. -/
def Profile.addU32 {ε : Type} : Profile → UInt32 → UInt32 → Exec ε UInt32
  | debug, a, b => if a.toNat + b.toNat < 2 ^ 32 then .ok (a + b) else .panic
  | release, a, b => .ok (a + b)

/-- `a + b` on `u64`. -/
def Profile.addU64 {ε : Type} : Profile → UInt64 → UInt64 → Exec ε UInt64
  | debug, a, b => if a.toNat + b.toNat < 2 ^ 64 then .ok (a + b) else .panic
  | release, a, b => .ok (a + b)

/-- An addition comes back with the wrapped sum where that is the sum, or the build wraps. -/
theorem Profile.addU64_eq_ok {ε : Type} {profile : Profile} {a b : UInt64}
    (h : profile = .debug → a.toNat + b.toNat < 2 ^ 64) :
    (profile.addU64 a b : Exec ε UInt64) = .ok (a + b) := by
  cases profile with
  | debug => exact if_pos (h rfl)
  | release => rfl

/-- An overflowing addition aborts a debug build. -/
theorem Profile.addU64_eq_panic {ε : Type} {a b : UInt64} (h : ¬ a.toNat + b.toNat < 2 ^ 64) :
    (Profile.debug.addU64 a b : Exec ε UInt64) = .panic :=
  if_neg h

end Rust
