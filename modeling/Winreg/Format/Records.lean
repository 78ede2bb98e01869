/-
  RECORD BYTES: the bodies of typed cells, written out field by field.

  `fieldBytes` lays out what stands behind the signature of a record.  Parsing reads back what was
  laid out, whatever follows it (`parse_fieldBytes`): a cell is padded to a multiple of eight
  bytes, and the padding belongs to the body.  Overwriting the data field of a laid-out value is
  laying out the value with other data (`patch_inlineData`).

  1. **Key nodes** — `nk`.
  2. **Key values** — `vk`; the type is given as its number.
  3. **Subkey indices** — `lf`, `lh`, `li` and `ri`, over the common shape of index cells.
-/
import Winreg.Format.Cells
import Mathlib.Data.Nat.Bitwise

namespace Winreg

open Rust

/-! ## Key nodes -/

namespace RawKeyNode

/-- The fixed fields of an `nk`, behind its signature. -/
def fixedBytes (nk : RawKeyNode) : Bytes :=
  [u16Bytes nk.flags.bits, u64Bytes nk.lastWritten, u32Bytes nk.accessBits, u32Bytes nk.parent.val,
    u32Bytes nk.subkeyCount, u32Bytes nk.volatileSubkeyCount, u32Bytes nk.subkeysListOffset.val,
    u32Bytes nk.volatileSubkeysListOffset.val, u32Bytes nk.valueCount,
    u32Bytes nk.valuesListOffset.val, u32Bytes nk.securityOffset.val,
    u32Bytes nk.classNameOffset.val, u32Bytes nk.maxSubkeyNameCompound,
    u32Bytes nk.maxSubkeyClassLen, u32Bytes nk.maxValueNameLen, u32Bytes nk.maxValueDataSize,
    u32Bytes nk.workVar, u16Bytes nk.keyNameLen, u16Bytes nk.classNameLen].flatten

/-- An `nk` behind its signature. -/
def fieldBytes (nk : RawKeyNode) : Bytes := nk.fixedBytes ++ nk.keyNameRaw

/-- The fixed part of a key record behind the signature. -/
theorem length_fixedBytes (nk : RawKeyNode) : nk.fixedBytes.length = 74 := rfl

/-- The bytes behind an `nk` do not count. -/
theorem parse_append {afterSig : Bytes} {nk : RawKeyNode} (h : parse afterSig = some nk)
    (tail : Bytes) : parse (afterSig ++ tail) = some nk := by
  have hsize : headerSize - 2 = 74 := rfl
  unfold parse at h ⊢
  split at h
  · cases h
  · rename_i hlen
    dsimp only at h ⊢
    split at h
    · cases h
    · rename_i hname
      have hword : u16At (afterSig ++ tail) 70 = u16At afterSig 70 := by
        rw [u16At, bytesAt_append_left (by omega), u16At]
      have hraw : bytesAt (afterSig ++ tail) 74 (74 + (u16At afterSig 70).toNat - 74) =
          bytesAt afterSig 74 (74 + (u16At afterSig 70).toNat - 74) :=
        bytesAt_append_left (by omega)
      rw [← h, List.length_append, if_neg (by omega), hword, if_neg (by omega), hraw]
      simp (disch := omega) only [u16At, u32At, u64At, bytesAt_append_left]

/-- **Parsing reads back the key node** that was laid out. -/
theorem parse_fieldBytes {nk : RawKeyNode} (tail : Bytes)
    (hflags : KeyFlags.fromBitsTruncate nk.flags.bits = nk.flags)
    (hname : nk.keyNameRaw.length = nk.keyNameLen.toNat) :
    parse (nk.fieldBytes ++ tail) = some nk := by
  have hlen : (nk.fieldBytes ++ tail).length = 74 + nk.keyNameRaw.length + tail.length := by
    rw [fieldBytes, List.length_append, List.length_append, length_fixedBytes]
  have hnameLen : u16At (nk.fieldBytes ++ tail) 70 = nk.keyNameLen := u16At_of_bytesAt rfl
  have hflagBits : u16At (nk.fieldBytes ++ tail) 0 = nk.flags.bits := u16At_of_bytesAt rfl
  have hraw : bytesAt (nk.fieldBytes ++ tail) 74 (74 + nk.keyNameLen.toNat - 74) =
      nk.keyNameRaw := by
    rw [fieldBytes, List.append_assoc, bytesAt_append_right (length_fixedBytes nk).le,
      length_fixedBytes, Nat.sub_self, Nat.add_sub_cancel_left, ← hname,
      bytesAt_append_left (by omega)]
    exact bytesAt_zero_of_length_le (Nat.le_refl _)
  unfold parse
  rw [show headerSize = 76 from rfl, if_neg (by omega)]
  dsimp only
  rw [hnameLen, if_neg (by omega), hflagBits, hflags, hraw]
  refine congrArg some ?_
  cases nk
  simp only [RawKeyNode.mk.injEq, true_and, and_true]
  have hoffset : ∀ {data : Bytes} {off : Nat} {x : CellOffset},
      bytesAt data off 4 = u32Bytes x.val → CellOffset.mk (u32At data off) = x :=
    fun h => congrArg CellOffset.mk (u32At_of_bytesAt h)
  exact ⟨u64At_of_bytesAt rfl, u32At_of_bytesAt rfl, hoffset rfl, u32At_of_bytesAt rfl,
    u32At_of_bytesAt rfl, hoffset rfl, hoffset rfl, u32At_of_bytesAt rfl, hoffset rfl, hoffset rfl,
    hoffset rfl, u32At_of_bytesAt rfl, u32At_of_bytesAt rfl, u32At_of_bytesAt rfl,
    u32At_of_bytesAt rfl, u32At_of_bytesAt rfl, u16At_of_bytesAt rfl⟩

/-- An `nk` with its signature. -/
def toBytes (nk : RawKeyNode) : Bytes := 0x6E :: 0x6B :: nk.fieldBytes

/-- A key record is as long as its fixed part and its name. -/
theorem length_toBytes (nk : RawKeyNode) : nk.toBytes.length = 76 + nk.keyNameRaw.length := by
  rw [toBytes, fieldBytes, List.length_cons, List.length_cons, List.length_append,
    length_fixedBytes]
  omega

end RawKeyNode

/-! ## Key values -/

namespace RawKeyValue

/-- The fixed fields of a `vk`, behind its signature. -/
def fixedBytes (vk : RawKeyValue) (rawType : UInt32) (spare : UInt16) : Bytes :=
  [u16Bytes vk.nameLen, u32Bytes vk.dataSizeRaw, u32Bytes vk.dataOffsetRaw, u32Bytes rawType,
    u16Bytes vk.flags.bits, u16Bytes spare].flatten

/-- A `vk` behind its signature. -/
def fieldBytes (vk : RawKeyValue) (rawType : UInt32) (spare : UInt16) : Bytes :=
  vk.fixedBytes rawType spare ++ vk.nameRaw

/-- The fixed part of a value record behind the signature. -/
theorem length_fixedBytes (vk : RawKeyValue) (rawType : UInt32) (spare : UInt16) :
    (vk.fixedBytes rawType spare).length = 18 := rfl

/-- The bytes behind a `vk` do not count. -/
theorem parse_append {afterSig : Bytes} {vk : RawKeyValue} (h : parse afterSig = some vk)
    (tail : Bytes) : parse (afterSig ++ tail) = some vk := by
  have hsize : headerSize - 2 = 18 := rfl
  unfold parse at h ⊢
  split at h
  · cases h
  · rename_i hlen
    dsimp only at h ⊢
    split at h
    · cases h
    · rename_i hname
      have hword : u16At (afterSig ++ tail) 0 = u16At afterSig 0 := by
        rw [u16At, bytesAt_append_left (by omega), u16At]
      have hraw : bytesAt (afterSig ++ tail) 18 (18 + (u16At afterSig 0).toNat - 18) =
          bytesAt afterSig 18 (18 + (u16At afterSig 0).toNat - 18) :=
        bytesAt_append_left (by omega)
      rw [← h, List.length_append, if_neg (by omega), hword, if_neg (by omega), hraw]
      simp (disch := omega) only [u16At, u32At, bytesAt_append_left]

/-- **Parsing reads back the key value** that was laid out. -/
theorem parse_fieldBytes {vk : RawKeyValue} {rawType : UInt32} (spare : UInt16) (tail : Bytes)
    (htype : ValueType.fromRaw rawType = vk.dataType)
    (hflags : ValueFlags.fromBitsTruncate vk.flags.bits = vk.flags)
    (hname : vk.nameRaw.length = vk.nameLen.toNat) :
    parse (vk.fieldBytes rawType spare ++ tail) = some vk := by
  have hlen : (vk.fieldBytes rawType spare ++ tail).length =
      18 + vk.nameRaw.length + tail.length := by
    rw [fieldBytes, List.length_append, List.length_append, length_fixedBytes]
  have hnameLen : u16At (vk.fieldBytes rawType spare ++ tail) 0 = vk.nameLen :=
    u16At_of_bytesAt rfl
  have hflagBits : u16At (vk.fieldBytes rawType spare ++ tail) 14 = vk.flags.bits :=
    u16At_of_bytesAt rfl
  have hrawType : u32At (vk.fieldBytes rawType spare ++ tail) 10 = rawType :=
    u32At_of_bytesAt rfl
  have hraw : bytesAt (vk.fieldBytes rawType spare ++ tail) 18 (18 + vk.nameLen.toNat - 18) =
      vk.nameRaw := by
    rw [fieldBytes, List.append_assoc, bytesAt_append_right (length_fixedBytes vk _ _).le,
      length_fixedBytes, Nat.sub_self, Nat.add_sub_cancel_left, ← hname,
      bytesAt_append_left (by omega)]
    exact bytesAt_zero_of_length_le (Nat.le_refl _)
  unfold parse
  rw [show headerSize = 20 from rfl, if_neg (by omega)]
  dsimp only
  rw [hnameLen, if_neg (by omega), hflagBits, hflags, hrawType, htype, hraw]
  refine congrArg some ?_
  cases vk
  simp only [RawKeyValue.mk.injEq, true_and, and_true]
  exact ⟨u32At_of_bytesAt rfl, u32At_of_bytesAt rfl⟩

/-- A `vk` with its signature. -/
def toBytes (vk : RawKeyValue) (rawType : UInt32) (spare : UInt16) : Bytes :=
  0x76 :: 0x6B :: vk.fieldBytes rawType spare

/-- A value record is as long as its fixed part and its name. -/
theorem length_toBytes (vk : RawKeyValue) (rawType : UInt32) (spare : UInt16) :
    (vk.toBytes rawType spare).length = 20 + vk.nameRaw.length := by
  rw [toBytes, fieldBytes, List.length_cons, List.length_cons, List.length_append,
    length_fixedBytes]
  omega

section Overwrite

variable (vk : RawKeyValue) (rawType : UInt32) (spare : UInt16)

/-- Overwriting the first bytes of a word. -/
theorem u32Bytes_patch (w : UInt32) {data : Bytes} (h : data.length ≤ 4) :
    u32Bytes (u32At (patch (u32Bytes w) 0 data) 0) = patch (u32Bytes w) 0 data := by
  have hword : (patch (u32Bytes w) 0 data).length = 4 := by
    rw [length_patch (by rw [length_u32Bytes]; omega), length_u32Bytes]
  rw [u32Bytes_u32At hword.ge, bytesAt_zero_of_length_le hword.le]

/-- At most four bytes, in place of the data offset. -/
theorem patch_inlineData {data : Bytes} (h : data.length ≤ 4) :
    patch (vk.toBytes rawType spare) 8 data =
      { vk with dataOffsetRaw := u32At (patch (u32Bytes vk.dataOffsetRaw) 0 data) 0 }.toBytes
        rawType spare := by
  -- the record around the data offset
  let before := 0x76 :: 0x6B :: (u16Bytes vk.nameLen ++ u32Bytes vk.dataSizeRaw)
  let after := u32Bytes rawType ++ (u16Bytes vk.flags.bits ++ (u16Bytes spare ++ vk.nameRaw))
  have hsplit : ∀ w, { vk with dataOffsetRaw := w }.toBytes rawType spare =
      before ++ (u32Bytes w ++ after) := fun w => rfl
  have hbefore : before.length = 8 := rfl
  calc patch (vk.toBytes rawType spare) 8 data
      = patch (before ++ (u32Bytes vk.dataOffsetRaw ++ after)) 8 data := by
        rw [← hsplit]
    _ = before ++ (patch (u32Bytes vk.dataOffsetRaw) 0 data ++ after) := by
        rw [patch_append_right hbefore.le, hbefore, Nat.sub_self,
          patch_append_left (by rw [length_u32Bytes]; omega)]
    _ = _ := by rw [hsplit, u32Bytes_patch vk.dataOffsetRaw h]

end Overwrite

/-! The top bit of the size field. -/

section Sizes

variable {vk : RawKeyValue}

/-- A size below `2 ^ 31` is the size of data that have a cell. -/
theorem sizes_of_lt (h : vk.dataSizeRaw.toNat < 2 ^ 31) :
    vk.dataSize = vk.dataSizeRaw ∧ vk.isResident = false := by
  constructor
  · refine UInt32.toNat_inj.mp ?_
    show (vk.dataSizeRaw &&& 0x7FFFFFFF).toNat = _
    rw [UInt32.toNat_and]
    exact Nat.and_two_pow_sub_one_of_lt_two_pow h
  · refine bne_eq_false_iff_eq.mpr (UInt32.toNat_inj.mp ?_)
    rw [UInt32.toNat_and]
    show vk.dataSizeRaw.toNat &&& 2 ^ 31 = 0
    rw [Nat.and_two_pow, Nat.testBit_lt_two_pow h]
    rfl

/-- A small size with the top bit set is the size of resident data. -/
theorem sizes_of_resident {n : Nat} (hn : n ≤ 4)
    (h : vk.dataSizeRaw = UInt32.ofNat n ||| 0x80000000) :
    vk.dataSize.toNat = n ∧ vk.isResident = true := by
  have hsmall : ∀ n ≤ 4, ((UInt32.ofNat n ||| 0x80000000) &&& 0x7FFFFFFF).toNat = n ∧
      ((UInt32.ofNat n ||| 0x80000000) &&& 0x80000000 != 0) = true := by decide
  unfold dataSize isResident
  rw [h]
  exact hsmall n hn

end Sizes

end RawKeyValue

/-! ## Subkey indices -/

/-- An element of an `lf`; its hint takes four bytes. -/
def LfElement.toBytes (e : LfElement) : Bytes := u32Bytes e.keyOffset.val ++ e.nameHint

/-- An element of an `lh`. -/
def LhElement.toBytes (e : LhElement) : Bytes := u32Bytes e.keyOffset.val ++ u32Bytes e.nameHash

/-- An element of an `li` or an `ri`. -/
def CellOffset.toBytes (off : CellOffset) : Bytes := u32Bytes off.val

/-- An element with a hint has eight bytes, as the hint has four. -/
theorem LfElement.length_toBytes {e : LfElement} (h : e.nameHint.length = 4) :
    e.toBytes.length = 8 := by
  rw [toBytes, List.length_append, length_u32Bytes, h]

theorem LhElement.length_toBytes (e : LhElement) : e.toBytes.length = 8 := rfl

theorem CellOffset.length_toBytes (off : CellOffset) : off.toBytes.length = 4 := rfl

namespace SubkeyIndex

section Elements

variable {α : Type} {width : Nat} {element : Bytes → Nat → α} {enc : α → Bytes} {xs : List α}

/-- The elements of an index cell, behind its signature. -/
theorem parseElements_eq_some (hwidth : ∀ x ∈ xs, (enc x).length = width) (tail : Bytes)
    (hcount : xs.length < 65536)
    (helement : ∀ i (h : i < xs.length),
      element (xs.flatMap enc ++ tail) (i * width) = xs[i]) :
    parseElements width element
      (u16Bytes (UInt16.ofNat xs.length) ++ (xs.flatMap enc ++ tail)) = some xs := by
  have hlen := length_flatMap_of_mem hwidth
  have hnum : (u16At (u16Bytes (UInt16.ofNat xs.length) ++ (xs.flatMap enc ++ tail)) 0).toNat =
      xs.length := by
    rw [u16At_of_bytesAt (x := UInt16.ofNat xs.length) rfl]
    exact UInt16.toNat_ofNat_of_lt' hcount
  have hdrop : (u16Bytes (UInt16.ofNat xs.length) ++ (xs.flatMap enc ++ tail)).drop 2 =
      xs.flatMap enc ++ tail := rfl
  unfold parseElements
  rw [if_neg (by rw [List.length_append, length_u16Bytes]; omega)]
  dsimp only
  rw [hnum, hdrop, if_neg (by rw [List.length_append, hlen]; omega)]
  refine congrArg some (List.ext_getElem (by simp) fun i hi _ => ?_)
  rw [List.getElem_map, List.getElem_range]
  exact helement i (by simpa using hi)

/-- A word of element `i`. -/
theorem leU32_element (hwidth : ∀ x ∈ xs, (enc x).length = width) (tail : Bytes) {i : Nat}
    (hi : i < xs.length) {o : Nat} (ho : o + 4 ≤ width) {word : UInt32}
    (hword : bytesAt (enc xs[i]) o 4 = u32Bytes word) :
    leU32 (xs.flatMap enc ++ tail) (i * width + o) = word := by
  have hfit : i * width + width ≤ (xs.flatMap enc ++ tail).length := by
    have hmul : (i + 1) * width ≤ xs.length * width := Nat.mul_le_mul_right width hi
    rw [List.length_append, length_flatMap_of_mem hwidth]
    rw [Nat.succ_mul] at hmul
    omega
  rw [leU32_eq_u32At (by omega)]
  exact u32At_of_bytesAt ((bytesAt_flatMap_of_mem tail ho hwidth i hi).trans hword)

end Elements

/-- **Parsing reads back the fast leaf** that was laid out. -/
theorem parseLf_eq_some {elements : List LfElement} (tail : Bytes)
    (hcount : elements.length < 65536) (hhint : ∀ e ∈ elements, e.nameHint.length = 4) :
    parseLf (u16Bytes (UInt16.ofNat elements.length) ++
      (elements.flatMap LfElement.toBytes ++ tail)) = some (.fastLeaf elements) := by
  have hwidth : ∀ e ∈ elements, e.toBytes.length = 8 :=
    fun e he => LfElement.length_toBytes (hhint e he)
  unfold parseLf
  rw [parseElements_eq_some hwidth tail hcount, Option.map_some]
  intro i hi
  have hlen := hhint elements[i] (List.getElem_mem hi)
  have hoffset : leU32 (elements.flatMap LfElement.toBytes ++ tail) (i * 8 + 0) =
      elements[i].keyOffset.val := leU32_element hwidth tail hi (by decide) rfl
  have hhintAt : bytesAt (elements.flatMap LfElement.toBytes ++ tail) (i * 8 + 4) 4 =
      elements[i].nameHint := by
    rw [bytesAt_flatMap_of_mem tail (by decide) hwidth i hi, LfElement.toBytes]
    have hparts : u32Bytes elements[i].keyOffset.val ++ elements[i].nameHint =
        u32Bytes elements[i].keyOffset.val ++ (elements[i].nameHint ++ []) := by
      rw [List.append_nil]
    exact bytesAt_part hparts (length_u32Bytes _) hlen
  have hfit : i * 8 + 4 + 4 ≤ (elements.flatMap LfElement.toBytes ++ tail).length := by
    rw [List.length_append, length_flatMap_of_mem hwidth]
    omega
  rw [Nat.add_zero] at hoffset
  rw [hoffset, read4, if_pos hfit, hhintAt]

/-- **Parsing reads back the hash leaf** that was laid out. -/
theorem parseLh_eq_some {elements : List LhElement} (tail : Bytes)
    (hcount : elements.length < 65536) :
    parseLh (u16Bytes (UInt16.ofNat elements.length) ++
      (elements.flatMap LhElement.toBytes ++ tail)) = some (.hashLeaf elements) := by
  have hwidth : ∀ e ∈ elements, e.toBytes.length = 8 := fun e _ => e.length_toBytes
  unfold parseLh
  rw [parseElements_eq_some hwidth tail hcount, Option.map_some]
  intro i hi
  have hoffset : leU32 (elements.flatMap LhElement.toBytes ++ tail) (i * 8 + 0) =
      elements[i].keyOffset.val := leU32_element hwidth tail hi (by decide) rfl
  have hhash : leU32 (elements.flatMap LhElement.toBytes ++ tail) (i * 8 + 4) =
      elements[i].nameHash := leU32_element hwidth tail hi (by decide) rfl
  rw [Nat.add_zero] at hoffset
  rw [hoffset, hhash]

/-- The offsets of an `li` or an `ri`. -/
theorem parseOffsets_eq_some {offsets : List CellOffset} (tail : Bytes)
    (hcount : offsets.length < 65536) :
    parseElements 4 (fun d base => (⟨leU32 d base⟩ : CellOffset))
      (u16Bytes (UInt16.ofNat offsets.length) ++ (offsets.flatMap CellOffset.toBytes ++ tail)) =
        some offsets := by
  have hwidth : ∀ off ∈ offsets, off.toBytes.length = 4 := fun off _ => off.length_toBytes
  refine parseElements_eq_some hwidth tail hcount fun i hi => ?_
  have hoffset : leU32 (offsets.flatMap CellOffset.toBytes ++ tail) (i * 4 + 0) =
      offsets[i].val := leU32_element hwidth tail hi (by decide) rfl
  rw [Nat.add_zero] at hoffset
  rw [hoffset]

/-- The body of an index cell: its signature, the number of its elements, and the elements. -/
def toBytes : SubkeyIndex → Bytes
  | .fastLeaf elements =>
    0x6C :: 0x66 :: (u16Bytes (UInt16.ofNat elements.length) ++
      elements.flatMap LfElement.toBytes)
  | .hashLeaf elements =>
    0x6C :: 0x68 :: (u16Bytes (UInt16.ofNat elements.length) ++
      elements.flatMap LhElement.toBytes)
  | .indexLeaf offsets =>
    0x6C :: 0x69 :: (u16Bytes (UInt16.ofNat offsets.length) ++
      offsets.flatMap CellOffset.toBytes)
  | .rootIndex offsets =>
    0x72 :: 0x69 :: (u16Bytes (UInt16.ofNat offsets.length) ++
      offsets.flatMap CellOffset.toBytes)

/-- An index that an index cell can hold: at most 65535 elements, hints of four bytes. -/
def Fits : SubkeyIndex → Prop
  | .fastLeaf elements => elements.length < 65536 ∧ ∀ e ∈ elements, e.nameHint.length = 4
  | .hashLeaf elements => elements.length < 65536
  | .indexLeaf offsets => offsets.length < 65536
  | .rootIndex offsets => offsets.length < 65536

instance : DecidablePred Fits
  | .fastLeaf elements =>
    inferInstanceAs (Decidable (elements.length < 65536 ∧
      ∀ e ∈ elements, e.nameHint.length = 4))
  | .hashLeaf elements => inferInstanceAs (Decidable (elements.length < 65536))
  | .indexLeaf offsets => inferInstanceAs (Decidable (offsets.length < 65536))
  | .rootIndex offsets => inferInstanceAs (Decidable (offsets.length < 65536))

end SubkeyIndex

end Winreg
