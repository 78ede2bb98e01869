/-
  READING BACK a built hive.

  What was built opens as a hive, and reading it from its root gives the tree that the builder was
  given: the prefix closure of the paths, and under each key its values.

  1. **Opening** — the base block and the only bin pass all checks (`fromBytes_built`).
  2. **Cells** — an allocated cell reads as its body and some padding (`readCellRaw_role`), so the
     record in it is parsed (`readCell_key`, `readCell_value`, `readCell_index`).
  3. **Values** — each of the three layouts gives the data back (`readsValue`).
  4. **Keys** — the values and the subkeys of a key are listed in their order, and so, by induction
     on the levels below it, the key reads as its subtree (`reads_subtree`).
-/
import Winreg.Core.BigData
import Winreg.TestUtil.Encoding

namespace Winreg.TestUtil

open Rust

/-- The hive that a built file opens as. -/
def TestHiveBuilder.hive (b : TestHiveBuilder) (image : Bytes) : Hive where
  data := image
  header := imageBaseBlock (b.address .root) (UInt32.ofNat b.planOf.hbinSize)
  version := .v1_5
  bins := [⟨0, UInt32.ofNat b.planOf.hbinSize, 4096⟩]
  headerBytes := bytesAt image 0 BaseBlock.size

section RoundTrip

variable {b : TestHiveBuilder} {image : Bytes}

/-! ## Names -/

/-- The components of the given paths. -/
theorem component_of_mem (h : b.Valid) {p : Path} (hp : p ∈ b.closure) {c : Str} (hc : c ∈ p) :
    isAscii c = true ∧ utf8Len c < 65536 := by
  obtain ⟨_, m, hm, hpm⟩ := mem_closure.mp hp
  exact (h.components m hm c (hpm.subset hc)).2

/-- A key is written under the last name of its path. -/
theorem keyName_concat (p : Path) (c : Str) : keyName (p ++ [c]) = asBytes c := by
  unfold keyName
  rw [if_neg (List.append_ne_nil_of_right_ne_nil p (List.cons_ne_nil c [])), List.getLast?_concat,
    Option.getD_some]

/-- Names fit in the length field. -/
theorem length_keyName (h : b.Valid) {p : Path} (hp : p = [] ∨ p ∈ b.closure) :
    (keyName p).length < 65536 := by
  rcases List.eq_nil_or_concat' p with rfl | ⟨init, c, rfl⟩
  · exact show 8 < 65536 by decide
  · have hmem := hp.resolve_left (List.append_ne_nil_of_right_ne_nil _ (List.cons_ne_nil _ _))
    rw [keyName_concat, length_asBytes]
    exact (component_of_mem h hmem (List.mem_append_right _ (List.mem_singleton_self _))).2

/-- The name that a key is read with. -/
theorem keyName_linkedNode (b : TestHiveBuilder) (p : Path) :
    (b.linkedNode p).keyName = latin1 (keyName p) := by
  refine if_pos ?_
  show KeyFlags.contains ⟨if decide (p = []) = true then 0x0004 ||| 0x0020 else 0x0020⟩ _ = true
  split <;> decide

/-- Linking a value changes neither its name nor its type. -/
theorem blank_linkedValue (b : TestHiveBuilder) (x : Item) :
    (b.linkedValue x).nameLen = UInt16.ofNat (asBytes x.value.name).length ∧
      (b.linkedValue x).nameRaw = asBytes x.value.name ∧
      (b.linkedValue x).flags = ⟨if asBytes x.value.name = [] then 0 else 1⟩ ∧
      (b.linkedValue x).dataType = ValueType.fromRaw x.value.dataType := by
  unfold TestHiveBuilder.linkedValue
  split <;> exact ⟨rfl, rfl, rfl, rfl⟩

/-- A value is one of the given ones. -/
theorem exists_given (h : b.Valid) {x : Item} (hx : x ∈ b.items) :
    ∃ v ∈ b.values, x.value = ⟨v.name, v.dataType, v.data⟩ := by
  have hget := mem_items.mp hx
  cases hvals : b.keyTree.values[x.key]? with
  | none =>
    unfold TestHiveBuilder.valuesOf at hget
    rw [hvals] at hget
    cases hget
  | some vals =>
    obtain ⟨hp, _⟩ := exists_path_of_values hvals
    rw [← joinParts_components x.key, valuesOf_joinParts h hp] at hget
    obtain ⟨v, hv, heq⟩ := List.mem_map.mp (List.mem_of_getElem? hget)
    exact ⟨v, (List.mem_filter.mp hv).1, heq.symm⟩

/-- The names and the data of the values are small enough. -/
theorem valueName_of_mem (h : b.Valid) {x : Item} (hx : x ∈ b.items) :
    isAscii x.value.name = true ∧ (asBytes x.value.name).length < 65536 := by
  obtain ⟨v, hv, heq⟩ := exists_given h hx
  rw [heq, length_asBytes]
  exact h.valueNames v hv

/-- Data fits in the segments that a record can list. -/
theorem length_data_le (h : b.Valid) {x : Item} (hx : x ∈ b.items) :
    x.value.data.length ≤ 65535 * 16344 := by
  obtain ⟨v, hv, heq⟩ := exists_given h hx
  rw [heq]
  exact h.data v hv

/-! ## Opening -/

/-- **A built file opens.** -/
theorem fromBytes_built (hsize : b.planOf.totalFileSize < 2 ^ 31)
    (himage : b.arena.Holds image b.finalContent) :
    Hive.fromBytes image = .ok (b.hive image) := by
  have hlen : image.length = 4096 + b.planOf.hbinSize := himage.length_eq
  have htotal : b.planOf.totalFileSize = 4096 + b.planOf.hbinSize := rfl
  have hbinSize : (UInt32.ofNat b.planOf.hbinSize).toNat = b.planOf.hbinSize :=
    UInt32.toNat_ofNat_of_lt' (show b.planOf.hbinSize < 2 ^ 32 by omega)
  have hcontent : 32 ≤ b.planOf.hbinSize :=
    (Nat.le_add_right 32 b.planOf.alloc.pos).trans (hbinContent_le _)
  have hmod : b.planOf.hbinSize % 4096 = 0 := Nat.mul_mod_left _ _
  have hpages : 4096 ≤ b.planOf.hbinSize := by omega
  have hfit : BaseBlock.size ≤ image.length := (Nat.le_add_right 4096 _).trans hlen.ge
  have hblock : bytesAt image 0 512 =
      imageBlock (b.address .root) (UInt32.ofNat b.planOf.hbinSize) :=
    himage.at_slot .block List.mem_cons_self
  have hbin : ∀ o n, o + n ≤ 32 → bytesAt image (4096 + o) n =
      bytesAt (hbinMagic ++ u32Bytes 0 ++ u32Bytes (UInt32.ofNat b.planOf.hbinSize) ++
        List.replicate 20 0) o n := fun o n ho =>
    himage.bytesAt_slot (List.mem_cons_of_mem _ List.mem_cons_self) (show o + n ≤ 32 from ho)
  obtain ⟨hread, hsum⟩ := BaseBlock.read_imageBlock hfit hblock
  rw [Hive.fromBytes_oneBin .v1_5 (UInt32.ofNat b.planOf.hbinSize) hread hsum rfl rfl
    (by omega) (by omega) (by omega) ((hbin 0 4 (by omega)).trans rfl)
    (u32At_of_bytesAt ((hbin 8 4 (by omega)).trans rfl)),
    u32At_of_bytesAt (x := 0) ((hbin 4 4 (by omega)).trans rfl)]
  rfl

/-! ## Cells -/

/-- The address of a cell is where it stands behind the base block. -/
theorem toNat_address (hsize : b.planOf.totalFileSize < 2 ^ 31) {r : Role} (hr : r ∈ b.roles) :
    4096 + (b.address r).toNat = b.place r ∧ (b.address r).toNat < 2 ^ 31 := by
  have hinside := place_add_room_le_total hr
  have hplace : b.place r = 4096 + 32 + b.offset r := rfl
  have haddress : (b.address r).toNat = 32 + b.offset r :=
    UInt32.toNat_ofNat_of_lt' (show 32 + b.offset r < 2 ^ 32 by omega)
  omega

/-- A cell is referred to by an offset that is not null. -/
theorem address_not_null (hsize : b.planOf.totalFileSize < 2 ^ 31) {r : Role}
    (hr : r ∈ b.roles) : (CellOffset.mk (b.address r)).isNull = false := by
  have hlt := (toNat_address hsize hr).2
  refine beq_eq_false_iff_ne.mpr fun hnull => ?_
  have hmax : (0xFFFFFFFF : UInt32).toNat = 4294967295 := rfl
  have haddress : b.address r = 0xFFFFFFFF := hnull
  rw [haddress, hmax] at hlt
  omega

section Reading

variable (hsize : b.planOf.totalFileSize < 2 ^ 31) (himage : b.arena.Holds image b.finalContent)

include hsize himage

/-- **An allocated cell reads as its body**, with some padding behind it. -/
theorem readCellRaw_role {r : Role} (hr : r ∈ b.roles) :
    ∃ tail, (b.hive image).reader.readCellRaw ⟨b.address r⟩ =
      .ok (⟨-(b.room r : Nat)⟩, b.linked r ++ tail) := by
  have hslot := mem_regions.mpr hr
  have hroom := size_le_room b r
  have hinside := place_add_room_le_total hr
  have hlen : image.length = b.planOf.totalFileSize := himage.length_eq
  have hfile : (CellOffset.mk (b.address r)).fileOffset = b.place r := (toNat_address hsize hr).1
  have hhead := length_i32Bytes (-(b.room r : Nat))
  have hlinked : (b.linked r).length = (b.initial r).length := by
    have hwidth : (b.cellOf b.linked r).length = 4 + (b.initial r).length :=
      himage.width _ hslot
    unfold TestHiveBuilder.cellOf cellBytes at hwidth
    rw [List.length_append, hhead] at hwidth
    omega
  have hcell : ∀ {o n}, o + n ≤ 4 + (b.initial r).length → bytesAt image (b.place r + o) n =
      bytesAt (i32Bytes (-(b.room r : Nat)) ++ b.linked r) o n := himage.bytesAt_slot hslot
  have hraw : bytesAt image (b.place r) 4 = i32Bytes (-(b.room r : Nat)) := by
    refine (hcell (show 0 + 4 ≤ _ by omega)).trans ?_
    rw [bytesAt_append_left hhead.ge, bytesAt_zero_of_length_le hhead.le]
  have hbody : bytesAt image (b.place r + 4) (b.linked r).length = b.linked r := by
    refine (hcell (by omega)).trans ?_
    rw [bytesAt_append_right hhead.le, hhead, bytesAt_zero_of_length_le (Nat.le_refl _)]
  have hread := @Hive.readCellRaw_allocated (b.hive image) ⟨b.address r⟩ (b.room r)
    (address_not_null hsize hr)
    (by rw [hfile]; exact i32At_of_bytesAt (by omega) (by omega) hraw) (by omega)
    (by rw [hfile]; exact hinside.trans hlen.ge)
  have hsplit : b.room r - 4 = (b.linked r).length + (b.room r - 4 - (b.linked r).length) := by
    omega
  rw [hfile, hsplit, bytesAt_add, show (b.hive image).data = image from rfl, hbody] at hread
  exact ⟨_, hread⟩

/-- A typed read of a cell parses its body. -/
theorem readCell_role {r : Role} (hr : r ∈ b.roles) {cell : Cell}
    (hcell : ∀ tail, dispatchCell ⟨b.address r⟩ (b.linked r ++ tail) = .ok cell) :
    (b.hive image).reader.readCell ⟨b.address r⟩ = .ok cell := by
  obtain ⟨tail, hread⟩ := readCellRaw_role hsize himage hr
  rw [CellReader.readCell, hread, Exec.ok_bind]
  exact hcell tail

/-- The record of a key. -/
theorem readCell_key (h : b.Valid) {p : Path} (hp : p = [] ∨ p ∈ b.closure) :
    (b.hive image).reader.readCell ⟨b.address (keyRole p)⟩ = .ok (.keyNode (b.linkedNode p)) := by
  refine readCell_role hsize himage (keyRole_mem hp) fun tail => ?_
  have hname : (b.linkedNode p).keyNameRaw.length = (b.linkedNode p).keyNameLen.toNat :=
    (UInt16.toNat_ofNat_of_lt' (length_keyName h hp)).symm
  have hflags : KeyFlags.fromBitsTruncate (b.linkedNode p).flags.bits = (b.linkedNode p).flags := by
    show KeyFlags.fromBitsTruncate (if decide (p = []) = true then 0x0004 ||| 0x0020 else 0x0020) =
      ⟨if decide (p = []) = true then 0x0004 ||| 0x0020 else 0x0020⟩
    split <;> decide
  rw [linked_keyRole]
  exact dispatchCell_keyNode (RawKeyNode.parse_fieldBytes tail hflags hname) _

/-- The index of a key. -/
theorem readCell_index (h : b.Valid) {p : Path} (hp : p = [] ∨ p ∈ b.closure)
    (hkids : b.childNames p ≠ []) :
    (b.hive image).reader.readCell ⟨b.address (.lh p)⟩ =
      .ok (.index (.hashLeaf (b.lhElements p))) := by
  have hrole : Role.lh p ∈ b.roles := mem_roles.mpr ⟨hp, hkids⟩
  refine readCell_role hsize himage hrole fun tail => ?_
  have hlength : (b.lhElements p).length = (b.childNames p).length := List.length_map _
  have hcount := h.children p
  have hbody : b.linked (.lh p) ++ tail = 0x6C :: 0x68 ::
      (u16Bytes (UInt16.ofNat (b.lhElements p).length) ++
        ((b.lhElements p).flatMap LhElement.toBytes ++ tail)) := by
    show ([0x6C, 0x68] ++ u16Bytes (UInt16.ofNat (b.childNames p).length) ++
      (b.lhElements p).flatMap LhElement.toBytes) ++ tail = _
    rw [hlength, List.append_assoc, List.append_assoc]
    rfl
  rw [hbody]
  exact dispatchCell_hashLeaf (SubkeyIndex.parseLh_eq_some tail (by omega)) _

/-- The record of a value. -/
theorem readCell_value (h : b.Valid) {x : Item} (hx : x ∈ b.items) :
    (b.hive image).reader.readCell ⟨b.address (.vk x)⟩ = .ok (.keyValue (b.linkedValue x)) := by
  refine readCell_role hsize himage (vk_mem hx) fun tail => ?_
  obtain ⟨hlen, hraw, hflags, htype⟩ := blank_linkedValue b x
  have hname : (b.linkedValue x).nameRaw.length = (b.linkedValue x).nameLen.toNat := by
    rw [hraw, hlen]
    exact (UInt16.toNat_ofNat_of_lt' (valueName_of_mem h hx).2).symm
  have hbits : ValueFlags.fromBitsTruncate (b.linkedValue x).flags.bits =
      (b.linkedValue x).flags := by
    rw [hflags]
    show ValueFlags.fromBitsTruncate (if asBytes x.value.name = [] then 0 else 1) = _
    split <;> decide
  exact dispatchCell_keyValue (RawKeyValue.parse_fieldBytes 0 tail htype.symm hbits hname) _

/-! ## Values -/

/-- A value as it is listed. -/
def TestHiveBuilder.valueAt (b : TestHiveBuilder) (x : Item) : Value :=
  ⟨b.linkedValue x, ⟨b.address (.vk x)⟩⟩

omit hsize himage in
/-- The size that a value is read with, and whether its data are resident. -/
theorem sizes_linkedValue (h : b.Valid) {x : Item} (hx : x ∈ b.items) :
    (b.linkedValue x).dataSize.toNat = x.value.data.length ∧
      (b.linkedValue x).isResident = decide x.IsResident := by
  have hdata := length_data_le h hx
  unfold TestHiveBuilder.linkedValue
  by_cases hres : x.IsResident
  · rw [if_pos hres, decide_eq_true hres]
    exact RawKeyValue.sizes_of_resident hres rfl
  · rw [if_neg hres, decide_eq_false hres]
    have hraw : (UInt32.ofNat x.value.data.length).toNat = x.value.data.length :=
      UInt32.toNat_ofNat_of_lt' (show _ < 2 ^ 32 by omega)
    obtain ⟨hsize, hflag⟩ := @RawKeyValue.sizes_of_lt
      { blankValue x.value with dataOffsetRaw := b.address x.dataHead }
      (show (UInt32.ofNat x.value.data.length).toNat < 2 ^ 31 by omega)
    exact ⟨(congrArg UInt32.toNat hsize).trans hraw, hflag⟩

omit hsize himage in
/-- Resident data are read from the record itself. -/
theorem inlineData_linkedValue (h : b.Valid) {x : Item} (hx : x ∈ b.items)
    (hres : x.IsResident) : (b.linkedValue x).inlineData = x.value.data := by
  have hlen : x.value.data.length ≤ 4 := hres
  have hword : (b.linkedValue x).dataOffsetRaw = inlineWord x.value.data := by
    unfold TestHiveBuilder.linkedValue
    rw [if_pos hres]
  unfold RawKeyValue.inlineData
  rw [(sizes_linkedValue h hx).1, Nat.min_eq_left hlen, hword, inlineWord,
    RawKeyValue.u32Bytes_patch _ hlen, patch, List.take_zero, List.nil_append]
  exact List.take_left

/-- Data in one cell. -/
theorem rawData_cell (h : b.Valid) {x : Item} (hx : x ∈ b.items) (hres : ¬ x.IsResident)
    (hbig : ¬ x.IsBig) : (b.valueAt x).rawData (b.hive image).reader = .ok x.value.data := by
  have hrole : Role.data x ∈ b.roles := mem_roles.mpr ⟨hx, hres, hbig⟩
  obtain ⟨tail, hread⟩ := readCellRaw_role hsize himage hrole
  obtain ⟨hlen, hflag⟩ := sizes_linkedValue h hx
  have hlong : 4 < x.value.data.length := Nat.not_le.mp hres
  have hshort : ¬ x.value.data.length > Winreg.bigDataThreshold := hbig
  have hoffset : (b.linkedValue x).dataOffset = ⟨b.address (.data x)⟩ := by
    unfold RawKeyValue.dataOffset TestHiveBuilder.linkedValue Item.dataHead
    rw [if_neg hres, if_neg hbig]
  unfold Value.rawData TestHiveBuilder.valueAt
  dsimp only
  rw [hlen, hflag, if_neg (by omega), decide_eq_false hres, if_neg Bool.false_ne_true,
    if_neg hshort, hoffset, hread, Exec.ok_bind]
  exact slice_padded x.value.data tail

/-- The record of a big value spreads its data over the segments. -/
theorem bigDataAt_role (h : b.Valid) {x : Item} (hx : x ∈ b.items) (hbig : x.IsBig) :
    BigDataAt (b.hive image).reader ⟨b.address (.bigData x)⟩ x.value.data
      ((List.range x.segmentCount).map fun k => ⟨b.address (.segment x k)⟩) := by
  have hdb : Role.bigData x ∈ b.roles := mem_roles.mpr ⟨hx, hbig⟩
  have hlist : Role.segmentList x ∈ b.roles := mem_roles.mpr ⟨hx, hbig⟩
  obtain ⟨dbTail, hreadDb⟩ := readCellRaw_role hsize himage hdb
  obtain ⟨listTail, hreadList⟩ := readCellRaw_role hsize himage hlist
  have hcount : ((List.range x.segmentCount).map fun k =>
      CellOffset.mk (b.address (.segment x k))).length = x.segmentCount := by
    rw [List.length_map, List.length_range]
  -- the record names the list, and the list the segments
  have hrecord : b.linked (.bigData x) ++ dbTail = [0x64, 0x62] ++ (u16Bytes
      (UInt16.ofNat x.segmentCount) ++ (u32Bytes (b.address (.segmentList x)) ++ dbTail)) := by
    rw [← List.append_assoc, ← List.append_assoc]
    rfl
  have hsegments : b.linked (.segmentList x) = ((List.range x.segmentCount).map fun k =>
      CellOffset.mk (b.address (.segment x k))).flatMap CellOffset.toBytes := by
    rw [List.flatMap_map]
    rfl
  refine ⟨hcount.trans x.segmentCount_eq,
    hcount.trans_lt (Item.segmentCount_lt (length_data_le h hx)),
    ⟨⟨-(b.room (.bigData x) : Nat)⟩, dbTail, ⟨-(b.room (.segmentList x) : Nat)⟩, listTail,
      ⟨b.address (.segmentList x)⟩, ?_, ?_⟩, fun i hi => ?_⟩
  · rw [hreadDb, hrecord, hcount]
    rfl
  · rw [hreadList, hsegments]
  · have hrole : Role.segment x i ∈ b.roles := mem_roles.mpr ⟨hx, hbig, hcount ▸ hi⟩
    obtain ⟨padding, hread⟩ := readCellRaw_role hsize himage hrole
    rw [List.getElem_map, List.getElem_range]
    exact ⟨_, padding, hread⟩

/-- Data in segments. -/
theorem rawData_big (h : b.Valid) {x : Item} (hx : x ∈ b.items) (hbig : x.IsBig) :
    (b.valueAt x).rawData (b.hive image).reader = .ok x.value.data := by
  obtain ⟨hlen, hflag⟩ := sizes_linkedValue h hx
  have hoffset : (b.valueAt x).vk.dataOffset = ⟨b.address (.bigData x)⟩ := by
    show (b.linkedValue x).dataOffset = _
    unfold RawKeyValue.dataOffset TestHiveBuilder.linkedValue Item.dataHead
    rw [if_neg hbig.not_resident, if_pos hbig]
  have hat := bigDataAt_role hsize himage h hx hbig
  rw [← hoffset] at hat
  exact hat.rawData_eq hlen (hflag.trans (decide_eq_false hbig.not_resident)) hbig

/-- **A value reads back** with its name, its type and its data. -/
theorem readsValue (h : b.Valid) {x : Item} (hx : x ∈ b.items) :
    ReadsValue (b.hive image).reader (b.valueAt x) x.value.toRegValue where
  name := by
    obtain ⟨hascii, hlen⟩ := valueName_of_mem h hx
    obtain ⟨hnameLen, hraw, hflags, _⟩ := blank_linkedValue b x
    show (b.linkedValue x).valueName = x.value.name
    unfold RawKeyValue.valueName
    rw [hnameLen, hraw, hflags]
    by_cases hname : asBytes x.value.name = []
    · have hnone : x.value.name = [] := by
        rw [← latin1_asBytes hascii, hname]
        rfl
      rw [hname, hnone]
      exact if_pos rfl
    · have hsome : UInt16.ofNat (asBytes x.value.name).length ≠ 0 := fun hzero => hname <| by
        have hnat := congrArg UInt16.toNat hzero
        rw [UInt16.toNat_ofNat_of_lt' hlen] at hnat
        exact List.length_eq_zero_iff.mp hnat
      rw [if_neg hsome, if_neg hname, if_pos (by decide), latin1_asBytes hascii]
  dataType := (blank_linkedValue b x).2.2.2
  data := by
    by_cases hres : x.IsResident
    · obtain ⟨hlen, hflag⟩ := sizes_linkedValue h hx
      unfold Value.rawData TestHiveBuilder.valueAt
      dsimp only
      rw [hlen, hflag, decide_eq_true hres, if_pos rfl, inlineData_linkedValue h hx hres]
      split
      · rename_i hzero
        rw [← List.length_eq_zero_iff.mp hzero]
        rfl
      · rfl
    · by_cases hbig : x.IsBig
      · exact rawData_big hsize himage h hx hbig
      · exact rawData_cell hsize himage h hx hres hbig

/-! ## Keys -/

/-- A key as it is listed. -/
def TestHiveBuilder.keyAt (b : TestHiveBuilder) (p : Path) : Key :=
  ⟨b.linkedNode p, ⟨b.address (keyRole p)⟩⟩

/-- The values of the key at a path. -/
def TestHiveBuilder.pathItems (b : TestHiveBuilder) (p : Path) : List Item :=
  itemsOf (joinParts p, b.valuesAt p)

omit hsize himage in
/-- The items of a path are its values, numbered. -/
theorem map_value_pathItems (b : TestHiveBuilder) (p : Path) :
    (b.pathItems p).map Item.value = b.valuesAt p := map_value_itemsOf _

omit hsize himage in
theorem length_pathItems (b : TestHiveBuilder) (p : Path) :
    (b.pathItems p).length = (b.valuesAt p).length := by
  rw [← map_value_pathItems, List.length_map]

omit hsize himage in
/-- A path that has values is below the root and has an entry. -/
theorem entry_of_values (h : b.Valid) {p : Path} (hp : p = [] ∨ p ∈ b.closure)
    (hvals : b.valuesAt p ≠ []) :
    p ∈ b.closure ∧ (joinParts p, b.valuesAt p) ∈ b.entries := by
  have hmem : p ∈ b.closure := hp.resolve_left fun hnil => hvals (hnil ▸ valuesAt_nil b)
  exact ⟨hmem, mem_entries_of_path h hmem hvals⟩

omit hsize himage in
/-- They are among all items. -/
theorem mem_items_of_pathItems (h : b.Valid) {p : Path} (hp : p = [] ∨ p ∈ b.closure) {x : Item}
    (hx : x ∈ b.pathItems p) : x ∈ b.items := by
  have hvals : b.valuesAt p ≠ [] := by
    rw [← map_value_pathItems]
    exact List.ne_nil_of_mem (List.mem_map_of_mem hx)
  exact List.mem_flatMap.mpr ⟨_, (entry_of_values h hp hvals).2, hx⟩

omit hsize himage in
/-- The values list of a path holds the addresses of its values. -/
theorem linked_valuesList (h : b.Valid) {p : Path} (hp : p ∈ b.closure) :
    b.linked (.valuesList (joinParts p)) =
      (b.pathItems p).flatMap fun x => u32Bytes (b.address (.vk x)) := by
  show (itemsOf (joinParts p, b.valuesOf (joinParts p))).flatMap _ = _
  rw [valuesOf_joinParts h hp]
  rfl

omit himage in
/-- A values list is inside the file, so its length fits into the count. -/
theorem length_values_lt (h : b.Valid) {p : Path} (hp : p ∈ b.closure)
    (hrole : Role.valuesList (joinParts p) ∈ b.roles) : (b.valuesAt p).length < 2 ^ 32 := by
  have hinitial : (b.initial (.valuesList (joinParts p))).length =
      (b.valuesOf (joinParts p)).length * 4 := List.length_replicate
  rw [valuesOf_joinParts h hp] at hinitial
  have hroom := size_le_room b (.valuesList (joinParts p))
  have hinside := place_add_room_le_total hrole
  omega

/-- **The values of a key** are listed in the order in which they were given. -/
theorem values_keyAt (h : b.Valid) {p : Path} (hp : p = [] ∨ p ∈ b.closure) :
    (b.keyAt p).values (b.hive image).reader = .ok ((b.pathItems p).map b.valueAt) := by
  have hcountField : (b.keyAt p).node.valueCount = UInt32.ofNat (b.valuesAt p).length := rfl
  have hlength := length_pathItems b p
  by_cases hvals : b.valuesAt p = []
  · -- without values the count is zero, and the source does not look at the list
    have hnone : b.pathItems p = [] :=
      List.length_eq_zero_iff.mp (hlength.trans (by rw [hvals]; rfl))
    unfold Key.values
    rw [hcountField, hvals, hnone]
    exact if_pos (Or.inl rfl)
  · obtain ⟨hmem, he⟩ := entry_of_values h hp hvals
    have hrole : Role.valuesList (joinParts p) ∈ b.roles := mem_roles.mpr ⟨_, he⟩
    have hoffsetField : (b.keyAt p).node.valuesListOffset =
        ⟨b.address (.valuesList (joinParts p))⟩ := if_pos hvals
    have hfew := length_values_lt hsize h hmem hrole
    have hbytes := length_flatMap_of_width (fun x => length_u32Bytes (b.address (.vk x)))
      (b.pathItems p)
    -- the body of the list cell: the addresses of the values, and padding behind them
    obtain ⟨tail, hread⟩ := readCellRaw_role hsize himage hrole
    rw [linked_valuesList h hmem] at hread
    refine values_of_listed ?_ ?_ ?_ (hoffsetField ▸ hread) ?_ fun i hi => ?_
    · rw [hcountField, List.length_map, hlength]
      exact UInt32.toNat_ofNat_of_lt' hfew
    · refine List.ne_nil_of_length_pos ?_
      rw [List.length_map, hlength]
      exact List.length_pos_iff.mpr hvals
    · rw [hoffsetField]
      exact address_not_null hsize hrole
    · rw [List.length_map, List.length_append, hbytes]
      omega
    · rw [List.length_map] at hi
      have hx := mem_items_of_pathItems h hp (List.getElem_mem hi)
      rw [List.getElem_map]
      refine ⟨?_, readCell_value hsize himage h hx⟩
      rw [leU32_eq_u32At (by rw [List.length_append, hbytes]; omega),
        u32At_of_bytesAt (bytesAt_words (fun x => b.address (.vk x)) tail hi)]
      rfl

/-- **The subkeys of a key** are listed in the order of first mention. -/
theorem subkeys_keyAt (h : b.Valid) {p : Path} (hp : p = [] ∨ p ∈ b.closure) :
    Exec.Evals (fun n => (b.keyAt p).subkeys (b.hive image).reader n)
      (.ok ((b.childNames p).map fun c => b.keyAt (p ++ [c]))) := by
  have hcountField : (b.keyAt p).node.subkeyCount = UInt32.ofNat (b.childNames p).length := rfl
  by_cases hkids : b.childNames p = []
  · have hnone : ¬ (b.keyAt p).ListsSubkeys := fun hlists => hlists.count (by
      rw [hcountField, hkids]; rfl)
    simp only [subkeys_of_not_lists hnone, hkids, List.map_nil]
    exact Exec.Evals.const _
  · have hrole : Role.lh p ∈ b.roles := mem_roles.mpr ⟨hp, hkids⟩
    have hoffsetField : (b.keyAt p).node.subkeysListOffset = ⟨b.address (.lh p)⟩ := if_pos hkids
    have hfew := h.children p
    have hlists : (b.keyAt p).ListsSubkeys := by
      refine ⟨fun hzero => hkids (List.length_eq_zero_iff.mp ?_), ?_⟩
      · have hnat := congrArg UInt32.toNat (hcountField.symm.trans hzero)
        rw [UInt32.toNat_ofNat_of_lt' (show _ < 2 ^ 32 by omega)] at hnat
        exact hnat
      · rw [hoffsetField]
        exact address_not_null hsize hrole
    have hindex : Lists (b.hive image).reader (b.keyAt p).node.subkeysListOffset
        ((b.childNames p).map fun c => ⟨b.address (.nk (p ++ [c]))⟩) := by
      rw [hoffsetField]
      refine .leaf (readCell_index hsize himage h hp hkids) (congrArg some ?_)
      unfold TestHiveBuilder.lhElements
      rw [List.map_map]
      rfl
    refine subkeys_of_listed hlists hindex ?_
    rw [List.forall₂_map_left_iff, List.forall₂_map_right_iff, List.forall₂_same]
    intro c hc
    have hmem := mem_childNames.mp hc
    refine ⟨?_, readCell_key hsize himage h (Or.inr hmem)⟩
    show CellOffset.mk (b.address (keyRole (p ++ [c]))) = _
    rw [keyRole_of_mem hmem]

/-- A key reads as a node when its subkeys read as the children of the node. -/
theorem reads_keyAt (h : b.Valid) {p : Path} (hp : p = [] ∨ p ∈ b.closure)
    {children : List Winreg.KeyTree}
    (hchildren : List.Forall₂ (Reads (b.hive image).reader)
      ((b.childNames p).map fun c => b.keyAt (p ++ [c])) children) :
    Reads (b.hive image).reader (b.keyAt p)
      (.node (latin1 (keyName p)) ((b.valuesAt p).map TreeValue.toRegValue) children) := by
  have hvalues : List.Forall₂ (ReadsValue (b.hive image).reader)
      ((b.pathItems p).map b.valueAt) ((b.valuesAt p).map TreeValue.toRegValue) := by
    rw [← map_value_pathItems, List.map_map, List.forall₂_map_left_iff,
      List.forall₂_map_right_iff, List.forall₂_same]
    exact fun x hx => readsValue hsize himage h (mem_items_of_pathItems h hp hx)
  have hname : (b.keyAt p).name = latin1 (keyName p) := keyName_linkedNode b p
  obtain ⟨hlength, hzip⟩ := List.forall₂_iff_zip.mp hchildren
  rw [← hname]
  exact .node (values_keyAt hsize himage h hp) hvalues (subkeys_keyAt hsize himage h hp) hlength
    fun q hq => hzip hq

/-- **A key reads as its subtree.** -/
theorem reads_subtree (h : b.Valid) : ∀ {n : Nat} {p : Path}, (p = [] ∨ p ∈ b.closure) →
    (∀ q ∈ b.closure, q.length ≤ p.length + n) →
      Reads (b.hive image).reader (b.keyAt p) (b.subtree n p (latin1 (keyName p))) := by
  intro n
  induction n with
  | zero =>
    intro p hp hdeep
    have hkids : b.childNames p = [] := childNames_of_deepest hdeep
    refine reads_keyAt hsize himage h hp ?_
    rw [hkids]
    exact .nil
  | succ n ih =>
    intro p hp hdeep
    refine reads_keyAt hsize himage h hp ?_
    rw [List.forall₂_map_left_iff, List.forall₂_map_right_iff, List.forall₂_same]
    intro c hc
    have hmem := mem_childNames.mp hc
    have hascii := (component_of_mem h hmem (List.mem_append_right _ (List.mem_singleton_self c))).1
    have hbelow := ih (Or.inr hmem) fun q hq => (hdeep q hq).trans
      (by rw [List.length_append, List.length_singleton]; omega)
    rw [keyName_concat, latin1_asBytes hascii] at hbelow
    exact hbelow

end Reading

/-- **The round trip.**  A valid builder plans a file; when that is smaller than `2 ^ 31` bytes, it
    builds a file of this size that opens as a hive, and the hive reads from its root as the tree
    that was given: the prefix closure of the paths, the children in the order of first mention, the
    values in the order in which they were given, with their names, types and data. -/
theorem build_reads (h : b.Valid) {n : Nat} (hn : b.depth < n) :
    ∃ plan, (b.plan n : Exec HiveError Plan) = .ok plan ∧
      (plan.totalFileSize < 2 ^ 31 → ∃ image hive, (b.build n : Exec HiveError Bytes) = .ok image ∧
        image.length = plan.totalFileSize ∧ Hive.fromBytes image = .ok hive ∧
        hive.ReadsTree b.tree) := by
  refine ⟨b.planOf, plan_eq h hn, fun hsize => ?_⟩
  obtain ⟨image, hbuild, himage⟩ := @build_holds b HiveError h n hn hsize
  refine ⟨image, b.hive image, hbuild, himage.length_eq, fromBytes_built hsize himage,
    b.keyAt [], ?_, ?_⟩
  · exact Hive.rootKey_eq (readCell_key hsize himage h (p := []) (Or.inl rfl)) rfl
  · refine reads_subtree hsize himage h (n := b.depth) (Or.inl rfl) fun q hq => ?_
    rw [List.length_nil, Nat.zero_add]
    exact length_le_depth hq

end RoundTrip

/-- A key with two values, one of them resident and without a name, and a key below it. -/
def sampleBuilder : TestHiveBuilder where
  keys := ["A\\B".toList]
  values := [⟨['A'], ['v'], 1, [1, 2, 3, 4, 5]⟩, ⟨['A'], [], 4, [6, 7]⟩]
  keyFiletime := 0

/-- The sample can be written. -/
theorem sampleBuilder_valid : sampleBuilder.Valid where
  components := by decide
  valueNames := by decide
  children p := by
    have hlen : (sampleBuilder.childNames p).length ≤ sampleBuilder.closure.length :=
      List.length_filterMap_le _ _
    exact hlen.trans (by decide)
  data := by decide

/-- The sample as a whole: what is read back is what was given. -/
theorem build_reads_sample : ∃ image hive,
    (sampleBuilder.build 3 : Exec HiveError Bytes) = .ok image ∧ image.length = 8192 ∧
      Hive.fromBytes image = .ok hive ∧ hive.ReadsTree (.node "CMI-root".toList []
        [.node ['A'] [⟨['v'], .sz, [1, 2, 3, 4, 5]⟩, ⟨[], .dword, [6, 7]⟩]
          [.node ['B'] [] []]]) := by
  obtain ⟨plan, hplan, hreads⟩ := build_reads sampleBuilder_valid (n := 3) (by decide)
  obtain rfl : plan = sampleBuilder.planOf :=
    Exec.ok.inj (hplan.symm.trans (plan_eq sampleBuilder_valid (by decide)))
  have hsize : sampleBuilder.planOf.totalFileSize = 8192 := by decide
  obtain ⟨image, hive, hbuild, hlen, hopen, htree⟩ := hreads (by rw [hsize]; decide)
  exact ⟨image, hive, hbuild, hlen.trans hsize, hopen, htree⟩

end Winreg.TestUtil
