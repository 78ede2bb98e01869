/-
  CONTENTS: what the parts of a built file hold, before and after linking.

  1. **The arena** — the base block, the bin header, the cells and the size field of the free cell
     do not overlap.
  2. **Linked bodies** — what each cell holds in the end: the record with the addresses of the
     cells that it refers to.
  3. **Writes** — a write into the body of a cell changes the body.
-/
import Winreg.Base.Arena
import Winreg.Core.Image
import Winreg.Format.Records
import Winreg.TestUtil.Layout

namespace Winreg.TestUtil

open Rust

/-! ## The arena -/

/-- The parts of the file that are written. -/
inductive Region where
  | block
  | binHeader
  | free
  | cell (r : Role)
deriving DecidableEq, Repr

namespace TestHiveBuilder

variable (b : TestHiveBuilder)

/-- The parts of the file, in order: base block, bin header, the free cell and the cells of the
    roles. -/
def regions : List Region := .block :: .binHeader :: .free :: b.roles.map .cell

/-- Where a part starts. -/
def regionPos : Region → Nat
  | .block => 0
  | .binHeader => hbinFileStart
  | .free => hbinFileStart + b.planOf.hbinContent
  | .cell r => b.place r

/-- How many bytes it has. -/
def regionSize : Region → Nat
  | .block => 512
  | .binHeader => hbinDataStart
  | .free => if b.planOf.freeSize ≥ 8 then 4 else 0
  | .cell r => 4 + (b.initial r).length

end TestHiveBuilder

section Arena

variable {b : TestHiveBuilder}

theorem mem_regions {r : Role} : Region.cell r ∈ b.regions ↔ r ∈ b.roles := by
  simp [TestHiveBuilder.regions]

theorem le_align4096 (n : Nat) : n ≤ align4096 n := by
  unfold align4096
  omega

/-- The content of the bin fits into the bin. -/
theorem hbinContent_le (plan : Plan) : plan.hbinContent ≤ plan.hbinSize := le_align4096 _

/-- A cell is written inside its room. -/
theorem size_le_room (b : TestHiveBuilder) (r : Role) : 4 + (b.initial r).length ≤ b.room r :=
  le_align8 _

/-- A cell ends before the free space begins. -/
theorem place_add_room_le {r : Role} (hr : r ∈ b.roles) :
    b.place r + b.room r ≤ hbinFileStart + b.planOf.hbinContent := by
  have hpos := offset_add_room_le_pos hr
  show 4096 + 32 + b.offset r + b.room r ≤ 4096 + (32 + b.planOf.alloc.pos)
  omega

/-- Cells lie behind the header of the bin. -/
theorem binHeader_le_place (b : TestHiveBuilder) (r : Role) :
    hbinFileStart + hbinDataStart ≤ b.place r := Nat.le_add_right _ _

/-- **The parts of the file** do not overlap. -/
def TestHiveBuilder.arena (b : TestHiveBuilder) : Arena Region where
  slots := b.regions
  pos := b.regionPos
  size := b.regionSize
  length := b.planOf.totalFileSize
  le_length := by
    have hfit := hbinContent_le b.planOf
    have hcontent : hbinDataStart ≤ b.planOf.hbinContent := Nat.le_add_right _ _
    have hfree : b.planOf.freeSize = b.planOf.hbinSize - b.planOf.hbinContent := rfl
    have htotal : b.planOf.totalFileSize = 4096 + b.planOf.hbinSize := rfl
    have hdata : hbinDataStart = 32 := rfl
    intro i hi
    cases i with
    | block =>
      show 0 + 512 ≤ _
      omega
    | binHeader =>
      show 4096 + 32 ≤ _
      omega
    | free =>
      show 4096 + b.planOf.hbinContent + (if b.planOf.freeSize ≥ 8 then 4 else 0) ≤ _
      split <;> omega
    | cell r =>
      have hend := place_add_room_le (mem_regions.mp hi)
      have hsize := size_le_room b r
      have hstart : hbinFileStart = 4096 := rfl
      show b.place r + (4 + (b.initial r).length) ≤ _
      omega
  disjoint := by
    have hbin : hbinFileStart = 4096 := rfl
    have hdata : hbinDataStart = 32 := rfl
    have hcontent : b.planOf.hbinContent = 32 + b.planOf.alloc.pos := rfl
    -- where each part lies
    have hcell : ∀ r ∈ b.roles, 4128 ≤ b.place r ∧
        b.place r + (4 + (b.initial r).length) ≤ 4096 + b.planOf.hbinContent := fun r hr => by
      have hend := place_add_room_le hr
      have hsize := size_le_room b r
      have hstart := binHeader_le_place b r
      omega
    have hfree : b.regionPos .free = 4096 + b.planOf.hbinContent := rfl
    intro i hi j hj hne
    cases i <;> cases j
    all_goals first
      | exact absurd rfl hne
      | skip
    case cell.cell r s =>
      have hr := mem_regions.mp hi
      have hs := mem_regions.mp hj
      have hrs : r ≠ s := fun h => hne (congrArg Region.cell h)
      have hsize := size_le_room b r
      have hsize' := size_le_room b s
      show hbinFileStart + hbinDataStart + b.offset r + _ ≤
          hbinFileStart + hbinDataStart + b.offset s ∨
        hbinFileStart + hbinDataStart + b.offset s + _ ≤
          hbinFileStart + hbinDataStart + b.offset r
      have hdis := rooms_disjoint hr hs hrs
      simp only [TestHiveBuilder.regionSize]
      omega
    all_goals
      simp only [TestHiveBuilder.regionPos, TestHiveBuilder.regionSize]
      first
      | omega
      | (have hbounds := hcell _ (mem_regions.mp hi); omega)
      | (have hbounds := hcell _ (mem_regions.mp hj); omega)

end Arena

/-! ## Linked bodies -/

/-- The cell of the key at a path. -/
def keyRole (p : Path) : Role := if p = [] then .root else .nk p

/-- The name of the key at a path. -/
def keyName (p : Path) : Bytes := if p = [] then rootName else asBytes (p.getLast?.getD [])

/-- The record that is allocated for a key. -/
def blankNode (keyFiletime : UInt64) (name : Bytes) (isRoot : Bool) : RawKeyNode where
  flags := ⟨if isRoot then 0x0004 ||| 0x0020 else 0x0020⟩
  lastWritten := keyFiletime
  accessBits := 0
  parent := .null
  subkeyCount := 0
  volatileSubkeyCount := 0
  subkeysListOffset := .null
  volatileSubkeysListOffset := .null
  valueCount := 0
  valuesListOffset := .null
  securityOffset := .null
  classNameOffset := .null
  maxSubkeyNameCompound := 0
  maxSubkeyClassLen := 0
  maxValueNameLen := 0
  maxValueDataSize := 0
  workVar := 0
  keyNameLen := UInt16.ofNat name.length
  classNameLen := 0
  keyNameRaw := name

/-- The record that is allocated for a value. -/
def blankValue (v : TreeValue) : RawKeyValue where
  nameLen := UInt16.ofNat (asBytes v.name).length
  dataSizeRaw := UInt32.ofNat v.data.length
  dataOffsetRaw := 0xFFFFFFFF
  dataType := ValueType.fromRaw v.dataType
  flags := ⟨if asBytes v.name = [] then 0 else 1⟩
  nameRaw := asBytes v.name

/-- Data of at most four bytes, in place of an offset. -/
def inlineWord (data : Bytes) : UInt32 := u32At (patch (u32Bytes 0xFFFFFFFF) 0 data) 0

namespace TestHiveBuilder

variable (b : TestHiveBuilder)

/-- A key with the index of its subkeys. -/
def withIndex (p : Path) (nk : RawKeyNode) : RawKeyNode :=
  { nk with
    subkeyCount := UInt32.ofNat (b.childNames p).length
    subkeysListOffset := if b.childNames p ≠ [] then ⟨b.address (.lh p)⟩ else .null }

/-- A key with the list of its values. -/
def withValues (p : Path) (nk : RawKeyNode) : RawKeyNode :=
  { nk with
    valueCount := UInt32.ofNat (b.valuesAt p).length
    valuesListOffset :=
      if b.valuesAt p ≠ [] then ⟨b.address (.valuesList (joinParts p))⟩ else .null }

/-- The record of the key at a path, with its parent, its security cell, the index of its subkeys
    and the list of its values. -/
def linkedNode (p : Path) : RawKeyNode :=
  b.withValues p (b.withIndex p
    { blankNode b.keyFiletime (keyName p) (p = []) with
      parent := ⟨b.address (keyRole p.dropLast)⟩
      securityOffset := ⟨b.address .sk⟩ })

/-- The record of a value, with its data or with the cell that holds them. -/
def linkedValue (x : Item) : RawKeyValue :=
  if x.IsResident then
    { blankValue x.value with
      dataSizeRaw := UInt32.ofNat x.value.data.length ||| 0x80000000
      dataOffsetRaw := inlineWord x.value.data }
  else { blankValue x.value with dataOffsetRaw := b.address x.dataHead }

/-- The elements of the index of a path. -/
def lhElements (p : Path) : List LhElement :=
  (b.childNames p).map fun c => ⟨⟨b.address (.nk (p ++ [c]))⟩, lhHash c⟩

/-- The values of a key. -/
def itemsAt (key : Str) : List Item := itemsOf (key, b.valuesOf key)

/-- **What each cell holds in the end.** -/
def linked : Role → Bytes
  | .sk => patch (patch (b.initial .sk) skFlinkOffset (u32Bytes (b.address .sk))) skBlinkOffset
      (u32Bytes (b.address .sk))
  | .root => (b.linkedNode []).toBytes
  | .nk p => (b.linkedNode p).toBytes
  | .lh p => [0x6C, 0x68] ++ u16Bytes (UInt16.ofNat (b.childNames p).length) ++
      (b.lhElements p).flatMap LhElement.toBytes
  | .valuesList key => (b.itemsAt key).flatMap fun x => u32Bytes (b.address (.vk x))
  | .vk x => (b.linkedValue x).toBytes x.value.dataType 0
  | .data x => b.initial (.data x)
  | .segment x k => b.initial (.segment x k)
  | .segmentList x =>
      (List.range x.segmentCount).flatMap fun k => u32Bytes (b.address (.segment x k))
  | .bigData x => [0x64, 0x62] ++ u16Bytes (UInt16.ofNat x.segmentCount) ++
      u32Bytes (b.address (.segmentList x))

/-- A cell with its size field. -/
def cellOf (body : Role → Bytes) (r : Role) : Bytes := cellBytes (-(b.room r : Nat)) (body r)

/-- The file before linking: the cells are written, the rest is zeros. -/
def firstContent : Region → Bytes
  | .cell r => b.cellOf b.initial r
  | i => List.replicate (b.regionSize i) 0

/-- The file after linking. -/
def linkedContent : Region → Bytes
  | .cell r => b.cellOf b.linked r
  | i => List.replicate (b.regionSize i) 0

end TestHiveBuilder

/-! ## Writes -/

section Writes

variable {b : TestHiveBuilder} {ε : Type} {r : Role}

/-- A field of a cell is a field of its body, four bytes further on. -/
theorem patch_cellBytes (raw : Int) (body : Bytes) (o : Nat) (bs : Bytes) :
    patch (cellBytes raw body) (4 + o) bs = cellBytes raw (patch body o bs) := by
  have hlen := length_i32Bytes raw
  unfold cellBytes
  rw [patch_append_right (by omega), hlen, Nat.add_sub_cancel_left]

/-- The program takes the body of a cell from one to another. -/
def EditsBody (b : TestHiveBuilder) (r : Role) (f : Bytes → Exec ε Bytes) (x y : Bytes) : Prop :=
  b.arena.Edits (.cell r) f (cellBytes (-(b.room r : Nat)) x) (cellBytes (-(b.room r : Nat)) y)

/-- **A write into the body of a cell.** -/
theorem EditsBody.copy (hr : r ∈ b.roles) {o : Nat} {bs : Bytes}
    (ho : o + bs.length ≤ (b.initial r).length) (x : Bytes) :
    EditsBody b r (fun buf => (copyInto buf (b.place r + 4 + o) bs : Exec ε Bytes)) x
      (patch x o bs) := by
  have hwrite := @Arena.Edits.write _ ε b.arena _ _ (mem_regions.mpr hr)
    (cellBytes (-(b.room r : Nat)) x) (4 + o) bs
    (show 4 + o + bs.length ≤ 4 + (b.initial r).length by omega)
  rw [patch_cellBytes] at hwrite
  have hpos : b.arena.pos (.cell r) + (4 + o) = b.place r + 4 + o := (Nat.add_assoc _ _ _).symm
  rw [hpos] at hwrite
  exact hwrite

/-- Writing a field of a cell patches its body and touches no other part of the file. -/
theorem EditsBody.write (hr : r ∈ b.roles) {o : Nat} (ho : o + 4 ≤ (b.initial r).length)
    (x : Bytes) (v : UInt32) :
    EditsBody b r (fun buf => (writeU32 buf (b.place r + 4 + o) v : Exec ε Bytes)) x
      (patch x o (u32Bytes v)) :=
  EditsBody.copy hr (by rw [length_u32Bytes]; exact ho) x

/-- Doing nothing edits nothing. -/
theorem EditsBody.skip {x : Bytes} : EditsBody b r (Exec.ok : Bytes → Exec ε Bytes) x x :=
  Arena.Edits.skip

/-- Two edits of one cell, one after the other. -/
theorem EditsBody.bind {f g : Bytes → Exec ε Bytes} {x y z : Bytes} (hf : EditsBody b r f x y)
    (hg : EditsBody b r g y z) : EditsBody b r (fun buf => f buf >>= g) x z :=
  Arena.Edits.bind hf hg

/-- **An array in a body** is filled in by a loop that writes element `l` at its place. -/
theorem EditsBody.fill {α : Type} {enc : α → Bytes} {w : Nat} (hw : ∀ x, (enc x).length = w)
    (hr : r ∈ b.roles) {before : Bytes} {xs : List α} {step : Bytes → α × Nat → Exec ε Bytes}
    (hstep : ∀ x l, (x, l) ∈ xs.zipIdx → ∀ buf,
      step buf (x, l) = copyInto buf (b.place r + 4 + before.length + l * w) (enc x))
    (hinitial : b.initial r = before ++ List.replicate (xs.length * w) 0) :
    EditsBody b r (fun buf => xs.zipIdx.foldlM step buf) (b.initial r)
      (before ++ xs.flatMap enc) := by
  have hsize : (b.initial r).length = before.length + xs.length * w := by
    rw [hinitial, List.length_append, List.length_replicate]
  have hhead : (i32Bytes (-(b.room r : Nat)) ++ before).length = 4 + before.length := by
    rw [List.length_append, length_i32Bytes]
  have hfill := @Arena.Edits.fill _ ε b.arena _ _ enc w hw _ (mem_regions.mpr hr)
    (b.place r + 4 + before.length) step xs 0 (i32Bytes (-(b.room r : Nat)) ++ before) hstep
    (by rw [hhead, Nat.zero_mul]; exact (Nat.add_assoc _ _ _).symm)
    (show _ ≤ 4 + (b.initial r).length by rw [hhead]; omega)
  rw [List.append_assoc, List.append_assoc, ← hinitial] at hfill
  exact hfill

/-- A program that edits a body from the first to the linked one settles the cell. -/
theorem EditsBody.settles {f : Bytes → Exec ε Bytes}
    (h : EditsBody b r f (b.initial r) (b.linked r)) :
    b.arena.Settles b.firstContent b.linkedContent [.cell r] f :=
  Arena.Edits.settles h

end Writes

end Winreg.TestUtil
