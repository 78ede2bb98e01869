/-
  THE WHOLE FILE: what `build` produces.

  The file starts as zeros.  The cells are written, then linked, then the free cell, the bin header
  and the base block are added; each of these passes settles its own parts of the file.

  1. **Cells** — every cell gets its size field and its body (`writeCells_runs`).
  2. **Headers** — the free cell, the bin header, and the base block with its checksum
     (`writeHeaders_runs`).
  3. **The file** — building succeeds, and the file holds the linked cells and the headers
     (`build_holds`).
-/
import Winreg.TestUtil.Linking

namespace Winreg.TestUtil

open Rust

/-! ## Cells -/

namespace TestHiveBuilder

variable (b : TestHiveBuilder)

/-- The file before anything is written. -/
def blankContent (i : Region) : Bytes := List.replicate (b.regionSize i) 0

/-- **The parts of the built file.** -/
def finalContent : Region → Bytes
  | .block => imageBlock (b.address .root) (UInt32.ofNat b.planOf.hbinSize)
  | .binHeader => hbinMagic ++ u32Bytes 0 ++ u32Bytes (UInt32.ofNat b.planOf.hbinSize) ++
      List.replicate 20 0
  | .free =>
    if b.planOf.freeSize ≥ 8 then i32Bytes (asI32 (b.planOf.freeSize % 2 ^ 32)) else []
  | .cell r => b.cellOf b.linked r

end TestHiveBuilder

section Encoding

variable {b : TestHiveBuilder} {ε : Type}

/-- The fresh file is zero everywhere. -/
theorem blank_holds (b : TestHiveBuilder) :
    b.arena.Holds (List.replicate b.planOf.totalFileSize 0) b.blankContent where
  length_eq := List.length_replicate
  width _ _ := List.length_replicate
  at_slot i hi := bytesAt_replicate (b.arena.le_length i hi)

/-- Writing over all of the zeros. -/
theorem patch_zeros (bs : Bytes) {k : Nat} : patch (List.replicate (bs.length + k) 0) 0 bs =
    bs ++ List.replicate k 0 := patch_append_zeros [] bs k

/-- The allocated cells, role by role. -/
theorem cells_eq (b : TestHiveBuilder) : b.planOf.alloc.cells =
    b.roles.map fun r => ⟨b.offset r, b.room r, b.initial r⟩ := by
  have hlen : b.planOf.alloc.cells.length = b.roles.length :=
    (length_layOut _ 0).trans (List.length_map _)
  refine List.ext_getElem? fun i => ?_
  rw [List.getElem?_map]
  by_cases hi : i < b.roles.length
  · have hid : b.idOf b.roles[i] = i := (nodup_roles b).idxOf_getElem i hi
    have hcell := getElem?_cells (List.getElem_mem hi)
    rw [hid] at hcell
    rw [hcell, List.getElem?_eq_getElem hi, Option.map_some]
  · rw [List.getElem?_eq_none (by omega), List.getElem?_eq_none (by omega), Option.map_none]

/-- A cell of the file is smaller than the file. -/
theorem place_add_room_le_total {r : Role} (hr : r ∈ b.roles) :
    b.place r + b.room r ≤ b.planOf.totalFileSize :=
  (place_add_room_le hr).trans (Nat.add_le_add_left (hbinContent_le _) _)

/-- The size field of a cell in use is the negated size, which fits below 2^31. -/
theorem negSize_eq {n : Nat} (h : n < 2 ^ 31) : (negSize n : Exec ε Int) = .ok (-(n : Nat)) := by
  have hsize : asI32 (n % 2 ^ 32) = n := by
    unfold asI32
    rw [Nat.mod_eq_of_lt (by omega), if_pos h]
  unfold negSize
  dsimp only
  rw [hsize, if_neg (by omega)]

/-- One cell. -/
theorem writeCell_settles (hsize : b.planOf.totalFileSize < 2 ^ 31) {r : Role}
    (hr : r ∈ b.roles) :
    b.arena.Settles b.blankContent b.firstContent [.cell r] (fun buf =>
      (Plan.writeCell buf ⟨b.offset r, b.room r, b.initial r⟩ : Exec ε Bytes)) := by
  have hroom : b.room r < 2 ^ 31 := by
    have hinside := place_add_room_le_total hr
    omega
  have hlen : (b.cellOf b.initial r).length = b.regionSize (.cell r) := by
    show (i32Bytes _ ++ b.initial r).length = 4 + (b.initial r).length
    rw [List.length_append, length_i32Bytes]
  have hfun : (fun buf => (Plan.writeCell buf ⟨b.offset r, b.room r, b.initial r⟩ :
      Exec ε Bytes)) = fun buf => copyInto buf (b.place r + 0) (b.cellOf b.initial r) := by
    funext buf
    unfold Plan.writeCell TestHiveBuilder.cellOf cellBytes
    dsimp only
    rw [negSize_eq hroom, Exec.ok_bind, copyInto_append, length_i32Bytes]
    rfl
  have hwrite := @Arena.Edits.write _ ε b.arena _ _ (mem_regions.mpr hr)
    (b.blankContent (.cell r)) 0 (b.cellOf b.initial r) (by rw [Nat.zero_add]; exact hlen.le)
  have hpatch : patch (b.blankContent (.cell r)) 0 (b.cellOf b.initial r) =
      b.firstContent (.cell r) := by
    unfold TestHiveBuilder.blankContent
    rw [← hlen]
    exact (@patch_zeros _ 0).trans (List.append_nil _)
  rw [hpatch] at hwrite
  rw [hfun]
  exact hwrite.settles

/-- **The cells** are written with the bodies that were allocated. -/
theorem writeCells_runs (hsize : b.planOf.totalFileSize < 2 ^ 31) :
    b.arena.Runs (fun buf => (b.planOf.alloc.cells.foldlM Plan.writeCell buf : Exec ε Bytes))
      b.blankContent b.firstContent := by
  have hfun : (fun buf => (b.planOf.alloc.cells.foldlM Plan.writeCell buf : Exec ε Bytes)) =
      fun buf => b.roles.foldlM
        (fun buf r => Plan.writeCell buf ⟨b.offset r, b.room r, b.initial r⟩) buf := by
    funext buf
    rw [cells_eq, List.foldlM_map]
  have hnodup : (b.roles.flatMap fun r => [Region.cell r]).Nodup := by
    rw [← List.map_eq_flatMap]
    exact (nodup_roles b).map fun r s hrs => by cases hrs; rfl
  have hcells := @Arena.Settles.foldlM _ Role ε b.arena _ b.blankContent b.firstContent _ _
    b.roles (fun r hr => @writeCell_settles b ε hsize r hr) hnodup
  rw [hfun]
  refine (hcells b.blankContent fun _ _ => rfl).congr fun i hi => ?_
  unfold Arena.settle
  cases i with
  | cell r => exact if_pos (List.mem_flatMap.mpr ⟨r, mem_regions.mp hi, List.mem_singleton_self _⟩)
  | _ => exact ite_self _

/-! ## Headers -/

/-- The free cell is blank until the end. -/
theorem linkedContent_free (b : TestHiveBuilder) : b.linkedContent .free =
    List.replicate (if b.planOf.freeSize ≥ 8 then 4 else 0) 0 := by
  rw [TestHiveBuilder.linkedContent, TestHiveBuilder.regionSize]
  intro r hr
  cases hr

/-- It gets its size, where there is room for a cell. -/
theorem finalContent_free (b : TestHiveBuilder) : b.finalContent .free =
    if b.planOf.freeSize ≥ 8 then i32Bytes (asI32 (b.planOf.freeSize % 2 ^ 32)) else [] := by
  rw [TestHiveBuilder.finalContent]

/-- It starts behind the content of the bin. -/
theorem pos_free (b : TestHiveBuilder) :
    b.arena.pos .free = hbinFileStart + b.planOf.hbinContent := by
  have hpos : b.arena.pos = b.regionPos := rfl
  rw [hpos, TestHiveBuilder.regionPos]

/-- Its size field is all that is written of it. -/
theorem size_free (b : TestHiveBuilder) :
    b.arena.size .free = if b.planOf.freeSize ≥ 8 then 4 else 0 := by
  have hsize : b.arena.size = b.regionSize := rfl
  rw [hsize, TestHiveBuilder.regionSize]

/-- The free cell. -/
theorem writeFreeCell_settles (b : TestHiveBuilder) :
    b.arena.Settles b.linkedContent b.finalContent [.free]
      (b.planOf.writeFreeCell : Bytes → Exec ε Bytes) := by
  have hslot : Region.free ∈ b.arena.slots :=
    List.mem_cons_of_mem _ (List.mem_cons_of_mem _ List.mem_cons_self)
  refine Arena.Edits.settles ?_
  rw [linkedContent_free, finalContent_free]
  by_cases hfree : b.planOf.freeSize ≥ 8
  · have hfun : (b.planOf.writeFreeCell : Bytes → Exec ε Bytes) = fun buf =>
        copyInto buf (b.arena.pos .free + 0) (i32Bytes (asI32 (b.planOf.freeSize % 2 ^ 32))) := by
      funext buf
      rw [Plan.writeFreeCell, if_pos hfree, pos_free, Nat.add_zero]
    have hsize : b.arena.size .free = 4 := by
      rw [size_free, if_pos hfree]
    have hwrite := @Arena.Edits.write _ ε b.arena _ _ hslot (List.replicate 4 0) 0
      (i32Bytes (asI32 (b.planOf.freeSize % 2 ^ 32))) (by rw [hsize, length_i32Bytes])
    rw [show patch (List.replicate 4 0) 0 _ = _ from @patch_zeros (i32Bytes _) 0,
      List.replicate_zero, List.append_nil] at hwrite
    rw [if_pos hfree, if_pos hfree, hfun]
    exact hwrite
  · have hfun : (b.planOf.writeFreeCell : Bytes → Exec ε Bytes) = Exec.ok := by
      funext buf
      rw [Plan.writeFreeCell, if_neg hfree]
    rw [if_neg hfree, if_neg hfree, hfun]
    exact Arena.Edits.skip

/-- The bin header. -/
theorem writeBinHeader_settles (b : TestHiveBuilder) :
    b.arena.Settles b.linkedContent b.finalContent [.binHeader]
      (b.planOf.writeBinHeader : Bytes → Exec ε Bytes) := by
  have hslot : Region.binHeader ∈ b.arena.slots := List.mem_cons_of_mem _ List.mem_cons_self
  have hfun : (b.planOf.writeBinHeader : Bytes → Exec ε Bytes) = fun buf =>
      copyInto buf (b.arena.pos .binHeader + 0)
        (hbinMagic ++ (u32Bytes 0 ++ u32Bytes (UInt32.ofNat b.planOf.hbinSize))) := by
    funext buf
    rw [copyInto_append]
    simp only [copyInto_append]
    rfl
  have hwrite := @Arena.Edits.write _ ε b.arena _ _ hslot (List.replicate 32 0) 0
    (hbinMagic ++ (u32Bytes 0 ++ u32Bytes (UInt32.ofNat b.planOf.hbinSize))) (by decide : 12 ≤ 32)
  refine Arena.Edits.settles ?_
  rw [hfun]
  exact hwrite

/-- The writes into the base block, all but the checksum. -/
def writeFields (root binsSize : UInt32) (buf : Bytes) : Exec ε Bytes := do
  let buf ← copyInto buf 0 [0x72, 0x65, 0x67, 0x66]
  let buf ← writeU32 buf 0x04 1
  let buf ← writeU32 buf 0x08 1
  let buf ← writeU32 buf 0x14 1
  let buf ← writeU32 buf 0x18 5
  let buf ← writeU32 buf 0x20 1
  let buf ← writeU32 buf 0x24 root
  let buf ← writeU32 buf 0x28 binsSize
  writeU32 buf 0x2C 1

/-- The base block without its checksum. -/
theorem writeFields_edits (b : TestHiveBuilder) (root binsSize : UInt32) :
    b.arena.Edits .block (writeFields root binsSize : Bytes → Exec ε Bytes)
      (List.replicate 512 0) (imageHeader root binsSize ++ List.replicate 4 0) := by
  have hslot : Region.block ∈ b.arena.slots := List.mem_cons_self
  -- the writes stay inside the first 48 bytes
  have hcopy : ∀ {x bs : Bytes} {o : Nat}, x.length = 48 → o + bs.length ≤ 48 →
      b.arena.Edits .block (fun buf => (copyInto buf o bs : Exec ε Bytes))
        (x ++ List.replicate 464 0) (patch x o bs ++ List.replicate 464 0) :=
    fun {x bs o} hx ho => by
      have hwrite := @Arena.Edits.write _ ε b.arena _ _ hslot (x ++ List.replicate 464 0) o bs
        (ho.trans (show 48 ≤ 512 by decide))
      rw [patch_append_left (by omega), show b.arena.pos .block + o = o from Nat.zero_add o]
        at hwrite
      exact hwrite
  have hword : ∀ {x : Bytes} (o : Nat) (v : UInt32), x.length = 48 → o + 4 ≤ 48 →
      b.arena.Edits .block (fun buf => (writeU32 buf o v : Exec ε Bytes))
        (x ++ List.replicate 464 0) (patch x o (u32Bytes v) ++ List.replicate 464 0) :=
    fun {x} o v hx ho => hcopy hx (by rw [length_u32Bytes]; exact ho)
  have hfields := (@hcopy (List.replicate 48 0) [0x72, 0x65, 0x67, 0x66] 0 rfl (by decide)).bind <|
    (hword 0x04 1 rfl (by decide)).bind <| (hword 0x08 1 rfl (by decide)).bind <|
    (hword 0x14 1 rfl (by decide)).bind <| (hword 0x18 5 rfl (by decide)).bind <|
    (hword 0x20 1 rfl (by decide)).bind <| (hword 0x24 root rfl (by decide)).bind <|
    (hword 0x28 binsSize rfl (by decide)).bind <| hword 0x2C 1 rfl (by decide)
  unfold imageHeader
  rw [List.append_assoc, List.replicate_append_replicate,
    show List.replicate 512 (0 : UInt8) = List.replicate 48 0 ++ List.replicate 464 0 from
      (@List.replicate_append_replicate 48 UInt8 0 464).symm]
  exact hfields

/-- The checksum of the base block. -/
theorem writeChecksum_edits (b : TestHiveBuilder) (header : Bytes) (hlen : header.length = 508) :
    b.arena.Edits .block
      (fun buf => (writeU32 buf 0x1FC (BaseBlock.computeChecksum buf) : Exec ε Bytes))
      (header ++ List.replicate 4 0) (header ++ u32Bytes (BaseBlock.computeChecksum header)) := by
  have hslot : Region.block ∈ b.arena.slots := List.mem_cons_self
  intro content hx buf hbuf
  -- the checksum does not see what stands in its place
  have hsum : BaseBlock.computeChecksum buf = BaseBlock.computeChecksum header := by
    refine BaseBlock.computeChecksum_congr fun off hoff => ?_
    have hbytes := hbuf.bytesAt_slot hslot (show off + 4 ≤ 512 by omega)
    rw [show b.arena.pos .block + off = off from Nat.zero_add off, hx,
      bytesAt_append_left (by omega)] at hbytes
    exact hbytes
  have hwrite := @Arena.Edits.write _ ε b.arena _ _ hslot (header ++ List.replicate 4 0) 508
    (u32Bytes (BaseBlock.computeChecksum header)) (show 508 + 4 ≤ 512 by decide)
  have hpatch : patch (header ++ List.replicate 4 0) 508
      (u32Bytes (BaseBlock.computeChecksum header)) =
        header ++ u32Bytes (BaseBlock.computeChecksum header) := by
    have hzeros := patch_append_zeros header (u32Bytes (BaseBlock.computeChecksum header)) 0
    rw [hlen, List.replicate_zero, List.append_nil] at hzeros
    exact hzeros
  rw [hpatch] at hwrite
  dsimp only
  rw [hsum]
  exact hwrite content hx buf hbuf

/-- The base block. -/
theorem writeBaseBlock_settles (b : TestHiveBuilder) :
    b.arena.Settles b.linkedContent b.finalContent [.block]
      (b.planOf.writeBaseBlock : Bytes → Exec ε Bytes) := by
  have hroot : Role.root ∈ b.roles := mem_roles.mpr trivial
  have hblock := (@writeFields_edits ε b (b.address .root) (UInt32.ofNat b.planOf.hbinSize)).bind
    (writeChecksum_edits b _ (length_imageHeader _ _))
  have hfun : (b.planOf.writeBaseBlock : Bytes → Exec ε Bytes) = fun buf =>
      writeFields (b.address .root) (UInt32.ofNat b.planOf.hbinSize) buf >>= fun buf =>
        writeU32 buf 0x1FC (BaseBlock.computeChecksum buf) := by
    funext buf
    unfold Plan.writeBaseBlock writeFields
    rw [show b.planOf.rootId = b.idOf .root from rfl, cellOffset_eq hroot, Exec.ok_bind]
    simp only [bind_assoc]
  refine Arena.Edits.settles ?_
  rw [hfun]
  exact hblock

/-- **The headers.** -/
theorem writeHeaders_runs (b : TestHiveBuilder) :
    b.arena.Runs (fun buf => (b.planOf.writeFreeCell buf >>= fun buf =>
      b.planOf.writeBinHeader buf >>= b.planOf.writeBaseBlock : Exec ε Bytes))
      b.linkedContent b.finalContent := by
  have hheaders := (@writeFreeCell_settles ε b).bind
    ((@writeBinHeader_settles ε b).bind (@writeBaseBlock_settles ε b) (by simp)) (by simp)
  refine (hheaders b.linkedContent fun _ _ => rfl).congr fun i hi => ?_
  cases i with
  | cell r => exact if_neg (by simp)
  | _ => exact if_pos (by simp)

/-! ## The file -/

/-- **Building succeeds**, and the file holds the linked cells and the headers. -/
theorem build_holds (h : b.Valid) {n : Nat} (hn : b.depth < n)
    (hsize : b.planOf.totalFileSize < 2 ^ 31) :
    ∃ image, (b.build n : Exec ε Bytes) = .ok image ∧ b.arena.Holds image b.finalContent := by
  have hruns := (@writeCells_runs b ε hsize).bind <|
    (@link_runs b ε h n hn).bind (@writeHeaders_runs ε b)
  obtain ⟨image, hrun, himage⟩ := hruns _ (blank_holds b)
  refine ⟨image, ?_, himage⟩
  unfold TestHiveBuilder.build Plan.write
  rw [plan_eq h hn, Exec.ok_bind]
  exact hrun

end Encoding

end Winreg.TestUtil
