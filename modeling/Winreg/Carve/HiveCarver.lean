/-
  CARVING A WHOLE HIVE out of a window of raw bytes.

  A window that starts with a base block is cut to the base block and the hive bins that it
  declares.  The carver takes the length from one header field, while the reader of hives walks the
  bins by their own sizes; the two fit together because every bin that the reader looks at starts
  at a multiple of 4096.

  1. **The carver** — `carve`: four gates on the header, then the cut.
  2. **The cut** — the walk over the bins looks at nothing behind the declared bins
     (`catalogHbins_cut`).
  3. **Carved hives** — a carvable window gives one item: the hive without what follows it, which
     opens like the window and carves to itself (`carve_lossless`).
-/
import Winreg.Core.Image

namespace Winreg

open Rust

namespace Carve

/-! ## The carver -/

/-- Upper bound on a single carved hive. -/
def maxHiveSize : Nat := 512 * 1024 * 1024

/-- The full base block occupies the first 4096 bytes of a hive. -/
def baseBlockSize : Nat := 4096

/-- Bins are 4096-aligned. -/
def hbinAlign : UInt32 := 4096

/-- The parts of the carving framework that the carver calls: what it reads of the context of a
    sweep, and how an item is made of its bytes. -/
structure ForensicCarve (Ctx Method Item : Type) where
  baseOffset : Ctx → UInt64
  recoveryMethod : Ctx → Method
  artifactBytes : String → UInt64 → Float32 → Method → Bytes → Item

/-- Bounds-checked little-endian `u32` read; out of range it yields 0. -/
def readU32Le (data : Bytes) (off : Nat) : UInt32 :=
  match getRange data off (off + 4) with
  | some word => u32At word 0
  | none => 0

/-- `u32::abs_diff`. -/
def absDiff (a b : UInt32) : UInt32 := if a < b then b - a else a - b

/-- Sequence numbers are plausible: both non-zero and within a small write-lag of each other. -/
def sequenceSane (primary secondary : UInt32) : Bool :=
  primary ≠ 0 && secondary ≠ 0 && absDiff primary secondary ≤ 1024

/-- The declared size is plausible: non-zero, aligned, and the whole hive within the cap. -/
def hiveBinsSizeSane (hbds : UInt32) : Bool :=
  hbds ≠ 0 && hbds % hbinAlign = 0 && baseBlockSize + hbds.toNat ≤ maxHiveSize

/-- Confidence above the base, from header fields that a random collision would miss. -/
def grade (window : Bytes) : Float32 :=
  let score : Float32 := 0.6
  let score := if readU32Le window 0x14 = 1 then score + 0.1 else score
  let score := if readU32Le window 0x1C = 0 then score + 0.1 else score
  if readU32Le window 0x20 = 1 then score + 0.1 else score

variable {Ctx Method Item : Type} (fc : ForensicCarve Ctx Method Item)

/-- Carve the hive at the start of a window.  Without the full header there is no second check, so a
    shorter window gives nothing. -/
def carve (window : Bytes) (ctx : Ctx) : List Item :=
  if window.length < 512 then []
  else if !BaseBlock.magic.isPrefixOf window then []
  else if !BaseBlock.validateChecksum window then []
  else
    let primary := readU32Le window 0x04
    let secondary := readU32Le window 0x08
    if !sequenceSane primary secondary then []
    else
      let hbds := readU32Le window 0x28
      if !hiveBinsSizeSane hbds then []
      else
        let claimed := baseBlockSize + hbds.toNat
        let cap := min maxHiveSize window.length
        let hiveLen := min claimed cap
        let bytes := (getRange window 0 hiveLen).getD window
        let confidence := grade window
        [fc.artifactBytes "registry-hive" (fc.baseOffset ctx) confidence (fc.recoveryMethod ctx)
          bytes]

end Carve

/-! ## The cut -/

/-- A header at a multiple of 4096 lies before the end as a whole, or behind it: so one step is the
    same on the buffer that is cut off at the end. -/
theorem catalogPass_cut {data : Bytes} {cut : Nat} (hcut : cut % 4096 = 0)
    (hlen : cut ≤ data.length) {s : CatalogState} (hs : s.pos % 4096 = 0) :
    catalogPass (bytesAt data 0 cut) cut s = catalogPass data cut s := by
  have hcutLen : (bytesAt data 0 cut).length = cut := length_bytesAt_of_le (by omega)
  have hread : ∀ off n, off + n ≤ cut →
      bytesAt (bytesAt data 0 cut) off n = bytesAt data off n := by
    intro off n ho
    rw [bytesAt_bytesAt ho, Nat.zero_add]
  unfold catalogPass
  by_cases hpos : s.pos < cut
  · -- both buffers hold the whole header
    have hin : s.pos + 32 ≤ cut := by omega
    have hcutIn : ¬ s.pos + 32 > (bytesAt data 0 cut).length := by omega
    have hdataIn : ¬ s.pos + 32 > data.length := by omega
    rw [if_pos hpos, if_pos hpos, if_neg hcutIn, if_neg hdataIn, slice_eq_ok (by omega) (by omega),
      slice_eq_ok (by omega) (by omega), hread _ _ (by omega)]
    dsimp only
    rw [leU32_eq_u32At (by omega), leU32_eq_u32At (by omega), leU32_eq_u32At (by omega),
      leU32_eq_u32At (by omega), u32At_congr (hread (s.pos + 4) 4 (by omega)),
      u32At_congr (hread (s.pos + 8) 4 (by omega))]
  · rw [if_neg hpos, if_neg hpos]

/-- **The walk over the bins** looks at nothing behind the declared bins: it starts at a multiple of
    4096 and moves on by such multiples. -/
theorem catalogHbins_cut {data : Bytes} {start expectedSize : Nat} (hstart : start % 4096 = 0)
    (hsize : expectedSize % 4096 = 0) (hlen : start + expectedSize ≤ data.length) :
    catalogHbins (bytesAt data 0 (start + expectedSize)) start expectedSize =
      catalogHbins data start expectedSize := by
  have hcut : (bytesAt data 0 (start + expectedSize)).length = start + expectedSize :=
    length_bytesAt_of_le (by omega)
  have hloop : ∀ (n : Nat) (s : CatalogState), s.pos % 4096 = 0 →
      Exec.loop (catalogPass (bytesAt data 0 (start + expectedSize)) (start + expectedSize)) n s =
        Exec.loop (catalogPass data (start + expectedSize)) n s := by
    refine Exec.loop_congr (fun s : CatalogState => s.pos % 4096 = 0)
      (fun s hs => catalogPass_cut (by omega) hlen hs) fun s t hs hagain => ?_
    obtain ⟨hbin, rfl⟩ := catalogPass_eq_again hagain
    have haligned := hbin.aligned
    dsimp only
    omega
  have hends : Exec.loop (catalogPass data (start + expectedSize)) (start + expectedSize + 1)
      ⟨start, []⟩ ≠ .timeout := by
    rw [← hloop _ _ hstart]
    exact loop_catalogPass_ne_timeout _ _ (by rw [hcut]; dsimp only; omega)
  unfold catalogHbins
  rw [hloop _ _ hstart, hcut]
  exact ((Exec.loop_grows _ _).stable hends _ (by omega)).symm

/-- **The cut hive opens like the whole buffer.** -/
theorem fromBytes_cut {data : Bytes} {n : Nat} (hn : n % 4096 = 0)
    (hlen : BaseBlock.size + n ≤ data.length) (hdeclared : (u32At data 0x28).toNat = n) :
    Exec.Rel (fun cut hive : Hive => cut.header = hive.header ∧ cut.version = hive.version ∧
        cut.bins = hive.bins ∧ cut.headerBytes = hive.headerBytes)
      (Hive.fromBytes (bytesAt data 0 (BaseBlock.size + n))) (Hive.fromBytes data) := by
  have hcut : (bytesAt data 0 (BaseBlock.size + n)).length = BaseBlock.size + n :=
    length_bytesAt_of_le (by omega)
  have hbase : bytesAt (bytesAt data 0 (BaseBlock.size + n)) 0 BaseBlock.size =
      bytesAt data 0 BaseBlock.size := by
    rw [bytesAt_bytesAt (by omega), Nat.zero_add]
  rw [Hive.fromBytes_eq_checkHeader, Hive.fromBytes_eq_checkHeader,
    Hive.checkHeader_congr (by omega) (by omega) hbase, hbase]
  refine Exec.Rel.after _ fun checked hchecked => ?_
  have hsize : checked.1.hiveBinsDataSize.toNat = n := by
    rw [← hdeclared, Hive.hiveBinsDataSize_of_checkHeader hchecked]
  rw [hsize, catalogHbins_cut (by decide) hn hlen]
  exact Exec.Rel.after _ fun bins _ => .ok ⟨rfl, rfl, rfl, rfl⟩

/-! ## Carved hives -/

namespace Carve

/-- Within the window the checked read is the plain one. -/
theorem readU32Le_eq_u32At {data : Bytes} {off : Nat} (h : off + 4 ≤ data.length) :
    readU32Le data off = u32At data off := by
  unfold readU32Le
  rw [getRange_eq_some (by omega) h, Nat.add_sub_cancel_left]
  dsimp only
  rw [u32At_bytesAt (by decide), Nat.add_zero]

/-- The length of the hive that a window declares. -/
def hiveLen (window : Bytes) : Nat := baseBlockSize + (u32At window 0x28).toNat

/-- A window that passes the gates and holds the whole hive that it declares. -/
structure Carvable (window : Bytes) : Prop where
  magic : BaseBlock.magic <+: window
  checksum : BaseBlock.validateChecksum window = true
  sequence : sequenceSane (u32At window 0x04) (u32At window 0x08) = true
  size : hiveBinsSizeSane (u32At window 0x28) = true
  whole : hiveLen window ≤ window.length

variable {Ctx Method Item : Type} (fc : ForensicCarve Ctx Method Item)

/-- The item that is carved from a window. -/
def hiveItem (window : Bytes) (ctx : Ctx) : Item :=
  fc.artifactBytes "registry-hive" (fc.baseOffset ctx) (grade window) (fc.recoveryMethod ctx)
    (bytesAt window 0 (hiveLen window))

/-- The gates of a carvable window are open, and the cut keeps the declared length. -/
theorem carve_eq {window : Bytes} (h : Carvable window) (ctx : Ctx) :
    carve fc window ctx = [hiveItem fc window ctx] := by
  have hbase : baseBlockSize = 4096 := rfl
  have hwhole := h.whole
  have hhead : baseBlockSize ≤ hiveLen window := Nat.le_add_right _ _
  have hsize := h.size
  unfold hiveBinsSizeSane at hsize
  simp only [Bool.and_eq_true, decide_eq_true_eq] at hsize
  have hcap : min (baseBlockSize + (u32At window 0x28).toNat) (min maxHiveSize window.length) =
      hiveLen window := Nat.min_eq_left (Nat.le_min.mpr ⟨hsize.2, hwhole⟩)
  unfold carve
  rw [if_neg (by omega), List.isPrefixOf_iff_prefix.mpr h.magic, h.checksum,
    readU32Le_eq_u32At (by omega), readU32Le_eq_u32At (by omega), readU32Le_eq_u32At (by omega)]
  dsimp only
  rw [h.sequence, h.size, hcap, getRange_eq_some (Nat.zero_le _) hwhole]
  rfl

/-- The windows that hold the hive that a carvable window holds. -/
structure SameHive (window other : Bytes) : Prop where
  whole : hiveLen window ≤ other.length
  bytes : bytesAt other 0 (hiveLen window) = bytesAt window 0 (hiveLen window)

namespace SameHive

variable {window other : Bytes}

/-- Windows with the same hive agree on every read within it. -/
theorem bytesAt_eq (h : SameHive window other) {off n : Nat} (hoff : off + n ≤ hiveLen window) :
    bytesAt other off n = bytesAt window off n := by
  have hpart := congrArg (fun data => bytesAt data off n) h.bytes
  rw [bytesAt_bytesAt hoff, bytesAt_bytesAt hoff, Nat.zero_add] at hpart
  exact hpart

/-- The hive of a window, cut out. -/
theorem cut (h : Carvable window) : SameHive window (bytesAt window 0 (hiveLen window)) := by
  have hcut : (bytesAt window 0 (hiveLen window)).length = hiveLen window :=
    length_bytesAt_of_le (by rw [Nat.zero_add]; exact h.whole)
  exact ⟨hcut.ge, bytesAt_zero_of_length_le hcut.le⟩

/-- What stands behind the hive makes no difference to the gates. -/
theorem carvable (h : SameHive window other) (hw : Carvable window) :
    Carvable other ∧ hiveLen other = hiveLen window := by
  have hbase : baseBlockSize = 4096 := rfl
  have hhead : baseBlockSize ≤ hiveLen window := Nat.le_add_right _ _
  have hlen := hw.whole
  have hother := h.whole
  have hword : ∀ off, off + 4 ≤ 512 → u32At other off = u32At window off :=
    fun off ho => u32At_congr (h.bytesAt_eq (by omega))
  have hsame : hiveLen other = hiveLen window := by
    unfold hiveLen
    rw [hword _ (by decide)]
  refine ⟨⟨?_, ?_, ?_, ?_, ?_⟩, hsame⟩
  · have hmagic := h.bytesAt_eq (show 0 + 4 ≤ hiveLen window by omega)
    obtain ⟨rest, hrest⟩ := hw.magic
    have hwindow : bytesAt window 0 4 = BaseBlock.magic :=
      bytesAt_part ((List.nil_append _).trans hrest).symm rfl rfl
    rw [← hwindow, ← hmagic]
    exact List.take_prefix 4 other
  · rw [BaseBlock.validateChecksum_congr (b := window)
      (by unfold hiveLen at hother; omega) fun off ho => h.bytesAt_eq (by omega)]
    exact hw.checksum
  · rw [hword _ (by decide), hword _ (by decide)]
    exact hw.sequence
  · rw [hword _ (by decide)]
    exact hw.size
  · show hiveLen other ≤ other.length
    rw [hsame]
    exact hother

/-- Nor to the item. -/
theorem hiveItem_eq (h : SameHive window other) (hw : Carvable window) (ctx : Ctx) :
    hiveItem fc other ctx = hiveItem fc window ctx := by
  have hbase : baseBlockSize = 4096 := rfl
  have hhead : baseBlockSize ≤ hiveLen window := Nat.le_add_right _ _
  have hlen := hw.whole
  have hother := h.whole
  have hread : ∀ off, off + 4 ≤ 512 → readU32Le other off = readU32Le window off := by
    intro off ho
    rw [readU32Le_eq_u32At (by unfold hiveLen at *; omega),
      readU32Le_eq_u32At (by unfold hiveLen at *; omega)]
    exact u32At_congr (h.bytesAt_eq (by omega))
  have hgrade : grade other = grade window := by
    unfold grade
    rw [hread _ (by decide), hread _ (by decide), hread _ (by decide)]
  unfold hiveItem
  rw [hgrade, (h.carvable hw).2, h.bytes]

end SameHive

/-- **Carving loses nothing.**  A carvable window gives exactly one item, the declared hive; it
    opens like the window does, or is refused with the same error.  What stands behind the hive has
    no influence, and the carved bytes carve to themselves.  The walk over the bins moves by
    multiples of 4096 up to the declared size, so a header that it looks at lies within the cut as a
    whole. -/
theorem carve_lossless {window : Bytes} (h : Carvable window) (ctx : Ctx) :
    ∃ bytes item, item = fc.artifactBytes "registry-hive" (fc.baseOffset ctx) (grade window)
        (fc.recoveryMethod ctx) bytes ∧
      carve fc window ctx = [item] ∧ bytes = window.take (hiveLen window) ∧
      ((∃ cut hive, Hive.fromBytes bytes = .ok cut ∧ Hive.fromBytes window = .ok hive ∧
          cut.header = hive.header ∧ cut.version = hive.version ∧ cut.bins = hive.bins) ∨
        ∃ e, Hive.fromBytes bytes = .err e ∧ Hive.fromBytes window = .err e) ∧
      (∀ other, SameHive window other → carve fc other ctx = [item]) ∧
      carve fc bytes ctx = [item] := by
  have hothers : ∀ other, SameHive window other →
      carve fc other ctx = [hiveItem fc window ctx] := by
    intro other hother
    rw [carve_eq fc (hother.carvable h).1, hother.hiveItem_eq fc h]
  refine ⟨bytesAt window 0 (hiveLen window), hiveItem fc window ctx, rfl, carve_eq fc h ctx, rfl, ?_,
    hothers, hothers _ (SameHive.cut h)⟩
  have hsize := h.size
  unfold hiveBinsSizeSane hbinAlign at hsize
  simp only [Bool.and_eq_true, decide_eq_true_eq] at hsize
  have haligned : (u32At window 0x28).toNat % 4096 = 0 := by
    have hmod := congrArg UInt32.toNat hsize.1.2
    rwa [UInt32.toNat_mod] at hmod
  have hrel := fromBytes_cut haligned h.whole rfl
  have hreturns := Hive.fromBytes_returns window
  have hcut : bytesAt window 0 (hiveLen window) =
      bytesAt window 0 (BaseBlock.size + (u32At window 0x28).toNat) := rfl
  rw [hcut]
  rcases hreturns with ⟨hive, hopen⟩ | ⟨e, hrefused⟩
  · rw [hopen] at hrel ⊢
    generalize Hive.fromBytes _ = cut at hrel ⊢
    cases hrel with
    | ok hsame => exact Or.inl ⟨_, _, rfl, rfl, hsame.1, hsame.2.1, hsame.2.2.1⟩
  · rw [hrefused] at hrel ⊢
    generalize Hive.fromBytes _ = cut at hrel ⊢
    cases hrel with
    | err e => exact Or.inr ⟨e, rfl, rfl⟩

/-- A hive of one bin, and a byte that is not part of it. -/
def sweptWindow : Bytes := oneBinImage 32 [] ++ [0xAB]

/-- The sample passes the four gates. -/
theorem sweptWindow_carvable : Carvable sweptWindow := by
  have himage : (oneBinImage 32 []).length = 8192 := length_oneBinImage 32 (by decide)
  have hlen : sweptWindow.length = 8193 := by
    rw [sweptWindow, List.length_append, himage]
    rfl
  have hblock : bytesAt sweptWindow 0 512 = imageBlock 32 4096 := by
    rw [sweptWindow, bytesAt_append_left (by omega), bytesAt_oneBinBlock]
  have hword : ∀ {off : Nat} {x : UInt32}, off + 4 ≤ 48 →
      bytesAt (imageFields 32 4096) off 4 = u32Bytes x → u32At sweptWindow off = x :=
    fun hoff hx => u32At_of_bytesAt ((bytesAt_imageFields hblock hoff).trans hx)
  have hprimary : u32At sweptWindow 0x04 = 1 := hword (by decide) rfl
  have hsecondary : u32At sweptWindow 0x08 = 1 := hword (by decide) rfl
  have hsize : u32At sweptWindow 0x28 = 4096 := hword (by decide) rfl
  refine ⟨?_, ?_, ?_, ?_, ?_⟩
  · have hmagic : bytesAt sweptWindow 0 4 = BaseBlock.magic :=
      (bytesAt_imageFields hblock (by decide)).trans rfl
    rw [← hmagic]
    exact List.take_prefix 4 sweptWindow
  · exact (BaseBlock.read_imageBlock (by rw [hlen]; decide) hblock).2
  · rw [hprimary, hsecondary]
    decide
  · rw [hsize]
    decide
  · unfold hiveLen
    rw [hsize, hlen]
    decide

/-- A sweep that keeps everything it is given. -/
def keepAll : ForensicCarve (UInt64 × Unit) Unit (String × UInt64 × Float32 × Unit × Bytes) where
  baseOffset := Prod.fst
  recoveryMethod := Prod.snd
  artifactBytes format offset confidence method bytes := (format, offset, confidence, method, bytes)

/-- The byte behind the hive is cut off. -/
theorem carve_lossless_swept :
    ∃ bytes item, item = ("registry-hive", 0x5000, grade sweptWindow, (), bytes) ∧
      carve keepAll sweptWindow (0x5000, ()) = [item] ∧
      bytes = sweptWindow.take (hiveLen sweptWindow) ∧
      ((∃ cut hive, Hive.fromBytes bytes = .ok cut ∧ Hive.fromBytes sweptWindow = .ok hive ∧
          cut.header = hive.header ∧ cut.version = hive.version ∧ cut.bins = hive.bins) ∨
        ∃ e, Hive.fromBytes bytes = .err e ∧ Hive.fromBytes sweptWindow = .err e) ∧
      (∀ other, SameHive sweptWindow other → carve keepAll other (0x5000, ()) = [item]) ∧
      carve keepAll bytes (0x5000, ()) = [item] :=
  carve_lossless keepAll sweptWindow_carvable ((0x5000 : UInt64), ())

end Carve

end Winreg
