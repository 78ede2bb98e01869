/-
  OPENING A HIVE: base block checks and the catalog of hive bins.

  `Hive.fromBytes` refuses a buffer that is shorter than the base block, has the wrong magic, a
  wrong checksum or an unknown version, and then walks the hive bins: from 4096 on, one 32-byte
  header after the other, each giving the size of its bin.  The walk stops quietly at the end of
  the declared bins data, at a header that is cut off, and at a size that is not a positive
  multiple of 4096; only a header without the magic `hbin` is an error.

  `Hive.Accepted` is what every accepted hive satisfies; the later modules use nothing else about
  opening a hive.
-/
import Winreg.Format.Header

namespace Winreg

open Rust

/-- The errors of the core reader. -/
inductive HiveError where
  | invalidSignature
  | checksumMismatch (expected computed : UInt32)
  | unsupportedVersion (major minor : UInt32)
  | cellOverflow (offset : CellOffset) (cellSize : Nat) (hbinEnd : Nat)
  | invalidCellSignature (offset : CellOffset) (expected : String) (byte0 byte1 : UInt8)
  | unallocatedCell (offset : CellOffset)
  | nullOffset
  | truncatedHive (expected actual : Nat)
  | invalidHbin (fileOffset : Nat)
deriving DecidableEq, Repr

/-- A cataloged hive bin. -/
structure HbinDescriptor where
  /-- Offset of this bin from the start of the hive bins data, as its header says. -/
  offset : UInt32
  /-- Size of this bin in bytes. -/
  size : UInt32
  /-- File offset where this bin starts. -/
  fileOffset : Nat
deriving DecidableEq, Repr

/-- A parsed hive over an in-memory buffer. -/
structure Hive where
  /-- The whole file (`reader`). -/
  data : Bytes
  header : BaseBlock
  version : RegfVersion
  bins : List HbinDescriptor
  headerBytes : Bytes
deriving DecidableEq, Repr

/-- The magic `hbin`. -/
def hbinMagic : Bytes := [0x68, 0x62, 0x69, 0x6E]

/-- State of the catalog walk: the position of the next header and the bins so far. -/
structure CatalogState where
  pos : Nat
  bins : List HbinDescriptor

/-- One pass of the walk over the hive bins. -/
def catalogPass (data : Bytes) (stop : Nat) (s : CatalogState) :
    Exec HiveError (Exec.Pass CatalogState (List HbinDescriptor)) :=
  if s.pos < stop then
    if s.pos + 32 > data.length then .ok (.leave s.bins)
    else do
      let sig ← slice data s.pos (s.pos + 4)
      if sig ≠ hbinMagic then .err (.invalidHbin s.pos)
      else
        let offset := leU32 data (s.pos + 4)
        let size := leU32 data (s.pos + 8)
        if size = 0 ∨ size.toNat % 4096 ≠ 0 then .ok (.leave s.bins)
        else .ok (.again ⟨s.pos + size.toNat, s.bins ++ [⟨offset, size, s.pos⟩]⟩)
  else .ok (.leave s.bins)

/-- Walk the hive bins data and build the catalog.  Every pass that goes round again moves on
    inside the buffer, so its length bounds the number of passes. -/
def catalogHbins (data : Bytes) (start expectedSize : Nat) :
    Exec HiveError (List HbinDescriptor) :=
  Exec.loop (catalogPass data (start + expectedSize)) (data.length + 1) ⟨start, []⟩

namespace Hive

/-- Open a hive from an in-memory byte buffer. -/
def fromBytes (data : Bytes) : Exec HiveError Hive :=
  if data.length < BaseBlock.size then .err (.truncatedHive BaseBlock.size data.length)
  else
    match BaseBlock.read data with
    | none => .err .invalidSignature
    | some header =>
      if !BaseBlock.validateChecksum data then
        .err (.checksumMismatch (u32At data 0x1FC) (BaseBlock.computeChecksum data))
      else
        match RegfVersion.fromMinor header.minorVersion with
        | none => .err (.unsupportedVersion header.majorVersion header.minorVersion)
        | some version => do
          let headerBytes := bytesAt data 0 BaseBlock.size
          let bins ← catalogHbins data BaseBlock.size header.hiveBinsDataSize.toNat
          .ok ⟨data, header, version, bins, headerBytes⟩

/-- Whether the hive was cleanly synchronized. -/
def isClean (hive : Hive) : Bool := hive.header.primarySequence == hive.header.secondarySequence

/-- Root cell offset. -/
def rootCellOffset (hive : Hive) : CellOffset := ⟨hive.header.rootCellOffset⟩

/-- Raw hive bytes, the base block and every hbin included. -/
def rawBytes (hive : Hive) : Bytes := hive.data

end Hive

/-! ## The catalog walk -/

/-- A bin header that is cataloged: before the end of the bins data and inside the buffer, with the
    magic and a size that is a positive multiple of 4096. -/
structure BinAt (data : Bytes) (stop pos : Nat) : Prop where
  before_stop : pos < stop
  inside : pos + 32 ≤ data.length
  magic : bytesAt data pos 4 = hbinMagic
  size_pos : 0 < (u32At data (pos + 8)).toNat
  aligned : (u32At data (pos + 8)).toNat % 4096 = 0

/-- The walk stops quietly: at the end of the bins data, at a header that is cut off, or at a size
    that is not a positive multiple of 4096. -/
def StopsAt (data : Bytes) (stop pos : Nat) : Prop :=
  stop ≤ pos ∨ data.length < pos + 32 ∨
    (bytesAt data pos 4 = hbinMagic ∧
      ((u32At data (pos + 8)).toNat = 0 ∨ (u32At data (pos + 8)).toNat % 4096 ≠ 0))

/-- The bin whose header is at a position. -/
def binAt (data : Bytes) (pos : Nat) : HbinDescriptor :=
  ⟨u32At data (pos + 4), u32At data (pos + 8), pos⟩

/-- A bad size is the only thing a header with the magic is checked for. -/
theorem badSize_iff (size : UInt32) :
    (size = 0 ∨ size.toNat % 4096 ≠ 0) ↔ (size.toNat = 0 ∨ size.toNat % 4096 ≠ 0) :=
  or_congr (UInt32.toNat_inj (b := 0)).symm Iff.rfl

/-- At a bin header the walk notes the bin and moves on by its size. -/
theorem catalogPass_again {data : Bytes} {stop pos : Nat} (h : BinAt data stop pos)
    (bins : List HbinDescriptor) : catalogPass data stop ⟨pos, bins⟩ =
      .ok (.again ⟨pos + (u32At data (pos + 8)).toNat, bins ++ [binAt data pos]⟩) := by
  have hinside := h.inside
  have hsize : ¬ (u32At data (pos + 8) = 0 ∨ (u32At data (pos + 8)).toNat % 4096 ≠ 0) := by
    rw [badSize_iff]
    rintro (hz | hm)
    · have := h.size_pos; omega
    · exact hm h.aligned
  unfold catalogPass
  dsimp only
  rw [if_pos h.before_stop, if_neg (by omega), slice_eq_ok (by omega) (by omega), Exec.ok_bind,
    Nat.add_sub_cancel_left, if_neg (not_not.mpr h.magic), leU32_eq_u32At (by omega),
    leU32_eq_u32At (by omega), if_neg hsize]
  rfl

/-- Anywhere else it stops with the bins it has. -/
theorem catalogPass_leave {data : Bytes} {stop pos : Nat} (h : StopsAt data stop pos)
    (bins : List HbinDescriptor) : catalogPass data stop ⟨pos, bins⟩ = .ok (.leave bins) := by
  unfold catalogPass
  dsimp only
  by_cases hpos : pos < stop
  · by_cases hlen : pos + 32 > data.length
    · rw [if_pos hpos, if_pos hlen]
    · obtain h' | h' | ⟨hmagic, hsize⟩ := h
      · omega
      · omega
      · rw [if_pos hpos, if_neg hlen, slice_eq_ok (by omega) (by omega), Exec.ok_bind,
          Nat.add_sub_cancel_left, if_neg (not_not.mpr hmagic), leU32_eq_u32At (by omega),
          leU32_eq_u32At (by omega), if_pos ((badSize_iff _).mpr hsize)]
  · rw [if_neg hpos]

/-- What one pass of the walk can do: catalog one more bin, stop, or refuse the header. -/
theorem catalogPass_cases (data : Bytes) (stop pos : Nat) :
    BinAt data stop pos ∨ StopsAt data stop pos ∨
      ∀ bins, catalogPass data stop ⟨pos, bins⟩ = .err (.invalidHbin pos) := by
  by_cases hpos : pos < stop
  · by_cases hlen : pos + 32 > data.length
    · exact Or.inr (Or.inl (Or.inr (Or.inl hlen)))
    · by_cases hmagic : bytesAt data pos 4 = hbinMagic
      · by_cases hsize : (u32At data (pos + 8)).toNat = 0 ∨
            (u32At data (pos + 8)).toNat % 4096 ≠ 0
        · exact Or.inr (Or.inl (Or.inr (Or.inr ⟨hmagic, hsize⟩)))
        · exact Or.inl ⟨hpos, by omega, hmagic, by omega, by omega⟩
      · refine Or.inr (Or.inr fun bins => ?_)
        unfold catalogPass
        dsimp only
        rw [if_pos hpos, if_neg hlen, slice_eq_ok (by omega) (by omega), Exec.ok_bind,
          Nat.add_sub_cancel_left, if_pos hmagic]
  · exact Or.inr (Or.inl (Or.inl (by omega)))

/-- A pass that goes round again has cataloged one more bin. -/
theorem catalogPass_eq_again {data : Bytes} {stop : Nat} {s t : CatalogState}
    (h : catalogPass data stop s = .ok (.again t)) : BinAt data stop s.pos ∧
      t = ⟨s.pos + (u32At data (s.pos + 8)).toNat, s.bins ++ [binAt data s.pos]⟩ := by
  rcases catalogPass_cases data stop s.pos with hbin | hstop | herr
  · have hagain : catalogPass data stop s = _ := catalogPass_again hbin s.bins
    rw [hagain] at h
    exact ⟨hbin, by simpa using h.symm⟩
  · have hleave : catalogPass data stop s = _ := catalogPass_leave hstop s.bins
    rw [hleave] at h
    cases h
  · have hfail : catalogPass data stop s = _ := herr s.bins
    rw [hfail] at h
    cases h

/-- The walk moves on inside the buffer, so the passes it is given are enough. -/
theorem loop_catalogPass_ne_timeout (data : Bytes) (stop : Nat) {n : Nat} {s : CatalogState}
    (hn : data.length - s.pos < n) : Exec.loop (catalogPass data stop) n s ≠ .timeout := by
  refine Exec.loop_ne_timeout (fun _ => True) (fun s => data.length - s.pos) (fun s _ => ?_)
    (fun s t _ h => ?_) n s trivial hn
  · rcases catalogPass_cases data stop s.pos with hbin | hstop | herr
    · exact (catalogPass_again hbin s.bins).trans_ne nofun
    · exact (catalogPass_leave hstop s.bins).trans_ne nofun
    · exact (herr s.bins).trans_ne nofun
  · obtain ⟨hbin, rfl⟩ := catalogPass_eq_again h
    have hpos := hbin.size_pos
    have hinside := hbin.inside
    exact ⟨trivial, by dsimp only; omega⟩

/-- The walk from a position catalogs these bins. -/
inductive Cataloged (data : Bytes) (stop : Nat) : Nat → List HbinDescriptor → Prop where
  | stop {pos : Nat} (h : StopsAt data stop pos) : Cataloged data stop pos []
  | bin {pos : Nat} {rest : List HbinDescriptor} (h : BinAt data stop pos)
      (tail : Cataloged data stop (pos + (u32At data (pos + 8)).toNat) rest) :
      Cataloged data stop pos (binAt data pos :: rest)

/-- The bins that the walk has noted when it comes back are those of a catalogue from its position
    on.  By induction on the fuel, for any start and any accumulator. -/
theorem cataloged_of_loop {data : Bytes} {stop : Nat} : ∀ (n pos : Nat)
    (acc bins : List HbinDescriptor),
    Exec.loop (catalogPass data stop) n ⟨pos, acc⟩ = .ok bins →
      ∃ rest, bins = acc ++ rest ∧ Cataloged data stop pos rest := by
  intro n
  induction n with
  | zero => intro pos acc bins h; cases h
  | succ n ih =>
    intro pos acc bins h
    rcases catalogPass_cases data stop pos with hbin | hstop | herr
    · rw [Exec.loop_again (catalogPass_again hbin acc)] at h
      obtain ⟨rest, hrest, htail⟩ := ih _ _ _ h
      exact ⟨_, by rw [hrest, List.append_assoc, List.singleton_append], .bin hbin htail⟩
    · rw [Exec.loop_leave (catalogPass_leave hstop acc)] at h
      exact ⟨[], by simpa using h.symm, .stop hstop⟩
    · rw [Exec.loop, herr, Exec.err_bind] at h
      cases h

/-- And a catalogue is walked in as many passes as there are bytes, since no bin is empty. -/
theorem Cataloged.loop {data : Bytes} {stop pos : Nat} {rest : List HbinDescriptor}
    (h : Cataloged data stop pos rest) : ∀ (n : Nat) (acc : List HbinDescriptor),
      data.length - pos < n →
      Exec.loop (catalogPass data stop) n ⟨pos, acc⟩ = .ok (acc ++ rest) := by
  induction h with
  | stop hstop =>
    intro n acc hn
    obtain ⟨m, rfl⟩ : ∃ m, n = m + 1 := ⟨n - 1, by omega⟩
    rw [Exec.loop_leave (catalogPass_leave hstop acc), List.append_nil]
  | bin hbin _ ih =>
    intro n acc hn
    have := hbin.size_pos
    have := hbin.inside
    obtain ⟨m, rfl⟩ : ∃ m, n = m + 1 := ⟨n - 1, by omega⟩
    rw [Exec.loop_again (catalogPass_again hbin acc), ih m _ (by omega), List.append_assoc,
      List.singleton_append]

/-- **The catalog** is what the headers say, one after the other. -/
theorem catalogHbins_eq_ok_iff {data : Bytes} {start expectedSize : Nat}
    {bins : List HbinDescriptor} : catalogHbins data start expectedSize = .ok bins ↔
      Cataloged data (start + expectedSize) start bins := by
  constructor
  · intro h
    obtain ⟨rest, hrest, hcat⟩ := cataloged_of_loop _ _ _ _ h
    rw [hrest, List.nil_append]
    exact hcat
  · intro h
    have hloop := h.loop (data.length + 1) [] (by omega)
    rw [List.nil_append] at hloop
    exact hloop

/-- The catalog fails only on a header without the magic. -/
theorem catalogHbins_eq_err {data : Bytes} {start expectedSize : Nat} {e : HiveError}
    (h : catalogHbins data start expectedSize = .err e) : ∃ pos, e = .invalidHbin pos := by
  obtain ⟨s, _, hs⟩ := (Exec.loop_fails (fun _ => True) (fun _ _ _ _ => trivial) _ _ trivial).1 e h
  rcases catalogPass_cases data (start + expectedSize) s.pos with hbin | hstop | herr
  · cases hs.symm.trans (catalogPass_again hbin s.bins)
  · cases hs.symm.trans (catalogPass_leave hstop s.bins)
  · cases hs.symm.trans (herr s.bins)
    exact ⟨s.pos, rfl⟩

/-- The walk always comes back: bins have a positive size. -/
theorem catalogHbins_returns (data : Bytes) (start expectedSize : Nat) :
    (catalogHbins data start expectedSize).Returns := by
  refine Exec.returns_iff.mpr ⟨fun hpanic => ?_, loop_catalogPass_ne_timeout _ _ (by omega)⟩
  obtain ⟨s, _, hs⟩ :=
    (Exec.loop_fails (fun _ => True) (fun _ _ _ _ => trivial) _ _ trivial).2 hpanic
  rcases catalogPass_cases data (start + expectedSize) s.pos with hbin | hstop | herr
  · cases hs.symm.trans (catalogPass_again hbin s.bins)
  · cases hs.symm.trans (catalogPass_leave hstop s.bins)
  · cases hs.symm.trans (herr s.bins)

/-- Consecutive bins: the first starts at `start`, each next one where the previous one ends, every
    header lies inside the buffer and every size is a positive multiple of 4096. -/
inductive Tiling (data : Bytes) : Nat → List HbinDescriptor → Prop where
  | nil (start : Nat) : Tiling data start []
  | cons {start : Nat} {bin : HbinDescriptor} {rest : List HbinDescriptor}
      (at_start : bin.fileOffset = start) (header_inside : start + 32 ≤ data.length)
      (size_read : bin.size = u32At data (start + 8)) (size_pos : 0 < bin.size.toNat)
      (aligned : bin.size.toNat % 4096 = 0)
      (tail : Tiling data (start + bin.size.toNat) rest) : Tiling data start (bin :: rest)

/-- Every bin of a tiling starts at or after the start of the tiling. -/
theorem Tiling.start_le {data : Bytes} {start : Nat} {bins : List HbinDescriptor}
    (h : Tiling data start bins) {bin : HbinDescriptor} (hb : bin ∈ bins) :
    start ≤ bin.fileOffset := by
  induction h with
  | nil => exact absurd hb List.not_mem_nil
  | cons h1 _ _ _ _ _ ih =>
    rcases List.mem_cons.mp hb with rfl | hb
    · exact h1.ge
    · have := ih hb; omega

/-- Two bins of a tiling are the same or do not overlap. -/
theorem Tiling.disjoint {data : Bytes} {start : Nat} {bins : List HbinDescriptor}
    (h : Tiling data start bins) {bin bin' : HbinDescriptor} (hb : bin ∈ bins)
    (hb' : bin' ∈ bins) : bin = bin' ∨ bin.fileOffset + bin.size.toNat ≤ bin'.fileOffset ∨
      bin'.fileOffset + bin'.size.toNat ≤ bin.fileOffset := by
  induction h with
  | nil => exact absurd hb List.not_mem_nil
  | cons hat _ _ _ _ tail ih =>
    rcases List.mem_cons.mp hb with rfl | hmem
    · rcases List.mem_cons.mp hb' with rfl | hmem'
      · exact Or.inl rfl
      · exact Or.inr (Or.inl (hat ▸ tail.start_le hmem'))
    · rcases List.mem_cons.mp hb' with rfl | hmem'
      · exact Or.inr (Or.inr (hat ▸ tail.start_le hmem))
      · exact ih hmem hmem'

/-- The bins of a catalogue lie side by side. -/
theorem Cataloged.tiling {data : Bytes} {stop pos : Nat} {bins : List HbinDescriptor}
    (h : Cataloged data stop pos bins) : Tiling data pos bins := by
  induction h with
  | stop => exact .nil _
  | bin hbin _ ih => exact .cons rfl hbin.inside rfl hbin.size_pos hbin.aligned ih

/-- **The cataloged bins tile the file** from the start of the bins data on. -/
theorem catalogHbins_tiling {data : Bytes} {start expectedSize : Nat}
    {bins : List HbinDescriptor} (h : catalogHbins data start expectedSize = .ok bins) :
    Tiling data start bins :=
  (catalogHbins_eq_ok_iff.mp h).tiling

/-! ## Header checks -/

/-- The checks of `fromBytes` on the base block, before the catalog: length, magic, checksum and
    version. -/
def Hive.checkHeader (data : Bytes) : Exec HiveError (BaseBlock × RegfVersion) :=
  if data.length < BaseBlock.size then .err (.truncatedHive BaseBlock.size data.length)
  else
    match BaseBlock.read data with
    | none => .err .invalidSignature
    | some header =>
      if !BaseBlock.validateChecksum data then
        .err (.checksumMismatch (u32At data 0x1FC) (BaseBlock.computeChecksum data))
      else
        match RegfVersion.fromMinor header.minorVersion with
        | none => .err (.unsupportedVersion header.majorVersion header.minorVersion)
        | some version => .ok (header, version)

/-- Opening a hive is checking its header and cataloging its bins. -/
theorem Hive.fromBytes_eq_checkHeader (data : Bytes) :
    Hive.fromBytes data = (Hive.checkHeader data >>= fun checked =>
      catalogHbins data BaseBlock.size checked.1.hiveBinsDataSize.toNat >>= fun bins =>
        .ok ⟨data, checked.1, checked.2, bins, bytesAt data 0 BaseBlock.size⟩) := by
  unfold Hive.fromBytes Hive.checkHeader
  split
  · rfl
  · cases BaseBlock.read data with
    | none => rfl
    | some header =>
      dsimp only
      split
      · rfl
      · cases RegfVersion.fromMinor header.minorVersion <;> rfl

/-- The checks of the header fail with an error or not at all. -/
theorem Hive.checkHeader_returns (data : Bytes) : (Hive.checkHeader data).Returns := by
  unfold Hive.checkHeader
  split
  · exact Or.inr ⟨_, rfl⟩
  · cases BaseBlock.read data with
    | none => exact Or.inr ⟨_, rfl⟩
    | some header =>
      dsimp only
      split
      · exact Or.inr ⟨_, rfl⟩
      · cases RegfVersion.fromMinor header.minorVersion with
        | none => exact Or.inr ⟨_, rfl⟩
        | some version => exact Or.inl ⟨_, rfl⟩

/-- **Opening a hive** always comes back, with a hive or with an error. -/
theorem Hive.fromBytes_returns (data : Bytes) : (Hive.fromBytes data).Returns := by
  rw [Hive.fromBytes_eq_checkHeader]
  rcases Hive.checkHeader_returns data with ⟨checked, h⟩ | ⟨e, h⟩
  · rw [h, Exec.ok_bind]
    rcases catalogHbins_returns data BaseBlock.size checked.1.hiveBinsDataSize.toNat with
      ⟨bins, hbins⟩ | ⟨e, herr⟩
    · rw [hbins, Exec.ok_bind]
      exact Or.inl ⟨_, rfl⟩
    · rw [herr, Exec.err_bind]
      exact Or.inr ⟨e, rfl⟩
  · rw [h, Exec.err_bind]
    exact Or.inr ⟨e, rfl⟩

/-- The size of the bins data that a header with a good verdict declares. -/
theorem Hive.hiveBinsDataSize_of_checkHeader {data : Bytes} {checked : BaseBlock × RegfVersion}
    (h : Hive.checkHeader data = .ok checked) :
    checked.1.hiveBinsDataSize = u32At data 0x28 := by
  unfold Hive.checkHeader at h
  split at h
  · cases h
  · split at h
    · cases h
    · rename_i header hread
      split at h
      · cases h
      · split at h
        · cases h
        · cases h
          unfold BaseBlock.read at hread
          split at hread
          · cases hread
          · split at hread
            · cases hread
            · cases hread
              rfl

/-- Buffers with the same base block have the same header. -/
theorem bytesAt_header_eq {a b : Bytes}
    (h : bytesAt a 0 BaseBlock.size = bytesAt b 0 BaseBlock.size) (off n : Nat)
    (hoff : off + n ≤ 512) : bytesAt a off n = bytesAt b off n := by
  have hsize : BaseBlock.size = 4096 := rfl
  have hpart := congrArg (fun data => bytesAt data off n) h
  rw [bytesAt_bytesAt (by omega), bytesAt_bytesAt (by omega), Nat.zero_add] at hpart
  exact hpart

/-- **The header checks look at the base block only.** -/
theorem Hive.checkHeader_congr {a b : Bytes} (ha : BaseBlock.size ≤ a.length)
    (hb : BaseBlock.size ≤ b.length)
    (h : bytesAt a 0 BaseBlock.size = bytesAt b 0 BaseBlock.size) :
    Hive.checkHeader a = Hive.checkHeader b := by
  have hsize : BaseBlock.size = 4096 := rfl
  have hbase := bytesAt_header_eq h
  have hlen : a.length < 512 ↔ b.length < 512 := by omega
  have hword : ∀ off, off + 4 ≤ 508 → bytesAt a off 4 = bytesAt b off 4 :=
    fun off ho => hbase off 4 (by omega)
  unfold Hive.checkHeader
  rw [if_neg (by omega), if_neg (by omega), BaseBlock.read_congr hlen hbase,
    BaseBlock.validateChecksum_congr hlen fun off ho => hbase off 4 ho,
    BaseBlock.computeChecksum_congr hword, u32At_congr (hbase 0x1FC 4 (by decide))]

/-- Also when both are too short for a base block. -/
theorem Hive.checkHeader_congr_of_length {a b : Bytes} (hlen : a.length = b.length)
    (h : bytesAt a 0 BaseBlock.size = bytesAt b 0 BaseBlock.size) :
    Hive.checkHeader a = Hive.checkHeader b := by
  by_cases hshort : a.length < BaseBlock.size
  · unfold Hive.checkHeader
    rw [if_pos hshort, if_pos (hlen ▸ hshort), hlen]
  · exact Hive.checkHeader_congr (Nat.le_of_not_lt hshort) (hlen ▸ Nat.le_of_not_lt hshort) h

/-! ## Accepted hives -/

/-- What `Hive.fromBytes` has checked of a hive it returns. -/
structure Hive.Accepted (hive : Hive) : Prop where
  size_le : BaseBlock.size ≤ hive.data.length
  tiling : Tiling hive.data BaseBlock.size hive.bins

/-- A buffer that passes all stages opens. -/
theorem Hive.fromBytes_of_stages {data : Bytes} {header : BaseBlock} {version : RegfVersion}
    {bins : List HbinDescriptor} (hlen : BaseBlock.size ≤ data.length)
    (hread : BaseBlock.read data = some header) (hsum : BaseBlock.validateChecksum data = true)
    (hver : RegfVersion.fromMinor header.minorVersion = some version)
    (hbins : Cataloged data (BaseBlock.size + header.hiveBinsDataSize.toNat) BaseBlock.size bins) :
    Hive.fromBytes data = .ok ⟨data, header, version, bins, bytesAt data 0 BaseBlock.size⟩ := by
  unfold Hive.fromBytes
  rw [if_neg (by omega), hread]
  dsimp only
  rw [hsum, Bool.not_true, if_neg (by decide), hver]
  dsimp only
  rw [catalogHbins_eq_ok_iff.mpr hbins, Exec.ok_bind]

/-- The stages of opening a hive, all of them passed. -/
theorem Hive.fromBytes_eq_ok {data : Bytes} {hive : Hive} (h : Hive.fromBytes data = .ok hive) :
    BaseBlock.size ≤ data.length ∧ hive.data = data ∧
      BaseBlock.read data = some hive.header ∧ BaseBlock.validateChecksum data = true ∧
      RegfVersion.fromMinor hive.header.minorVersion = some hive.version ∧
      catalogHbins data BaseBlock.size hive.header.hiveBinsDataSize.toNat = .ok hive.bins ∧
      hive.headerBytes = bytesAt data 0 BaseBlock.size := by
  unfold Hive.fromBytes at h
  split at h
  · cases h
  · rename_i hlen
    split at h
    · cases h
    · rename_i header hread
      split at h
      · cases h
      · rename_i hsum
        split at h
        · cases h
        · rename_i version hver
          obtain ⟨bins, hbins, hhive⟩ := Exec.bind_eq_ok.mp h
          obtain rfl : Hive.mk data header version bins (bytesAt data 0 BaseBlock.size) = hive := by
            simpa using hhive
          exact ⟨by omega, rfl, hread, by simpa using hsum, hver, hbins, rfl⟩

/-- A hive that opens has passed all checks, and holds the bytes that were given. -/
theorem Hive.fromBytes_accepted {data : Bytes} {hive : Hive}
    (h : Hive.fromBytes data = .ok hive) : hive.Accepted ∧ hive.data = data := by
  obtain ⟨hlen, hdata, _, _, _, hbins, _⟩ := Hive.fromBytes_eq_ok h
  exact ⟨⟨by rw [hdata]; exact hlen, by rw [hdata]; exact catalogHbins_tiling hbins⟩, hdata⟩

end Winreg
