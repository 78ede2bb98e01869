/-
  The BASE BLOCK of a hive: the header in its first 512 bytes, its checksum, and the version.

  `BaseBlock.read` is the declarative field list of the header (little-endian, in order, after the
  magic `regf`); it fails on a wrong magic or when the bytes run out.  The checksum is the XOR of
  the 127 words before it, with `0` stored as `1` and `0xFFFFFFFF` as `0xFFFFFFFE`.
-/
import Winreg.Format.Cells
import Winreg.Base.XorFold

namespace Winreg

open Rust

/-- Base block header (first 512 bytes of the 4096-byte header block). -/
structure BaseBlock where
  primarySequence : UInt32
  secondarySequence : UInt32
  lastWritten : UInt64
  majorVersion : UInt32
  minorVersion : UInt32
  fileType : UInt32
  format : UInt32
  rootCellOffset : UInt32
  hiveBinsDataSize : UInt32
  clusteringFactor : UInt32
  fileName : Bytes
  rmId : Bytes
  logId : Bytes
  flags : UInt32
  tmId : Bytes
  guidSignature : UInt32
  lastReorganizeTime : UInt64
  reserved1 : Bytes
  checksum : UInt32
deriving DecidableEq, Repr

namespace BaseBlock

/-- Size of the base block in the file. -/
def size : Nat := 4096

/-- The magic `regf`. -/
def magic : Bytes := [0x72, 0x65, 0x67, 0x66]

/-- Read the header fields in order. -/
def read (data : Bytes) : Option BaseBlock :=
  if data.length < 512 then none
  else if bytesAt data 0 4 ≠ magic then none
  else some
    { primarySequence := u32At data 4
      secondarySequence := u32At data 8
      lastWritten := u64At data 12
      majorVersion := u32At data 20
      minorVersion := u32At data 24
      fileType := u32At data 28
      format := u32At data 32
      rootCellOffset := u32At data 36
      hiveBinsDataSize := u32At data 40
      clusteringFactor := u32At data 44
      fileName := bytesAt data 48 64
      rmId := bytesAt data 112 16
      logId := bytesAt data 128 16
      flags := u32At data 144
      tmId := bytesAt data 148 16
      guidSignature := u32At data 164
      lastReorganizeTime := u64At data 168
      reserved1 := bytesAt data 176 332
      checksum := u32At data 508 }

/-- XOR of the 127 words at offsets `0x000`–`0x1FB`, with the two reserved results replaced. -/
def computeChecksum (headerBytes : Bytes) : UInt32 :=
  let checksum := (List.range 127).foldl (fun c i => c ^^^ u32At headerBytes (i * 4)) 0
  let checksum := if checksum = 0 then 1 else checksum
  if checksum = 0xFFFFFFFF then 0xFFFFFFFE else checksum

/-- The stored checksum agrees with the computed one. -/
def validateChecksum (headerBytes : Bytes) : Bool :=
  if headerBytes.length < 512 then false
  else computeChecksum headerBytes = u32At headerBytes 0x1FC

/-- Reading the header looks at the first 512 bytes only. -/
theorem read_congr {a b : Bytes} (hlen : a.length < 512 ↔ b.length < 512)
    (h : ∀ off n, off + n ≤ 512 → bytesAt a off n = bytesAt b off n) : read a = read b := by
  have hu : ∀ off, off + 4 ≤ 512 → u32At a off = u32At b off := fun off ho =>
    u32At_congr (h off 4 ho)
  have hq : ∀ off, off + 8 ≤ 512 → u64At a off = u64At b off := fun off ho => by
    unfold u64At; rw [h off 8 ho]
  unfold read
  rw [if_congr hlen rfl rfl, h 0 4 (by omega)]
  simp (disch := omega) only [hu, hq, h]

/-- The checksum looks at the first 508 bytes only. -/
theorem computeChecksum_congr {a b : Bytes}
    (h : ∀ off, off + 4 ≤ 508 → bytesAt a off 4 = bytesAt b off 4) :
    computeChecksum a = computeChecksum b := by
  have hfold : xorFold (fun i => u32At a (i * 4)) 127 = xorFold (fun i => u32At b (i * 4)) 127 :=
    xorFold_congr fun i hi => u32At_congr (h (i * 4) (by omega))
  unfold xorFold at hfold
  unfold computeChecksum
  rw [hfold]

/-- The check looks at the first sector only. -/
theorem validateChecksum_congr {a b : Bytes} (hlen : a.length < 512 ↔ b.length < 512)
    (h : ∀ off, off + 4 ≤ 512 → bytesAt a off 4 = bytesAt b off 4) :
    validateChecksum a = validateChecksum b := by
  unfold validateChecksum
  rw [if_congr hlen rfl rfl, computeChecksum_congr (fun off ho => h off (by omega)),
    u32At_congr (h 508 (by omega))]

/-- **A sealed block is valid**: the checksum of its first 508 bytes stands behind them. -/
theorem validateChecksum_sealed {data header : Bytes} (hheader : header.length = 508)
    (hlen : 512 ≤ data.length)
    (h : bytesAt data 0 512 = header ++ u32Bytes (computeChecksum header)) :
    u32At data 508 = computeChecksum header ∧ validateChecksum data = true := by
  have hblock : ∀ off n, off + n ≤ 512 → bytesAt data off n =
      bytesAt (header ++ u32Bytes (computeChecksum header)) off n := fun off n ho => by
    rw [← h, bytesAt_bytesAt ho, Nat.zero_add]
  have hstored : u32At data 508 = computeChecksum header := by
    refine u32At_of_bytesAt ?_
    rw [hblock 508 4 (by omega), bytesAt_append_right hheader.le, hheader, Nat.sub_self]
    exact bytesAt_zero_of_length_le (length_u32Bytes _).le
  have hsum : computeChecksum data = computeChecksum header :=
    computeChecksum_congr fun off ho => by
      rw [hblock off 4 (by omega), bytesAt_append_left (by omega)]
  refine ⟨hstored, ?_⟩
  unfold validateChecksum
  rw [if_neg (by omega), show (0x1FC : Nat) = 508 from rfl, hstored, hsum]
  exact decide_eq_true rfl

end BaseBlock

/-- Format version, from the minor version field. -/
inductive RegfVersion where
  | v1_0
  | v1_3
  | v1_4
  | v1_5
  | v1_6
deriving DecidableEq, Repr

/-- The version that a minor number stands for. -/
def RegfVersion.fromMinor (minor : UInt32) : Option RegfVersion :=
  match minor.toNat with
  | 0 | 1 | 2 => some .v1_0
  | 3 => some .v1_3
  | 4 => some .v1_4
  | 5 => some .v1_5
  | 6 => some .v1_6
  | _ => none

/-- The place of a version in the declared order. -/
def RegfVersion.rank : RegfVersion → Nat
  | .v1_0 => 0
  | .v1_3 => 1
  | .v1_4 => 2
  | .v1_5 => 3
  | .v1_6 => 4

/-- Whether the version supports `db` (big data) cells. -/
def RegfVersion.hasBigData (version : RegfVersion) : Bool :=
  decide (RegfVersion.v1_4.rank ≤ version.rank)

end Winreg
