/-
  THE BIN CATALOG: what it says about the file, and when it is the whole file.

  The walk over the bin headers has four exits, and only the header without the magic is an error:
  a catalog can stop before the end of the bins data.  Where it goes, it misses nothing; and where
  the headers are in order up to the end of the bins data, it does not stop early.

  1. **Headers in a row** — `HeadersFrom data pos bins`: the buffer holds the headers of these bins,
     each one where the bin before it ends.
  2. **The walk** — a catalog is such a row, and a row that ends where the bins data ends is the
     catalog (`HeadersFrom.cataloged`, by induction on the row; the position moves on with it).
  3. **Accepted buffers** — `Hive.bins_tile_and_complete`.
-/
import Winreg.Core.Image
import Mathlib.Data.List.Chain

namespace Winreg

open Rust

/-! ## Headers in a row -/

/-- The buffer holds the headers of these bins in a row from a position on: each starts with the
    magic, has the fields of its descriptor, and gives a size that leads to the next one. -/
inductive HeadersFrom (data : Bytes) : Nat → List HbinDescriptor → Prop where
  | nil (pos : Nat) : HeadersFrom data pos []
  | cons {pos : Nat} {offset size : UInt32} {rest : List HbinDescriptor}
      (magic : bytesAt data pos 4 = hbinMagic) (offset_read : u32At data (pos + 4) = offset)
      (size_read : u32At data (pos + 8) = size) (size_pos : 0 < size.toNat)
      (aligned : size.toNat % 4096 = 0) (tail : HeadersFrom data (pos + size.toNat) rest) :
      HeadersFrom data pos (⟨offset, size, pos⟩ :: rest)

/-- The number of bytes that a list of bins takes up. -/
def binsLength (bins : List HbinDescriptor) : Nat := (bins.map fun bin => bin.size.toNat).sum

/-- No bins have no bytes. -/
@[simp] theorem binsLength_nil : binsLength [] = 0 := rfl

/-- The first bin is added to the others. -/
@[simp] theorem binsLength_cons (bin : HbinDescriptor) (rest : List HbinDescriptor) :
    binsLength (bin :: rest) = bin.size.toNat + binsLength rest := List.sum_cons

namespace HeadersFrom

variable {data : Bytes} {pos : Nat} {bins : List HbinDescriptor}

/-- The first bin is at the position. -/
theorem head_eq (h : HeadersFrom data pos bins) :
    ∀ bin, bins.head? = some bin → bin.fileOffset = pos := by
  intro bin hbin
  cases h with
  | nil => cases hbin
  | cons =>
    obtain rfl := Option.some.inj hbin
    rfl

/-- Each bin starts where the one before it ends. -/
theorem contiguous (h : HeadersFrom data pos bins) :
    bins.IsChain fun bin next => next.fileOffset = bin.fileOffset + bin.size.toNat := by
  induction h with
  | nil => exact .nil
  | cons _ _ _ _ _ tail ih =>
    refine List.isChain_cons.mpr ⟨?_, ih⟩
    intro next hnext
    exact tail.head_eq next hnext

/-- Each bin starts with the mark. -/
theorem magic_of_mem (h : HeadersFrom data pos bins) {bin : HbinDescriptor} (hbin : bin ∈ bins) :
    bytesAt data bin.fileOffset 4 = hbinMagic := by
  induction h with
  | nil => cases hbin
  | cons magic _ _ _ _ _ ih =>
    rcases List.mem_cons.mp hbin with rfl | hmem
    · exact magic
    · exact ih hmem

/-- Each bin has a positive multiple of 4096 bytes. -/
theorem size_of_mem (h : HeadersFrom data pos bins) {bin : HbinDescriptor} (hbin : bin ∈ bins) :
    0 < bin.size.toNat ∧ bin.size.toNat % 4096 = 0 := by
  induction h with
  | nil => cases hbin
  | cons _ _ _ size_pos aligned _ ih =>
    rcases List.mem_cons.mp hbin with rfl | hmem
    · exact ⟨size_pos, aligned⟩
    · exact ih hmem

end HeadersFrom

/-! ## The walk -/

namespace Cataloged

variable {data : Bytes} {stop pos : Nat} {bins : List HbinDescriptor}

/-- A catalog is a row of headers. -/
theorem headersFrom (h : Cataloged data stop pos bins) : HeadersFrom data pos bins := by
  induction h with
  | stop => exact .nil _
  | bin hbin _ ih => exact .cons hbin.magic rfl rfl hbin.size_pos hbin.aligned ih

/-- Every cataloged header lies inside of the buffer and before the end of the bins data. -/
theorem header_inside (h : Cataloged data stop pos bins) {bin : HbinDescriptor}
    (hbin : bin ∈ bins) : bin.fileOffset + 32 ≤ data.length ∧ bin.fileOffset < stop := by
  induction h with
  | stop => cases hbin
  | bin hat _ ih =>
    rcases List.mem_cons.mp hbin with rfl | hmem
    · exact ⟨hat.inside, hat.before_stop⟩
    · exact ih hmem

end Cataloged

/-- **A row of headers that fills the bins data is the catalog.** -/
theorem HeadersFrom.cataloged {data : Bytes} {pos stop : Nat} {bins : List HbinDescriptor}
    (h : HeadersFrom data pos bins) (hstop : pos + binsLength bins = stop)
    (hlen : stop ≤ data.length) : Cataloged data stop pos bins := by
  induction h with
  | nil pos => exact .stop (Or.inl hstop.ge)
  | @cons pos offset size rest magic offset_read size_read size_pos aligned tail ih =>
    rw [binsLength_cons] at hstop
    dsimp only at hstop
    subst offset_read size_read
    refine .bin ⟨?_, ?_, magic, size_pos, aligned⟩ (ih (by omega))
    · omega
    · -- A bin of at least 4096 bytes holds its header.
      omega

/-! ## Accepted buffers -/

/-- **The catalog of an accepted buffer** tiles the file from 4096 on, and it is complete where the
    bin headers are in order up to the end of the bins data.  The walk moves on by the size of the
    bin it has noted, which is the invariant, and stops at the first header that is not in order. -/
theorem Hive.bins_tile_and_complete {data : Bytes} {hive : Hive}
    (h : Hive.fromBytes data = .ok hive) :
    ((∀ bin, hive.bins.head? = some bin → bin.fileOffset = 4096) ∧
      (hive.bins.IsChain fun bin next => next.fileOffset = bin.fileOffset + bin.size.toNat) ∧
      ∀ bin ∈ hive.bins, 0 < bin.size.toNat ∧ bin.size.toNat % 4096 = 0 ∧
        bytesAt data bin.fileOffset 4 = hbinMagic ∧ bin.fileOffset + 32 ≤ data.length ∧
        bin.fileOffset < 4096 + hive.header.hiveBinsDataSize.toNat) ∧
    ∀ bins, HeadersFrom data 4096 bins → binsLength bins = hive.header.hiveBinsDataSize.toNat →
      4096 + hive.header.hiveBinsDataSize.toNat ≤ data.length → hive.bins = bins := by
  obtain ⟨_, _, _, _, _, hcat, _⟩ := Hive.fromBytes_eq_ok h
  have hwalk : Cataloged data (4096 + hive.header.hiveBinsDataSize.toNat) 4096 hive.bins :=
    catalogHbins_eq_ok_iff.mp hcat
  have hrow := hwalk.headersFrom
  refine ⟨⟨hrow.head_eq, hrow.contiguous, ?_⟩, ?_⟩
  · intro bin hbin
    obtain ⟨hpos, haligned⟩ := hrow.size_of_mem hbin
    obtain ⟨hinside, hbefore⟩ := hwalk.header_inside hbin
    exact ⟨hpos, haligned, hrow.magic_of_mem hbin, hinside, hbefore⟩
  · intro bins hbins hsum hlen
    have hfull : Cataloged data (4096 + hive.header.hiveBinsDataSize.toNat) 4096 bins :=
      hbins.cataloged (congrArg (4096 + ·) hsum) hlen
    -- Both rows are the one outcome of the walk.
    exact Exec.ok.inj (hcat.symm.trans (catalogHbins_eq_ok_iff.mpr hfull))

/-- The header of the one bin of an image, as a row. -/
theorem headersFrom_oneBinImage (root : UInt32) (cells : Bytes) :
    HeadersFrom (oneBinImage root cells) 4096 [⟨0, 4096, 4096⟩] := by
  have hbin : ∀ off n, off + n ≤ 32 → _ := fun off n => @bytesAt_oneBinBin root cells off n
  refine .cons ((hbin 0 4 (by decide)).trans rfl) (u32At_of_bytesAt ?_) (u32At_of_bytesAt ?_)
    (by decide) (by decide) (.nil _)
  · exact (hbin 4 4 (by decide)).trans rfl
  · exact (hbin 8 4 (by decide)).trans rfl

/-- The image with one bin: its catalog tiles the file, and is the header that it holds. -/
theorem Hive.bins_tile_and_complete_oneBin :
    ((∀ bin, (oneBinHive 32 []).bins.head? = some bin → bin.fileOffset = 4096) ∧
      ((oneBinHive 32 []).bins.IsChain
        fun bin next => next.fileOffset = bin.fileOffset + bin.size.toNat)) ∧
    (oneBinHive 32 []).bins = [⟨0, 4096, 4096⟩] := by
  have hcatalog := Hive.bins_tile_and_complete (@Hive.fromBytes_oneBinImage 32 [] (by decide))
  have hlen : 4096 + 4096 ≤ (oneBinImage 32 []).length := by
    rw [length_oneBinImage 32 (by decide)]
  exact ⟨⟨hcatalog.1.1, hcatalog.1.2.1⟩,
    hcatalog.2 _ (headersFrom_oneBinImage 32 []) rfl hlen⟩

end Winreg
