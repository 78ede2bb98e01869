/-
  BIG DATA: a value whose data are spread over segment cells is read back whole.

  Data longer than 16344 bytes stand in a `db` record: the record names the number of segments and
  the cell that lists them, and every segment cell holds 16344 bytes of the data, the last one the
  rest.  All of these cells may be longer than what they hold.

  1. **Segments** — `BigDataAt r off d segments`: the record at `off` spreads the data `d` over
     these segment cells.
  2. **The crux (`BigDataAt.readSegment_eq`)** — the pass over segment `i` goes from the first
     `16344 * i` bytes of the data to the first `16344 * (i + 1)`, so the loop ends with all of them
     (`BigDataAt.rawData_eq`).
  3. **Malformed records** — whatever the cells hold, the data that are returned are not longer than
     the size the value declares (`Value.length_rawData_le`).
-/
import Winreg.Core.Value
import Winreg.Format.Records

namespace Winreg

open Rust

/-! ## Segments -/

/-- The `db` record at an offset spreads some data over the segment cells at these offsets. -/
structure BigDataAt (r : CellReader) (off : CellOffset) (d : Bytes)
    (segments : List CellOffset) : Prop where
  count : segments.length = (d.length + 16343) / 16344
  few : segments.length < 65536
  record : ∃ hdr padding listHdr listPadding, ∃ listOffset : CellOffset,
    r.readCellRaw off = .ok (hdr, [0x64, 0x62] ++ (u16Bytes (UInt16.ofNat segments.length) ++
      (listOffset.toBytes ++ padding))) ∧
    r.readCellRaw listOffset =
      .ok (listHdr, segments.flatMap CellOffset.toBytes ++ listPadding)
  cell : ∀ (i : Nat) (hi : i < segments.length), ∃ hdr padding,
    r.readCellRaw segments[i] = .ok (hdr, bytesAt d (i * 16344) 16344 ++ padding)

/-- The first bytes of a padded cell. -/
theorem slice_padded (body padding : Bytes) :
    (slice (body ++ padding) 0 (min body.length (body ++ padding).length) :
      Exec HiveError Bytes) = .ok body := by
  have hmin : min body.length (body ++ padding).length = body.length :=
    Nat.min_eq_left (by rw [List.length_append]; omega)
  rw [hmin, slice_eq_ok (Nat.zero_le _) (by rw [List.length_append]; omega), Nat.sub_zero,
    bytesAt_append_left (by omega), bytesAt_zero_of_length_le (Nat.le_refl _)]

/-! ## Reassembly -/

namespace BigDataAt

variable {r : CellReader} {off : CellOffset} {d : Bytes} {segments : List CellOffset}

/-- **The pass over segment `i`** takes its 16344 bytes, or the rest of the data. -/
theorem readSegment_eq (h : BigDataAt r off d segments) (padding : Bytes) {i : Nat}
    (hi : i < segments.length) :
    Value.readSegment r (segments.flatMap CellOffset.toBytes ++ padding) d.length i
      (d.take (i * 16344)) = .ok (.again (d.take ((i + 1) * 16344))) := by
  obtain ⟨hdr, segPadding, hread⟩ := h.cell i hi
  have hcount := h.count
  have hmore : i * 16344 < d.length := by omega
  have hout : (d.take (i * 16344)).length = i * 16344 := by
    rw [List.length_take, Nat.min_eq_left hmore.le]
  -- the offset of the segment stands in the list
  have hlist := length_flatMap_of_width CellOffset.length_toBytes segments
  have hrange : getRange (segments.flatMap CellOffset.toBytes ++ padding) (i * 4) (i * 4 + 4) =
      some segments[i].toBytes := by
    rw [getRange_eq_some (by omega) (by rw [List.length_append]; omega), Nat.add_sub_cancel_left]
    exact congrArg some (bytesAt_words CellOffset.val padding hi)
  have hoffset : u32At segments[i].toBytes 0 = segments[i].val :=
    u32At_of_bytesAt (bytesAt_zero_of_length_le (length_u32Bytes _).le)
  have hmin : min (d.length - i * 16344) 16344 = (bytesAt d (i * 16344) 16344).length := by
    rw [length_bytesAt, Nat.min_comm]
  unfold Value.readSegment
  rw [hout, if_neg (by omega), hrange]
  dsimp only
  rw [hoffset, hread, Exec.attempt_ok, Exec.ok_bind]
  dsimp only
  rw [show bigDataSegmentSize = 16344 from rfl, hmin, slice_padded, Exec.ok_bind, Nat.succ_mul,
    List.take_add, bytesAt]

/-- The record is read as a record, and the loop over its segments gives the data. -/
theorem readBigData_eq (h : BigDataAt r off d segments) :
    Value.readBigData r off d.length = .ok d := by
  obtain ⟨hdr, padding, listHdr, listPadding, listOffset, hrecord, hlist⟩ := h.record
  obtain ⟨body, hbody⟩ : ∃ body, body = [0x64, 0x62] ++
    (u16Bytes (UInt16.ofNat segments.length) ++ (listOffset.toBytes ++ padding)) := ⟨_, rfl⟩
  have hsegments : (u16At body 2).toNat = segments.length := by
    rw [hbody, u16At_of_bytesAt (x := UInt16.ofNat segments.length) rfl]
    exact UInt16.toNat_ofNat_of_lt' h.few
  have hlistOffset : u32At body 4 = listOffset.val := by
    rw [hbody]
    exact u32At_of_bytesAt rfl
  have hform : ¬ (body.length < 8 ∨ bytesAt body 0 2 ≠ [0x64, 0x62]) := by
    rw [hbody]
    rintro (hshort | hsig)
    · simp only [List.length_append, length_u16Bytes, CellOffset.length_toBytes, List.length_cons,
        List.length_nil] at hshort
      omega
    · exact hsig rfl
  -- after `i` segments the output is the first `i * 16344` bytes
  have hloop := @Exec.forRange_states _ _ (Value.readSegment r
    (segments.flatMap CellOffset.toBytes ++ listPadding) d.length)
    (fun i => d.take (i * 16344)) segments.length 0
    (fun i _ hi => h.readSegment_eq listPadding (by omega))
  have hall : d.take (segments.length * 16344) = d :=
    List.take_of_length_le (by have := h.count; omega)
  rw [Nat.zero_add, Nat.zero_mul, List.take_zero, hall] at hloop
  unfold Value.readBigData
  rw [hrecord, ← hbody, Exec.ok_bind]
  dsimp only
  rw [if_neg hform, hlistOffset, hlist, Exec.ok_bind]
  dsimp only
  rw [hsegments]
  exact hloop

/-- **The data of a big value** are the data that its record spreads over segments. -/
theorem rawData_eq {v : Value} (h : BigDataAt r v.vk.dataOffset d segments)
    (hsize : v.dataSize.toNat = d.length) (hres : v.isResident = false)
    (hbig : 16344 < d.length) : v.rawData r = .ok d := by
  have hlen : v.vk.dataSize.toNat = d.length := hsize
  have hflag : v.vk.isResident = false := hres
  have hover : d.length > bigDataThreshold := hbig
  unfold Value.rawData
  dsimp only
  rw [hlen, hflag, if_neg (by omega), if_neg Bool.false_ne_true, if_pos hover]
  exact h.readBigData_eq

end BigDataAt

/-! ## Malformed records -/

namespace Value

/-- What a slice returns. -/
theorem length_of_slice_eq_ok {body data : Bytes} {n : Nat}
    (h : (slice body 0 n : Exec HiveError Bytes) = .ok data) : data.length ≤ n := by
  unfold slice at h
  split at h
  · obtain rfl := Exec.ok.inj h
    rw [length_bytesAt]
    omega
  · cases h

/-- A pass over a segment keeps the data within the declared size. -/
theorem readSegment_le {r : CellReader} {listBody : Bytes} {size i : Nat} {out : Bytes}
    {p : Exec.Pass Bytes Bytes} (h : readSegment r listBody size i out = .ok p)
    (hout : out.length ≤ size) : ∃ t, t.length ≤ size ∧ (p = .again t ∨ p = .leave t) := by
  unfold readSegment at h
  split at h
  · exact ⟨out, hout, .inr (Exec.ok.inj h).symm⟩
  · split at h
    · exact ⟨out, hout, .inr (Exec.ok.inj h).symm⟩
    · obtain ⟨result, _, hresult⟩ := Exec.bind_eq_ok.mp h
      cases result with
      | error e => exact ⟨out, hout, .inr (Exec.ok.inj hresult).symm⟩
      | ok cell =>
        obtain ⟨segment, hsegment, hagain⟩ := Exec.bind_eq_ok.mp hresult
        have hle := length_of_slice_eq_ok hsegment
        refine ⟨out ++ segment, ?_, .inl (Exec.ok.inj hagain).symm⟩
        rw [List.length_append]
        omega

/-- **The data of a value** are not longer than the size that it declares. -/
theorem length_rawData_le {r : CellReader} {v : Value} {data : Bytes}
    (h : v.rawData r = .ok data) : data.length ≤ v.dataSize.toNat := by
  -- every slice is cut to the declared size, if the body is longer
  have hmin : ∀ {body data : Bytes} {size : Nat},
      (slice body 0 (min size body.length) : Exec HiveError Bytes) = .ok data →
        data.length ≤ size :=
    fun hslice => (length_of_slice_eq_ok hslice).trans (Nat.min_le_left _ _)
  unfold rawData at h
  dsimp only at h
  split at h
  · rw [← Exec.ok.inj h]
    exact Nat.zero_le _
  · split at h
    · rw [← Exec.ok.inj h, RawKeyValue.inlineData, List.length_take]
      exact (Nat.min_le_left _ _).trans (Nat.min_le_left _ _)
    · split at h
      · -- big data: the loop keeps what it has joined within the size, also where it leaves early
        obtain ⟨db, _, hrest⟩ := Exec.bind_eq_ok.mp h
        dsimp only at hrest
        split at hrest
        · exact hmin hrest
        · obtain ⟨list, _, hloop⟩ := Exec.bind_eq_ok.mp hrest
          refine Exec.forRange_inv (fun out => out.length ≤ v.dataSize.toNat) ?_ ?_ _ _ _ _
            (Nat.zero_le _) hloop
          · intro i s t hs hpass
            obtain ⟨t', ht', heq⟩ := readSegment_le hpass hs
            simp only [Exec.Pass.again.injEq, reduceCtorEq, or_false] at heq
            rwa [heq]
          · intro i s t hs hpass
            obtain ⟨t', ht', heq⟩ := readSegment_le hpass hs
            simp only [Exec.Pass.leave.injEq, reduceCtorEq, false_or] at heq
            rwa [heq]
      · obtain ⟨cell, _, hslice⟩ := Exec.bind_eq_ok.mp h
        exact hmin hslice

end Value

/-- **Big data are reassembled.**  On every backend, a value that is not resident and whose record
    spreads more than 16344 bytes over readable segments reads as these bytes; and no record makes
    the data longer than the declared size.  After each segment the loop has a first part of the
    bytes, and as many as there are in the segments before: with the segments full but the last, it
    ends at the last byte. -/
theorem rawData_reassembles (r : CellReader) (v : Value) :
    (∀ d segments, v.dataSize.toNat = d.length → v.isResident = false → 16344 < d.length →
      BigDataAt r v.vk.dataOffset d segments → v.rawData r = .ok d) ∧
    ∀ data, v.rawData r = .ok data → data.length ≤ v.dataSize.toNat :=
  ⟨fun _ _ hsize hres hbig h => h.rawData_eq hsize hres hbig,
    fun _ h => Value.length_rawData_le h⟩

/-- A record with two segments: the second holds one byte, all cells are padded. -/
def twoSegmentReader : CellReader where
  readCellRaw off :=
    if off.val = 0x20 then .ok (⟨-16⟩, [0x64, 0x62, 2, 0, 0x40, 0, 0, 0, 0xEE, 0xEE, 0xEE, 0xEE])
    else if off.val = 0x40 then .ok (⟨-16⟩, [0x60, 0, 0, 0, 0x80, 0, 0, 0, 0xEE, 0xEE, 0xEE, 0xEE])
    else if off.val = 0x60 then .ok (⟨-16352⟩, List.replicate 16344 0x5A ++ [0xEE, 0xEE, 0xEE, 0xEE])
    else if off.val = 0x80 then .ok (⟨-8⟩, [0x5A, 0xEE, 0xEE, 0xEE])
    else .err (.unallocatedCell off)

/-- A value of 16345 bytes in that record. -/
def twoSegmentValue : Value :=
  ⟨⟨0, 16345, 0x20, .binary, ⟨1⟩, []⟩, ⟨0x10⟩⟩

/-- The cells of the sample form a record of two segments, the first of them full. -/
theorem twoSegmentReader_bigDataAt :
    BigDataAt twoSegmentReader ⟨0x20⟩ (List.replicate 16345 0x5A) [⟨0x60⟩, ⟨0x80⟩] where
  count := by rw [List.length_replicate]; rfl
  few := by decide
  record := ⟨_, _, _, _, ⟨0x40⟩, rfl, rfl⟩
  cell i hi := by
    obtain rfl | rfl : i = 0 ∨ i = 1 := by
      simp only [List.length_cons, List.length_nil] at hi
      omega
    · refine ⟨⟨-16352⟩, [0xEE, 0xEE, 0xEE, 0xEE], ?_⟩
      rw [bytesAt, List.drop_replicate, List.take_replicate]
      rfl
    · refine ⟨⟨-8⟩, [0xEE, 0xEE, 0xEE], ?_⟩
      rw [bytesAt, List.drop_replicate, List.take_replicate]
      rfl

/-- The data comes back as it was cut in two. -/
theorem rawData_reassembles_twoSegments :
    twoSegmentValue.rawData twoSegmentReader = .ok (List.replicate 16345 0x5A) :=
  (rawData_reassembles twoSegmentReader twoSegmentValue).1 _ _
    (by rw [List.length_replicate]; decide) (by decide) (by rw [List.length_replicate]; decide)
    twoSegmentReader_bigDataAt

end Winreg
