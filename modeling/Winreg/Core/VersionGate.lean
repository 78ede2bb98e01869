/-
  BIG DATA AND THE VERSION OF THE HIVE.

  Records of segments (`db`) came with version 1.4; a hive of an earlier version keeps the data of
  every value in one cell, whatever their size.  The reader does not ask for the version: the size
  that the value declares and the first two bytes of its data decide.

  1. **What a record gives** — the bodies of the segment cells that its list names, up to the first
     that is missing, cannot be read or is not needed any more (`SegmentBodies`), are cut to 16344
     bytes each, joined, and cut to the declared size (`forRange_readSegment_iff`).
  2. **The gate** — on a hive without big data a value reads as its data cell unless the cell is
     taken for a record of something else (`readsDataCell_iff`).
  3. **A hive of version 1.3** — a value of it that is not read at all (`rawData_ignores_version`).
-/
import Winreg.Core.Image
import Winreg.Core.Tree

namespace Winreg

open Rust

/-! ## What a record gives -/

/-- The offset that entry `i` of a segment list gives. -/
def listEntry (list : Bytes) (i : Nat) : Option CellOffset :=
  (getRange list (i * 4) (i * 4 + 4)).map fun entry => ⟨u32At entry 0⟩

/-- The bodies of the segment cells that `k` entries of a list name from entry `i` on, while some of
    `size` bytes are missing: up to the first entry that is missing or cannot be read. -/
inductive SegmentBodies (r : CellReader) (list : Bytes) : Nat → Nat → Nat → List Bytes → Prop where
  | complete {i k : Nat} : SegmentBodies r list i k 0 []
  | counted {i size : Nat} : SegmentBodies r list i 0 size []
  | unlisted {i k size : Nat} (entry : listEntry list i = none) : SegmentBodies r list i k size []
  | unreadable {i k size : Nat} {off : CellOffset} {e : HiveError}
      (entry : listEntry list i = some off) (cell : r.readCellRaw off = .err e) :
      SegmentBodies r list i k size []
  | segment {i k size : Nat} {off : CellOffset} {hdr : CellHeader} {body : Bytes}
      {bodies : List Bytes} (entry : listEntry list i = some off)
      (cell : r.readCellRaw off = .ok (hdr, body))
      (rest : SegmentBodies r list (i + 1) k (size - min 16344 body.length) bodies) :
      SegmentBodies r list i (k + 1) size (body :: bodies)

/-- The first 16344 bytes of each segment, one behind the other. -/
def joinSegments (bodies : List Bytes) : Bytes := bodies.flatMap (List.take 16344)

section Passes

variable {r : CellReader} {list out : Bytes} {size i : Nat}

/-- The loop stops when it has as many bytes as the record declares. -/
theorem readSegment_complete (h : size ≤ out.length) :
    Value.readSegment r list size i out = .ok (.leave out) := by
  unfold Value.readSegment
  exact if_pos h

/-- It stops at the end of the list of segments. -/
theorem readSegment_unlisted (h : out.length < size) (hentry : listEntry list i = none) :
    Value.readSegment r list size i out = .ok (.leave out) := by
  unfold Value.readSegment
  rw [if_neg (by omega), Option.map_eq_none_iff.mp hentry]

/-- It stops at a segment that cannot be read, and keeps what it has. -/
theorem readSegment_unreadable {off : CellOffset} {e : HiveError} (h : out.length < size)
    (hentry : listEntry list i = some off) (hcell : r.readCellRaw off = .err e) :
    Value.readSegment r list size i out = .ok (.leave out) := by
  obtain ⟨entry, hrange, rfl⟩ := Option.map_eq_some_iff.mp hentry
  unfold Value.readSegment
  rw [if_neg (by omega), hrange]
  dsimp only
  rw [hcell, Exec.attempt_err, Exec.ok_bind]

/-- A pass over a segment that is needed and can be read. -/
theorem readSegment_segment {off : CellOffset} {hdr : CellHeader} {body : Bytes}
    (h : out.length < size) (hentry : listEntry list i = some off)
    (hcell : r.readCellRaw off = .ok (hdr, body)) :
    Value.readSegment r list size i out =
      .ok (.again (out ++ (body.take 16344).take (size - out.length))) := by
  obtain ⟨entry, hrange, rfl⟩ := Option.map_eq_some_iff.mp hentry
  have htake : bytesAt body 0 (min (min (size - out.length) bigDataSegmentSize) body.length) =
      (body.take 16344).take (size - out.length) := by
    rw [bytesAt, List.drop_zero, List.take_take, show bigDataSegmentSize = 16344 from rfl,
      List.take_eq_take_iff]
    omega
  unfold Value.readSegment
  rw [if_neg (by omega), hrange]
  dsimp only
  rw [hcell, Exec.attempt_ok, Exec.ok_bind]
  dsimp only
  rw [slice_eq_ok (Nat.zero_le _) (Nat.min_le_right _ _), Exec.ok_bind, Nat.sub_zero, htake]

/-- Where the read of a needed segment neither gives a cell nor an error, the pass does not come
    back. -/
theorem readSegment_ne_ok {off : CellOffset} (h : out.length < size)
    (hentry : listEntry list i = some off) (hok : ∀ cell, r.readCellRaw off ≠ .ok cell)
    (herr : ∀ e, r.readCellRaw off ≠ .err e) (p : Exec.Pass Bytes Bytes) :
    Value.readSegment r list size i out ≠ .ok p := by
  obtain ⟨entry, hrange, rfl⟩ := Option.map_eq_some_iff.mp hentry
  unfold Value.readSegment
  rw [if_neg (by omega), hrange]
  dsimp only
  cases hcell : r.readCellRaw ⟨u32At entry 0⟩ with
  | ok cell => exact absurd hcell (hok cell)
  | err e => exact absurd hcell (herr e)
  | panic => exact nofun
  | timeout => exact nofun

end Passes

namespace SegmentBodies

variable {r : CellReader} {list : Bytes} {i k size : Nat} {bodies : List Bytes}

/-- Without a first segment that can be read there is none. -/
theorem eq_nil (h : SegmentBodies r list i k size bodies)
    (hno : ∀ off cell, listEntry list i = some off → r.readCellRaw off ≠ .ok cell) :
    bodies = [] := by
  cases h with
  | segment hentry hcell => exact absurd hcell (hno _ _ hentry)
  | _ => rfl

/-- Without a count there are no segments. -/
theorem eq_nil_of_count (h : SegmentBodies r list i 0 size bodies) : bodies = [] := by
  cases h <;> rfl

/-- A segment that is listed and needed is read, or gives an error. -/
theorem listed (h : SegmentBodies r list i (k + 1) size bodies) (hsize : 0 < size)
    {off : CellOffset} (hentry : listEntry list i = some off) :
    (∃ e, r.readCellRaw off = .err e) ∨ ∃ hdr body rest, r.readCellRaw off = .ok (hdr, body) ∧
      bodies = body :: rest ∧
      SegmentBodies r list (i + 1) k (size - min 16344 body.length) rest := by
  generalize hk : k + 1 = count at h
  cases h with
  | complete => omega
  | counted => omega
  | unlisted hnone => rw [hentry] at hnone; cases hnone
  | unreadable hsome hcell =>
    obtain rfl := Option.some.inj (hentry.symm.trans hsome)
    exact Or.inl ⟨_, hcell⟩
  | segment hsome hcell hrest =>
    obtain rfl := Option.some.inj (hentry.symm.trans hsome)
    obtain rfl := Nat.succ.inj hk
    exact Or.inr ⟨_, _, _, hcell, rfl, hrest⟩

end SegmentBodies

/-- What a segment leaves to read. -/
theorem sub_length_append_take {out body : Bytes} {size : Nat} (h : out.length < size) :
    size - (out ++ (body.take 16344).take (size - out.length)).length =
      size - out.length - min 16344 body.length := by
  rw [List.length_append, List.length_take, List.length_take]
  omega

/-- The bytes of one segment and of those behind it. -/
theorem take_joinSegments_cons (body : Bytes) (bodies : List Bytes) (n : Nat) :
    (joinSegments (body :: bodies)).take n =
      (body.take 16344).take n ++ (joinSegments bodies).take (n - min 16344 body.length) := by
  rw [joinSegments, List.flatMap_cons, List.take_append, List.length_take]
  rfl

/-- The loop over `k` entries from entry `i` gives `data` if and only if the joined segments, cut
    to the size, do. -/
def LoopJoins (r : CellReader) (list : Bytes) (size : Nat) (data : Bytes) (k i : Nat)
    (out : Bytes) : Prop :=
  Exec.forRange (Value.readSegment r list size) k i out = .ok data ↔
    ∃ bodies, SegmentBodies r list i k (size - out.length) bodies ∧
      data = out ++ (joinSegments bodies).take (size - out.length)

section LoopJoins

variable {r : CellReader} {list out data : Bytes} {size i k : Nat}

/-- A loop that leaves at its first segment: there is none to join. -/
theorem loopJoins_leave (hpass : Value.readSegment r list size i out = .ok (.leave out))
    (hnone : SegmentBodies r list i (k + 1) (size - out.length) [])
    (hempty : ∀ bodies, SegmentBodies r list i (k + 1) (size - out.length) bodies →
      (joinSegments bodies).take (size - out.length) = []) :
    LoopJoins r list size data (k + 1) i out := by
  unfold LoopJoins
  rw [Exec.forRange_leave hpass]
  constructor
  · intro h
    exact ⟨[], hnone, by rw [hempty [] hnone, List.append_nil]; exact (Exec.ok.inj h).symm⟩
  · rintro ⟨bodies, hbodies, rfl⟩
    rw [hempty bodies hbodies, List.append_nil]

/-- A loop that goes on with the next segment: what is missing shrinks by what it gives. -/
theorem loopJoins_segment {off : CellOffset} {hdr : CellHeader} {body : Bytes}
    (h : out.length < size) (hentry : listEntry list i = some off)
    (hcell : r.readCellRaw off = .ok (hdr, body))
    (hafter : ∀ {out' : Bytes}, out'.length ≤ size → LoopJoins r list size data k (i + 1) out') :
    LoopJoins r list size data (k + 1) i out := by
  have hle : (out ++ (body.take 16344).take (size - out.length)).length ≤ size := by
    rw [List.length_append, List.length_take, List.length_take]
    omega
  have hloop := hafter hle
  unfold LoopJoins at hloop ⊢
  rw [Exec.forRange_again (readSegment_segment h hentry hcell), hloop, sub_length_append_take h]
  constructor
  · rintro ⟨bodies, hbodies, rfl⟩
    refine ⟨body :: bodies, .segment hentry hcell hbodies, ?_⟩
    rw [take_joinSegments_cons, List.append_assoc]
  · rintro ⟨bodies, hbodies, rfl⟩
    rcases hbodies.listed (by omega) hentry with ⟨e, herr⟩ | ⟨_, _, rest, hcell', rfl, hrest⟩
    · cases hcell.symm.trans herr
    · obtain ⟨rfl, rfl⟩ := Prod.mk.inj (Exec.ok.inj (hcell.symm.trans hcell'))
      exact ⟨rest, hrest, by rw [take_joinSegments_cons, List.append_assoc]⟩

/-- A loop that does not come back from its first segment: nothing is joined either. -/
theorem loopJoins_stuck {off : CellOffset} (h : out.length < size)
    (hentry : listEntry list i = some off) (hok : ∀ cell, r.readCellRaw off ≠ .ok cell)
    (herr : ∀ e, r.readCellRaw off ≠ .err e) : LoopJoins r list size data (k + 1) i out := by
  constructor
  · intro hloop
    obtain ⟨p, hp, _⟩ := Exec.bind_eq_ok.mp hloop
    exact absurd hp (readSegment_ne_ok h hentry hok herr p)
  · rintro ⟨bodies, hbodies, rfl⟩
    rcases hbodies.listed (by omega) hentry with ⟨e, hcell⟩ | ⟨_, _, _, hcell, _⟩
    · exact absurd hcell (herr e)
    · exact absurd hcell (hok _)

end LoopJoins

/-- **The loop over the segments** gives the joined segments, cut to the size. -/
theorem forRange_readSegment_iff {r : CellReader} {list : Bytes} {size : Nat} {data : Bytes} :
    ∀ {k i : Nat} {out : Bytes}, out.length ≤ size → LoopJoins r list size data k i out := by
  intro k
  induction k with
  | zero =>
    intro i out _
    constructor
    · intro h
      exact ⟨[], .counted, by rw [← Exec.ok.inj h]; simp [joinSegments]⟩
    · rintro ⟨bodies, hbodies, rfl⟩
      rw [hbodies.eq_nil_of_count]
      simp [joinSegments, Exec.forRange]
  | succ k ih =>
    intro i out hout
    rcases Nat.eq_or_lt_of_le hout with hfull | hmore
    · -- nothing is missing: the loop leaves at once
      have hnothing : size - out.length = 0 := by omega
      refine loopJoins_leave (readSegment_complete hfull.ge) ?_ ?_
      · rw [hnothing]
        exact .complete
      · intro bodies _
        rw [hnothing, List.take_zero]
    -- where the loop leaves early, nothing more is joined either
    have hnil : ∀ {bodies : List Bytes}, bodies = [] →
        (joinSegments bodies).take (size - out.length) = [] := by
      rintro _ rfl
      exact List.take_nil
    cases hentry : listEntry list i with
    | none =>
      refine loopJoins_leave (readSegment_unlisted hmore hentry) (.unlisted hentry) ?_
      intro bodies h
      exact hnil (h.eq_nil fun off cell hsome => by rw [hentry] at hsome; cases hsome)
    | some off =>
      cases hcell : r.readCellRaw off with
      | ok cell => exact loopJoins_segment hmore hentry hcell ih
      | err e =>
        refine loopJoins_leave (readSegment_unreadable hmore hentry hcell)
          (.unreadable hentry hcell) fun bodies h => hnil (h.eq_nil fun off' cell hsome => ?_)
        obtain rfl := Option.some.inj (hentry.symm.trans hsome)
        intro hread
        cases hcell.symm.trans hread
      | panic =>
        refine loopJoins_stuck hmore hentry (fun cell h => ?_) fun e h => ?_
        · cases hcell.symm.trans h
        · cases hcell.symm.trans h
      | timeout =>
        refine loopJoins_stuck hmore hentry (fun cell h => ?_) fun e h => ?_
        · cases hcell.symm.trans h
        · cases hcell.symm.trans h

/-! ## The gate -/

/-- The bytes of a data cell are taken for a record: they begin with its signature and are long
    enough for one. -/
def SpellsRecord (body : Bytes) : Prop := 8 ≤ body.length ∧ bytesAt body 0 2 = [0x64, 0x62]

instance (body : Bytes) : Decidable (SpellsRecord body) := inferInstanceAs (Decidable (_ ∧ _))

/-- The segments of the record that the bytes of a data cell spell hold the first `size` of these
    very bytes. -/
def SpellsItself (r : CellReader) (body : Bytes) (size : Nat) : Prop :=
  ∃ hdr list bodies, r.readCellRaw ⟨u32At body 4⟩ = .ok (hdr, list) ∧
    SegmentBodies r list 0 (u16At body 2).toNat size bodies ∧
    (joinSegments bodies).take size = body.take size

/-- A data cell of `size` declared bytes is not taken for a record of something else. -/
def PlainData (r : CellReader) (body : Bytes) (size : Nat) : Prop :=
  size ≤ 16344 ∨ ¬ SpellsRecord body ∨ SpellsItself r body size

/-- The first bytes of a cell. -/
theorem slice_min (body : Bytes) (n : Nat) :
    (slice body 0 (min n body.length) : Exec HiveError Bytes) = .ok (body.take n) := by
  rw [slice_eq_ok (Nat.zero_le _) (Nat.min_le_right _ _), bytesAt, List.drop_zero, Nat.sub_zero]
  congr 1
  rw [List.take_eq_take_iff]
  omega

/-- **Big data**: a readable cell that is no record gives its first bytes, one that is gives the
    bytes of the segments. -/
theorem readBigData_eq_ok_iff {r : CellReader} {off : CellOffset} {hdr : CellHeader}
    {body data : Bytes} {size : Nat} (hcell : r.readCellRaw off = .ok (hdr, body)) :
    Value.readBigData r off size = .ok data ↔
      (¬ SpellsRecord body ∧ data = body.take size) ∨ (SpellsRecord body ∧
        ∃ hdr list bodies, r.readCellRaw ⟨u32At body 4⟩ = .ok (hdr, list) ∧
          SegmentBodies r list 0 (u16At body 2).toNat size bodies ∧
          data = (joinSegments bodies).take size) := by
  have hform : (body.length < 8 ∨ bytesAt body 0 2 ≠ [0x64, 0x62]) ↔ ¬ SpellsRecord body := by
    unfold SpellsRecord
    rw [not_and_or, Nat.not_le]
  unfold Value.readBigData
  rw [hcell, Exec.ok_bind]
  dsimp only
  by_cases hspells : SpellsRecord body
  · rw [if_neg (by rw [hform]; exact not_not.mpr hspells)]
    constructor
    · intro h
      obtain ⟨⟨listHdr, list⟩, hlist, hloop⟩ := Exec.bind_eq_ok.mp h
      obtain ⟨bodies, hbodies, hdata⟩ := (forRange_readSegment_iff (Nat.zero_le _)).mp hloop
      exact Or.inr ⟨hspells, listHdr, list, bodies, hlist, hbodies, hdata⟩
    · rintro (⟨hno, _⟩ | ⟨_, listHdr, list, bodies, hlist, hbodies, hdata⟩)
      · exact absurd hspells hno
      · rw [hlist, Exec.ok_bind]
        exact (forRange_readSegment_iff (Nat.zero_le _)).mpr ⟨bodies, hbodies, hdata⟩
  · rw [if_pos (hform.mpr hspells), slice_min]
    constructor
    · exact fun h => Or.inl ⟨hspells, (Exec.ok.inj h).symm⟩
    · rintro (⟨_, rfl⟩ | ⟨hyes, _⟩)
      · rfl
      · exact absurd hyes hspells

/-- **The data cell of a value** is what the value reads as, exactly when it is plain data. -/
theorem rawData_eq_take_iff {r : CellReader} {v : Value} {hdr : CellHeader} {body : Bytes}
    (hres : v.isResident = false) (hsize : 1 ≤ v.dataSize.toNat)
    (hcell : r.readCellRaw v.vk.dataOffset = .ok (hdr, body)) :
    v.rawData r = .ok (body.take v.dataSize.toNat) ↔ PlainData r body v.dataSize.toNat := by
  have hlen : v.vk.dataSize.toNat = v.dataSize.toNat := rfl
  have hflag : v.vk.isResident = false := hres
  unfold Value.rawData PlainData
  dsimp only
  rw [hlen, hflag, if_neg (by omega), if_neg Bool.false_ne_true]
  by_cases hbig : v.dataSize.toNat > bigDataThreshold
  · have hover : ¬ v.dataSize.toNat ≤ 16344 := Nat.not_le.mpr hbig
    rw [if_pos hbig, readBigData_eq_ok_iff hcell]
    by_cases hspells : SpellsRecord body
    · constructor
      · rintro (⟨hno, _⟩ | ⟨_, listHdr, list, bodies, hlist, hbodies, hdata⟩)
        · exact absurd hspells hno
        · exact Or.inr (Or.inr ⟨listHdr, list, bodies, hlist, hbodies, hdata.symm⟩)
      · rintro (hle | hno | ⟨listHdr, list, bodies, hlist, hbodies, hdata⟩)
        · exact absurd hle hover
        · exact absurd hspells hno
        · exact Or.inr ⟨hspells, listHdr, list, bodies, hlist, hbodies, hdata.symm⟩
    · exact ⟨fun _ => Or.inr (Or.inl hspells), fun _ => Or.inl ⟨hspells, rfl⟩⟩
  · rw [if_neg hbig, hcell, Exec.ok_bind]
    dsimp only
    rw [slice_min]
    exact ⟨fun _ => Or.inl (Nat.le_of_not_lt hbig), fun _ => rfl⟩

/-- On a hive whose version has no big data, the value reads as the first bytes of its data cell,
    as many as it declares. -/
def ReadsDataCell (hive : Hive) (v : Value) : Prop :=
  hive.version.hasBigData = false → ∀ hdr body,
    hive.reader.readCellRaw v.vk.dataOffset = .ok (hdr, body) →
      v.rawData hive.reader = .ok (body.take v.dataSize.toNat)

/-- **The gate that is not there.**  On a hive without big data, a value with data of its own reads
    as its data cell exactly when that cell is plain data: when the value declares at most 16344
    bytes, when the cell does not begin like a record, or when the segments of the record it spells
    happen to hold the same bytes. -/
theorem readsDataCell_iff (hive : Hive) (v : Value) (hres : v.isResident = false)
    (hsize : 1 ≤ v.dataSize.toNat) :
    ReadsDataCell hive v ↔ (hive.version.hasBigData = false → ∀ hdr body,
      hive.reader.readCellRaw v.vk.dataOffset = .ok (hdr, body) →
        PlainData hive.reader body v.dataSize.toNat) := by
  refine imp_congr_right fun _ => forall_congr' fun hdr => forall_congr' fun body => ?_
  exact imp_congr_right fun hcell => rawData_eq_take_iff hres hsize hcell

/-! ## A hive of version 1.3 -/

/-- Reading cells looks at the bytes behind the base block only. -/
theorem Hive.readCellRaw_congr {a b : Hive} (hlen : a.data.length = b.data.length)
    (h : ∀ off n, 4096 ≤ off → bytesAt a.data off n = bytesAt b.data off n)
    (offset : CellOffset) : a.readCellRaw offset = b.readCellRaw offset := by
  have hfile : 4096 ≤ offset.fileOffset := Nat.le_add_right _ _
  have hrange : ∀ lo hi, 4096 ≤ lo → getRange a.data lo hi = getRange b.data lo hi := by
    intro lo hi hlo
    unfold getRange
    rw [hlen, h lo _ hlo]
  have hslice : ∀ lo hi, 4096 ≤ lo →
      (slice a.data lo hi : Exec HiveError Bytes) = slice b.data lo hi := by
    intro lo hi hlo
    unfold slice
    rw [hlen, h lo _ hlo]
  unfold Hive.readCellRaw Hive.rawBytes
  dsimp only
  rw [hlen, hrange _ _ hfile, hslice _ _ (by omega)]

/-- The 508 bytes before the checksum, with the minor version 3. -/
def oldHeader : Bytes := patch (imageHeader 32 4096) 24 (u32Bytes 3)

/-- A base block of version 1.3, with its checksum. -/
def oldBlock : Bytes := oldHeader ++ u32Bytes (BaseBlock.computeChecksum oldHeader)

/-- The base block that is read. -/
def oldBaseBlock : BaseBlock :=
  { imageBaseBlock 32 4096 with
    minorVersion := 3
    checksum := BaseBlock.computeChecksum oldHeader }

/-- Twelve bytes of data that begin like a record of one segment. -/
def recordLike : Bytes := [0x64, 0x62, 1, 0, 0xFF, 0xFF, 0xFF, 0xFF, 0, 0, 0, 0]

/-- A root key with two values of 16345 declared bytes and 12 bytes of data each: `V` spells a
    record, `W` does not. -/
def oldBodies : List Bytes := [
  nkRecordBytes 0x20 0 0xFFFFFFFF 2 112 [],
  u32Bytes 128 ++ u32Bytes 160 ++ List.replicate 4 0,
  vkRecordBytes 16345 192 3 [0x56] ++ List.replicate 7 0,
  vkRecordBytes 16345 208 3 [0x57] ++ List.replicate 7 0,
  recordLike,
  List.replicate 12 0x41]

/-- The cells of the sample. -/
def oldCells : Bytes := allocatedCells oldBodies

/-- A hive of that version. -/
def oldImage : Bytes := oldBlock ++ (oneBinImage 32 oldCells).drop 512

/-- The hive that opens from `oldImage`. -/
def oldHive : Hive where
  data := oldImage
  header := oldBaseBlock
  version := .v1_3
  bins := [⟨0, 4096, 4096⟩]
  headerBytes := bytesAt oldImage 0 BaseBlock.size

/-- Its root, with two values. -/
def oldRoot : Key := ⟨nkRecord ⟨0x20⟩ 0 0xFFFFFFFF 2 112 [], ⟨32⟩⟩
/-- A value whose data cell spells a big-data record. -/
def oldV : Value := ⟨⟨1, 16345, 192, .binary, ⟨1⟩, [0x56]⟩, ⟨128⟩⟩
/-- A value whose data cell does not. -/
def oldW : Value := ⟨⟨1, 16345, 208, .binary, ⟨1⟩, [0x57]⟩, ⟨160⟩⟩

/-- The header is complete up to the checksum. -/
theorem length_oldHeader : oldHeader.length = 508 := by decide +kernel

/-- With the checksum it is one sector. -/
theorem length_oldBlock : oldBlock.length = 512 := by
  rw [oldBlock, List.length_append, length_oldHeader, length_u32Bytes]

/-- The cells fit into the bin. -/
theorem length_oldCells : oldCells.length = 192 := by decide +kernel

/-- The base block and one bin. -/
theorem length_oldImage : oldImage.length = 8192 := by
  rw [oldImage, List.length_append, length_oldBlock, List.length_drop,
    length_oneBinImage 32 (by rw [length_oldCells]; decide)]

/-- Behind its block the image is a one-bin image. -/
theorem bytesAt_oldImage {off : Nat} (n : Nat) (h : 512 ≤ off) :
    bytesAt oldImage off n = bytesAt (oneBinImage 32 oldCells) off n := by
  rw [oldImage, bytesAt_append_right (by rw [length_oldBlock]; exact h), length_oldBlock, bytesAt,
    bytesAt, List.drop_drop, show 512 + (off - 512) = off from by omega]

/-- Reading cells does not depend on the header. -/
theorem oldHive_reader : oldHive.reader = (oneBinHive 32 oldCells).reader := by
  have hlen : oldImage.length = (oneBinImage 32 oldCells).length := by
    rw [length_oldImage, length_oneBinImage 32 (by rw [length_oldCells]; decide)]
  exact congrArg CellReader.mk (funext (Hive.readCellRaw_congr hlen fun off n hoff =>
    bytesAt_oldImage n (Nat.le_trans (by decide) hoff)))

/-- The image opens with the version of its header. -/
theorem fromBytes_oldImage : Hive.fromBytes oldImage = .ok oldHive := by
  have hlen := length_oldImage
  have hblock := length_oldBlock
  have hshort : oldImage.length < 512 ↔ oldBlock.length < 512 := by omega
  have hsame : ∀ off n, off + n ≤ 512 → bytesAt oldImage off n = bytesAt oldBlock off n :=
    fun off n h => bytesAt_append_left (by omega)
  obtain ⟨_, hsum⟩ := BaseBlock.validateChecksum_sealed length_oldHeader (by omega)
    ((hsame 0 512 (by omega)).trans (bytesAt_zero_of_length_le hblock.le))
  have hread : BaseBlock.read oldImage = some oldBaseBlock := by
    rw [BaseBlock.read_congr hshort hsame]
    decide +kernel
  have hbin : ∀ off n, off + n ≤ 32 → bytesAt oldImage (4096 + off) n =
      bytesAt (hbinMagic ++ u32Bytes 0 ++ u32Bytes 4096 ++ List.replicate 20 0) off n :=
    fun off n h => (bytesAt_oldImage n (by omega)).trans (bytesAt_oneBinBin 32 oldCells h)
  rw [Hive.fromBytes_oneBin .v1_3 4096 hread hsum rfl rfl (by decide) rfl (by omega)
    ((hbin 0 4 (by omega)).trans rfl) (u32At_of_bytesAt ((hbin 8 4 (by omega)).trans rfl)),
    u32At_of_bytesAt (x := 0) ((hbin 4 4 (by omega)).trans rfl)]
  rfl

/-- Each body is read from its cell. -/
theorem oldHive_readCellRaw {off : UInt32} {body : Bytes} (i : Nat) {raw : Int}
    (hbody : oldBodies[i]? = some body)
    (hoff : off.toNat = 32 + (allocatedCells (oldBodies.take i)).length)
    (hraw : -(body.length + 4 : Nat) = raw) :
    oldHive.reader.readCellRaw ⟨off⟩ = .ok (⟨raw⟩, body) := by
  have hlen : oldCells.length ≤ 4064 := by rw [length_oldCells]; decide
  rw [oldHive_reader, ← hraw]
  exact Hive.readCellRaw_allocatedCells 32 i hlen hbody hoff

/-- And parsed by its signature. -/
theorem oldHive_readCell {off : UInt32} {body : Bytes} {cell : Cell} (i : Nat)
    (hbody : oldBodies[i]? = some body)
    (hoff : off.toNat = 32 + (allocatedCells (oldBodies.take i)).length)
    (hcell : dispatchCell ⟨off⟩ body = .ok cell) : oldHive.reader.readCell ⟨off⟩ = .ok cell := by
  have hlen : oldCells.length ≤ 4064 := by rw [length_oldCells]; decide
  rw [oldHive_reader]
  exact Hive.readCell_allocatedCells 32 i hlen hbody hoff hcell

/-- The root key lists the two values. -/
theorem oldHive_values : oldHive.rootKey = .ok oldRoot ∧
    oldRoot.values oldHive.reader = .ok [oldV, oldW] := by
  have hroot : oldRoot.AtOffset oldHive.reader :=
    oldHive_readCell 0 rfl (by decide) (by decide)
  have hV : oldHive.reader.readCell oldV.offset = .ok (.keyValue oldV.vk) :=
    oldHive_readCell 2 rfl (by decide) (by decide)
  have hW : oldHive.reader.readCell oldW.offset = .ok (.keyValue oldW.vk) :=
    oldHive_readCell 3 rfl (by decide +kernel) (by decide)
  have hlist : oldHive.reader.readCellRaw oldRoot.node.valuesListOffset =
      .ok (⟨-16⟩, u32Bytes 128 ++ u32Bytes 160 ++ List.replicate 4 0) :=
    @oldHive_readCellRaw 112 _ 1 _ rfl (by decide) rfl
  have hoffV : oldV.offset =
      ⟨leU32 (u32Bytes 128 ++ u32Bytes 160 ++ List.replicate 4 0) (0 * 4)⟩ := by decide
  have hoffW : oldW.offset =
      ⟨leU32 (u32Bytes 128 ++ u32Bytes 160 ++ List.replicate 4 0) (1 * 4)⟩ := by decide
  refine ⟨Hive.rootKey_eq hroot rfl, values_of_listed rfl (by simp) rfl hlist ?_ ?_⟩
  · decide
  · intro i hi
    obtain rfl | rfl : i = 0 ∨ i = 1 := by
      simp only [List.length_cons, List.length_nil] at hi
      omega
    · exact ⟨hoffV, hV⟩
    · exact ⟨hoffW, hW⟩

/-- The value `W` of the version 1.3 hive reads as its data cell. -/
theorem readsDataCell_plain : oldW.rawData oldHive.reader = .ok (List.replicate 12 0x41) := by
  have hcell : oldHive.reader.readCellRaw oldW.vk.dataOffset =
      .ok (⟨-16⟩, List.replicate 12 0x41) :=
    @oldHive_readCellRaw 208 _ 5 _ rfl (by decide +kernel) rfl
  have hplain : ReadsDataCell oldHive oldW :=
    (readsDataCell_iff oldHive oldW (by decide) (by decide)).mpr fun _ hdr body hbody => by
      obtain ⟨_, rfl⟩ := Prod.mk.inj (Exec.ok.inj (hcell.symm.trans hbody))
      exact Or.inr (Or.inl (by decide))
  exact (hplain rfl _ _ hcell).trans (by decide)

/-- **A value of a version 1.3 hive is taken for a record**: its data cell is readable, and reading
    the value fails. -/
theorem rawData_ignores_version :
    Hive.fromBytes oldImage = .ok oldHive ∧ oldHive.version.hasBigData = false ∧
      (oldHive.rootKey = .ok oldRoot ∧ oldRoot.values oldHive.reader = .ok [oldV, oldW]) ∧
      oldV.isResident = false ∧ oldV.dataSize.toNat = 16345 ∧
      oldHive.reader.readCellRaw oldV.vk.dataOffset = .ok (⟨-16⟩, recordLike) ∧
      oldV.rawData oldHive.reader = .err .nullOffset ∧ ¬ ReadsDataCell oldHive oldV := by
  have hcell : oldHive.reader.readCellRaw oldV.vk.dataOffset = .ok (⟨-16⟩, recordLike) :=
    @oldHive_readCellRaw 192 _ 4 _ rfl (by decide +kernel) rfl
  have hlist : oldHive.reader.readCellRaw ⟨u32At recordLike 4⟩ = .err .nullOffset := by
    rw [show u32At recordLike 4 = 0xFFFFFFFF from by decide]
    rfl
  have hraw : oldV.rawData oldHive.reader = .err .nullOffset := by
    show Value.readBigData oldHive.reader oldV.vk.dataOffset 16345 = _
    unfold Value.readBigData
    rw [hcell, Exec.ok_bind]
    dsimp only
    rw [if_neg (by decide), hlist, Exec.err_bind]
  refine ⟨fromBytes_oldImage, rfl, oldHive_values, rfl, rfl, hcell, hraw, fun h => ?_⟩
  rw [h rfl _ _ hcell] at hraw
  cases hraw

end Winreg
