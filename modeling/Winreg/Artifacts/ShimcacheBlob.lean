/-
  SHIMCACHE BLOBS: what the cache is written as, and that it reads back.

  A blob is a header and a stream of entries.  An entry is a marker, four bytes, the length of its
  body, and the body; the body has the path, the FILETIME and some data, and on Windows 8 the
  package and eight bytes of flags between the path and the FILETIME.

  1. **Layouts** — `CacheEntry layout` with its body; the two kinds of blob.
  2. **Bodies** — both layouts decode at the offsets at which they were written
     (`decodeWin10EntryBody_body`).
  3. **Streams** — the loop reads one entry per round and stops at the end of the blob
     (`parseWin10Entries_stream`).
  4. **Dispatch** — the first bytes of a blob tell its layout, whatever the entries are, so every
     blob reads back (`parseBlob_roundTrip`).
-/
import Winreg.Artifacts.Shimcache
import Winreg.Base.Utf16
import Mathlib.Data.List.TakeWhile

namespace Winreg

open Rust

namespace Shimcache

/-! ## Layouts -/

/-- The parts of an entry; the package and the flags are written on Windows 8 only. -/
structure EntryParts where
  path : Str
  filetime : UInt64
  unknown : UInt32
  package : Bytes
  insertionFlags : UInt32
  shimFlags : UInt32
  data : Bytes

namespace EntryParts

/-- What stands between the path and the FILETIME. -/
def gap (e : EntryParts) : EntryBodyLayout → Bytes
  | .win10 => []
  | .win8x => u16Bytes (UInt16.ofNat e.package.length) ++ e.package ++ u32Bytes e.insertionFlags ++
      u32Bytes e.shimFlags

/-- The bytes of a body in a layout. -/
def body (e : EntryParts) (layout : EntryBodyLayout) : Bytes :=
  u16Bytes (UInt16.ofNat (utf16leBytes e.path).length) ++ utf16leBytes e.path ++ e.gap layout ++
    u64Bytes e.filetime ++ u32Bytes (UInt32.ofNat e.data.length) ++ e.data

end EntryParts

/-- An entry that can be written: its path has no NUL, and all lengths fit their fields. -/
structure CacheEntry (layout : EntryBodyLayout) extends EntryParts where
  nulFree : '\x00' ∉ path
  pathFits : (encodeUtf16 path).length ≤ 32767
  packageFits : package.length < 0x10000
  bodyFits : (toEntryParts.body layout).length < 2 ^ 32

namespace CacheEntry

variable {layout : EntryBodyLayout}

/-- The body of an entry in its layout. -/
def body (e : CacheEntry layout) : Bytes := e.toEntryParts.body layout

/-- The entry in a stream. -/
def toBytes (marker : Bytes) (e : CacheEntry layout) : Bytes :=
  marker ++ u32Bytes e.unknown ++ u32Bytes (UInt32.ofNat e.body.length) ++ e.body

end CacheEntry

/-- Entries one after the other. -/
def stream {layout : EntryBodyLayout} (marker : Bytes) (entries : List (CacheEntry layout)) :
    Bytes :=
  entries.flatMap (CacheEntry.toBytes marker)

/-- The header of Windows 10 is its own length, filled up with zeros. -/
def win10Header (headerLen : UInt32) : Bytes :=
  u32Bytes headerLen ++ List.replicate (headerLen.toNat - 4) 0

/-- A blob of Windows 10: a header of either length and the entries. -/
def win10Blob (headerLen : UInt32) (entries : List (CacheEntry .win10)) : Bytes :=
  win10Header headerLen ++ stream entryMarkerWin81Win10 entries

/-- The header of Windows 8 has 128 bytes. -/
def win8xBlob (first : UInt32) (rest marker : Bytes) (entries : List (CacheEntry .win8x)) : Bytes :=
  (u32Bytes first ++ rest) ++ stream marker entries

/-! ## Bodies -/

section Bodies

variable {Timestamp : Type} (jiff : Jiff Timestamp) {layout : EntryBodyLayout}

/-- The entries that are read, from a number on. -/
def readBack (rawSize index : Nat) (entries : List (CacheEntry layout)) : List ShimcacheEntry :=
  entries.mapIdx fun i e => ⟨e.path, formatFiletime jiff e.filetime, rawSize, index + i⟩

/-- **The path of an entry** is decoded as it was. -/
theorem decodeUtf16le_path {path : Str} (h : '\x00' ∉ path) :
    decodeUtf16le (utf16leBytes path) = path := by
  unfold decodeUtf16le utf16leBytes
  rw [utf16Units_bytes, List.takeWhile_eq_self_iff.mpr, fromUtf16Lossy_encodeUtf16]
  exact fun u hu => decide_eq_true (encodeUtf16_ne_zero h u hu)

namespace CacheEntry

variable (e : CacheEntry layout)

/-- The body in its parts. -/
theorem body_eq : e.body = u16Bytes (UInt16.ofNat (utf16leBytes e.path).length) ++
    (utf16leBytes e.path ++ (e.gap layout ++ (u64Bytes e.filetime ++
      (u32Bytes (UInt32.ofNat e.data.length) ++ e.data)))) := by
  simp only [CacheEntry.body, EntryParts.body, List.append_assoc]

/-- The parts of a body add up. -/
theorem length_body : e.body.length =
    2 + (utf16leBytes e.path).length + (e.gap layout).length + 12 + e.data.length := by
  rw [body_eq]
  simp only [List.length_append, length_u16Bytes, length_u32Bytes, length_u64Bytes]
  omega

/-- The length of the path is read as it was written. -/
theorem pathSize_eq : (u16At e.body 0).toNat = (utf16leBytes e.path).length := by
  have hlen := length_utf16leBytes e.path
  have hfits := e.pathFits
  have hread : bytesAt e.body 0 2 = u16Bytes (UInt16.ofNat (utf16leBytes e.path).length) :=
    bytesAt_part (e.body_eq.trans (List.nil_append _).symm) rfl (length_u16Bytes _)
  rw [u16At_of_bytesAt hread, toNat_ofNat_u16 (by omega)]

/-- The path is read from its place. -/
theorem path_eq :
    bytesAt e.body 2 (utf16leBytes e.path).length = utf16leBytes e.path :=
  bytesAt_part e.body_eq (length_u16Bytes _) rfl

/-- **The FILETIME is behind the gap.** -/
theorem filetimeOffset_eq :
    filetimeOffset e.body layout (2 + (utf16leBytes e.path).length) =
      some (2 + (utf16leBytes e.path).length + (e.gap layout).length) := by
  have hlen := e.length_body
  cases layout with
  | win10 => rfl
  | win8x =>
    have hgap : (e.gap .win8x).length = 2 + e.package.length + 8 := by
      simp only [EntryParts.gap, List.length_append, length_u16Bytes, length_u32Bytes]
    have hparts : e.body = (u16Bytes (UInt16.ofNat (utf16leBytes e.path).length) ++
        utf16leBytes e.path) ++ (u16Bytes (UInt16.ofNat e.package.length) ++ (e.package ++
          u32Bytes e.insertionFlags ++ u32Bytes e.shimFlags ++ u64Bytes e.filetime ++
          u32Bytes (UInt32.ofNat e.data.length) ++ e.data)) := by
      simp only [body_eq, EntryParts.gap, List.append_assoc]
    have hread := bytesAt_part hparts (by rw [List.length_append, length_u16Bytes])
      (length_u16Bytes _)
    unfold filetimeOffset
    dsimp only
    rw [if_pos (by omega), u16At_of_bytesAt hread, toNat_ofNat_u16 e.packageFits, hgap]
    rfl

/-- So is the time, behind the gap of the layout. -/
theorem filetime_eq :
    u64At e.body (2 + (utf16leBytes e.path).length + (e.gap layout).length) = e.filetime := by
  have hparts : e.body = (u16Bytes (UInt16.ofNat (utf16leBytes e.path).length) ++
      utf16leBytes e.path ++ e.gap layout) ++ (u64Bytes e.filetime ++
        (u32Bytes (UInt32.ofNat e.data.length) ++ e.data)) := by
    simp only [body_eq, List.append_assoc]
  refine u64At_of_bytesAt (bytesAt_part hparts ?_ (length_u64Bytes _))
  rw [List.length_append, List.length_append, length_u16Bytes]

end CacheEntry

/-- **An entry decodes** to its path and its time, in both layouts. -/
theorem decodeWin10EntryBody_body (e : CacheEntry layout) :
    decodeWin10EntryBody jiff e.body layout = (e.path, formatFiletime jiff e.filetime) := by
  have hlen := e.length_body
  have htime : ((filetimeOffset e.body layout (2 + (utf16leBytes e.path).length)).filter fun o =>
      o + 8 ≤ e.body.length).bind (fun o => formatFiletime jiff (u64At e.body o)) =
      formatFiletime jiff e.filetime := by
    rw [e.filetimeOffset_eq, Option.filter_some, if_pos (decide_eq_true (by omega)),
      Option.bind_some, e.filetime_eq]
  -- an empty path is not decoded at all
  have hpath : (if (utf16leBytes e.path).length > 0 ∧
      2 + (utf16leBytes e.path).length ≤ e.body.length then
        decodeUtf16le (bytesAt e.body 2 (utf16leBytes e.path).length) else []) = e.path := by
    rcases Nat.eq_zero_or_pos (utf16leBytes e.path).length with hzero | hpos
    · have hdecode := decodeUtf16le_path e.nulFree
      rw [List.length_eq_zero_iff.mp hzero] at hdecode
      rw [if_neg (by omega), ← hdecode]
      rfl
    · rw [if_pos ⟨hpos, by omega⟩, e.path_eq, decodeUtf16le_path e.nulFree]
  unfold decodeWin10EntryBody
  rw [if_neg (by omega), e.pathSize_eq]
  exact Prod.ext hpath htime

end Bodies

/-! ## Streams -/

section Streams

variable {Timestamp : Type} (jiff : Jiff Timestamp) {layout : EntryBodyLayout} {marker : Bytes}

/-- An entry is as long as its frame and its body. -/
theorem CacheEntry.length_toBytes (hmarker : marker.length = 4) (e : CacheEntry layout) :
    (e.toBytes marker).length = 12 + e.body.length := by
  simp only [CacheEntry.toBytes, List.length_append, length_u32Bytes]
  omega

/-- **One round** of the loop reads the entry at the offset, and goes on behind it. -/
theorem parseWin10Entries_entry (hmarker : marker.length = 4) (before after : Bytes)
    (e : CacheEntry layout) (index : Nat) {blob : Bytes}
    (hblob : blob = before ++ (e.toBytes marker ++ after)) :
    parseWin10Entries jiff blob marker layout before.length index =
      ⟨e.path, formatFiletime jiff e.filetime, blob.length, index⟩ ::
        parseWin10Entries jiff blob marker layout (before ++ e.toBytes marker).length
          (index + 1) := by
  have hentry := e.length_toBytes hmarker
  have hlen : blob.length = before.length + (12 + e.body.length) + after.length := by
    rw [hblob, List.length_append, List.length_append, hentry]
    omega
  -- marker, length and body are at the offsets at which the loop looks
  have hparts : blob = before ++ (marker ++ (u32Bytes e.unknown ++
      (u32Bytes (UInt32.ofNat e.body.length) ++ (e.body ++ after)))) := by
    rw [hblob]
    simp only [CacheEntry.toBytes, List.append_assoc]
  have hmark : bytesAt blob before.length 4 = marker := bytesAt_part hparts rfl hmarker
  have hsize : (u32At blob (before.length + 8)).toNat = e.body.length := by
    have hframe : blob = (before ++ marker ++ u32Bytes e.unknown) ++
        (u32Bytes (UInt32.ofNat e.body.length) ++ (e.body ++ after)) := by
      rw [hparts]
      simp only [List.append_assoc]
    have hread : bytesAt blob (before.length + 8) 4 = u32Bytes (UInt32.ofNat e.body.length) :=
      bytesAt_part hframe (by simp only [List.length_append, length_u32Bytes]; omega)
        (length_u32Bytes _)
    rw [u32At_of_bytesAt hread, UInt32.toNat_ofNat']
    exact Nat.mod_eq_of_lt e.bodyFits
  have hbody : bytesAt blob (before.length + 12) e.body.length = e.body := by
    have hframe : blob = (before ++ marker ++ u32Bytes e.unknown ++
        u32Bytes (UInt32.ofNat e.body.length)) ++ (e.body ++ after) := by
      rw [hparts]
      simp only [List.append_assoc]
    exact bytesAt_part hframe (by simp only [List.length_append, length_u32Bytes]; omega) rfl
  have hend : before.length + 12 + e.body.length = (before ++ e.toBytes marker).length := by
    rw [List.length_append, hentry]
    omega
  rw [parseWin10Entries, dif_pos (by rw [entryFramingLen]; omega), if_neg (not_not.mpr hmark)]
  dsimp only [entryFramingLen]
  rw [hsize, if_pos (by omega), Nat.add_sub_cancel_left, hbody, decodeWin10EntryBody_body, hend]

/-- **A stream of entries** is read from its start to the end of the blob. -/
theorem parseWin10Entries_stream (hmarker : marker.length = 4) {blob : Bytes} :
    ∀ (entries : List (CacheEntry layout)) (before : Bytes) (index : Nat),
      blob = before ++ stream marker entries →
      parseWin10Entries jiff blob marker layout before.length index =
        readBack jiff blob.length index entries
  | [], before, index, hblob => by
    have hlen : blob.length = before.length := by rw [hblob]; simp [stream]
    rw [parseWin10Entries, dif_neg (by rw [hlen, entryFramingLen]; omega)]
    rfl
  | e :: entries, before, index, hblob => by
    rw [parseWin10Entries_entry jiff hmarker before (stream marker entries) e index hblob,
      parseWin10Entries_stream hmarker entries (before ++ e.toBytes marker) (index + 1)
        (hblob.trans (List.append_assoc _ _ _).symm), readBack, readBack, List.mapIdx_cons]
    simp only [Nat.add_zero, Nat.add_assoc, Nat.add_comm 1]

end Streams

/-! ## Dispatch -/

section Dispatch

variable {Timestamp : Type} (jiff : Jiff Timestamp)

/-- A blob of Windows 10 is read back entry by entry. -/
theorem parseBlob_win10Blob {headerLen : UInt32}
    (hheader : headerLen = win10HeaderLen1507 ∨ headerLen = win10HeaderLen1607)
    (entries : List (CacheEntry .win10)) :
    parseBlob jiff (win10Blob headerLen entries) =
      readBack jiff (win10Blob headerLen entries).length 0 entries := by
  have hpos : 4 ≤ headerLen.toNat := by rcases hheader with rfl | rfl <;> decide
  have hlen : (win10Header headerLen).length = headerLen.toNat := by
    rw [win10Header, List.length_append, length_u32Bytes, List.length_replicate]
    omega
  have hparts : win10Blob headerLen entries = [] ++ (u32Bytes headerLen ++
      (List.replicate (headerLen.toNat - 4) 0 ++ stream entryMarkerWin81Win10 entries)) := by
    simp only [win10Blob, win10Header, List.append_assoc, List.nil_append]
  have hsig : u32At (win10Blob headerLen entries) 0 = headerLen :=
    u32At_of_bytesAt (bytesAt_part hparts rfl (length_u32Bytes _))
  unfold parseBlob
  rw [if_neg (by rw [win10Blob, List.length_append, hlen]; omega), hsig]
  dsimp only
  rw [if_pos hheader, ← hlen]
  exact parseWin10Entries_stream jiff rfl entries (win10Header headerLen) 0 rfl

/-- So is one of Windows 8, with either mark. -/
theorem parseBlob_win8xBlob {first : UInt32} (hfirst : first = 0 ∨ first = 0x80) {rest : Bytes}
    (hrest : rest.length = 124) {marker : Bytes}
    (hmarker : marker = entryMarkerWin80 ∨ marker = entryMarkerWin81Win10)
    {entries : List (CacheEntry .win8x)} (hne : entries ≠ []) :
    parseBlob jiff (win8xBlob first rest marker entries) =
      readBack jiff (win8xBlob first rest marker entries).length 0 entries := by
  have hfour : marker.length = 4 := by rcases hmarker with rfl | rfl <;> rfl
  have hlen : (u32Bytes first ++ rest).length = win8xEntryStreamOffset := by
    rw [List.length_append, length_u32Bytes, hrest]
    rfl
  obtain ⟨e, entries, rfl⟩ := List.exists_cons_of_ne_nil hne
  have hstream : win8xBlob first rest marker (e :: entries) = (u32Bytes first ++ rest) ++
      (marker ++ (u32Bytes e.unknown ++ u32Bytes (UInt32.ofNat e.body.length) ++ e.body ++
        stream marker entries)) := by
    simp only [win8xBlob, stream, List.flatMap_cons, CacheEntry.toBytes, List.append_assoc]
  have hmark : bytesAt (win8xBlob first rest marker (e :: entries)) win8xEntryStreamOffset 4 =
      marker := bytesAt_part hstream hlen hfour
  have hfront : win8xBlob first rest marker (e :: entries) = [] ++ (u32Bytes first ++ (rest ++
      stream marker (e :: entries))) := by
    simp only [win8xBlob, List.append_assoc, List.nil_append]
  have hsig : u32At (win8xBlob first rest marker (e :: entries)) 0 = first :=
    u32At_of_bytesAt (bytesAt_part hfront rfl (length_u32Bytes _))
  have hlong :
      win8xEntryStreamOffset + 4 ≤ (win8xBlob first rest marker (e :: entries)).length := by
    rw [hstream, List.length_append, hlen, List.length_append, hfour]
    omega
  have hoffset : win8xEntryStreamOffset = 128 := rfl
  unfold parseBlob
  rw [if_neg (by omega), hsig, hmark]
  dsimp only
  -- the first dword is neither a header length of Windows 10 nor a marker
  rw [if_neg (by rcases hfirst with rfl | rfl <;> decide),
    if_neg (by rcases hfirst with rfl | rfl <;> decide), if_pos ⟨hlong, hmarker⟩, ← hlen]
  exact parseWin10Entries_stream jiff hfour (e :: entries) (u32Bytes first ++ rest) 0 rfl

/-- **Every blob reads back**: one record for each entry, in order, with its path and its time.  An
    entry is read whatever comes behind it, and the loop goes on where it ends: that is the step,
    and the list is the induction. -/
theorem parseBlob_roundTrip :
    (∀ (headerLen : UInt32) (entries : List (CacheEntry .win10)),
      headerLen = win10HeaderLen1507 ∨ headerLen = win10HeaderLen1607 →
      parseBlob jiff (win10Blob headerLen entries) = entries.mapIdx fun i e =>
        ⟨e.path, formatFiletime jiff e.filetime, (win10Blob headerLen entries).length, i⟩) ∧
    ∀ (first : UInt32) (rest marker : Bytes) (entries : List (CacheEntry .win8x)),
      first = 0 ∨ first = 0x80 → rest.length = 124 →
      marker = entryMarkerWin80 ∨ marker = entryMarkerWin81Win10 → entries ≠ [] →
      parseBlob jiff (win8xBlob first rest marker entries) = entries.mapIdx fun i e =>
        ⟨e.path, formatFiletime jiff e.filetime, (win8xBlob first rest marker entries).length,
          i⟩ := by
  refine ⟨fun headerLen entries hheader => ?_,
    fun first rest marker entries hfirst hrest hmarker hne => ?_⟩
  · rw [parseBlob_win10Blob jiff hheader]
    simp only [readBack, Nat.zero_add]
  · rw [parseBlob_win8xBlob jiff hfirst hrest hmarker hne]
    simp only [readBack, Nat.zero_add]

end Dispatch

/-- An entry of Windows 8 for the system folder, with a package. -/
def systemEntry : CacheEntry .win8x where
  path := "C:\\".toList
  filetime := 116444736000000000
  unknown := 0
  package := [0x50]
  insertionFlags := 1
  shimFlags := 2
  data := []
  nulFree := by decide
  pathFits := by decide
  packageFits := by decide
  bodyFits := by decide

/-- A time library that knows the Unix epoch. -/
def epochJiff : Jiff Int :=
  ⟨some, fun ns => if ns = 0 then some "1970-01-01T00:00:00Z".toList else none⟩

/-- A blob of Windows 8 with that entry, and one of Windows 10 without entries. -/
theorem parseBlob_roundTrip_system :
    parseBlob epochJiff (win8xBlob 0x80 (List.replicate 124 0) entryMarkerWin80 [systemEntry]) =
      [⟨"C:\\".toList, some "1970-01-01T00:00:00Z".toList, 171, 0⟩] ∧
    parseBlob epochJiff (win10Blob win10HeaderLen1607 []) = [] := by
  obtain ⟨hwin10, hwin8x⟩ := parseBlob_roundTrip epochJiff
  have hlen : (win8xBlob 0x80 (List.replicate 124 0) entryMarkerWin80 [systemEntry]).length =
      171 := by decide +kernel
  have htime : formatFiletime epochJiff systemEntry.filetime =
      some "1970-01-01T00:00:00Z".toList := by decide
  refine ⟨?_, hwin10 win10HeaderLen1607 [] (.inr rfl)⟩
  rw [hwin8x 0x80 (List.replicate 124 0) entryMarkerWin80 [systemEntry] (.inr rfl)
    (List.length_replicate ..) (.inl rfl) (List.cons_ne_nil _ _), hlen, List.mapIdx_cons,
    List.mapIdx_nil, htime]
  rfl

end Shimcache

end Winreg
