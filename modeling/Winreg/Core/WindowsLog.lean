/-
  LOGS AS WINDOWS WRITES THEM: the published layout of an entry.

  In the published layout an entry gives its size at +4, flags at +8, a sequence number at +12, the
  size of the hive bins data at +16 and the number of its pages at +20, then two hashes, and from
  +40 on the references, the pages and padding.  The scan takes the number of pages from +16.  So
  it reads as many references as the hive bins have bytes, and looks for the first page behind all
  of these.

  1. **Layout** — `WindowsEntry.toBytes` and `WindowsLog.toBytes`.
  2. **What is read** — the scan goes from entry to entry all the same, and of each it takes the
     pages that a table of `binsSize` references gives (`WindowsLog.entryPages_eq`).
  3. **When it applies what is listed** — if and only if these tables give the listed pages; so if
     each bins size is the number of pages, but not if the tables run past the end of the log
     (`windowsLog_replayed_iff`).
-/
import Winreg.Core.LogStream

namespace Winreg

open Rust

/-! ## Layout -/

/-- An entry in the published layout. -/
structure WindowsEntry where
  flags : UInt32
  sequence : UInt32
  binsSize : UInt32
  hashes : Bytes
  pages : List LogPage
  padding : Bytes
  length_hashes : hashes.length = 16

namespace WindowsEntry

/-- The length of an entry. -/
def size (e : WindowsEntry) : Nat := 40 + tableSize e.pages + e.padding.length

/-- The first 40 bytes of an entry. -/
def head (e : WindowsEntry) : Bytes :=
  hvleMagic ++ (u32Bytes (UInt32.ofNat e.size) ++ (u32Bytes e.flags ++ (u32Bytes e.sequence ++
    (u32Bytes e.binsSize ++ (u32Bytes (UInt32.ofNat e.pages.length) ++ e.hashes)))))

/-- The bytes of an entry: its head with the hashes, the table of references, the pages and the
    padding. -/
def toBytes (e : WindowsEntry) : Bytes :=
  e.head ++ (e.pages.flatMap LogPage.reference ++ (e.pages.flatMap LogPage.data ++ e.padding))

/-- The fixed part of an entry has 40 bytes, the hashes included. -/
theorem length_head (e : WindowsEntry) : e.head.length = 40 := by
  simp only [head, List.length_append, length_u32Bytes, e.length_hashes]
  rfl

/-- An entry is as long as its size field says. -/
theorem length_toBytes (e : WindowsEntry) : e.toBytes.length = e.size := by
  rw [toBytes, List.length_append, List.length_append, List.length_append, length_head,
    length_flatMap_of_width LogPage.length_reference, size, tableSize]
  omega

end WindowsEntry

/-- A log file: a header of 512 bytes with the file type 6, and entries back to back. -/
structure WindowsLog where
  header : Bytes
  entries : List WindowsEntry
  length_header : header.length = 512
  magic : bytesAt header 0 4 = BaseBlock.magic
  fileType : u32At header 0x1C = 6
  size_lt : (header ++ entries.flatMap WindowsEntry.toBytes).length < 2 ^ 32

namespace WindowsLog

/-- The header sector and the entries behind it. -/
def toBytes (w : WindowsLog) : Bytes := w.header ++ w.entries.flatMap WindowsEntry.toBytes

/-- All listed pages, in entry order and page order, each at 4096 plus its offset. -/
def pages (w : WindowsLog) : List Page := w.entries.flatMap fun e => e.pages.map LogPage.page

/-- The entries with their positions. -/
def placedEntries (w : WindowsLog) : List (Nat × WindowsEntry) :=
  placed WindowsEntry.size 512 w.entries

end WindowsLog

/-! ## What is read -/

namespace WindowsEntry

/-- The log holds an entry at a position. -/
def At (e : WindowsEntry) (log : Bytes) (pos : Nat) : Prop :=
  ∃ before after, log = before ++ (e.toBytes ++ after) ∧ before.length = pos

variable {e : WindowsEntry} {log : Bytes} {pos : Nat}

/-- An entry that stands at a position lies within the log. -/
theorem At.inside (h : e.At log pos) : pos + e.size ≤ log.length := by
  obtain ⟨before, after, rfl, rfl⟩ := h
  rw [List.length_append, List.length_append, e.length_toBytes]
  omega

/-- Its pages stand behind its table. -/
theorem At.holdsPages (h : e.At log pos) : HoldsPages e.pages log pos := by
  obtain ⟨before, after, rfl, rfl⟩ := h
  refine ⟨before ++ e.head, e.padding ++ after, ?_, by rw [List.length_append, e.length_head]⟩
  simp only [toBytes, List.append_assoc]

/-- The scan recognises it. -/
theorem At.entryAt (h : e.At log pos) : EntryAt log pos :=
  (entryAt_of_head h rfl e.length_head).1

/-- The scan reads its size. -/
theorem At.entrySize_eq (h : e.At log pos) (hsize : e.size < 2 ^ 32) :
    entrySize log pos = e.size :=
  (entryAt_of_head h rfl e.length_head).2 hsize

/-- **The wrong field**: the size of the hive bins data is taken for the number of pages. -/
theorem At.entryPageCount_eq (h : e.At log pos) : entryPageCount log pos = e.binsSize.toNat := by
  have hin := h.entryAt.inside
  have hfield : u32At log (pos + 16) = e.binsSize := by
    have hhead : e.head = (hvleMagic ++ (u32Bytes (UInt32.ofNat e.size) ++ (u32Bytes e.flags ++
        u32Bytes e.sequence))) ++ (u32Bytes e.binsSize ++
          (u32Bytes (UInt32.ofNat e.pages.length) ++ e.hashes)) := by
      simp only [head, List.append_assoc]
    refine u32At_of_bytesAt (bytesAt_head h hhead ?_ (length_u32Bytes _))
    simp only [List.length_append, length_u32Bytes]
    rfl
  unfold entryPageCount
  rw [leU32_eq_u32At (by omega), hfield]

end WindowsEntry

/-- The pages that a table of `count` references gives, 40 bytes behind a position: page `i` is as
    long as its reference says, stands behind the whole table and the pages before it (whose sizes
    are added up modulo 2^32), and counts if the log holds its reference and its bytes. -/
def pagesWith (log : Bytes) (pos count : Nat) : List Page :=
  let start := fun i => pos + 40 + count * 8 + sizeSum log (pos + 40) i % 2 ^ 32
  ((List.range count).filter fun i =>
      pageRef pos i + 8 ≤ log.length ∧ start i + pageSize log pos i ≤ log.length).map
    fun i => (4096 + (u32At log (pageRef pos i)).toNat, bytesAt log (start i) (pageSize log pos i))

/-- A table that runs past the end of the log gives no pages. -/
theorem pagesWith_of_past_end {log : Bytes} {pos count : Nat}
    (h : log.length < pos + 40 + count * 8) : pagesWith log pos count = [] := by
  unfold pagesWith
  refine List.map_eq_nil_iff.mpr (List.filter_eq_nil_iff.mpr fun i _ hi => ?_)
  have hend := (of_decide_eq_true hi).2
  dsimp only at hend
  omega

namespace WindowsLog

variable (w : WindowsLog)

/-- The log is scanned as one in the new format. -/
theorem scanned : Scanned w.toBytes :=
  scanned_of_header w.length_header w.magic (Or.inr w.fileType)

variable {w}

/-- Each entry stands at its place, and its size fits in 32 bits. -/
theorem at_of_mem {q : Nat × WindowsEntry} (hq : q ∈ w.placedEntries) :
    q.2.At w.toBytes q.1 ∧ q.2.size < 2 ^ 32 := by
  have hat : q.2.At w.toBytes q.1 := @split_of_mem_placed _ _ _ WindowsEntry.length_toBytes
    _ _ w.header rfl q (by rw [w.length_header]; exact hq)
  have hin := hat.inside
  have hlen : w.toBytes.length < 2 ^ 32 := w.size_lt
  exact ⟨hat, by omega⟩

/-- The entries follow each other up to the end of the log. -/
theorem entryChain (w : WindowsLog) :
    EntryChain w.toBytes 512 (w.placedEntries.map Prod.fst) := by
  refine entryChain_placed ?_ fun q hq => ?_
  · rw [toBytes, List.length_append, w.length_header, List.length_flatMap]
    simp only [WindowsEntry.length_toBytes]
  · obtain ⟨hat, hsize⟩ := at_of_mem hq
    exact ⟨hat.entryAt, hat.entrySize_eq hsize⟩

/-- **What is read of an entry**: the pages of a table of `binsSize` references. -/
theorem entryPages_eq {q : Nat × WindowsEntry} (hq : q ∈ w.placedEntries) :
    entryPages w.toBytes q.1 = pagesWith w.toBytes q.1 q.2.binsSize.toNat := by
  rw [← (at_of_mem hq).1.entryPageCount_eq]
  rfl

/-- The pages that are read of all entries. -/
def readPages (w : WindowsLog) : List Page :=
  w.placedEntries.flatMap fun q => pagesWith w.toBytes q.1 q.2.binsSize.toNat

/-- What the scan reads at the places of the entries, entry by entry. -/
theorem flatMap_entryPages (w : WindowsLog) :
    (w.placedEntries.map Prod.fst).flatMap (entryPages w.toBytes) = w.readPages := by
  rw [List.flatMap_map]
  exact List.flatMap_congr fun q hq => entryPages_eq hq

end WindowsLog

/-! ## When it applies what is listed -/

/-- The replay of a log comes back and has applied exactly these pages, in this order. -/
structure AppliesExactly (profile : Profile) (log : Bytes) (pages : List Page) : Prop where
  replayed : ReplayedPages profile log pages
  result : ∀ hiveData, Exec.Evals (fun n => replayTransactionLogs profile n hiveData [log])
    (.ok ((OverlayBuffer.new hiveData).applyPages pages))

/-- The replay of a single log. -/
theorem replayTransactionLogs_singleton (profile : Profile) (n : Nat) (hiveData log : Bytes) :
    replayTransactionLogs profile n hiveData [log] =
      replayLog profile n (OverlayBuffer.new hiveData) log := by
  unfold replayTransactionLogs
  rw [List.foldlM_cons]
  simp only [List.foldlM_nil, bind_pure]

namespace WindowsLog

/-- What is applied is what is read, and only if the size sums of all entries fit. -/
theorem appliesExactly_iff (w : WindowsLog) (profile : Profile) (pages : List Page) :
    AppliesExactly profile w.toBytes pages ↔
      (∀ q ∈ w.placedEntries, EntryApplies profile w.toBytes q.1) ∧ w.readPages = pages := by
  have hchain := w.entryChain
  constructor
  · rintro ⟨hreplayed, hresult⟩
    obtain ⟨N, hN⟩ := hresult []
    have hrun : replayTransactionLogs profile N [] [w.toBytes] = _ := hN N (Nat.le_refl N)
    rw [replayTransactionLogs_singleton, replayLog_scanned w.scanned, parseNewFormatLog] at hrun
    have happlies := hchain.applies_of_ok hrun
    refine ⟨List.forall_mem_map.mp happlies, ?_⟩
    cases hreplayed with
    | scanned _ trace =>
      rw [(hchain.trace_iff happlies).mp trace]
      exact w.flatMap_entryPages.symm
    | skipped hnot => exact absurd w.scanned hnot
  · rintro ⟨happlies, rfl⟩
    have happlies := List.forall_mem_map.mpr happlies
    constructor
    · rw [← w.flatMap_entryPages]
      exact .scanned w.scanned ((hchain.trace_iff happlies).mpr rfl)
    · intro hiveData
      refine ⟨(w.placedEntries.map Prod.fst).length + 1, fun n hn => ?_⟩
      dsimp only
      rw [replayTransactionLogs_singleton, replayLog_scanned w.scanned, parseNewFormatLog,
        hchain.loop_eq happlies _ (by omega), w.flatMap_entryPages]

end WindowsLog

/-- **When the replay of a Windows log applies exactly the listed pages**: if and only if in each
    entry the size sums fit and the tables of `binsSize` references give, all in all, the listed
    pages.  So it does if each entry lists as many pages as its hive bins have bytes; and it does
    not, if pages are listed and the tables all run past the end of the log.  The field that is
    taken for the number of pages holds the size of the bins. -/
theorem windowsLog_replayed_iff (w : WindowsLog) (profile : Profile) :
    (AppliesExactly profile w.toBytes w.pages ↔
      (∀ q ∈ w.placedEntries, EntryApplies profile w.toBytes q.1) ∧
        (w.placedEntries.flatMap fun q => pagesWith w.toBytes q.1 q.2.binsSize.toNat) =
          w.pages) ∧
    ((∀ e ∈ w.entries, e.binsSize.toNat = e.pages.length) →
      AppliesExactly profile w.toBytes w.pages) ∧
    ((∀ q ∈ w.placedEntries, w.toBytes.length < q.1 + 40 + q.2.binsSize.toNat * 8) →
      w.pages ≠ [] → ¬ AppliesExactly profile w.toBytes w.pages) := by
  refine ⟨w.appliesExactly_iff profile w.pages, fun hsame => ?_, fun hpast hne happlies => ?_⟩
  · have hmem : ∀ q ∈ w.placedEntries, q.2 ∈ w.entries := fun q hq => by
      rw [← map_snd_placed WindowsEntry.size 512 w.entries]
      exact List.mem_map_of_mem hq
    -- where size and number agree, each entry is read as it was written
    have hread : ∀ q ∈ w.placedEntries, entryPages w.toBytes q.1 = q.2.pages.map LogPage.page ∧
        EntryApplies profile w.toBytes q.1 := fun q hq => by
      obtain ⟨hat, hsize⟩ := WindowsLog.at_of_mem hq
      have hcount := hat.entryPageCount_eq.trans (hsame q.2 (hmem q hq))
      have htable : tableSize q.2.pages < 2 ^ 32 := by
        unfold WindowsEntry.size at hsize
        omega
      exact ⟨hat.holdsPages.entryPages_eq htable hcount,
        hat.holdsPages.entryApplies htable hcount profile⟩
    refine (w.appliesExactly_iff profile w.pages).mpr ⟨fun q hq => (hread q hq).2, ?_⟩
    unfold WindowsLog.readPages WindowsLog.pages
    conv_rhs => rw [← map_snd_placed WindowsEntry.size 512 w.entries, List.flatMap_map]
    refine List.flatMap_congr fun q hq => ?_
    rw [← WindowsLog.entryPages_eq hq]
    exact (hread q hq).1
  · -- a table that runs past the end gives no page, so all that is applied is nothing
    obtain ⟨_, hread⟩ := (w.appliesExactly_iff profile w.pages).mp happlies
    refine hne (hread.symm.trans (List.flatMap_eq_nil_iff.mpr fun q hq => ?_))
    exact pagesWith_of_past_end (hpast q hq)

/-- A bin of zeros. -/
def dirtyPage : LogPage := ⟨0, List.replicate 4096 0⟩

/-- An entry for a hive with one bin: it lists that bin as one page. -/
def dirtyEntry : WindowsEntry where
  flags := 0
  sequence := 1
  binsSize := 4096
  hashes := List.replicate 16 0
  pages := [dirtyPage]
  padding := []
  length_hashes := rfl

/-- The base block of the log: its magic and its file type. -/
def dirtyHeader : Bytes :=
  BaseBlock.magic ++ List.replicate 24 0 ++ u32Bytes 6 ++ List.replicate 480 0

/-- The header passes the three checks of the scan. -/
theorem dirtyHeader_valid : dirtyHeader.length = 512 ∧
    bytesAt dirtyHeader 0 4 = BaseBlock.magic ∧ u32At dirtyHeader 0x1C = 6 := by decide +kernel

/-- A log of one entry with one page. -/
def dirtyLog : WindowsLog where
  header := dirtyHeader
  entries := [dirtyEntry]
  length_header := dirtyHeader_valid.1
  magic := dirtyHeader_valid.2.1
  fileType := dirtyHeader_valid.2.2
  size_lt := by decide +kernel

/-- The page has the usual size. -/
theorem length_dirtyPage : dirtyPage.data.length = 4096 := List.length_replicate

/-- The log is small enough for all sums. -/
theorem length_dirtyLog : dirtyLog.toBytes.length = 4656 := by decide +kernel

/-- The entry stands right behind the header. -/
theorem mem_dirtyLog : (512, dirtyEntry) ∈ dirtyLog.placedEntries := List.mem_singleton_self _

/-- The page stands behind the entry's table. -/
theorem dirtyLog_holdsPage : HoldsPages [dirtyPage] dirtyLog.toBytes 512 :=
  (WindowsLog.at_of_mem mem_dirtyLog).1.holdsPages

/-- The table and the page fit in 32 bits. -/
theorem tableSize_dirtyPage : tableSize [dirtyPage] < 2 ^ 32 := by
  unfold tableSize
  rw [List.flatMap_singleton, length_dirtyPage]
  decide

/-- Behind its only reference the log has zeros up to the end. -/
theorem u32At_dirtyLog {off : Nat} (hlow : 560 ≤ off) (hhigh : off + 4 ≤ 4656) :
    u32At dirtyLog.toBytes off = 0 := by
  obtain ⟨before, after, hlog, hbefore⟩ := dirtyLog_holdsPage
  have hdata : [dirtyPage].flatMap LogPage.data = List.replicate 4096 0 :=
    List.flatMap_singleton LogPage.data dirtyPage
  have hrefs : ([dirtyPage].flatMap LogPage.reference).length = 8 :=
    length_flatMap_of_width LogPage.length_reference [dirtyPage]
  refine u32At_of_bytesAt ?_
  rw [hlog, hdata, bytesAt_append_right (by omega), bytesAt_append_right (by omega),
    bytesAt_append_left (by rw [List.length_replicate]; omega), bytesAt, List.drop_replicate,
    List.take_replicate, Nat.min_eq_left (by omega)]
  rfl

/-- The size sums of the entry, read with too many references, stay small. -/
theorem sizeSum_dirtyLog : ∀ i, 552 + i * 8 ≤ 4656 → sizeSum dirtyLog.toBytes 552 i ≤ 4096 := by
  intro i
  induction i with
  | zero => exact fun _ => Nat.zero_le _
  | succ i ih =>
    intro hi
    rw [sizeSum_succ]
    cases i with
    | zero =>
      have hsize : (u32At dirtyLog.toBytes 556).toNat = dirtyPage.data.length :=
        dirtyLog_holdsPage.pageSize_eq tableSize_dirtyPage (i := 0) Nat.one_pos
      have hsum : sizeSum dirtyLog.toBytes 552 0 = 0 := rfl
      rw [hsum, hsize, length_dirtyPage]
    | succ i =>
      rw [u32At_dirtyLog (by omega) (by omega)]
      exact ih (by omega)

/-- **Nothing of the log is applied**: its entry lists one page, and is read as one of 4096 pages
    behind as many references. -/
theorem windowsLog_ignored :
    dirtyLog.pages = [(4096, List.replicate 4096 0)] ∧ ∀ profile,
      AppliesExactly profile dirtyLog.toBytes [] ∧
      ¬ AppliesExactly profile dirtyLog.toBytes dirtyLog.pages := by
  have hpages : dirtyLog.pages = [(4096, List.replicate 4096 0)] := by
    show [dirtyEntry].flatMap (fun e => e.pages.map LogPage.page) = _
    rw [List.flatMap_singleton]
    rfl
  have hread : dirtyLog.readPages = [] := by
    refine List.flatMap_eq_nil_iff.mpr fun q hq => ?_
    obtain rfl := List.mem_singleton.mp hq
    have hlen := length_dirtyLog
    have hcount : dirtyEntry.binsSize.toNat = 4096 := rfl
    exact pagesWith_of_past_end (by dsimp only; omega)
  refine ⟨hpages, fun profile => ⟨?_, fun h => ?_⟩⟩
  · refine (dirtyLog.appliesExactly_iff profile []).mpr ⟨fun q hq => ?_, hread⟩
    obtain rfl := List.mem_singleton.mp hq
    intro i _ hin _
    rw [length_dirtyLog] at hin
    have hsum := sizeSum_dirtyLog i (by omega)
    exact Nat.lt_of_le_of_lt hsum (by decide)
  · obtain ⟨_, hsame⟩ := (dirtyLog.appliesExactly_iff profile dirtyLog.pages).mp h
    rw [hread, hpages] at hsame
    cases hsame

end Winreg
