/-
  LOG FILES AS THEY ARE WRITTEN: a header and entries, back to back.

  An entry is laid out as the scan documents it: the mark, its size, the number of its pages, one
  reference for each page, and the bytes of the pages one behind the other.  The bytes between the
  documented fields are free, and so are the page bytes: a page may be empty or hold the mark
  itself.

  1. **Layout** — `LogEntry.toBytes` and `LogFile.toBytes`; the sizes fit their fields because the
     whole file does.
  2. **Reading pages back** — where a log holds some pages behind the head of an entry that declares
     their number, these are the pages of the entry (`HoldsPages.entryPages_eq`).
  3. **Entries back to back** — the scan over a chain of entries recognises these and nothing else
     (`EntryChain.loop_eq`, `EntryChain.trace_iff`).
  4. **The replay** — so the overlay is the left fold over all listed pages
     (`replayTransactionLogs_logFiles`).
-/
import Winreg.Core.EntryPages

namespace Winreg

open Rust

/-! ## Layout -/

/-- A page of a log: its offset behind the base block and its bytes. -/
structure LogPage where
  offset : UInt32
  data : Bytes
deriving DecidableEq, Repr

namespace LogPage

/-- The reference to a page. -/
def reference (p : LogPage) : Bytes := u32Bytes p.offset ++ u32Bytes (UInt32.ofNat p.data.length)

/-- The page as it is applied to the hive file. -/
def page (p : LogPage) : Page := (4096 + p.offset.toNat, p.data)

/-- A reference is an offset and a size. -/
theorem length_reference (p : LogPage) : p.reference.length = 8 := by
  rw [reference, List.length_append, length_u32Bytes, length_u32Bytes]

end LogPage

/-- A log entry.  What stands between the documented fields is free. -/
structure LogEntry where
  spare1 : Bytes
  spare2 : Bytes
  pages : List LogPage
  length_spare1 : spare1.length = 8
  length_spare2 : spare2.length = 20

namespace LogEntry

/-- The length of an entry. -/
def size (e : LogEntry) : Nat := 40 + e.pages.length * 8 + (e.pages.flatMap LogPage.data).length

/-- The first 40 bytes of an entry. -/
def head (e : LogEntry) : Bytes :=
  hvleMagic ++ (u32Bytes (UInt32.ofNat e.size) ++ (e.spare1 ++
    (u32Bytes (UInt32.ofNat e.pages.length) ++ e.spare2)))

/-- An entry: its head, the references, and the pages in the same order. -/
def toBytes (e : LogEntry) : Bytes :=
  e.head ++ (e.pages.flatMap LogPage.reference ++ e.pages.flatMap LogPage.data)

/-- The fixed part of an entry has 40 bytes. -/
theorem length_head (e : LogEntry) : e.head.length = 40 := by
  simp only [head, List.length_append, length_u32Bytes, e.length_spare1, e.length_spare2]
  rfl

/-- An entry is as long as its size field says. -/
theorem length_toBytes (e : LogEntry) : e.toBytes.length = e.size := by
  rw [toBytes, List.length_append, List.length_append, length_head,
    length_flatMap_of_width LogPage.length_reference, size, Nat.add_assoc]

end LogEntry

/-- A log file: a header of 512 bytes that the replay recognises, and entries back to back. -/
structure LogFile where
  header : Bytes
  entries : List LogEntry
  length_header : header.length = 512
  magic : bytesAt header 0 4 = BaseBlock.magic
  fileType : u32At header 0x1C = 1 ∨ u32At header 0x1C = 6
  size_lt : (header ++ entries.flatMap LogEntry.toBytes).length < 2 ^ 32

namespace LogFile

/-- The header sector and the entries behind it. -/
def toBytes (f : LogFile) : Bytes := f.header ++ f.entries.flatMap LogEntry.toBytes

/-- All listed pages, in entry order and page order. -/
def pages (f : LogFile) : List Page := f.entries.flatMap fun e => e.pages.map LogPage.page

end LogFile

/-! ## Reading pages back -/

/-- The bytes of page `i` and of those before it are part of all bytes. -/
theorem length_flatMap_take {α : Type} (enc : α → Bytes) {xs : List α} {i : Nat}
    (hi : i < xs.length) :
    ((xs.take i).flatMap enc).length + (enc xs[i]).length ≤ (xs.flatMap enc).length := by
  have hsplit : xs = xs.take i ++ xs[i] :: xs.drop (i + 1) := by
    rw [← List.drop_eq_getElem_cons hi, List.take_append_drop]
  conv_rhs => rw [hsplit]
  rw [List.flatMap_append, List.flatMap_cons, List.length_append, List.length_append]
  omega

/-- The log holds, 40 bytes behind a position, the references of these pages and then their
    bytes. -/
def HoldsPages (pages : List LogPage) (log : Bytes) (pos : Nat) : Prop :=
  ∃ before after, log = before ++ (pages.flatMap LogPage.reference ++
    (pages.flatMap LogPage.data ++ after)) ∧ before.length = pos + 40

/-- The length of the references and of the bytes of some pages. -/
def tableSize (pages : List LogPage) : Nat :=
  pages.length * 8 + (pages.flatMap LogPage.data).length

section HoldsPages

variable {pages : List LogPage} {log : Bytes} {pos : Nat}

/-- The table and the pages lie within the log. -/
theorem HoldsPages.inside (h : HoldsPages pages log pos) :
    pos + 40 + tableSize pages ≤ log.length := by
  obtain ⟨before, after, rfl, hpos⟩ := h
  rw [List.length_append, List.length_append, List.length_append,
    length_flatMap_of_width LogPage.length_reference, tableSize]
  omega

/-- A range of reference `i`. -/
theorem HoldsPages.bytesAt_reference (h : HoldsPages pages log pos) {i o n : Nat}
    (hi : i < pages.length) (ho : o + n ≤ 8) :
    bytesAt log (pageRef pos i + o) n = bytesAt pages[i].reference o n := by
  obtain ⟨before, after, rfl, hpos⟩ := h
  have hplace : pageRef pos i + o - before.length = i * 8 + o := by
    unfold pageRef
    omega
  rw [bytesAt_append_right (by unfold pageRef; omega), hplace]
  exact bytesAt_flatMap LogPage.length_reference _ ho pages i hi

/-- The table has the offset of each page. -/
theorem HoldsPages.pageOffset_eq (h : HoldsPages pages log pos) {i : Nat}
    (hi : i < pages.length) : u32At log (pageRef pos i) = pages[i].offset := by
  refine u32At_of_bytesAt ?_
  rw [← Nat.add_zero (pageRef pos i), h.bytesAt_reference hi (by decide), LogPage.reference]
  exact bytesAt_part (List.nil_append _).symm rfl (length_u32Bytes _)

/-- And its size. -/
theorem HoldsPages.pageSize_eq (h : HoldsPages pages log pos) (hsize : tableSize pages < 2 ^ 32)
    {i : Nat} (hi : i < pages.length) : pageSize log pos i = pages[i].data.length := by
  have hfield : u32At log (pageRef pos i + 4) = UInt32.ofNat pages[i].data.length := by
    refine u32At_of_bytesAt ?_
    rw [h.bytesAt_reference hi (by decide), LogPage.reference]
    have hparts : u32Bytes pages[i].offset ++ u32Bytes (UInt32.ofNat pages[i].data.length) =
        u32Bytes pages[i].offset ++ (u32Bytes (UInt32.ofNat pages[i].data.length) ++ []) := by
      rw [List.append_nil]
    exact bytesAt_part hparts (length_u32Bytes _) (length_u32Bytes _)
  have hlen : pages[i].data.length < 2 ^ 32 := by
    have hpart := length_flatMap_take LogPage.data hi
    unfold tableSize at hsize
    omega
  unfold pageSize
  rw [hfield, UInt32.toNat_ofNat_of_lt' hlen]

/-- The sizes before page `i` add up to what its predecessors take. -/
theorem HoldsPages.sizeSum_eq (h : HoldsPages pages log pos) (hsize : tableSize pages < 2 ^ 32) :
    ∀ {i : Nat}, i ≤ pages.length →
      sizeSum log (pos + 40) i = ((pages.take i).flatMap LogPage.data).length := by
  intro i
  induction i with
  | zero => exact fun _ => rfl
  | succ i ih =>
    intro hi
    have hsum : (u32At log (pos + 40 + i * 8 + 4)).toNat = pages[i].data.length :=
      h.pageSize_eq hsize hi
    rw [sizeSum_succ, ih (by omega), hsum, List.take_add_one, List.getElem?_eq_getElem hi,
      List.flatMap_append, List.length_append]
    simp

/-- **Page `i`** is read back, if the entry declares this number of pages, and the log holds it
    whole. -/
theorem HoldsPages.page_eq (h : HoldsPages pages log pos) (hsize : tableSize pages < 2 ^ 32)
    (hcount : entryPageCount log pos = pages.length) {i : Nat} (hi : i < pages.length) :
    PageInside log pos i ∧ entryPage log pos i = pages[i].page := by
  have hin := h.inside
  have hpart := length_flatMap_take LogPage.data hi
  have hlen := h.pageSize_eq hsize hi
  have hstart : pageStart log pos i =
      pos + 40 + (pages.length * 8 + ((pages.take i).flatMap LogPage.data).length) := by
    unfold tableSize at hsize
    unfold pageStart
    rw [hcount, h.sizeSum_eq hsize hi.le, Nat.mod_eq_of_lt (by omega)]
    omega
  unfold tableSize at hin hsize
  constructor
  · refine ⟨?_, by omega⟩
    unfold pageRef
    omega
  · have hdata : bytesAt log (pageStart log pos i) (pageSize log pos i) = pages[i].data := by
      have hrefs := length_flatMap_of_width LogPage.length_reference pages
      rw [hstart, hlen]
      obtain ⟨before, after, rfl, hpos⟩ := h
      rw [← hpos, bytesAt_append_right (by omega), Nat.add_sub_cancel_left,
        bytesAt_append_right (by rw [hrefs]; omega), hrefs, Nat.add_sub_cancel_left]
      exact bytesAt_flatMap_getElem LogPage.data after hi
    unfold entryPage
    rw [hdata, h.pageOffset_eq hi]
    rfl

/-- **The pages of an entry** are the pages that the log holds behind its head. -/
theorem HoldsPages.entryPages_eq (h : HoldsPages pages log pos)
    (hsize : tableSize pages < 2 ^ 32) (hcount : entryPageCount log pos = pages.length) :
    entryPages log pos = pages.map LogPage.page := by
  have hwhole : EntryWhole log pos := fun i hi => (h.page_eq hsize hcount (hcount ▸ hi)).1
  rw [entryPages_of_whole hwhole, hcount]
  refine List.ext_getElem (by simp) fun i hi hi' => ?_
  rw [List.length_map, List.length_range] at hi
  rw [List.getElem_map, List.getElem_map, List.getElem_range]
  exact (h.page_eq hsize hcount hi).2

/-- The size sums of such an entry fit. -/
theorem HoldsPages.entryApplies (h : HoldsPages pages log pos)
    (hsize : tableSize pages < 2 ^ 32) (hcount : entryPageCount log pos = pages.length)
    (profile : Profile) : EntryApplies profile log pos := by
  intro i hi _ _
  rw [hcount] at hi
  have hpart := length_flatMap_take LogPage.data hi
  rw [h.sizeSum_eq hsize hi.le]
  unfold tableSize at hsize
  omega

end HoldsPages

/-! ## Entries back to back -/

/-- Entries stand back to back from a position on, up to the end of the log. -/
inductive EntryChain (log : Bytes) : Nat → List Nat → Prop where
  | done {p : Nat} (h : log.length < p + 4) : EntryChain log p []
  | entry {p : Nat} {ps : List Nat} (header : EntryAt log p)
      (rest : EntryChain log (p + entrySize log p) ps) : EntryChain log p (p :: ps)

section EntryChain

variable {profile : Profile} {log : Bytes} {p : Nat} {ps : List Nat}

/-- At the end of the chain no four bytes are left for a mark. -/
theorem scanPass_done (h : log.length < p + 4) (o : OverlayBuffer) :
    scanPass profile log ⟨p, o⟩ = .ok (.leave o) := if_neg (Nat.not_le.mpr h)

/-- **The scan over a chain** goes from entry to entry. -/
theorem EntryChain.loop_eq (chain : EntryChain log p ps)
    (happlies : ∀ q ∈ ps, EntryApplies profile log q) : ∀ {n : Nat} (o : OverlayBuffer),
    ps.length < n → Exec.loop (scanPass profile log) n ⟨p, o⟩ =
      .ok (o.applyPages (ps.flatMap (entryPages log))) := by
  induction chain with
  | done h =>
    intro n o hn
    obtain ⟨m, rfl⟩ : ∃ m, n = m + 1 := ⟨n - 1, by omega⟩
    exact Exec.loop_leave (scanPass_done h o) m
  | entry header _ ih =>
    intro n o hn
    obtain ⟨m, rfl⟩ : ∃ m, n = m + 1 := ⟨n - 1, by omega⟩
    obtain ⟨hfirst, hrest⟩ := List.forall_mem_cons.mp happlies
    rw [List.length_cons] at hn
    rw [Exec.loop_again (scanPass_entry o header hfirst), ih hrest _ (by omega),
      List.flatMap_cons, o.applyPages_append]

/-- The scan over a chain only comes back if the size sums of all entries fit. -/
theorem EntryChain.applies_of_ok (chain : EntryChain log p ps) : ∀ {n : Nat}
    {o o' : OverlayBuffer}, Exec.loop (scanPass profile log) n ⟨p, o⟩ = .ok o' →
      ∀ q ∈ ps, EntryApplies profile log q := by
  induction chain with
  | done h => exact fun _ q hq => absurd hq List.not_mem_nil
  | @entry p ps header _ ih =>
    intro n o o' hrun
    cases n with
    | zero => cases hrun
    | succ n =>
      obtain ⟨pass, hpass, hrest⟩ := Exec.bind_eq_ok.mp hrun
      by_cases happlies : EntryApplies profile log p
      · rw [scanPass_entry o header happlies] at hpass
        cases hpass
        exact List.forall_mem_cons.mpr ⟨happlies, ih hrest⟩
      · rw [scanPass_of_abort header happlies] at hpass
        cases hpass

/-- The scan over a chain recognises its entries and nothing else. -/
theorem EntryChain.trace_iff (chain : EntryChain log p ps)
    (happlies : ∀ q ∈ ps, EntryApplies profile log q) {qs : List Nat} :
    ScanTrace profile log p qs ↔ qs = ps := by
  induction chain generalizing qs with
  | done h =>
    constructor
    · intro htrace
      cases htrace with
      | stop _ => rfl
      | forward inside _ _ => omega
      | entry header _ _ => have hin := header.inside; omega
    · rintro rfl
      refine .stop fun q hq => ?_
      cases hq with
      | forward inside _ => omega
      | entry header _ => have hin := header.inside; omega
  | entry header _ ih =>
    obtain ⟨hfirst, hrest⟩ := List.forall_mem_cons.mp happlies
    constructor
    · intro htrace
      cases htrace with
      | stop h => exact absurd (.entry header hfirst) (h _)
      | forward _ mark _ => exact absurd header.mark mark
      | entry _ _ rest => rw [(ih hrest).mp rest]
    · rintro rfl
      exact .entry header hfirst ((ih hrest).mpr rfl)

end EntryChain

/-- Some things of given sizes, with the positions at which they stand back to back. -/
def placed {α : Type} (size : α → Nat) : Nat → List α → List (Nat × α)
  | _, [] => []
  | pos, x :: xs => (pos, x) :: placed size (pos + size x) xs

/-- Giving the entries their places keeps them and their order. -/
theorem map_snd_placed {α : Type} (size : α → Nat) : ∀ (pos : Nat) (xs : List α),
    (placed size pos xs).map Prod.snd = xs
  | _, [] => rfl
  | pos, x :: xs => congrArg (x :: ·) (map_snd_placed size (pos + size x) xs)

/-- Encoded things back to back: each stands at its position. -/
theorem split_of_mem_placed {α : Type} {size : α → Nat} {enc : α → Bytes}
    (hsize : ∀ x, (enc x).length = size x) {log : Bytes} : ∀ {xs : List α} {before : Bytes},
    log = before ++ xs.flatMap enc → ∀ q ∈ placed size before.length xs,
      ∃ before after, log = before ++ (enc q.2 ++ after) ∧ before.length = q.1
  | [], _, _, q, hq => by cases hq
  | x :: xs, before, hsplit, q, hq => by
    rw [List.flatMap_cons] at hsplit
    rcases List.mem_cons.mp hq with rfl | hq
    · exact ⟨before, _, hsplit, rfl⟩
    · rw [← hsize x, ← List.length_append] at hq
      rw [← List.append_assoc] at hsplit
      exact split_of_mem_placed hsize hsplit q hq

/-- Encoded entries back to back are a chain. -/
theorem entryChain_placed {α : Type} {size : α → Nat} {log : Bytes} : ∀ {xs : List α} {pos : Nat},
    log.length = pos + (xs.map size).sum →
    (∀ q ∈ placed size pos xs, EntryAt log q.1 ∧ entrySize log q.1 = size q.2) →
    EntryChain log pos ((placed size pos xs).map Prod.fst)
  | [], pos, hend, _ => .done (by rw [List.map_nil, List.sum_nil] at hend; omega)
  | x :: xs, pos, hend, h => by
    obtain ⟨⟨hentry, hsize⟩, hrest⟩ := List.forall_mem_cons.mp h
    refine .entry hentry ?_
    rw [show entrySize log pos = size x from hsize]
    rw [List.map_cons, List.sum_cons] at hend
    exact entryChain_placed (by omega) hrest

/-! ## Reading an entry back -/

section Head

variable {log head body : Bytes} {pos : Nat}
  (h : ∃ before after, log = before ++ (head ++ body ++ after) ∧ before.length = pos)

include h

/-- A range of the head of what stands at a position. -/
theorem bytesAt_head {before part after : Bytes} {o n : Nat}
    (hhead : head = before ++ (part ++ after)) (hoff : before.length = o)
    (hn : part.length = n) : bytesAt log (pos + o) n = part := by
  obtain ⟨front, rest, rfl, rfl⟩ := h
  rw [bytesAt_append_right (by omega), Nat.add_sub_cancel_left, hhead]
  simp only [List.append_assoc]
  exact bytesAt_part rfl hoff hn

/-- A head that begins with the mark and a size is the head of an entry of this size. -/
theorem entryAt_of_head {size : Nat} {rest : Bytes}
    (hhead : head = hvleMagic ++ (u32Bytes (UInt32.ofNat size) ++ rest))
    (hlen : head.length = 40) :
    EntryAt log pos ∧ (size < 2 ^ 32 → entrySize log pos = size) := by
  have hin : pos + 40 ≤ log.length := by
    obtain ⟨before, after, rfl, rfl⟩ := h
    simp only [List.length_append, hlen]
    omega
  refine ⟨⟨hin, bytesAt_head h (hhead.trans (List.nil_append _).symm) rfl rfl⟩, fun hsize => ?_⟩
  have hfield : u32At log (pos + 4) = UInt32.ofNat size :=
    u32At_of_bytesAt (bytesAt_head h hhead rfl (length_u32Bytes _))
  unfold entrySize
  rw [leU32_eq_u32At (by omega), hfield, UInt32.toNat_ofNat_of_lt' hsize]

end Head

/-- A log that starts with a header of a known type is scanned. -/
theorem scanned_of_header {header entries : Bytes} (hlen : header.length = 512)
    (hmagic : bytesAt header 0 4 = BaseBlock.magic)
    (htype : u32At header 0x1C = 1 ∨ u32At header 0x1C = 6) : Scanned (header ++ entries) := by
  have hsize : 512 ≤ (header ++ entries).length := by
    rw [List.length_append]
    omega
  have hfield : leU32 (header ++ entries) 0x1C = u32At header 0x1C := by
    rw [leU32_eq_u32At (by omega)]
    exact u32At_congr (bytesAt_append_left (by omega))
  refine ⟨hsize, ?_, ?_⟩
  · rw [bytesAt_append_left (by omega)]
    exact hmagic
  · rw [hfield]
    exact htype

namespace LogEntry

/-- The log holds an entry at a position. -/
def At (e : LogEntry) (log : Bytes) (pos : Nat) : Prop :=
  ∃ before after, log = before ++ (e.toBytes ++ after) ∧ before.length = pos

variable {e : LogEntry} {log : Bytes} {pos : Nat}

/-- The pages of an entry stand behind its table. -/
theorem At.holdsPages (h : e.At log pos) : HoldsPages e.pages log pos := by
  obtain ⟨before, after, rfl, rfl⟩ := h
  refine ⟨before ++ e.head, after, ?_, by rw [List.length_append, e.length_head]⟩
  simp only [toBytes, List.append_assoc]

/-- The size of an entry is that of its head and that of its table and pages. -/
theorem size_eq (e : LogEntry) : e.size = 40 + tableSize e.pages := by
  unfold size tableSize
  omega

/-- The scan recognises the entry. -/
theorem At.entryAt (h : e.At log pos) : EntryAt log pos :=
  (entryAt_of_head h rfl e.length_head).1

/-- It reads its size. -/
theorem At.entrySize_eq (h : e.At log pos) (hsize : e.size < 2 ^ 32) :
    entrySize log pos = e.size :=
  (entryAt_of_head h rfl e.length_head).2 hsize

/-- And its number of pages. -/
theorem At.entryPageCount_eq (h : e.At log pos) (hsize : e.size < 2 ^ 32) :
    entryPageCount log pos = e.pages.length := by
  have hin := h.entryAt.inside
  have hcount : e.pages.length < 2 ^ 32 := by
    unfold size at hsize
    omega
  have hfield : u32At log (pos + 16) = UInt32.ofNat e.pages.length := by
    have hhead : e.head = (hvleMagic ++ (u32Bytes (UInt32.ofNat e.size) ++ e.spare1)) ++
        (u32Bytes (UInt32.ofNat e.pages.length) ++ e.spare2) := by
      simp only [head, List.append_assoc]
    refine u32At_of_bytesAt (bytesAt_head h hhead ?_ (length_u32Bytes _))
    simp only [List.length_append, length_u32Bytes, e.length_spare1]
    rfl
  unfold entryPageCount
  rw [leU32_eq_u32At (by omega), hfield, UInt32.toNat_ofNat_of_lt' hcount]

/-- **The pages of an entry** are the pages it lists, and its size sums fit. -/
theorem At.entryPages_eq (h : e.At log pos) (hsize : e.size < 2 ^ 32) (profile : Profile) :
    entryPages log pos = e.pages.map LogPage.page ∧ EntryApplies profile log pos := by
  have hcount := h.entryPageCount_eq hsize
  have htable : tableSize e.pages < 2 ^ 32 := by
    rw [e.size_eq] at hsize
    omega
  exact ⟨h.holdsPages.entryPages_eq htable hcount,
    h.holdsPages.entryApplies htable hcount profile⟩

end LogEntry

/-! ## The replay -/

namespace LogFile

/-- A log file is scanned as one in the new format. -/
theorem scanned (f : LogFile) : Scanned f.toBytes :=
  scanned_of_header f.length_header f.magic f.fileType

/-- The entries of a log file, with their positions. -/
def placedEntries (f : LogFile) : List (Nat × LogEntry) := placed LogEntry.size 512 f.entries

/-- Each entry stands at its place, and its size fits in 32 bits since the whole file does. -/
theorem at_of_mem (f : LogFile) {q : Nat × LogEntry} (hq : q ∈ f.placedEntries) :
    q.2.At f.toBytes q.1 ∧ q.2.size < 2 ^ 32 := by
  have hat : q.2.At f.toBytes q.1 := @split_of_mem_placed _ _ _ LogEntry.length_toBytes
    _ _ f.header rfl q (by rw [f.length_header]; exact hq)
  have hin := hat.holdsPages.inside
  have hlen : f.toBytes.length < 2 ^ 32 := f.size_lt
  rw [q.2.size_eq]
  exact ⟨hat, by omega⟩

/-- The entries follow each other up to the end of the file. -/
theorem entryChain (f : LogFile) :
    EntryChain f.toBytes 512 (f.placedEntries.map Prod.fst) := by
  refine entryChain_placed ?_ fun q hq => ?_
  · rw [toBytes, List.length_append, f.length_header, List.length_flatMap]
    simp only [LogEntry.length_toBytes]
  · obtain ⟨hat, hsize⟩ := f.at_of_mem hq
    exact ⟨hat.entryAt, hat.entrySize_eq hsize⟩

/-- The pages at the places of the entries are the listed pages, and no size sum of theirs
    overflows. -/
theorem entryPages_placed (f : LogFile) (profile : Profile) :
    (∀ q ∈ f.placedEntries.map Prod.fst, EntryApplies profile f.toBytes q) ∧
      (f.placedEntries.map Prod.fst).flatMap (entryPages f.toBytes) = f.pages := by
  have hread : ∀ q ∈ f.placedEntries, entryPages f.toBytes q.1 = q.2.pages.map LogPage.page ∧
      EntryApplies profile f.toBytes q.1 := fun q hq => by
    obtain ⟨hat, hsize⟩ := f.at_of_mem hq
    exact hat.entryPages_eq hsize profile
  refine ⟨List.forall_mem_map.mpr fun q hq => (hread q hq).2, ?_⟩
  unfold pages
  rw [List.flatMap_map, ← map_snd_placed LogEntry.size 512 f.entries, List.flatMap_map]
  exact List.flatMap_congr fun q hq => (hread q hq).1

/-- **One file**: its pages are applied, entry by entry. -/
theorem replayLog_evals (f : LogFile) (profile : Profile) (o : OverlayBuffer) :
    Exec.Evals (fun n => replayLog profile n o f.toBytes) (.ok (o.applyPages f.pages)) := by
  obtain ⟨happlies, hpages⟩ := f.entryPages_placed profile
  refine ⟨(f.placedEntries.map Prod.fst).length + 1, fun n hn => ?_⟩
  dsimp only
  rw [replayLog_scanned f.scanned, parseNewFormatLog, f.entryChain.loop_eq happlies o (by omega),
    hpages]

/-- The scan of a file has one trace, so the pages that are found in it are the listed ones. -/
theorem replayedPages_iff (f : LogFile) {profile : Profile} {pages : List Page} :
    ReplayedPages profile f.toBytes pages ↔ pages = f.pages := by
  obtain ⟨happlies, hpages⟩ := f.entryPages_placed profile
  constructor
  · intro hreplayed
    cases hreplayed with
    | scanned _ trace =>
      rw [(f.entryChain.trace_iff happlies).mp trace]
      exact hpages
    | skipped hnot => exact absurd f.scanned hnot
  · rintro rfl
    rw [← hpages]
    exact .scanned f.scanned ((f.entryChain.trace_iff happlies).mpr rfl)

/-- The same for a list of files: each has its own pages. -/
theorem replayedPages_eq {profile : Profile} : ∀ {logs : List LogFile} {pages : List (List Page)},
    List.Forall₂ (ReplayedPages profile) (logs.map LogFile.toBytes) pages →
      pages = logs.map LogFile.pages
  | [], _, .nil => rfl
  | f :: _, _, .cons hfirst hrest =>
    congrArg₂ List.cons (f.replayedPages_iff.mp hfirst) (replayedPages_eq hrest)

/-- Files are applied one after the other, to any overlay. -/
theorem replayLogs_evals (profile : Profile) : ∀ (logs : List LogFile) (o : OverlayBuffer),
    Exec.Evals (fun n => (logs.map LogFile.toBytes).foldlM (replayLog profile n) o)
      (.ok (o.applyPages (logs.flatMap LogFile.pages)))
  | [], _ => Exec.Evals.const _
  | f :: logs, o => by
    rw [List.flatMap_cons, o.applyPages_append]
    exact Exec.Evals.bind
      (g := fun n t => (logs.map LogFile.toBytes).foldlM (replayLog profile n) t)
      (f.replayLog_evals profile o) (replayLogs_evals profile logs (o.applyPages f.pages))

end LogFile

/-- **Replaying log files** applies exactly the listed pages: file by file, entry by entry and page
    by page, each with its bytes at its place behind the base block.  The entries form a chain, each
    recognised where the one before ends, so the scan never looks for a mark inside a page. -/
theorem replayTransactionLogs_logFiles (profile : Profile) (hiveData : Bytes)
    (logs : List LogFile) :
    Exec.Evals (fun n => replayTransactionLogs profile n hiveData (logs.map LogFile.toBytes))
      (.ok ((OverlayBuffer.new hiveData).applyPages (logs.flatMap LogFile.pages))) :=
  LogFile.replayLogs_evals profile logs (.new hiveData)

/-- An entry without pages, and one of an empty page and a page that holds the mark. -/
def markedLog : LogFile where
  header := BaseBlock.magic ++ List.replicate 24 0 ++ u32Bytes 6 ++ List.replicate 480 0
  entries := [⟨List.replicate 8 0, List.replicate 20 0, [], rfl, rfl⟩,
    ⟨List.replicate 8 0, List.replicate 20 0, [⟨0, []⟩, ⟨4096, hvleMagic⟩], rfl, rfl⟩]
  length_header := by decide +kernel
  magic := by decide
  fileType := by decide
  size_lt := by decide +kernel

example : markedLog.pages = [(4096, []), (8192, hvleMagic)] := by decide

end Winreg
