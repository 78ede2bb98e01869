/-
  FORENSIC PURITY: the replay leaves the base block and every uncovered byte of the hive alone.

  A page goes behind the base block, whatever its reference says, so no log reaches the first 4096
  bytes.  What comes back is the hive with some bytes behind the base block replaced; the checks
  that opening a hive makes of the header cannot tell the two apart.

  1. **Uncovered bytes** — the overlay shows the base where no page is applied
     (`getElem?_materialize`).
  2. **The replay** — its pages start at 4096 or above, so the header checks have the same verdict
     before and after it (`replay_pure`).
-/
import Winreg.Core.EntryPages

namespace Winreg

open Rust

/-! ## Uncovered bytes -/

/-- No page covers the position. -/
def Uncovered (pages : List Page) (pos : Nat) : Prop := ∀ page ∈ pages, page.covers pos = false

/-- The materialized hive is as long as the base. -/
@[simp] theorem OverlayBuffer.length_materialize (base : Bytes) (pages : List Page) :
    ((OverlayBuffer.new base).applyPages pages).materialize.length = base.length := by
  rw [materialize, readAt, List.length_map, List.length_range, base_applyPages]
  rfl

/-- **The overlay shows the base** where no page is applied. -/
theorem OverlayBuffer.getElem?_materialize (base : Bytes) {pages : List Page} {pos : Nat}
    (h : Uncovered pages pos) :
    ((OverlayBuffer.new base).applyPages pages).materialize[pos]? = base[pos]? := by
  by_cases hpos : pos < base.length
  · have hnone : ∀ page, ¬ Visible pages pos page := fun page hv => by
      have hcovers := h page (lastAt_mem hv.kept)
      rw [hv.covers] at hcovers
      cases hcovers
    have hbyte := byteAt_of_not_visible base hnone
    rw [materialize, readAt, base_applyPages, List.getElem?_map,
      show (OverlayBuffer.new base).base = base from rfl, List.getElem?_range hpos, Option.map_some,
      Nat.zero_add, hbyte, List.getD_eq_getElem?_getD, List.getElem?_eq_getElem hpos,
      Option.getD_some]
  · rw [List.getElem?_eq_none (by rw [length_materialize]; omega),
      List.getElem?_eq_none (Nat.le_of_not_lt hpos)]

/-! ## The replay -/

/-- No page of a replayed log reaches the base block. -/
theorem ReplayedPages.start_ge {profile : Profile} {log : Bytes} {pages : List Page}
    (h : ReplayedPages profile log pages) {page : Page} (hmem : page ∈ pages) :
    BaseBlock.size ≤ page.1 := by
  cases h with
  | scanned _ trace =>
    obtain ⟨pos, _, hpage⟩ := List.mem_flatMap.mp hmem
    obtain ⟨i, _, _, hstart, _⟩ := mem_entryPages hpage
    rw [hstart]
    exact Nat.le_add_right _ _
  | skipped _ => exact absurd hmem List.not_mem_nil

/-- Every page lies behind the base block: its start is 4096 and an offset. -/
theorem start_ge_of_replayed {profile : Profile} {logs : List Bytes} {pages : List (List Page)}
    (h : List.Forall₂ (ReplayedPages profile) logs pages) :
    ∀ page ∈ pages.flatten, BaseBlock.size ≤ page.1 := by
  induction h with
  | nil => exact fun page hmem => absurd hmem List.not_mem_nil
  | cons hlog _ ih =>
    intro page hmem
    rw [List.flatten_cons, List.mem_append] at hmem
    exact hmem.elim hlog.start_ge (ih page)

/-- Pages behind the base block leave it uncovered. -/
theorem uncovered_of_lt {pages : List Page} (h : ∀ page ∈ pages, BaseBlock.size ≤ page.1)
    {pos : Nat} (hpos : pos < BaseBlock.size) : Uncovered pages pos := by
  intro page hmem
  have hstart := h page hmem
  rw [Bool.eq_false_iff]
  intro hcovers
  have hle := (Page.covers_iff.mp hcovers).1
  omega

/-- A header check that fails before the catalog is the verdict on the whole file. -/
theorem Hive.fromBytes_eq_err_iff {data : Bytes} {e : HiveError}
    (he : ∀ pos, e ≠ .invalidHbin pos) :
    Hive.fromBytes data = .err e ↔ Hive.checkHeader data = .err e := by
  rw [Hive.fromBytes_eq_checkHeader, Exec.bind_eq_err]
  refine or_iff_left ?_
  rintro ⟨checked, _, hrest⟩
  rcases Exec.bind_eq_err.mp hrest with hcat | ⟨bins, _, hdone⟩
  · obtain ⟨pos, hpos⟩ := catalogHbins_eq_err hcat
    exact he pos hpos
  · cases hdone

/-- The bytes at the front of two buffers of one length that agree there. -/
theorem bytesAt_front_eq {a b : Bytes} {n : Nat} (h : ∀ pos, pos < n → a[pos]? = b[pos]?) :
    bytesAt a 0 n = bytesAt b 0 n :=
  bytesAt_congr fun i _ hi => h i (by omega)

/-- An image in which only pages of the hive `h` have been replaced: nothing else has changed, and
    the checks of the header, its sequence numbers included, cannot tell the two apart. -/
structure LeavesAlone (h : Bytes) (pages : List Page) (image : Bytes) : Prop where
  length_eq : image.length = h.length
  base_block : bytesAt image 0 BaseBlock.size = bytesAt h 0 BaseBlock.size
  uncovered : ∀ pos, Uncovered pages pos → image[pos]? = h[pos]?
  header : BaseBlock.read image = BaseBlock.read h
  checksum : BaseBlock.validateChecksum image = BaseBlock.validateChecksum h
  refused : ∀ e, (∀ pos, e ≠ .invalidHbin pos) →
    (Hive.fromBytes image = .err e ↔ Hive.fromBytes h = .err e)
  opened : ∀ hive hive', Hive.fromBytes h = .ok hive → Hive.fromBytes image = .ok hive' →
    hive'.header = hive.header ∧ hive'.version = hive.version ∧ hive'.isClean = hive.isClean ∧
      hive'.headerBytes = hive.headerBytes

/-- Pages behind the base block leave it alone. -/
theorem leavesAlone_applyPages (h : Bytes) {pages : List Page}
    (hstart : ∀ page ∈ pages, BaseBlock.size ≤ page.1) :
    LeavesAlone h pages ((OverlayBuffer.new h).applyPages pages).materialize := by
  have hlen := OverlayBuffer.length_materialize h pages
  have hbytes : ∀ pos, Uncovered pages pos → _ = h[pos]? :=
    fun pos => OverlayBuffer.getElem?_materialize h
  have hbase := bytesAt_front_eq fun pos hpos => hbytes pos (uncovered_of_lt hstart hpos)
  have hcheck := Hive.checkHeader_congr_of_length hlen hbase
  have hread := BaseBlock.read_congr (hlen ▸ Iff.rfl) (bytesAt_header_eq hbase)
  have hsum := BaseBlock.validateChecksum_congr (hlen ▸ Iff.rfl)
    fun off ho => bytesAt_header_eq hbase off 4 ho
  refine ⟨hlen, hbase, hbytes, hread, hsum, fun e he => ?_, fun hive hive' hopen hopen' => ?_⟩
  · rw [Hive.fromBytes_eq_err_iff he, Hive.fromBytes_eq_err_iff he, hcheck]
  · obtain ⟨_, _, hheader, _, hversion, _, hfront⟩ := Hive.fromBytes_eq_ok hopen
    obtain ⟨_, _, hheader', _, hversion', _, hfront'⟩ := Hive.fromBytes_eq_ok hopen'
    have heq : hive'.header = hive.header :=
      Option.some.inj (hheader'.symm.trans (hread.trans hheader))
    rw [heq] at hversion'
    refine ⟨heq, Option.some.inj (hversion'.symm.trans hversion), ?_, ?_⟩
    · unfold Hive.isClean
      rw [heq]
    · rw [hfront', hfront, hbase]

/-- **Forensic purity.**  When the replay comes back, it has left everything but the applied pages
    alone, whatever the logs hold.  Pages start behind the base block, and the overlay keeps its
    base; so what no page covers is read from the base. -/
theorem replay_pure {profile : Profile} {n : Nat} {h : Bytes} {logs : List Bytes}
    {o : OverlayBuffer} (hrun : replayTransactionLogs profile n h logs = .ok o) :
    ∃ pages : List (List Page), List.Forall₂ (ReplayedPages profile) logs pages ∧
      o = (OverlayBuffer.new h).applyPages pages.flatten ∧
      LeavesAlone h pages.flatten o.materialize := by
  obtain ⟨pages, hpages, rfl⟩ := replayTransactionLogs_eq_applyPages hrun
  exact ⟨pages, hpages, rfl, leavesAlone_applyPages h (start_ge_of_replayed hpages)⟩

/-- The log that is cut off behind the first of its two pages. -/
theorem replay_tornLog (h : Bytes) : replayTransactionLogs .debug 2 h [tornLog] =
    .ok ((OverlayBuffer.new h).applyPages [(4096, [0xAA])]) := by
  have hscanned : Scanned tornLog := ⟨by decide +kernel, by decide, by decide +kernel⟩
  have hsize : entrySize tornLog 512 = 58 := by decide +kernel
  have hfirst := scanPass_entry (.new h) tornLog_entry (tornLog_applies .debug)
  rw [hsize, entryPages_tornLog] at hfirst
  have hend : ¬ 570 + 4 ≤ tornLog.length := by decide +kernel
  have hlast : ∀ o, scanPass .debug tornLog ⟨570, o⟩ = .ok (.leave o) := fun o => if_neg hend
  rw [replayTransactionLogs, List.foldlM_cons, replayLog_scanned hscanned, parseNewFormatLog,
    Exec.loop_again hfirst, Exec.loop_leave (hlast _)]
  rfl

/-- The torn log over a file of 4100 bytes: one byte changes, and it is not in the base block. -/
theorem replay_pure_torn :
    ∃ pages : List (List Page), List.Forall₂ (ReplayedPages .debug) [tornLog] pages ∧
      (OverlayBuffer.new (List.replicate 4100 0)).applyPages [(4096, [0xAA])] =
        (OverlayBuffer.new (List.replicate 4100 0)).applyPages pages.flatten ∧
      LeavesAlone (List.replicate 4100 0) pages.flatten
        ((OverlayBuffer.new (List.replicate 4100 0)).applyPages [(4096, [0xAA])]).materialize :=
  replay_pure (replay_tornLog (List.replicate 4100 0))

end Winreg
