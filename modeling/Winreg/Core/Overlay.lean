/-
  THE OVERLAY AGAINST SEQUENTIAL PATCHING.

  `patchAll base pages` is what a sequence of page writes means: each page in turn overwrites the
  bytes it covers, so a byte shows the last page that covers it (`patchAll_eq_map`).  The overlay
  keeps only the last page given for each start offset, and shows the page with the greatest start
  offset among those that cover a byte.

  1. **What the map holds** — `lastAt`: under each start offset, the last page given for it.
  2. **What a byte shows** — `Visible`: the covering page of the map that starts last.
  3. **Comparison** — the two buffers are equal exactly when at every byte the visible page shows
     the byte of the last covering page (`materialize_eq_patchAll_iff`).  Pages that are pairwise
     disjoint or of the same extent satisfy this (`overlapsAgree_of_separate`).
-/
import Winreg.Core.TxLog
import Mathlib.Data.List.Find
import Mathlib.Data.List.Induction

namespace Winreg

open Rust

/-! ## Sequential patching -/

/-- The byte that a page holds for position `pos`. -/
def Page.byteAt (pos : Nat) (page : Page) : UInt8 := page.2.getD (pos - page.1) 0

/-- Overwrite the bytes of `base` that the page covers. -/
def patchPage (base : Bytes) (page : Page) : Bytes :=
  base.mapIdx fun pos b => if page.covers pos then page.byteAt pos else b

/-- The pages written one after the other. -/
def patchAll (base : Bytes) (pages : List Page) : Bytes := pages.foldl patchPage base

/-- The last page of the sequence that covers `pos`. -/
def lastCovering (pages : List Page) (pos : Nat) : Option Page :=
  pages.reverse.find? (Page.covers pos)

/-- The byte at `pos` after all writes: the last covering page's, else the base's. -/
def patchedByte (base : Bytes) (pages : List Page) (pos : Nat) : UInt8 :=
  match lastCovering pages pos with
  | some page => page.byteAt pos
  | none => base.getD pos 0

/-- A page at the end of the list takes precedence over the ones before it. -/
theorem lastCovering_snoc (pages : List Page) (page : Page) (pos : Nat) :
    lastCovering (pages ++ [page]) pos =
      if page.covers pos then some page else lastCovering pages pos := by
  unfold lastCovering
  rw [List.reverse_append, List.reverse_singleton, List.singleton_append, List.find?_cons]
  cases page.covers pos <;> rfl

/-- The last page is written last. -/
theorem patchAll_snoc (base : Bytes) (pages : List Page) (page : Page) :
    patchAll base (pages ++ [page]) = patchPage (patchAll base pages) page := by
  rw [patchAll, List.foldl_append]; rfl

/-- Writing pages keeps the length: what lies behind the end of the file is dropped. -/
@[simp] theorem length_patchAll (base : Bytes) (pages : List Page) :
    (patchAll base pages).length = base.length := by
  induction pages using List.reverseRecOn with
  | nil => rfl
  | append_singleton pages page ih => rw [patchAll_snoc, patchPage, List.length_mapIdx, ih]

/-- Each byte of the patched file is that of the last page that covers it, or the old one.  By
    induction from the last page on. -/
theorem getElem?_patchAll (base : Bytes) (pages : List Page) {pos : Nat}
    (h : pos < base.length) : (patchAll base pages)[pos]? = some (patchedByte base pages pos) := by
  induction pages using List.reverseRecOn with
  | nil =>
    show base[pos]? = some (base.getD pos 0)
    rw [List.getD_eq_getElem?_getD, List.getElem?_eq_getElem h]; rfl
  | append_singleton pages page ih =>
    rw [patchAll_snoc, patchPage, List.getElem?_mapIdx, ih, Option.map_some]
    unfold patchedByte
    rw [lastCovering_snoc]
    by_cases hc : page.covers pos = true
    · rw [if_pos hc, if_pos hc]
    · rw [if_neg hc, if_neg hc]

/-- **Sequential patching, byte by byte.** -/
theorem patchAll_eq_map (base : Bytes) (pages : List Page) :
    patchAll base pages = (List.range base.length).map (patchedByte base pages) := by
  apply List.ext_getElem?
  intro pos
  rcases Nat.lt_or_ge pos base.length with h | h
  · rw [getElem?_patchAll base pages h, List.getElem?_map, List.getElem?_range h]; rfl
  · rw [List.getElem?_eq_none (by rw [length_patchAll]; exact h),
      List.getElem?_eq_none (by rw [List.length_map, List.length_range]; exact h)]

/-! ## What the map holds and what a byte shows -/

/-- The data of the last page given for the start offset `start`. -/
def lastAt (pages : List Page) (start : Nat) : Option Bytes :=
  (pages.reverse.find? fun page => page.1 == start).map Prod.snd

/-- Of pages with the same start the last one stays. -/
theorem lastAt_snoc (pages : List Page) (page : Page) (start : Nat) :
    lastAt (pages ++ [page]) start =
      if page.1 = start then some page.2 else lastAt pages start := by
  unfold lastAt
  rw [List.reverse_append, List.reverse_singleton, List.singleton_append, List.find?_cons]
  by_cases h : page.1 = start
  · rw [if_pos h, beq_iff_eq.mpr h]; rfl
  · rw [if_neg h, beq_eq_false_iff_ne.mpr h]

/-- **The map holds the last page of each start offset.** -/
theorem getElem?_applyPages (base : Bytes) (pages : List Page) (start : Nat) :
    ((OverlayBuffer.new base).applyPages pages).dirtyPages[start]? = lastAt pages start := by
  induction pages using List.reverseRecOn with
  | nil => rfl
  | append_singleton pages page ih =>
    rw [lastAt_snoc, OverlayBuffer.applyPages, List.foldl_append]
    show (Std.TreeMap.insert _ page.1 page.2)[start]? = _
    rw [Std.TreeMap.getElem?_insert, ← ih]
    simp only [compare_eq_iff_eq]
    rfl

/-- The page that the overlay shows at `pos`: the last one given for its start offset, and no
    covering page of that kind starts after it. -/
structure Visible (pages : List Page) (pos : Nat) (page : Page) : Prop where
  kept : lastAt pages page.1 = some page.2
  covers : page.covers pos = true
  highest : ∀ other : Page, lastAt pages other.1 = some other.2 → other.covers pos = true →
    other.1 ≤ page.1

/-- The search of the overlay, from the greatest start down, finds the visible page: the last of the
    pages with the greatest start that covers the position. -/
theorem findRev_eq_some_iff_visible (base : Bytes) (pages : List Page) (pos : Nat) (page : Page) :
    ((OverlayBuffer.new base).applyPages pages).dirtyPages.findRev (Page.covers pos) = some page ↔
      Visible pages pos page := by
  obtain ⟨start, data⟩ := page
  rw [BTreeMap.findRev_eq_some]
  simp only [getElem?_applyPages, Nat.isLE_compare]
  constructor
  · rintro ⟨hk, hc, hmax⟩
    exact ⟨hk, hc, fun other hk' hc' => hmax other.1 other.2 hk' hc'⟩
  · intro h
    exact ⟨h.kept, h.covers, fun start' data' hk' hc' => h.highest (start', data') hk' hc'⟩

/-- Where some page is visible, the overlay shows its byte. -/
theorem byteAt_of_visible (base : Bytes) {pages : List Page} {pos : Nat} {page : Page}
    (h : Visible pages pos page) :
    ((OverlayBuffer.new base).applyPages pages).byteAt pos = page.byteAt pos := by
  unfold OverlayBuffer.byteAt
  rw [(findRev_eq_some_iff_visible base pages pos page).mpr h]
  rfl

/-- Where no page is visible, the overlay shows the base. -/
theorem byteAt_of_not_visible (base : Bytes) {pages : List Page} {pos : Nat}
    (h : ∀ page, ¬ Visible pages pos page) :
    ((OverlayBuffer.new base).applyPages pages).byteAt pos = base.getD pos 0 := by
  unfold OverlayBuffer.byteAt
  cases hfind : ((OverlayBuffer.new base).applyPages pages).dirtyPages.findRev
      (Page.covers pos) with
  | none => rw [OverlayBuffer.base_applyPages]; rfl
  | some page => exact absurd ((findRev_eq_some_iff_visible base pages pos page).mp hfind) (h page)

/-- What is found under a start is one of the pages. -/
theorem lastAt_mem {pages : List Page} {start : Nat} {data : Bytes}
    (h : lastAt pages start = some data) : (start, data) ∈ pages := by
  obtain ⟨page, hfind, hdata⟩ := Option.map_eq_some_iff.mp h
  have hstart : page.1 = start := by simpa using List.find?_some hfind
  have hmem := List.mem_reverse.mp (List.mem_of_find?_eq_some hfind)
  rw [← hstart, ← hdata]
  exact hmem

/-- What is found for a position is a page that covers it. -/
theorem lastCovering_mem {pages : List Page} {pos : Nat} {page : Page}
    (h : lastCovering pages pos = some page) : page ∈ pages ∧ page.covers pos = true :=
  ⟨List.mem_reverse.mp (List.mem_of_find?_eq_some h), List.find?_some h⟩

/-- A visible page covers the position, so the position has a last covering page. -/
theorem Visible.lastCovering_ne_none {pages : List Page} {pos : Nat} {page : Page}
    (h : Visible pages pos page) : lastCovering pages pos ≠ none := by
  intro hnone
  have := List.find?_eq_none.mp hnone page (List.mem_reverse.mpr (lastAt_mem h.kept))
  exact this h.covers

/-! ## Comparison -/

/-- At every byte of the base that some page covers, what the overlay shows there (the visible
    page, or the base when no page is visible) has the byte of the last covering page. -/
def OverlapsAgree (base : Bytes) (pages : List Page) : Prop :=
  ∀ pos, pos < base.length → ∀ last, lastCovering pages pos = some last →
    (∃ page, Visible pages pos page ∧ page.byteAt pos = last.byteAt pos) ∨
    ((∀ page, ¬ Visible pages pos page) ∧ base.getD pos 0 = last.byteAt pos)

/-- One byte: the overlay shows the patched byte exactly when the overlaps at it agree. -/
theorem byteAt_eq_patchedByte_iff (base : Bytes) (pages : List Page) (pos : Nat) :
    ((OverlayBuffer.new base).applyPages pages).byteAt pos = patchedByte base pages pos ↔
      ∀ last, lastCovering pages pos = some last →
        (∃ page, Visible pages pos page ∧ page.byteAt pos = last.byteAt pos) ∨
        ((∀ page, ¬ Visible pages pos page) ∧ base.getD pos 0 = last.byteAt pos) := by
  unfold patchedByte
  cases hlast : lastCovering pages pos with
  | none =>
    have hnone : ∀ page, ¬ Visible pages pos page :=
      fun page hv => hv.lastCovering_ne_none hlast
    simp [byteAt_of_not_visible base hnone]
  | some last =>
    simp only [Option.some.injEq, forall_eq']
    by_cases hv : ∃ page, Visible pages pos page
    · obtain ⟨page, hpage⟩ := hv
      rw [byteAt_of_visible base hpage]
      constructor
      · exact fun heq => Or.inl ⟨page, hpage, heq⟩
      · rintro (⟨page', hpage', heq⟩ | ⟨hnone, _⟩)
        · rw [← heq, ← byteAt_of_visible base hpage, ← byteAt_of_visible base hpage']
        · exact absurd hpage (hnone page)
    · have hnone := not_exists.mp hv
      rw [byteAt_of_not_visible base hnone]
      constructor
      · exact fun heq => Or.inr ⟨hnone, heq⟩
      · rintro (⟨page, hpage, _⟩ | ⟨_, heq⟩)
        · exact absurd hpage (hnone page)
        · exact heq

/-- The overlay is the patched base when it shows the last covering page at every byte. -/
theorem materialize_eq_patchAll_of_bytes {base : Bytes} {pages : List Page} :
    ((OverlayBuffer.new base).applyPages pages).materialize = patchAll base pages ↔
      ∀ pos, pos < base.length →
        ((OverlayBuffer.new base).applyPages pages).byteAt pos = patchedByte base pages pos := by
  have hbase : ((OverlayBuffer.new base).applyPages pages).base = base := by
    rw [OverlayBuffer.base_applyPages]
    rfl
  rw [patchAll_eq_map, OverlayBuffer.materialize, OverlayBuffer.readAt, hbase, List.map_inj_left]
  simp only [List.mem_range, Nat.zero_add]

/-- **When the overlay is the patched base**: exactly when the overlaps agree.  Both sides are read
    byte by byte, and at one byte the overlay shows a visible page, the patched base the last page
    that covers the byte. -/
theorem materialize_eq_patchAll_iff (base : Bytes) (pages : List Page) :
    ((OverlayBuffer.new base).applyPages pages).materialize = patchAll base pages ↔
      OverlapsAgree base pages := by
  rw [materialize_eq_patchAll_of_bytes]
  exact forall₂_congr fun pos _ => byteAt_eq_patchedByte_iff base pages pos

/-- A low page written over a high one: the overlay still shows the high page. -/
theorem materialize_ne_patchAll_descending :
    ((OverlayBuffer.new [0, 0, 0, 0]).applyPages [(2, [7, 7]), (0, [1, 1, 1, 1])]).materialize =
      [1, 1, 7, 7] ∧
    patchAll [0, 0, 0, 0] [(2, [7, 7]), (0, [1, 1, 1, 1])] = [1, 1, 1, 1] := by
  constructor <;> decide

/-- Pages of equal start have equal length and pages of different starts are disjoint. -/
def Separate (pages : List Page) : Prop :=
  ∀ p ∈ pages, ∀ q ∈ pages, (p.1 = q.1 ∧ p.2.length = q.2.length) ∨
    (p.1 ≠ q.1 ∧ (p.1 + p.2.length ≤ q.1 ∨ q.1 + q.2.length ≤ p.1))

/-- Separate pages that cover a common byte have the same extent. -/
theorem Separate.start_eq {pages : List Page} (h : Separate pages) {p q : Page} (hp : p ∈ pages)
    (hq : q ∈ pages) {pos : Nat} (hcp : p.covers pos = true) (hcq : q.covers pos = true) :
    p.1 = q.1 := by
  rw [Page.covers_iff] at hcp hcq
  rcases h p hp q hq with ⟨h1, _⟩ | ⟨_, h1⟩
  · exact h1
  · omega

/-- The last page that covers `pos` is the last page of its start offset, when no page of that
    start offset has another length. -/
theorem lastAt_of_lastCovering {pages : List Page} (h : Separate pages) {pos : Nat} {page : Page}
    (hlast : lastCovering pages pos = some page) : lastAt pages page.1 = some page.2 := by
  obtain ⟨hmem, hc⟩ := lastCovering_mem hlast
  have hpred : ∀ p ∈ pages.reverse, p.covers pos = (p.1 == page.1) := by
    intro p hp
    have hp' := List.mem_reverse.mp hp
    rw [Bool.eq_iff_iff, beq_iff_eq]
    constructor
    · exact fun hcp => h.start_eq hp' hmem hcp hc
    · intro hstart
      rw [Page.covers_iff] at hc ⊢
      rcases h p hp' page hmem with ⟨_, hlen⟩ | ⟨hne, _⟩
      · omega
      · exact absurd hstart hne
  unfold lastAt
  rw [← List.find?_congr hpred]
  show Option.map Prod.snd (lastCovering pages pos) = _
  rw [hlast]; rfl

/-- **Separate pages** are overlaid as if they were written one after the other. -/
theorem overlapsAgree_of_separate (base : Bytes) {pages : List Page} (h : Separate pages) :
    OverlapsAgree base pages := by
  intro pos _ last hlast
  obtain ⟨hmem, hc⟩ := lastCovering_mem hlast
  refine Or.inl ⟨last, ⟨lastAt_of_lastCovering h hlast, hc, ?_⟩, rfl⟩
  intro other hkept hcov
  exact (h.start_eq (lastAt_mem hkept) hmem hcov hc).le

end Winreg
