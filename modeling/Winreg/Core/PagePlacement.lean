/-
  WHERE THE BYTES OF A PAGE ARE TAKEN FROM.

  The bytes of the pages of a log entry stand behind all references, so page `i` starts behind the
  pages before it: at the start of the data plus the sum of their sizes.  That sum is a `u32` sum
  of untrusted fields, also of the sizes of pages that were passed over as too long for the log,
  and **the length of the log does not bound it**.

  1. **One page** — it is placed by the true sum exactly when the sum is below 2^32
     (`pageExact_iff`).
  2. **One entry** — all pages are when all sums are, and then the entry applies the pages at their
     true places (`pagePlacement_exact_iff`); a sum that overflows aborts a debug build and makes a
     release build read the page from elsewhere (`pagePlacement_wraps`).
-/
import Winreg.Core.EntryPages

namespace Winreg

open Rust

/-! ## One page -/

/-- Where page `i` starts by the true sum of the sizes before it. -/
def exactStart (log : Bytes) (pos i : Nat) : Nat :=
  pos + 40 + entryPageCount log pos * 8 + sizeSum log (pos + 40) i

/-- Page `i`, taken from its true place, when the log holds it there. -/
def exactPage (log : Bytes) (pos i : Nat) : List Page :=
  if exactStart log pos i + pageSize log pos i ≤ log.length then
    [(4096 + (u32At log (pageRef pos i)).toNat,
      bytesAt log (exactStart log pos i) (pageSize log pos i))]
  else []

/-- The sum for page `i` is computed without overflow, and the page is read from the true place or
    passed over because that place lies past the end of the log. -/
structure PageExact (profile : Profile) (log : Bytes) (pos i : Nat) : Prop where
  sum : ∃ sum, accumulatedSize profile log (pos + 40) i = .ok sum ∧
    sum.toNat = sizeSum log (pos + 40) i
  page : ∀ o, applyDirtyPage profile log (pos + 40) (pos + 40 + entryPageCount log pos * 8) i o =
    .ok (.again (o.applyPages (exactPage log pos i)))

/-- Sums below 2^32 fit in either build. -/
theorem SumFits.of_lt {profile : Profile} {log : Bytes} {refStart i : Nat}
    (h : sizeSum log refStart i < 2 ^ 32) : SumFits profile log refStart i := fun _ => h

/-- A sum that fits places the page truly. -/
theorem pageStart_of_lt {log : Bytes} {pos i : Nat} (h : sizeSum log (pos + 40) i < 2 ^ 32) :
    pageStart log pos i = exactStart log pos i := by
  unfold pageStart exactStart
  rw [Nat.mod_eq_of_lt h]

/-- **One page** is placed exactly when the sizes before it sum up to less than 2^32. -/
theorem pageExact_iff {profile : Profile} {log : Bytes} {pos i : Nat}
    (href : pageRef pos i + 8 ≤ log.length) :
    PageExact profile log pos i ↔ sizeSum log (pos + 40) i < 2 ^ 32 := by
  constructor
  · intro h
    obtain ⟨sum, _, hval⟩ := h.sum
    rw [← hval]
    exact sum.toNat_lt
  · intro hlt
    have hin : ∀ j, j < i → pos + 40 + j * 8 + 8 ≤ log.length := fun j hj => by
      unfold pageRef at href
      omega
    obtain ⟨sum, hsum⟩ : ∃ sum, accumulatedSize profile log (pos + 40) i = .ok sum := by
      rcases accumulatedSize_cases profile hin with ⟨_, h⟩ | ⟨hnot, _⟩
      · exact h
      · exact absurd (SumFits.of_lt hlt) hnot
    have hval : sum.toNat = sizeSum log (pos + 40) i := by
      rw [accumulatedSize_toNat hin hsum, Nat.mod_eq_of_lt hlt]
    refine ⟨⟨sum, hsum, hval⟩, fun o => ?_⟩
    have hinside : PageInside log pos i ↔
        exactStart log pos i + pageSize log pos i ≤ log.length := by
      rw [← pageStart_of_lt hlt]
      exact ⟨fun h => h.2, fun h => ⟨href, h⟩⟩
    rw [applyDirtyPage_eq o href (SumFits.of_lt hlt)]
    unfold exactPage entryPage
    rw [pageStart_of_lt hlt]
    simp only [hinside]

/-! ## One entry -/

/-- The loop over the references of the entry at `pos` comes to page `i`: the entry lists it, the
    log holds its reference, and no sum before it aborted. -/
structure LoopReaches (profile : Profile) (log : Bytes) (pos i : Nat) : Prop where
  listed : i < entryPageCount log pos
  reference : pageRef pos i + 8 ≤ log.length
  before : ∀ j, j < i → SumFits profile log (pos + 40) j

/-- The pages of the entry at `pos`, each taken from its true place. -/
def exactPages (log : Bytes) (pos : Nat) : List Page :=
  ((List.range (entryPageCount log pos)).filter fun i => pageRef pos i + 8 ≤ log.length).flatMap
    (exactPage log pos)

/-- Up to the page that it comes to, the loop only goes on. -/
theorem LoopReaches.passes {profile : Profile} {log : Bytes} {pos i : Nat}
    (h : LoopReaches profile log pos i) :
    ∀ (k j : Nat) (o : OverlayBuffer), j + k = i → ∃ o',
      Exec.forRange (applyDirtyPage profile log (pos + 40)
          (pos + 40 + entryPageCount log pos * 8)) (entryPageCount log pos - j) j o =
        Exec.forRange (applyDirtyPage profile log (pos + 40)
          (pos + 40 + entryPageCount log pos * 8)) (entryPageCount log pos - i) i o' := by
  intro k
  induction k with
  | zero =>
    rintro j o rfl
    exact ⟨o, rfl⟩
  | succ k ih =>
    intro j o hj
    have hlisted := h.listed
    have href : pageRef pos j + 8 ≤ log.length := by
      have := h.reference
      unfold pageRef at this ⊢
      omega
    have hcount : entryPageCount log pos - j = (entryPageCount log pos - (j + 1)) + 1 := by omega
    rw [hcount, Exec.forRange_again (applyDirtyPage_eq o href (h.before j (by omega)))]
    exact ih (j + 1) _ (by omega)

/-- Applying the entry comes to page `i` and goes on from there. -/
theorem LoopReaches.resumes {profile : Profile} {log : Bytes} {pos i : Nat}
    (h : LoopReaches profile log pos i) (o : OverlayBuffer) : ∃ o',
      applyEntry profile log pos o = Exec.forRange (applyDirtyPage profile log (pos + 40)
        (pos + 40 + entryPageCount log pos * 8)) (entryPageCount log pos - i) i o' :=
  h.passes i 0 o (Nat.zero_add i)

/-- The entry places every page it comes to. -/
def EntryExact (profile : Profile) (log : Bytes) (pos : Nat) : Prop :=
  ∀ i, LoopReaches profile log pos i → PageExact profile log pos i

/-- The sizes before each listed page of the entry whose reference the log holds sum up to less
    than 2^32. -/
def SumsBounded (log : Bytes) (pos : Nat) : Prop :=
  ∀ i, i < entryPageCount log pos → pageRef pos i + 8 ≤ log.length →
    sizeSum log (pos + 40) i < 2 ^ 32

/-- All pages are placed exactly when all sums are bounded: a debug build comes to each page
    because the sums before it are. -/
theorem entryExact_iff {profile : Profile} {log : Bytes} {pos : Nat} :
    EntryExact profile log pos ↔ SumsBounded log pos := by
  constructor
  · intro h i
    induction i using Nat.strong_induction_on with
    | _ i ih =>
      intro hlisted href
      have hbefore : ∀ j, j < i → SumFits profile log (pos + 40) j := by
        intro j hj
        refine SumFits.of_lt (ih j hj (by omega) ?_)
        unfold pageRef at href ⊢
        omega
      exact (pageExact_iff href).mp (h i ⟨hlisted, href, hbefore⟩)
  · exact fun h i hi => (pageExact_iff hi.reference).mpr (h i hi.listed hi.reference)

/-- With bounded sums the pages applied are the pages at their true places. -/
theorem entryPages_of_bounded {log : Bytes} {pos : Nat} (h : SumsBounded log pos) :
    entryPages log pos = exactPages log pos := by
  have hpage : ∀ is : List Nat, (∀ i ∈ is, i < entryPageCount log pos) →
      (is.filter fun i => PageInside log pos i).map (entryPage log pos) =
        (is.filter fun i => pageRef pos i + 8 ≤ log.length).flatMap (exactPage log pos) := by
    intro is
    induction is with
    | nil => exact fun _ => rfl
    | cons i is ih =>
      intro hall
      have htail := ih fun j hj => hall j (List.mem_cons_of_mem i hj)
      by_cases href : pageRef pos i + 8 ≤ log.length
      · have hstart := pageStart_of_lt (h i (hall i List.mem_cons_self) href)
        rw [List.filter_cons_of_pos (p := fun i => decide (pageRef pos i + 8 ≤ log.length))
          (by simpa using href), List.flatMap_cons, ← htail, exactPage]
        by_cases hend : exactStart log pos i + pageSize log pos i ≤ log.length
        · have hinside : PageInside log pos i := ⟨href, by rw [hstart]; exact hend⟩
          rw [List.filter_cons_of_pos (by simpa using hinside), if_pos hend, List.map_cons,
            entryPage, hstart]
          rfl
        · have hinside : ¬ PageInside log pos i := fun hi => hend (by rw [← hstart]; exact hi.2)
          rw [List.filter_cons_of_neg (by simpa using hinside), if_neg hend, List.nil_append]
      · have hinside : ¬ PageInside log pos i := fun hi => href hi.1
        rw [List.filter_cons_of_neg (by simpa using hinside),
          List.filter_cons_of_neg (by simpa using href), htail]
  exact hpage _ fun i hi => List.mem_range.mp hi

/-- **Page placement.**  A page that the loop comes to is placed by the true sum of the sizes before
    it exactly when that sum is below 2^32; all pages of an entry are exactly when all these sums
    are, and then the entry applies its pages from their true places.  The loop keeps the sum in 32
    bits: a release build goes on with the sum modulo 2^32, a debug build does not go on. -/
theorem pagePlacement_exact_iff (profile : Profile) (log : Bytes) (pos : Nat) :
    (∀ i, LoopReaches profile log pos i →
      (∀ o, ∃ o', applyEntry profile log pos o =
        Exec.forRange (applyDirtyPage profile log (pos + 40)
          (pos + 40 + entryPageCount log pos * 8)) (entryPageCount log pos - i) i o') ∧
      (PageExact profile log pos i ↔ sizeSum log (pos + 40) i < 2 ^ 32)) ∧
    (EntryExact profile log pos ↔ SumsBounded log pos) ∧
    (EntryExact profile log pos → ∀ o,
      applyEntry profile log pos o = .ok (o.applyPages (exactPages log pos))) := by
  refine ⟨fun i hi => ⟨hi.resumes, pageExact_iff hi.reference⟩, entryExact_iff, fun h o => ?_⟩
  have hbounded := entryExact_iff.mp h
  have happlies : EntryApplies profile log pos := fun i hi href =>
    SumFits.of_lt (hbounded i hi href)
  rw [applyEntry_eq o happlies, entryPages_of_bounded hbounded]

/-- The second page of the cut-off entry is placed by the size of the first. -/
theorem pagePlacement_exact_torn :
    LoopReaches .debug tornLog 512 1 ∧ PageExact .debug tornLog 512 1 := by
  have hreach : LoopReaches .debug tornLog 512 1 :=
    ⟨by decide +kernel, by decide +kernel, fun j hj => by
      obtain rfl : j = 0 := by omega
      exact SumFits.of_lt (by decide)⟩
  have hpages := (pagePlacement_exact_iff .debug tornLog 512).1 1 hreach
  exact ⟨hreach, hpages.2.mpr (by decide +kernel)⟩

/-- A log of 577 bytes: the magic, file type 1, and an entry of three pages, of 2^32 - 1 bytes, of
    one byte and of one byte, with one byte behind the references. -/
def wrappedLog : Bytes :=
  BaseBlock.magic ++ List.replicate 24 0 ++ u32Bytes 1 ++ List.replicate 480 0 ++
    (hvleMagic ++ u32Bytes 65 ++ List.replicate 8 0 ++ u32Bytes 3 ++ List.replicate 20 0 ++
      (u32Bytes 0 ++ u32Bytes 0xFFFFFFFF ++ (u32Bytes 0 ++ u32Bytes 1) ++
        (u32Bytes 0 ++ u32Bytes 1)) ++ [0xAA])

/-- The loop gets to the third page: the sizes before it add up without a page being refused. -/
theorem wrappedLog_reaches (profile : Profile) : LoopReaches profile wrappedLog 512 2 := by
  have hsum : ∀ j < 2, sizeSum wrappedLog (512 + 40) j < 2 ^ 32 := by decide +kernel
  exact ⟨by decide +kernel, by decide +kernel, fun j hj => SumFits.of_lt (hsum j hj)⟩

/-- The two sizes before it add up to 2^32, which is 0 in 32 bits. -/
theorem sizeSum_wrappedLog : sizeSum wrappedLog (512 + 40) 2 = 2 ^ 32 := by decide +kernel

/-- **The sum for the third page overflows**: a debug build aborts there, and a release build takes
    the byte behind the references for a page whose place lies past the end of the log. -/
theorem pagePlacement_wraps :
    (∀ profile, LoopReaches profile wrappedLog 512 2 ∧ ¬ PageExact profile wrappedLog 512 2) ∧
      exactPages wrappedLog 512 = [] ∧
      applyEntry .debug wrappedLog 512 (.new []) = .panic ∧
      applyEntry .release wrappedLog 512 (.new []) =
        .ok ((OverlayBuffer.new []).applyPages [(4096, [0xAA])]) := by
  have hreach := wrappedLog_reaches
  refine ⟨fun profile => ⟨hreach profile, fun h => ?_⟩, by decide +kernel, ?_, ?_⟩
  · have hlt := (pageExact_iff (hreach profile).reference).mp h
    rw [sizeSum_wrappedLog] at hlt
    exact Nat.lt_irrefl _ hlt
  · rcases applyEntry_cases .debug wrappedLog 512 (.new []) with ⟨happlies, _⟩ | ⟨_, h⟩
    · have hlt := happlies 2 (hreach .debug).listed (hreach .debug).reference rfl
      rw [sizeSum_wrappedLog] at hlt
      exact absurd hlt (Nat.lt_irrefl _)
    · exact h
  · have hpages : entryPages wrappedLog 512 = [(4096, [0xAA])] := by decide +kernel
    have happlies : EntryApplies .release wrappedLog 512 := fun i _ _ hd => by cases hd
    rw [applyEntry_eq _ happlies, hpages]

end Winreg
