/-
  WHAT THE REPLAY APPLIES: the pages of a log entry, one by one.

  An entry lists its pages as references, and the bytes of the pages stand behind all of them, one
  page after the other.  The loop over the references looks at each page by itself: it stops at
  the first reference that runs past the end of the log, and passes over a page whose bytes do.
  The size that the entry declares for itself plays no part in it.

  1. **One entry** — the pages applied are the listed pages that the log holds whole
     (`applyEntry_eq`).
  2. **The replay** — what comes back is the hive with these pages of the recognised entries
     applied, log by log and entry by entry (`replayTransactionLogs_eq_applyPages`).
-/
import Winreg.Core.Replay
import Winreg.Core.Overlay

namespace Winreg

open Rust

/-! ## One entry -/

/-- Where reference `i` of the entry at `pos` starts. -/
def pageRef (pos i : Nat) : Nat := pos + 40 + i * 8

/-- The size that reference `i` gives for its page. -/
def pageSize (log : Bytes) (pos i : Nat) : Nat := (u32At log (pageRef pos i + 4)).toNat

/-- Where the bytes of page `i` start: behind all references and the pages before it. -/
def pageStart (log : Bytes) (pos i : Nat) : Nat :=
  pos + 40 + entryPageCount log pos * 8 + sizeSum log (pos + 40) i % 2 ^ 32

/-- The log holds reference `i` and the bytes of its page. -/
def PageInside (log : Bytes) (pos i : Nat) : Prop :=
  pageRef pos i + 8 ≤ log.length ∧ pageStart log pos i + pageSize log pos i ≤ log.length

instance (log : Bytes) (pos i : Nat) : Decidable (PageInside log pos i) :=
  inferInstanceAs (Decidable (_ ∧ _))

/-- Page `i` of the entry at `pos`. -/
def entryPage (log : Bytes) (pos i : Nat) : Page :=
  (4096 + (u32At log (pageRef pos i)).toNat,
    bytesAt log (pageStart log pos i) (pageSize log pos i))

/-- The pages of the entry at `pos` that the log holds whole. -/
def entryPages (log : Bytes) (pos : Nat) : List Page :=
  ((List.range (entryPageCount log pos)).filter fun i => PageInside log pos i).map
    (entryPage log pos)

/-- Two lists of pages are laid over one after the other. -/
theorem OverlayBuffer.applyPages_append (o : OverlayBuffer) (ps qs : List Page) :
    o.applyPages (ps ++ qs) = (o.applyPages ps).applyPages qs := List.foldl_append

/-- A size sum that comes back is the sum of the sizes, wrapped. -/
theorem accumulatedSize_toNat {profile : Profile} {log : Bytes} {refStart : Nat} :
    ∀ {i : Nat} {sum : UInt32}, (∀ j, j < i → refStart + j * 8 + 8 ≤ log.length) →
      accumulatedSize profile log refStart i = .ok sum →
        sum.toNat = sizeSum log refStart i % 2 ^ 32 := by
  intro i
  induction i with
  | zero =>
    intro sum _ h
    obtain rfl : 0 = sum := by simpa [accumulatedSize] using h
    rfl
  | succ i ih =>
    intro sum hin h
    rw [accumulatedSize_succ profile (hin i (by omega))] at h
    obtain ⟨before, hbefore, hadd⟩ := Exec.bind_eq_ok.mp h
    have hval := ih (fun j hj => hin j (by omega)) hbefore
    have hsum : sum = before + u32At log (refStart + i * 8 + 4) := by
      cases profile with
      | release => simpa [Profile.addU32] using hadd.symm
      | debug =>
        unfold Profile.addU32 at hadd
        dsimp only at hadd
        split at hadd
        · simpa using hadd.symm
        · cases hadd
    rw [hsum, UInt32.toNat_add, hval, sizeSum_succ]
    omega

/-- **One reference**: its page is applied when the log holds it. -/
theorem applyDirtyPage_eq {profile : Profile} {log : Bytes} {pos i : Nat} (o : OverlayBuffer)
    (href : pageRef pos i + 8 ≤ log.length) (hfit : SumFits profile log (pos + 40) i) :
    applyDirtyPage profile log (pos + 40) (pos + 40 + entryPageCount log pos * 8) i o =
      .ok (.again (o.applyPages (if PageInside log pos i then [entryPage log pos i] else []))) := by
  have hin : ∀ j, j < i → pos + 40 + j * 8 + 8 ≤ log.length := fun j hj => by
    unfold pageRef at href
    omega
  obtain ⟨sum, hsum⟩ : ∃ sum, accumulatedSize profile log (pos + 40) i = .ok sum := by
    rcases accumulatedSize_cases profile hin with ⟨_, h⟩ | ⟨hnot, _⟩
    · exact h
    · exact absurd hfit hnot
  have hstart : pos + 40 + entryPageCount log pos * 8 + sum.toNat = pageStart log pos i := by
    rw [accumulatedSize_toNat hin hsum]
    rfl
  have hoffset : leU32 log (pos + 40 + i * 8) = u32At log (pageRef pos i) :=
    leU32_eq_u32At (by unfold pageRef at href; omega)
  have hsize : (leU32 log (pos + 40 + i * 8 + 4)).toNat = pageSize log pos i :=
    congrArg UInt32.toNat (leU32_eq_u32At (by unfold pageRef at href; omega))
  unfold applyDirtyPage
  dsimp only
  have hgoes : ¬ pos + 40 + i * 8 + 8 > log.length := Nat.not_lt.mpr href
  rw [if_neg hgoes, hsum, Exec.ok_bind, hstart, hoffset, hsize]
  by_cases hend : pageStart log pos i + pageSize log pos i ≤ log.length
  · rw [if_pos hend, slice_eq_ok (by omega) hend, Exec.ok_bind, Nat.add_sub_cancel_left,
      if_pos ⟨href, hend⟩]
    rfl
  · rw [if_neg hend, if_neg fun hinside => hend hinside.2]
    rfl

/-- The references from `i` on. -/
theorem forRange_applyDirtyPage_eq {profile : Profile} {log : Bytes} {pos : Nat} :
    ∀ (k i : Nat) (o : OverlayBuffer),
      (∀ j, i ≤ j → j < i + k → pageRef pos j + 8 ≤ log.length → SumFits profile log (pos + 40) j) →
      Exec.forRange (applyDirtyPage profile log (pos + 40)
          (pos + 40 + entryPageCount log pos * 8)) k i o =
        .ok (o.applyPages (((List.range' i k).filter fun j => PageInside log pos j).map
          (entryPage log pos))) := by
  intro k
  induction k with
  | zero => exact fun i o _ => rfl
  | succ k ih =>
    intro i o hfit
    by_cases href : pageRef pos i + 8 ≤ log.length
    · rw [Exec.forRange_again (applyDirtyPage_eq o href (hfit i (Nat.le_refl i) (by omega) href)),
        ih (i + 1) _ fun j hlo hhi => hfit j (by omega) (by omega), ← o.applyPages_append,
        List.range'_succ]
      congr 2
      by_cases hinside : PageInside log pos i
      · rw [if_pos hinside, List.filter_cons_of_pos (by simpa using hinside)]
        rfl
      · rw [if_neg hinside, List.filter_cons_of_neg (by simpa using hinside), List.nil_append]
    · -- the references run past the end of the log from here on
      have hleave : applyDirtyPage profile log (pos + 40)
          (pos + 40 + entryPageCount log pos * 8) i o = .ok (.leave o) := by
        unfold applyDirtyPage
        exact if_pos (Nat.lt_of_not_le href)
      have hnone : (List.range' i (k + 1)).filter (fun j => PageInside log pos j) = [] := by
        refine List.filter_eq_nil_iff.mpr fun j hj => ?_
        have hij := (List.mem_range'_1.mp hj).1
        have hj : ¬ PageInside log pos j := fun hinside => href (by
          have := hinside.1
          unfold pageRef at this ⊢
          omega)
        simpa using hj
      rw [Exec.forRange_leave hleave, hnone]
      rfl

/-- **One entry**: its pages that the log holds whole are applied, in order. -/
theorem applyEntry_eq {profile : Profile} {log : Bytes} {pos : Nat} (o : OverlayBuffer)
    (h : EntryApplies profile log pos) :
    applyEntry profile log pos o = .ok (o.applyPages (entryPages log pos)) := by
  have hrun := @forRange_applyDirtyPage_eq profile log pos (entryPageCount log pos) 0 o
    fun j _ hj href => h j (by omega) href
  rw [← List.range_eq_range'] at hrun
  exact hrun

/-- A pass over an entry applies its pages and moves on by the size that the entry declares. -/
theorem scanPass_entry {profile : Profile} {log : Bytes} {pos : Nat} (o : OverlayBuffer)
    (hentry : EntryAt log pos) (happlies : EntryApplies profile log pos) :
    scanPass profile log ⟨pos, o⟩ =
      .ok (.again ⟨pos + entrySize log pos, o.applyPages (entryPages log pos)⟩) := by
  have hin := hentry.inside
  unfold scanPass
  dsimp only
  rw [if_pos (by omega), slice_eq_ok (by omega) (by omega), Exec.ok_bind, Nat.add_sub_cancel_left,
    if_pos hentry.mark, if_neg (by omega), applyEntry_eq o happlies, Exec.ok_bind]

/-- The log holds every listed page of the entry at `pos`. -/
def EntryWhole (log : Bytes) (pos : Nat) : Prop :=
  ∀ i, i < entryPageCount log pos → PageInside log pos i

/-- A page that is applied is a listed page, and its bytes stand in the log behind the
    references. -/
theorem mem_entryPages {log : Bytes} {pos : Nat} {page : Page} (h : page ∈ entryPages log pos) :
    ∃ i < entryPageCount log pos, pageRef pos i + 8 ≤ log.length ∧
      page.1 = 4096 + (u32At log (pageRef pos i)).toNat ∧ page.2.length = pageSize log pos i ∧
      ∃ start, pos + 40 + entryPageCount log pos * 8 ≤ start ∧
        start + page.2.length ≤ log.length ∧ page.2 = bytesAt log start page.2.length := by
  obtain ⟨i, hi, rfl⟩ := List.mem_map.mp h
  obtain ⟨hrange, hinside⟩ := List.mem_filter.mp hi
  have hinside : PageInside log pos i := by simpa using hinside
  have hlen : (entryPage log pos i).2.length = pageSize log pos i :=
    length_bytesAt_of_le hinside.2
  refine ⟨i, List.mem_range.mp hrange, hinside.1, rfl, hlen, pageStart log pos i, ?_, ?_, ?_⟩
  · unfold pageStart
    omega
  · rw [hlen]
    exact hinside.2
  · rw [hlen]
    rfl

/-- Of a whole entry every listed page is applied. -/
theorem entryPages_of_whole {log : Bytes} {pos : Nat} (h : EntryWhole log pos) :
    entryPages log pos = (List.range (entryPageCount log pos)).map (entryPage log pos) := by
  unfold entryPages
  rw [List.filter_eq_self.mpr fun i hi => by simpa using h i (List.mem_range.mp hi)]

/-- Of an entry without a whole page nothing is applied. -/
theorem entryPages_of_none {log : Bytes} {pos : Nat}
    (h : ∀ i, i < entryPageCount log pos → ¬ PageInside log pos i) : entryPages log pos = [] := by
  unfold entryPages
  rw [List.filter_eq_nil_iff.mpr fun i hi => by simpa using h i (List.mem_range.mp hi)]
  rfl

/-! ## The replay -/

/-- The entries that the scan recognises from a position on, up to the end. -/
inductive ScanTrace (profile : Profile) (log : Bytes) : Nat → List Nat → Prop where
  | stop {p : Nat} (h : ∀ q, ¬ ScanStep profile log p q) : ScanTrace profile log p []
  | forward {p : Nat} {ps : List Nat} (inside : p + 4 ≤ log.length)
      (mark : bytesAt log p 4 ≠ hvleMagic) (rest : ScanTrace profile log (p + 1) ps) :
      ScanTrace profile log p ps
  | entry {p : Nat} {ps : List Nat} (header : EntryAt log p)
      (applies : EntryApplies profile log p)
      (rest : ScanTrace profile log (p + entrySize log p) ps) : ScanTrace profile log p (p :: ps)

/-- What a pass does to the overlay. -/
theorem scanPass_eq_again {profile : Profile} {log : Bytes} {s t : ScanState}
    (h : scanPass profile log s = .ok (.again t)) :
    (s.pos + 4 ≤ log.length ∧ bytesAt log s.pos 4 ≠ hvleMagic ∧ t = ⟨s.pos + 1, s.overlay⟩) ∨
    (EntryAt log s.pos ∧ EntryApplies profile log s.pos ∧
      t = ⟨s.pos + entrySize log s.pos, s.overlay.applyPages (entryPages log s.pos)⟩) := by
  unfold scanPass at h
  by_cases hin : s.pos + 4 ≤ log.length
  · rw [if_pos hin, slice_eq_ok (by omega) hin, Exec.ok_bind, Nat.add_sub_cancel_left] at h
    by_cases hmark : bytesAt log s.pos 4 = hvleMagic
    · rw [if_pos hmark] at h
      by_cases hlen : s.pos + 40 > log.length
      · rw [if_pos hlen] at h
        cases h
      · rw [if_neg hlen] at h
        rcases applyEntry_cases profile log s.pos s.overlay with ⟨happlies, _⟩ | ⟨_, hpanic⟩
        · rw [applyEntry_eq s.overlay happlies, Exec.ok_bind] at h
          exact Or.inr ⟨⟨by omega, hmark⟩, happlies, by simpa using h.symm⟩
        · rw [hpanic, Exec.panic_bind] at h
          cases h
    · rw [if_neg hmark] at h
      exact Or.inl ⟨hin, hmark, by simpa using h.symm⟩
  · rw [if_neg hin] at h
    cases h

/-- **One log**: the pages of the recognised entries are applied, entry by entry. -/
theorem parseNewFormatLog_eq_applyPages {profile : Profile} {log : Bytes} {n : Nat}
    {overlay o : OverlayBuffer} (h : parseNewFormatLog profile n log overlay = .ok o) :
    ∃ ps, ScanTrace profile log 512 ps ∧ o = overlay.applyPages (ps.flatMap (entryPages log)) := by
  -- the induction is on the budget of the loop, for any position and overlay
  have hloop : ∀ (n : Nat) (s : ScanState), Exec.loop (scanPass profile log) n s = .ok o →
      ∃ ps, ScanTrace profile log s.pos ps ∧
        o = s.overlay.applyPages (ps.flatMap (entryPages log)) := by
    intro n
    induction n with
    | zero => exact fun s h => by cases h
    | succ n ih =>
      intro s h
      obtain ⟨pass, hpass, hrest⟩ := Exec.bind_eq_ok.mp h
      cases pass with
      | again t =>
        obtain ⟨ps, htrace, ho⟩ := ih t hrest
        -- the scan goes forward by a step, or over a whole entry whose pages it applies
        rcases scanPass_eq_again hpass with ⟨hin, hmark, rfl⟩ | ⟨hentry, happlies, rfl⟩
        · exact ⟨ps, .forward hin hmark htrace, ho⟩
        · refine ⟨s.pos :: ps, .entry hentry happlies htrace, ?_⟩
          rw [List.flatMap_cons, s.overlay.applyPages_append]
          exact ho
      | leave r =>
        rcases scanPass_cases profile log s with ⟨q, o', _, hs⟩ | ⟨hstop, hs⟩ | ⟨_, _, hs⟩
        · rw [hs] at hpass
          cases hpass
        · rw [hs] at hpass
          obtain rfl : s.overlay = r := by simpa using hpass
          obtain rfl : s.overlay = o := by simpa using hrest
          exact ⟨[], .stop hstop, rfl⟩
        · rw [hs] at hpass
          cases hpass
  exact hloop n ⟨512, overlay⟩ h

/-- The pages that the replay of one log applies, one list for each log. -/
inductive ReplayedPages (profile : Profile) (log : Bytes) : List Page → Prop where
  | scanned {ps : List Nat} (h : Scanned log) (trace : ScanTrace profile log 512 ps) :
      ReplayedPages profile log (ps.flatMap (entryPages log))
  | skipped (h : ¬ Scanned log) : ReplayedPages profile log []

/-- **The replay** applies the pages of the recognised entries, log by log. -/
theorem replayTransactionLogs_eq_applyPages {profile : Profile} {n : Nat} {hiveData : Bytes}
    {logDatas : List Bytes} {o : OverlayBuffer}
    (h : replayTransactionLogs profile n hiveData logDatas = .ok o) :
    ∃ pages : List (List Page), List.Forall₂ (ReplayedPages profile) logDatas pages ∧
      o = (OverlayBuffer.new hiveData).applyPages pages.flatten := by
  have hfold : ∀ (logs : List Bytes) (overlay : OverlayBuffer),
      logs.foldlM (replayLog profile n) overlay = .ok o →
      ∃ pages : List (List Page), List.Forall₂ (ReplayedPages profile) logs pages ∧
        o = overlay.applyPages pages.flatten := by
    intro logs
    induction logs with
    | nil =>
      intro overlay h
      obtain rfl : overlay = o := by simpa using h
      exact ⟨[], .nil, rfl⟩
    | cons log logs ih =>
      intro overlay h
      rw [List.foldlM_cons] at h
      obtain ⟨next, hlog, hrest⟩ := Exec.bind_eq_ok.mp h
      obtain ⟨pages, hpages, ho⟩ := ih next hrest
      by_cases hs : Scanned log
      · rw [replayLog_scanned hs] at hlog
        obtain ⟨ps, htrace, rfl⟩ := parseNewFormatLog_eq_applyPages hlog
        refine ⟨_ :: pages, .cons (.scanned hs htrace) hpages, ?_⟩
        rw [ho, List.flatten_cons, overlay.applyPages_append]
      · rw [replayLog_not_scanned hs] at hlog
        obtain rfl : overlay = next := by simpa using hlog
        refine ⟨[] :: pages, .cons (.skipped hs) hpages, ?_⟩
        rw [ho, List.flatten_cons, List.nil_append]
  exact hfold logDatas (.new hiveData) h

/-! ## Page by page, not entry by entry -/

/-- The entry at `pos` is applied as a whole or not at all: what comes back is the overlay as it
    was, or the overlay with every listed page applied, each taken from inside the entry. -/
def AppliesAtomically (profile : Profile) (log : Bytes) (pos : Nat) : Prop :=
  ∀ overlay o, applyEntry profile log pos overlay = .ok o → o = overlay ∨
    ∃ pages : List Page, pages.length = entryPageCount log pos ∧
      (∀ i (h : i < pages.length), pages[i].1 = 4096 + (leU32 log (pageRef pos i)).toNat ∧
        ∃ start, pos ≤ start ∧ start + pages[i].2.length ≤ pos + entrySize log pos ∧
          pages[i].2 = bytesAt log start pages[i].2.length) ∧
      o = overlay.applyPages pages

/-- **Page by page.**  Whenever the replay comes back, it has applied the pages of the recognised
    entries in order, and of each entry exactly the listed pages whose reference and bytes the log
    holds: all of them when the log holds the entry whole, none when it holds no page of it. -/
theorem replay_applies_whole_pages (profile : Profile) (n : Nat) (hiveData : Bytes)
    (logDatas : List Bytes) :
    (∀ o, replayTransactionLogs profile n hiveData logDatas = .ok o →
      ∃ pages : List (List Page), List.Forall₂ (ReplayedPages profile) logDatas pages ∧
        o = (OverlayBuffer.new hiveData).applyPages pages.flatten) ∧
    ∀ (log : Bytes) (pos : Nat) (overlay : OverlayBuffer),
      (EntryAt log pos → EntryApplies profile log pos →
        scanPass profile log ⟨pos, overlay⟩ =
          .ok (.again ⟨pos + entrySize log pos, overlay.applyPages (entryPages log pos)⟩)) ∧
      (∀ page ∈ entryPages log pos, ∃ i < entryPageCount log pos,
        pageRef pos i + 8 ≤ log.length ∧ page.1 = 4096 + (u32At log (pageRef pos i)).toNat ∧
        page.2.length = pageSize log pos i ∧
        ∃ start, pos + 40 + entryPageCount log pos * 8 ≤ start ∧
          start + page.2.length ≤ log.length ∧ page.2 = bytesAt log start page.2.length) ∧
      (EntryWhole log pos →
        entryPages log pos = (List.range (entryPageCount log pos)).map (entryPage log pos)) ∧
      ((∀ i, i < entryPageCount log pos → ¬ PageInside log pos i) → entryPages log pos = []) ∧
      (log.length < pos + 40 → ¬ EntryAt log pos) := by
  refine ⟨fun o h => replayTransactionLogs_eq_applyPages h, fun log pos overlay =>
    ⟨scanPass_entry overlay, fun page => mem_entryPages, entryPages_of_whole,
      entryPages_of_none, fun hcut hentry => absurd hentry.inside (by omega)⟩⟩

/-- A log of 569 bytes: the magic, file type 1, and an entry of two pages of one byte each, cut
    off behind the first. -/
def tornLog : Bytes :=
  BaseBlock.magic ++ List.replicate 24 0 ++ u32Bytes 1 ++ List.replicate 480 0 ++
    (hvleMagic ++ u32Bytes 58 ++ List.replicate 8 0 ++ u32Bytes 2 ++ List.replicate 20 0 ++
      (u32Bytes 0 ++ u32Bytes 1 ++ (u32Bytes 4096 ++ u32Bytes 1)) ++ [0xAA])

/-- The mark and the 40 bytes behind it are there. -/
theorem tornLog_entry : EntryAt tornLog 512 := ⟨by decide +kernel, by decide +kernel⟩

/-- Its sizes add up without overflow. -/
theorem tornLog_applies (profile : Profile) : EntryApplies profile tornLog 512 := by
  have hcount : entryPageCount tornLog 512 = 2 := by decide +kernel
  intro i hi _ _
  rw [hcount] at hi
  have hsum : ∀ i < 2, sizeSum tornLog (512 + 40) i < 2 ^ 32 := by decide +kernel
  exact hsum i hi

/-- The first page is there, the second is not. -/
theorem entryPages_tornLog : entryPages tornLog 512 = [(4096, [0xAA])] := by decide +kernel

/-- The cut-off entry leaves its first page behind. -/
theorem replay_applies_whole_pages_torn :
    scanPass .debug tornLog ⟨512, .new []⟩ =
      .ok (.again ⟨570, (OverlayBuffer.new []).applyPages [(4096, [0xAA])]⟩) := by
  have hpass := ((replay_applies_whole_pages .debug 0 [] []).2 tornLog 512 (.new [])).1
    tornLog_entry (tornLog_applies .debug)
  have hsize : entrySize tornLog 512 = 58 := by decide +kernel
  rw [hpass, entryPages_tornLog, hsize]

/-- **A torn entry is applied in part**: the scan recognises the entry, and of its two pages the
    overlay gets one. -/
theorem replay_torn_entry_not_atomic :
    Scanned tornLog ∧ ScanReaches .debug tornLog 512 ∧ EntryAt tornLog 512 ∧
      ¬ AppliesAtomically .debug tornLog 512 ∧ ¬ AppliesAtomically .release tornLog 512 := by
  have hnot : ∀ profile, ¬ AppliesAtomically profile tornLog 512 := by
    intro profile h
    have hcount : entryPageCount tornLog 512 = 2 := by decide +kernel
    have hrun := applyEntry_eq (.new []) (tornLog_applies profile)
    rw [entryPages_tornLog] at hrun
    rcases h (.new []) _ hrun with hsame | ⟨pages, hlen, hpages, hall⟩
    · -- the first page is in the overlay
      have hfirst := congrArg (fun o : OverlayBuffer => o.dirtyPages[4096]?) hsame
      have hget : ((OverlayBuffer.new []).applyPages [(4096, [0xAA])]).dirtyPages[4096]? =
          some [0xAA] := Std.TreeMap.getElem?_insert_self
      rw [hget, show (OverlayBuffer.new []).dirtyPages[4096]? = none from
        Std.TreeMap.getElem?_emptyc] at hfirst
      cases hfirst
    · -- the second is not
      obtain ⟨p, q, rfl⟩ := List.length_eq_two.mp (hlen.trans hcount)
      have hstart : q.1 = 8192 := ((hpages 1 (by simp)).1).trans (by decide +kernel)
      have hsecond := congrArg (fun o : OverlayBuffer => o.dirtyPages[8192]?) hall
      have hget : ((OverlayBuffer.new []).applyPages [p, q]).dirtyPages[8192]? = some q.2 := by
        rw [← hstart]
        exact Std.TreeMap.getElem?_insert_self
      have hnone : ((OverlayBuffer.new []).applyPages [(4096, [0xAA])]).dirtyPages[8192]? = none :=
        Std.TreeMap.getElem?_insert.trans (by rw [if_neg (by decide)]; rfl)
      rw [hget, hnone] at hsecond
      cases hsecond
  exact ⟨⟨by decide +kernel, by decide, by decide +kernel⟩, Relation.ReflTransGen.refl,
    tornLog_entry, hnot .debug, hnot .release⟩

end Winreg
