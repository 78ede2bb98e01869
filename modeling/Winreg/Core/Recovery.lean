/-
  RECOVERY: what the logs bring back after an interrupted write.

  A transaction logs the pages it has changed before the hive file is written.  When the writing is
  interrupted, the file on the disk is neither the old nor the new hive, and it is the logs that
  decide what is read.

  1. **Transactions** — a run of them takes the hive from one image to another and leaves its
     entries behind (`History`).  Written over any file that differs from the old image in logged
     bytes only, the logged pages are the new image (`History.patchAll_eq`).
  2. **A torn hive** — replaying the log files of a run over such a file gives the new image
     exactly when the overlay agrees with the order of the pages (`replay_recovers`).
  3. **The pages are the logs' alone** — what is applied does not depend on the hive
     (`replay_evals_of_replayedPages`).  So a replay that was interrupted while its result was
     written back can be started again (`replay_restarts`), and separate pages can be replayed in
     any number of stages (`replayStages_eq`).
-/
import Winreg.Core.Purity
import Winreg.Core.LogStream

namespace Winreg

open Rust

/-! ## Transactions -/

/-- A transaction takes the hive from `before` to `after`, and `pages` are what it logs: they hold
    the new bytes, and every byte they leave uncovered is an old one. -/
structure Logged (pages : List Page) (before after : Bytes) : Prop where
  length_eq : after.length = before.length
  holds : ∀ page ∈ pages, ∀ pos, page.covers pos = true → pos < after.length →
    after[pos]? = some (page.byteAt pos)
  keeps : ∀ pos, Uncovered pages pos → after[pos]? = before[pos]?

/-- The pages that entries list, in entry order. -/
def loggedPages (entries : List LogEntry) : List Page :=
  entries.flatMap fun e => e.pages.map LogPage.page

/-- A run of transactions and the entries it has logged. -/
inductive History : Bytes → List LogEntry → Bytes → Prop where
  | start (image : Bytes) : History image [] image
  | commit {first before after : Bytes} {entries : List LogEntry} {e : LogEntry}
      (run : History first entries before)
      (logged : Logged (e.pages.map LogPage.page) before after) :
      History first (entries ++ [e]) after

/-- A file of the length of `image` that differs from it in covered bytes only. -/
structure TornFrom (image : Bytes) (pages : List Page) (torn : Bytes) : Prop where
  length_eq : torn.length = image.length
  keeps : ∀ pos, Uncovered pages pos → torn[pos]? = image[pos]?

/-- No page is found for a position exactly when none covers it. -/
theorem lastCovering_eq_none_iff {pages : List Page} {pos : Nat} :
    lastCovering pages pos = none ↔ Uncovered pages pos := by
  rw [lastCovering, List.find?_eq_none]
  simp only [List.mem_reverse, Bool.not_eq_true]
  rfl

/-- Later pages take precedence. -/
theorem lastCovering_append (ps qs : List Page) (pos : Nat) :
    lastCovering (ps ++ qs) pos = (lastCovering qs pos).or (lastCovering ps pos) := by
  rw [lastCovering, List.reverse_append, List.find?_append]
  rfl

/-- A position is uncovered by two lists when it is by both. -/
theorem uncovered_append {ps qs : List Page} {pos : Nat} :
    Uncovered (ps ++ qs) pos ↔ Uncovered ps pos ∧ Uncovered qs pos := by
  rw [Uncovered, List.forall_mem_append]
  rfl

/-- Committing a transaction logs its pages behind the others. -/
theorem loggedPages_snoc (entries : List LogEntry) (e : LogEntry) :
    loggedPages (entries ++ [e]) = loggedPages entries ++ e.pages.map LogPage.page := by
  rw [loggedPages, List.flatMap_append, List.flatMap_singleton]
  rfl

/-- Transactions keep the length of the hive. -/
theorem History.length_eq {first after : Bytes} {entries : List LogEntry}
    (run : History first entries after) : after.length = first.length := by
  induction run with
  | start => rfl
  | commit _ logged ih => rw [logged.length_eq, ih]

/-- A byte that no entry of the run covers is still the first one. -/
theorem History.keeps {first after : Bytes} {entries : List LogEntry}
    (run : History first entries after) {pos : Nat} (h : Uncovered (loggedPages entries) pos) :
    after[pos]? = first[pos]? := by
  induction run with
  | start => rfl
  | commit _ logged ih =>
    rw [loggedPages_snoc, uncovered_append] at h
    rw [logged.keeps pos h.2, ih h.1]

/-- A byte that the run covers is the one of the page that covers it last. -/
theorem History.holds {first after : Bytes} {entries : List LogEntry}
    (run : History first entries after) {pos : Nat} {page : Page}
    (hlast : lastCovering (loggedPages entries) pos = some page) (hpos : pos < after.length) :
    after[pos]? = some (page.byteAt pos) := by
  induction run with
  | start => cases hlast
  | @commit before after entries e _ logged ih =>
    rw [loggedPages_snoc, lastCovering_append] at hlast
    cases hown : lastCovering (e.pages.map LogPage.page) pos with
    | some own =>
      rw [hown, Option.some_or] at hlast
      obtain rfl : own = page := Option.some.inj hlast
      obtain ⟨hmem, hcovers⟩ := lastCovering_mem hown
      exact logged.holds own hmem pos hcovers hpos
    | none =>
      rw [hown, Option.none_or] at hlast
      rw [logged.keeps pos (lastCovering_eq_none_iff.mp hown)]
      exact ih hlast (logged.length_eq ▸ hpos)

/-- **The logged pages are the new image**, written one after the other over any file that differs
    from the old one in logged bytes only. -/
theorem History.patchAll_eq {first after torn : Bytes} {entries : List LogEntry}
    (run : History first entries after) (htorn : TornFrom first (loggedPages entries) torn) :
    patchAll torn (loggedPages entries) = after := by
  have hlen : after.length = torn.length := by rw [run.length_eq, htorn.length_eq]
  apply List.ext_getElem?
  intro pos
  rcases Nat.lt_or_ge pos torn.length with hpos | hpos
  · rw [getElem?_patchAll _ _ hpos]
    unfold patchedByte
    cases hlast : lastCovering (loggedPages entries) pos with
    | some page => exact (run.holds hlast (hlen ▸ hpos)).symm
    | none =>
      have hnone := lastCovering_eq_none_iff.mp hlast
      show some (torn.getD pos 0) = after[pos]?
      rw [run.keeps hnone, ← htorn.keeps pos hnone, List.getD_eq_getElem?_getD,
        List.getElem?_eq_getElem hpos, Option.getD_some]
  · rw [List.getElem?_eq_none (by rw [length_patchAll]; exact hpos),
      List.getElem?_eq_none (hlen ▸ hpos)]

/-! ## A torn hive -/

/-- The pages of the files are those of their entries. -/
theorem flatMap_pages (logs : List LogFile) :
    logs.flatMap LogFile.pages = loggedPages (logs.flatMap LogFile.entries) := by
  rw [loggedPages, List.flatMap_assoc]
  rfl

/-- **Recovery.**  A run of transactions has left its entries in log files, in order, and then the
    writing of the hive was interrupted: the file still has every byte that was not logged, and
    anything at all in the logged places.  Replaying the logs over it gives the hive after the last
    transaction exactly when the overlay agrees with the order of the pages, and it does when the
    pages are separate. -/
theorem replay_recovers {first after : Bytes} {logs : List LogFile}
    (run : History first (logs.flatMap LogFile.entries) after) {torn : Bytes}
    (htorn : TornFrom first (logs.flatMap LogFile.pages) torn) (profile : Profile) :
    ∃ o, Exec.Evals (fun n => replayTransactionLogs profile n torn (logs.map LogFile.toBytes))
        (.ok o) ∧
      (o.materialize = after ↔ OverlapsAgree torn (logs.flatMap LogFile.pages)) ∧
      (Separate (logs.flatMap LogFile.pages) → o.materialize = after) := by
  have hpatched : patchAll torn (logs.flatMap LogFile.pages) = after := by
    rw [flatMap_pages] at htorn ⊢
    exact run.patchAll_eq htorn
  have hiff : ((OverlayBuffer.new torn).applyPages (logs.flatMap LogFile.pages)).materialize = after ↔
      OverlapsAgree torn (logs.flatMap LogFile.pages) := by
    rw [← hpatched, materialize_eq_patchAll_of_bytes]
    exact forall₂_congr fun pos _ => byteAt_eq_patchedByte_iff torn _ pos
  exact ⟨_, LogFile.replayLogs_evals profile logs (.new torn), hiff,
    fun hsep => hiff.mpr (overlapsAgree_of_separate torn hsep)⟩

/-- A hive of one byte behind the base block. -/
def byteHive (b : UInt8) : Bytes := List.replicate 4096 0 ++ [b]

/-- The base block and one byte. -/
theorem length_byteHive (b : UInt8) : (byteHive b).length = 4097 := by
  rw [byteHive, List.length_append, List.length_replicate]
  rfl

/-- The entry that logs this byte. -/
def byteEntry (b : UInt8) : LogEntry where
  spare1 := List.replicate 8 0
  spare2 := List.replicate 20 0
  pages := [⟨0, [b]⟩]
  length_spare1 := List.length_replicate
  length_spare2 := List.length_replicate

/-- A log file of two such entries. -/
def byteLog : LogFile where
  header := markedLog.header
  entries := [byteEntry 7, byteEntry 8]
  length_header := markedLog.length_header
  magic := markedLog.magic
  fileType := markedLog.fileType
  size_lt := by decide +kernel

/-- The entry covers the one byte behind the base block. -/
theorem uncovered_byteEntry {b : UInt8} {pos : Nat} :
    Uncovered [(LogPage.mk 0 [b]).page] pos ↔ pos ≠ 4096 := by
  rw [Uncovered, List.forall_mem_singleton, Bool.eq_false_iff, Ne, Page.covers_iff]
  show ¬ (4096 ≤ pos ∧ pos < 4096 + 1) ↔ pos ≠ 4096
  omega

/-- Two such hives agree everywhere else. -/
theorem byteHive_keeps (a b : UInt8) {pos : Nat} (h : pos ≠ 4096) :
    (byteHive b)[pos]? = (byteHive a)[pos]? := by
  rw [byteHive, byteHive, List.getElem?_append, List.getElem?_append, List.length_replicate]
  split
  · rfl
  · rw [List.getElem?_eq_none (by rw [List.length_singleton]; omega),
      List.getElem?_eq_none (by rw [List.length_singleton]; omega)]

/-- The entry is what a transaction logs that writes the byte. -/
theorem logged_byteEntry (a b : UInt8) :
    Logged ((byteEntry b).pages.map LogPage.page) (byteHive a) (byteHive b) := by
  refine ⟨?_, ?_, fun pos h => byteHive_keeps a b (uncovered_byteEntry.mp h)⟩
  · rw [length_byteHive, length_byteHive]
  · intro page hmem pos hcovers _
    obtain rfl : page = (LogPage.mk 0 [b]).page := List.mem_singleton.mp hmem
    have hpos : pos = 4096 := by
      have hrange := Page.covers_iff.mp hcovers
      have hend : pos < 4096 + 1 := hrange.2
      have hstart : 4096 ≤ pos := hrange.1
      omega
    subst hpos
    have hbehind : (List.replicate 4096 (0 : UInt8)).length ≤ 4096 := by
      rw [List.length_replicate]
    rw [byteHive, List.getElem?_append_right hbehind, List.length_replicate, Nat.sub_self]
    rfl

/-- The two pages have the same extent. -/
theorem separate_byteLog : Separate ([byteLog].flatMap LogFile.pages) := by
  intro p hp q hq
  have hstart : ∀ r ∈ [byteLog].flatMap LogFile.pages, r.1 = 4096 ∧ r.2.length = 1 := by decide
  exact Or.inl ⟨(hstart p hp).1.trans (hstart q hq).1.symm,
    (hstart p hp).2.trans (hstart q hq).2.symm⟩

/-- The byte was 5, was to become 7 and then 8, and is found as 6. -/
theorem replay_recovers_byteLog :
    ∃ o, Exec.Evals (fun n => replayTransactionLogs .debug n (byteHive 6) [byteLog.toBytes])
      (.ok o) ∧ o.materialize = byteHive 8 := by
  have run : History (byteHive 5) ([byteLog].flatMap LogFile.entries) (byteHive 8) :=
    .commit (.commit (.start _) (logged_byteEntry 5 7)) (logged_byteEntry 7 8)
  have htorn : TornFrom (byteHive 5) ([byteLog].flatMap LogFile.pages) (byteHive 6) := by
    refine ⟨?_, fun pos h => byteHive_keeps 5 6 fun hpos => ?_⟩
    · rw [length_byteHive, length_byteHive]
    · have hfirst := h ((LogPage.mk 0 [7]).page) (by decide)
      subst hpos
      exact absurd hfirst (by decide)
  obtain ⟨o, hrun, _, hsep⟩ := replay_recovers run htorn .debug
  exact ⟨o, hrun, hsep separate_byteLog⟩

/-! ## The pages are the logs' alone -/

section Replayed

variable {profile : Profile} {log : Bytes}

/-- Where the scan leaves, it leaves with any overlay. -/
theorem scanPass_leave {p : Nat} {o r : OverlayBuffer}
    (h : scanPass profile log ⟨p, o⟩ = .ok (.leave r)) (o' : OverlayBuffer) :
    r = o ∧ (∀ q, ¬ ScanStep profile log p q) ∧ scanPass profile log ⟨p, o'⟩ = .ok (.leave o') := by
  rcases scanPass_cases profile log ⟨p, o⟩ with ⟨_, _, _, hs⟩ | ⟨hstop, hs⟩ | ⟨_, _, hs⟩
  · rw [hs] at h
    cases h
  · rw [hs] at h
    obtain rfl : o = r := by simpa using h
    refine ⟨rfl, hstop, ?_⟩
    rcases scanPass_cases profile log ⟨p, o'⟩ with ⟨q, _, hstep, _⟩ | ⟨_, hs'⟩ | ⟨hat, hnot, _⟩
    · exact absurd hstep (hstop q)
    · exact hs'
    · have habort := @scanPass_of_abort profile log ⟨p, o⟩ hat hnot
      rw [habort] at hs
      cases hs
  · rw [hs] at h
    cases h

/-- Where no mark stands, the scan moves on by one byte. -/
theorem scanPass_forward {p : Nat} (hin : p + 4 ≤ log.length) (hmark : bytesAt log p 4 ≠ hvleMagic)
    (o : OverlayBuffer) : scanPass profile log ⟨p, o⟩ = .ok (.again ⟨p + 1, o⟩) := by
  unfold scanPass
  dsimp only
  rw [if_pos hin, slice_eq_ok (by omega) hin, Exec.ok_bind, Nat.add_sub_cancel_left,
    if_neg hmark]

/-- The passes of the scan that came back with one overlay come back with any. -/
theorem scan_of_ok {n : Nat} {p : Nat} {o r : OverlayBuffer}
    (h : Exec.loop (scanPass profile log) n ⟨p, o⟩ = .ok r) :
    ∃ ps, ScanTrace profile log p ps ∧ ∀ o', Exec.loop (scanPass profile log) n ⟨p, o'⟩ =
      .ok (o'.applyPages (ps.flatMap (entryPages log))) := by
  induction n generalizing p o with
  | zero => cases h
  | succ n ih =>
    obtain ⟨pass, hpass, hrest⟩ := Exec.bind_eq_ok.mp h
    cases pass with
    | again t =>
      -- no decision of a pass looks at the overlay, only at the log
      rcases scanPass_eq_again hpass with ⟨hin, hmark, rfl⟩ | ⟨hentry, happlies, rfl⟩
      · obtain ⟨ps, trace, hany⟩ := ih hrest
        refine ⟨ps, .forward hin hmark trace, fun o' => ?_⟩
        rw [Exec.loop_again (scanPass_forward hin hmark o'), hany]
      · obtain ⟨ps, trace, hany⟩ := ih hrest
        refine ⟨p :: ps, .entry hentry happlies trace, fun o' => ?_⟩
        rw [Exec.loop_again (scanPass_entry o' hentry happlies), hany, List.flatMap_cons,
          o'.applyPages_append]
    | leave _ =>
      obtain ⟨rfl, hstop, _⟩ := scanPass_leave hpass o
      exact ⟨[], .stop hstop, fun o' => Exec.loop_leave (scanPass_leave hpass o').2.2 n⟩

/-- **One log** has its pages, whatever they are applied to. -/
theorem replayLog_of_ok {n : Nat} {o r : OverlayBuffer}
    (h : replayLog profile n o log = .ok r) :
    ∃ pages, ReplayedPages profile log pages ∧
      ∀ o', replayLog profile n o' log = .ok (o'.applyPages pages) := by
  -- a log without the new format is passed over: it has no pages
  by_cases hs : Scanned log
  · rw [replayLog_scanned hs] at h
    obtain ⟨ps, trace, hany⟩ := scan_of_ok h
    exact ⟨_, .scanned hs trace, fun o' => (replayLog_scanned hs n o').trans (hany o')⟩
  · exact ⟨[], .skipped hs, fun o' => replayLog_not_scanned hs n o'⟩

end Replayed

/-- **The pages are the logs' alone**: where one overlay comes back from the logs, every overlay
    does, and with the same pages. -/
theorem replayLogs_of_ok {profile : Profile} {n : Nat} {logs : List Bytes} {o r : OverlayBuffer}
    (h : logs.foldlM (replayLog profile n) o = .ok r) :
    ∃ pages : List (List Page), List.Forall₂ (ReplayedPages profile) logs pages ∧
      ∀ o', logs.foldlM (replayLog profile n) o' = .ok (o'.applyPages pages.flatten) := by
  induction logs generalizing o with
  | nil => exact ⟨[], .nil, fun _ => rfl⟩
  | cons log logs ih =>
    rw [List.foldlM_cons] at h
    obtain ⟨next, hlog, hrest⟩ := Exec.bind_eq_ok.mp h
    obtain ⟨own, hown, hany⟩ := replayLog_of_ok hlog
    obtain ⟨pages, hpages, hrun⟩ := ih hrest
    refine ⟨own :: pages, .cons hown hpages, fun o' => ?_⟩
    rw [List.foldlM_cons, hany, Exec.ok_bind, hrun, List.flatten_cons, o'.applyPages_append]

/-- Separate pages are overlaid as they are written. -/
theorem materialize_of_separate (base : Bytes) {pages : List Page} (h : Separate pages) :
    ((OverlayBuffer.new base).applyPages pages).materialize = patchAll base pages :=
  materialize_eq_patchAll_of_bytes.mpr fun pos hpos =>
    (byteAt_eq_patchedByte_iff base pages pos).mpr (overlapsAgree_of_separate base h pos hpos)

/-- The file as an interrupted writing of `image` over `h` leaves it: each byte is the old or the
    new one. -/
structure Mixed (h image mid : Bytes) : Prop where
  length_eq : mid.length = h.length
  either : ∀ pos, pos < h.length → mid[pos]? = h[pos]? ∨ mid[pos]? = image[pos]?

/-- A byte of the materialized hive is the byte that the overlay shows there. -/
theorem OverlayBuffer.getElem?_applied (base : Bytes) (pages : List Page) {pos : Nat}
    (hpos : pos < base.length) :
    ((OverlayBuffer.new base).applyPages pages).materialize[pos]? =
      some (((OverlayBuffer.new base).applyPages pages).byteAt pos) := by
  rw [materialize, readAt, base_applyPages, List.getElem?_map,
    show (OverlayBuffer.new base).base = base from rfl, List.getElem?_range hpos, Option.map_some,
    Nat.zero_add]

/-- Pages show the same over two buffers that agree where none is visible. -/
theorem materialize_eq_of_agree {a b : Bytes} {pages : List Page} (hlen : b.length = a.length)
    (h : ∀ pos, pos < a.length → (∀ page, ¬ Visible pages pos page) → b[pos]? = a[pos]?) :
    ((OverlayBuffer.new b).applyPages pages).materialize =
      ((OverlayBuffer.new a).applyPages pages).materialize := by
  apply List.ext_getElem?
  intro pos
  rcases Nat.lt_or_ge pos a.length with hpos | hpos
  · rw [OverlayBuffer.getElem?_applied a pages hpos,
      OverlayBuffer.getElem?_applied b pages (hlen ▸ hpos)]
    by_cases hv : ∃ page, Visible pages pos page
    · obtain ⟨page, hpage⟩ := hv
      rw [byteAt_of_visible a hpage, byteAt_of_visible b hpage]
    · have hnone := not_exists.mp hv
      rw [byteAt_of_not_visible a hnone, byteAt_of_not_visible b hnone,
        List.getD_eq_getElem?_getD, List.getD_eq_getElem?_getD, h pos hpos hnone]
  · rw [List.getElem?_eq_none (by rw [OverlayBuffer.length_materialize, hlen]; exact hpos),
      List.getElem?_eq_none (by rw [OverlayBuffer.length_materialize]; exact hpos)]

/-- **An interrupted replay can be started again.**  Replay the logs, write the result back over
    the hive, and stop anywhere in between: the logs replayed over what is there by then give the
    same result. -/
theorem replay_restarts {profile : Profile} {n : Nat} {h mid : Bytes} {logs : List Bytes}
    {o : OverlayBuffer} (hrun : replayTransactionLogs profile n h logs = .ok o)
    (hmid : Mixed h o.materialize mid) :
    ∃ o', replayTransactionLogs profile n mid logs = .ok o' ∧ o'.materialize = o.materialize := by
  obtain ⟨pages, _, hany⟩ := replayLogs_of_ok hrun
  have ho : o = (OverlayBuffer.new h).applyPages pages.flatten :=
    Exec.ok.inj (hrun.symm.trans (hany (.new h)))
  refine ⟨_, hany (.new mid), ?_⟩
  rw [ho] at hmid ⊢
  -- where no page is visible, writing back changes nothing, so either byte is the old one
  refine materialize_eq_of_agree hmid.length_eq fun pos hpos hnone => ?_
  rcases hmid.either pos hpos with hold | hnew
  · exact hold
  · rw [hnew, OverlayBuffer.getElem?_applied h _ hpos, byteAt_of_not_visible h hnone,
      List.getD_eq_getElem?_getD, List.getElem?_eq_getElem hpos, Option.getD_some]

/-- A page written over the end of a file. -/
theorem patchPage_append (front old new : Bytes) (hlen : new.length = old.length) :
    patchPage (front ++ old) (front.length, new) = front ++ new := by
  have hfront : front.mapIdx (fun pos b => if Page.covers pos (front.length, new) then
      Page.byteAt pos (front.length, new) else b) = front := by
    refine List.ext_getElem (List.length_mapIdx ..) fun pos _ hpos => ?_
    have hbefore : Page.covers pos (front.length, new) = false :=
      Bool.eq_false_iff.mpr fun h => absurd (Page.covers_iff.mp h).1 (Nat.not_le.mpr hpos)
    rw [List.getElem_mapIdx, hbefore, if_neg Bool.false_ne_true]
  have hback : old.mapIdx (fun pos b => if Page.covers (pos + front.length) (front.length, new) then
      Page.byteAt (pos + front.length) (front.length, new) else b) = new := by
    refine List.ext_getElem (by rw [List.length_mapIdx, hlen]) fun pos _ hpos => ?_
    have hcovers : Page.covers (pos + front.length) (front.length, new) = true :=
      Page.covers_iff.mpr ⟨Nat.le_add_left .., by dsimp only; omega⟩
    rw [List.getElem_mapIdx, hcovers, if_pos rfl, Page.byteAt, Nat.add_sub_cancel,
      List.getD_eq_getElem?_getD, List.getElem?_eq_getElem hpos, Option.getD_some]
  rw [patchPage, List.mapIdx_append, hfront, hback]

/-- A hive of two bytes behind the base block. -/
def pairHive (a b : UInt8) : Bytes := List.replicate 4096 0 ++ [a, b]

/-- A log file of one entry, which logs both bytes. -/
def pairLog (a b : UInt8) : LogFile where
  header := markedLog.header
  entries := [⟨List.replicate 8 0, List.replicate 20 0, [⟨0, [a, b]⟩], List.length_replicate,
    List.length_replicate⟩]
  length_header := markedLog.length_header
  magic := markedLog.magic
  fileType := markedLog.fileType
  size_lt := by
    rw [List.length_append, markedLog.length_header, List.flatMap_singleton, LogEntry.length_toBytes,
      LogEntry.size_eq]
    show 512 + (40 + (1 * 8 + 2)) < 2 ^ 32
    decide

/-- The two bytes were 0 and were to become 1 and 2, and the writing back has reached the first. -/
theorem mixed_pairHive : Mixed (pairHive 0 0) (pairHive 1 2) (pairHive 1 0) := by
  have hpair : ∀ a b, pairHive a b = byteHive a ++ [b] := fun a b => by
    rw [pairHive, byteHive, List.append_assoc]
    rfl
  refine ⟨?_, fun pos _ => ?_⟩
  · rw [hpair, hpair, List.length_append, List.length_append, length_byteHive, length_byteHive]
  · rw [hpair, hpair, hpair, List.getElem?_append, List.getElem?_append, List.getElem?_append,
      length_byteHive, length_byteHive]
    by_cases hfirst : pos = 4096
    · subst hfirst
      exact Or.inr (by rw [if_pos (by decide), if_pos (by decide)])
    · exact Or.inl (by rw [byteHive_keeps 0 1 hfirst])

/-- Such logs have the same extent, so their pages are separate. -/
theorem separate_pairLog {logs : List LogFile} (h : ∀ f ∈ logs, ∃ a b, f = pairLog a b) :
    Separate (logs.flatMap LogFile.pages) := by
  have hpage : ∀ page ∈ logs.flatMap LogFile.pages, page.1 = 4096 ∧ page.2.length = 2 := by
    intro page hmem
    obtain ⟨f, hf, hpage⟩ := List.mem_flatMap.mp hmem
    obtain ⟨a, b, rfl⟩ := h f hf
    obtain rfl := List.mem_singleton.mp hpage
    exact ⟨rfl, rfl⟩
  exact fun p hp q hq => Or.inl ⟨(hpage p hp).1.trans (hpage q hq).1.symm,
    (hpage p hp).2.trans (hpage q hq).2.symm⟩

/-- The one page of the log. -/
theorem pages_pairLog (a b : UInt8) : (pairLog a b).pages = [(4096, [a, b])] := rfl

/-- Written over such a hive, it gives the two new bytes. -/
theorem patchPage_pairHive (a b c d : UInt8) :
    patchPage (pairHive a b) (4096, [c, d]) = pairHive c d := by
  have hover := patchPage_append (List.replicate 4096 0) [a, b] [c, d] rfl
  rwa [List.length_replicate] at hover

/-- Half written back, the hive has one new and one old byte, and the log gives it both new ones. -/
theorem replay_restarts_pairLog : ∃ n o',
    replayTransactionLogs .debug n (pairHive 1 0) [(pairLog 1 2).toBytes] = .ok o' ∧
      o'.materialize = pairHive 1 2 := by
  obtain ⟨n, hrun⟩ := LogFile.replayLogs_evals .debug [pairLog 1 2] (.new (pairHive 0 0))
  have hdone : ((OverlayBuffer.new (pairHive 0 0)).applyPages
      ([pairLog 1 2].flatMap LogFile.pages)).materialize = pairHive 1 2 := by
    rw [materialize_of_separate _ (separate_pairLog (by simp)), List.flatMap_singleton,
      pages_pairLog, patchAll, List.foldl_cons, List.foldl_nil, patchPage_pairHive]
  obtain ⟨o', hagain, heq⟩ := replay_restarts (hrun n le_rfl) (by rw [hdone]; exact mixed_pairHive)
  exact ⟨n, o', hagain, heq.trans hdone⟩

/-- Replays in stages: the result of each is written back before the next. -/
def replayStages (profile : Profile) (n : Nat) (h : Bytes) (stages : List (List Bytes)) :
    Exec HiveError Bytes :=
  stages.foldlM (fun image logs => do
    let o ← replayTransactionLogs profile n image logs
    .ok o.materialize) h

/-- Parts of a list of separate pages are separate. -/
theorem Separate.append {ps qs : List Page} (h : Separate (ps ++ qs)) :
    Separate ps ∧ Separate qs :=
  ⟨fun p hp q hq => h p (List.mem_append_left qs hp) q (List.mem_append_left qs hq),
    fun p hp q hq => h p (List.mem_append_right ps hp) q (List.mem_append_right ps hq)⟩

/-- The stages come back when the logs do, and write separate pages one after the other. -/
theorem replayStages_of_ok {profile : Profile} {n : Nat} {stages : List (List Bytes)}
    {o r : OverlayBuffer} (h : stages.flatten.foldlM (replayLog profile n) o = .ok r) :
    ∃ pages : List (List Page), List.Forall₂ (ReplayedPages profile) stages.flatten pages ∧
      (∀ o', stages.flatten.foldlM (replayLog profile n) o' =
        .ok (o'.applyPages pages.flatten)) ∧
      ∀ image, ∃ last, replayStages profile n image stages = .ok last ∧
        (Separate pages.flatten → last = patchAll image pages.flatten) := by
  induction stages generalizing o with
  | nil => exact ⟨[], .nil, fun _ => rfl, fun image => ⟨image, rfl, fun _ => rfl⟩⟩
  | cons logs stages ih =>
    rw [List.flatten_cons, List.foldlM_append] at h
    obtain ⟨next, hlogs, hrest⟩ := Exec.bind_eq_ok.mp h
    obtain ⟨own, hown, hany⟩ := replayLogs_of_ok hlogs
    obtain ⟨pages, hpages, hrun, hstages⟩ := ih hrest
    refine ⟨own ++ pages, ?_, fun o' => ?_, fun image => ?_⟩
    · rw [List.flatten_cons]
      exact List.rel_append hown hpages
    · rw [List.flatten_cons, List.foldlM_append, hany, Exec.ok_bind, hrun, List.flatten_append,
        o'.applyPages_append]
    · obtain ⟨last, hlast, heq⟩ :=
        hstages ((OverlayBuffer.new image).applyPages own.flatten).materialize
      refine ⟨last, ?_, fun hsep => ?_⟩
      · rw [replayStages, List.foldlM_cons, replayTransactionLogs, hany]
        exact hlast
      · rw [List.flatten_append] at hsep ⊢
        rw [heq hsep.append.2, materialize_of_separate image hsep.append.1, patchAll, patchAll,
          patchAll, List.foldl_append]

/-- **Separate pages can be replayed in any number of stages.**  Where all logs come back in one
    replay they come back in stages, and if the pages are separate the result is the same. -/
theorem replayStages_eq {profile : Profile} {n : Nat} {h : Bytes} {stages : List (List Bytes)}
    {o : OverlayBuffer} (hrun : replayTransactionLogs profile n h stages.flatten = .ok o) :
    ∃ pages : List (List Page), List.Forall₂ (ReplayedPages profile) stages.flatten pages ∧
      ∃ last, replayStages profile n h stages = .ok last ∧
        (Separate pages.flatten → last = o.materialize) := by
  obtain ⟨pages, hpages, hany, hstages⟩ := replayStages_of_ok hrun
  obtain ⟨last, hlast, heq⟩ := hstages h
  refine ⟨pages, hpages, last, hlast, fun hsep => ?_⟩
  have ho : o = (OverlayBuffer.new h).applyPages pages.flatten :=
    Exec.ok.inj (hrun.symm.trans (hany (.new h)))
  rw [heq hsep, ho, materialize_of_separate h hsep]

/-- Two logs of the same two bytes, in one replay and in two. -/
theorem replayStages_pairLog : ∃ n o,
    replayTransactionLogs .debug n (pairHive 0 0) [(pairLog 1 2).toBytes, (pairLog 3 4).toBytes] =
        .ok o ∧
      replayStages .debug n (pairHive 0 0) [[(pairLog 1 2).toBytes], [(pairLog 3 4).toBytes]] =
        .ok o.materialize ∧ o.materialize = pairHive 3 4 := by
  have hsep : Separate ([pairLog 1 2, pairLog 3 4].flatMap LogFile.pages) :=
    separate_pairLog (by simp)
  obtain ⟨n, hrun⟩ := LogFile.replayLogs_evals .debug [pairLog 1 2, pairLog 3 4]
    (.new (pairHive 0 0))
  have hrun := hrun n le_rfl
  obtain ⟨pages, hpages, last, hlast, heq⟩ :=
    @replayStages_eq .debug n (pairHive 0 0) [[(pairLog 1 2).toBytes], [(pairLog 3 4).toBytes]] _
      hrun
  have hlisted : pages.flatten = [pairLog 1 2, pairLog 3 4].flatMap LogFile.pages :=
    congrArg List.flatten (@LogFile.replayedPages_eq .debug [pairLog 1 2, pairLog 3 4] _ hpages)
  refine ⟨n, _, hrun, ?_, ?_⟩
  · rw [hlast, heq (hlisted ▸ hsep)]
  · rw [materialize_of_separate _ hsep, List.flatMap_cons, List.flatMap_singleton, pages_pairLog,
      pages_pairLog, patchAll, List.singleton_append, List.foldl_cons, List.foldl_cons,
      List.foldl_nil, patchPage_pairHive, patchPage_pairHive]

end Winreg
