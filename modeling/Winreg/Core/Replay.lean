/-
  TERMINATION of the log scan.

  One pass of the scan moves from a position to another one (`ScanStep`), or stops, or aborts on
  an overflowing size sum.  A pass that moves on byte by byte always advances; a pass over an
  entry advances by the size that the entry declares, and nothing checks that size.

  1. **One entry** — applying its pages gives an overlay when the partial size sums fit
     (`EntryApplies`), and aborts when they do not (`applyEntry_cases`).
  2. **One log** — the scan ends unless it reaches an entry that declares size zero
     (`parseNewFormatLog_ends_iff`): there it stays for ever.
  3. **All logs** — the replay ends unless it comes to a log whose scan does not
     (`replayTransactionLogs_ends_iff`).
-/
import Winreg.Core.TxLog
import Mathlib.Logic.Relation
import Mathlib.Algebra.BigOperators.Group.List.Basic

namespace Winreg

open Rust Relation

/-! ## One entry -/

/-- The sum of the size fields of the first `i` page references. -/
def sizeSum (log : Bytes) (refStart i : Nat) : Nat :=
  ((List.range i).map fun j => (u32At log (refStart + j * 8 + 4)).toNat).sum

/-- The sum does not overflow, or its overflow is not checked. -/
def SumFits (profile : Profile) (log : Bytes) (refStart i : Nat) : Prop :=
  profile = .debug → sizeSum log refStart i < 2 ^ 32

/-- The sum up to the next page adds the size of this one. -/
theorem sizeSum_succ (log : Bytes) (refStart i : Nat) :
    sizeSum log refStart (i + 1) =
      sizeSum log refStart i + (u32At log (refStart + i * 8 + 4)).toNat := by
  unfold sizeSum
  rw [List.range_succ, List.map_append, List.sum_append]; simp

/-- One more summand: the size field of reference `i` is read and added. -/
theorem accumulatedSize_succ (profile : Profile) {log : Bytes} {refStart i : Nat}
    (h : refStart + i * 8 + 8 ≤ log.length) :
    accumulatedSize profile log refStart (i + 1) =
      (accumulatedSize profile log refStart i >>= fun sum =>
        profile.addU32 sum (u32At log (refStart + i * 8 + 4))) := by
  unfold accumulatedSize
  rw [List.range_succ, List.foldlM_append]
  refine congrArg _ (funext fun sum => ?_)
  rw [List.foldlM_cons]
  dsimp only
  rw [slice_eq_ok (by omega) (by omega), Exec.ok_bind, Nat.add_sub_cancel_left]
  rw [u32At_bytesAt (by omega)]
  exact bind_pure _

/-- The wrapping sum never aborts. -/
theorem accumulatedSize_release {log : Bytes} {refStart : Nat} :
    ∀ i, (∀ j, j < i → refStart + j * 8 + 8 ≤ log.length) →
      ∃ sum, accumulatedSize .release log refStart i = .ok sum := by
  intro i
  induction i with
  | zero => exact fun _ => ⟨0, rfl⟩
  | succ i ih =>
    intro h
    obtain ⟨sum, hsum⟩ := ih (fun j hj => h j (by omega))
    rw [accumulatedSize_succ _ (h i (by omega)), hsum, Exec.ok_bind]
    exact ⟨_, rfl⟩

/-- The checked sum is the sum when it fits and aborts when it does not. -/
theorem accumulatedSize_debug {log : Bytes} {refStart : Nat} :
    ∀ i, (∀ j, j < i → refStart + j * 8 + 8 ≤ log.length) →
      (sizeSum log refStart i < 2 ^ 32 ∧ ∃ sum, accumulatedSize .debug log refStart i = .ok sum ∧
        sum.toNat = sizeSum log refStart i) ∨
      (2 ^ 32 ≤ sizeSum log refStart i ∧ accumulatedSize .debug log refStart i = .panic) := by
  intro i
  induction i with
  | zero => exact fun _ => Or.inl ⟨by simp [sizeSum], 0, rfl, by simp [sizeSum]⟩
  | succ i ih =>
    intro h
    rw [accumulatedSize_succ _ (h i (by omega)), sizeSum_succ]
    rcases ih (fun j hj => h j (by omega)) with ⟨_, sum, hsum, hval⟩ | ⟨hbig, hpanic⟩
    · rw [hsum, Exec.ok_bind, ← hval]
      unfold Profile.addU32
      dsimp only
      by_cases hfit : sum.toNat + (u32At log (refStart + i * 8 + 4)).toNat < 2 ^ 32
      · rw [if_pos hfit]
        refine Or.inl ⟨hfit, _, rfl, ?_⟩
        rw [UInt32.toNat_add, Nat.mod_eq_of_lt hfit]
      · rw [if_neg hfit]
        exact Or.inr ⟨by omega, rfl⟩
    · rw [hpanic, Exec.panic_bind]
      exact Or.inr ⟨by omega, rfl⟩

/-- The sum for reference `i`, under either profile. -/
theorem accumulatedSize_cases (profile : Profile) {log : Bytes} {refStart i : Nat}
    (h : ∀ j, j < i → refStart + j * 8 + 8 ≤ log.length) :
    (SumFits profile log refStart i ∧ ∃ sum, accumulatedSize profile log refStart i = .ok sum) ∨
    (¬ SumFits profile log refStart i ∧ accumulatedSize profile log refStart i = .panic) := by
  cases profile with
  | release => exact Or.inl ⟨fun hd => (by cases hd), accumulatedSize_release i h⟩
  | debug =>
    rcases accumulatedSize_debug i h with ⟨hfit, sum, hsum, _⟩ | ⟨hbig, hpanic⟩
    · exact Or.inl ⟨fun _ => hfit, sum, hsum⟩
    · exact Or.inr ⟨fun hfit => absurd (hfit rfl) (by omega), hpanic⟩

/-- One page reference: past the end of the log it ends the entry; else it goes on when the sum
    of the sizes before it fits, and aborts when it does not. -/
theorem applyDirtyPage_cases (profile : Profile) (log : Bytes) (refStart dataStart i : Nat)
    (o : OverlayBuffer) :
    (log.length < refStart + i * 8 + 8 ∧
      applyDirtyPage profile log refStart dataStart i o = .ok (.leave o)) ∨
    (refStart + i * 8 + 8 ≤ log.length ∧ SumFits profile log refStart i ∧
      ∃ o', applyDirtyPage profile log refStart dataStart i o = .ok (.again o')) ∨
    (refStart + i * 8 + 8 ≤ log.length ∧ ¬ SumFits profile log refStart i ∧
      applyDirtyPage profile log refStart dataStart i o = .panic) := by
  unfold applyDirtyPage
  dsimp only
  by_cases href : refStart + i * 8 + 8 > log.length
  · rw [if_pos href]; exact Or.inl ⟨href, rfl⟩
  · rw [if_neg href]
    have hin : ∀ j, j < i → refStart + j * 8 + 8 ≤ log.length := fun j hj => by omega
    rcases accumulatedSize_cases profile hin with ⟨hfit, sum, hsum⟩ | ⟨hfit, hpanic⟩
    · refine Or.inr (Or.inl ⟨by omega, hfit, ?_⟩)
      rw [hsum, Exec.ok_bind]
      split
      · rw [slice_eq_ok (by omega) ‹_›, Exec.ok_bind]
        exact ⟨_, rfl⟩
      · exact ⟨_, rfl⟩
    · exact Or.inr (Or.inr ⟨by omega, hfit, by rw [hpanic, Exec.panic_bind]⟩)

/-- Every size sum that the entry at `pos` forms fits. -/
def EntryApplies (profile : Profile) (log : Bytes) (pos : Nat) : Prop :=
  ∀ i, i < entryPageCount log pos → pos + 40 + i * 8 + 8 ≤ log.length →
    SumFits profile log (pos + 40) i

/-- The references from `i` on. -/
theorem forRange_applyDirtyPage (profile : Profile) (log : Bytes) (refStart dataStart : Nat) :
    ∀ (k i : Nat) (o : OverlayBuffer),
      ((∀ j, i ≤ j → j < i + k → refStart + j * 8 + 8 ≤ log.length →
          SumFits profile log refStart j) ∧
        ∃ o', Exec.forRange (applyDirtyPage profile log refStart dataStart) k i o = .ok o') ∨
      ((¬ ∀ j, i ≤ j → j < i + k → refStart + j * 8 + 8 ≤ log.length →
          SumFits profile log refStart j) ∧
        Exec.forRange (applyDirtyPage profile log refStart dataStart) k i o = .panic) := by
  intro k
  induction k with
  | zero => exact fun i o => Or.inl ⟨fun j h1 h2 => absurd h2 (by omega), o, rfl⟩
  | succ k ih =>
    intro i o
    rcases applyDirtyPage_cases profile log refStart dataStart i o with
      ⟨hend, h⟩ | ⟨hin, hfit, o', h⟩ | ⟨hin, hfit, h⟩
    · rw [Exec.forRange_leave h]
      exact Or.inl ⟨fun j h1 _ h3 => absurd h3 (by omega), o, rfl⟩
    · rw [Exec.forRange_again h]
      -- reference `i` fits, so all from `i` on fit exactly when all from `i + 1` on do
      rcases ih (i + 1) o' with ⟨hall, hok⟩ | ⟨hnot, hpanic⟩
      · refine Or.inl ⟨fun j h1 h2 h3 => ?_, hok⟩
        rcases Nat.eq_or_lt_of_le h1 with rfl | h1
        · exact hfit
        · exact hall j h1 (by omega) h3
      · exact Or.inr ⟨fun hall => hnot fun j h1 h2 => hall j (by omega) (by omega), hpanic⟩
    · refine Or.inr ⟨fun hall => hfit (hall i (Nat.le_refl i) (by omega) hin), ?_⟩
      rw [Exec.forRange, h, Exec.panic_bind]

/-- **Applying the pages of an entry** gives an overlay or aborts; it never runs on. -/
theorem applyEntry_cases (profile : Profile) (log : Bytes) (pos : Nat) (o : OverlayBuffer) :
    (EntryApplies profile log pos ∧ ∃ o', applyEntry profile log pos o = .ok o') ∨
    (¬ EntryApplies profile log pos ∧ applyEntry profile log pos o = .panic) := by
  have hiff : EntryApplies profile log pos ↔ ∀ j, 0 ≤ j → j < 0 + entryPageCount log pos →
      pos + 40 + j * 8 + 8 ≤ log.length → SumFits profile log (pos + 40) j := by
    simp [EntryApplies]
  rw [hiff]
  exact forRange_applyDirtyPage profile log (pos + 40)
    (pos + 40 + entryPageCount log pos * 8) (entryPageCount log pos) 0 o

/-! ## One log -/

/-- A complete entry header at `pos`. -/
structure EntryAt (log : Bytes) (pos : Nat) : Prop where
  inside : pos + 40 ≤ log.length
  mark : bytesAt log pos 4 = hvleMagic

/-- The scan moves from position `p` to position `q`. -/
inductive ScanStep (profile : Profile) (log : Bytes) (p : Nat) : Nat → Prop where
  | forward (inside : p + 4 ≤ log.length) (mark : bytesAt log p 4 ≠ hvleMagic) :
      ScanStep profile log p (p + 1)
  | entry (header : EntryAt log p) (applies : EntryApplies profile log p) :
      ScanStep profile log p (p + entrySize log p)

/-- The scan reaches position `p`. -/
def ScanReaches (profile : Profile) (log : Bytes) (p : Nat) : Prop :=
  ReflTransGen (ScanStep profile log) 512 p

/-- The scan reaches an entry that declares size zero (and applies its pages). -/
def Stalls (profile : Profile) (log : Bytes) : Prop :=
  ∃ p, ScanReaches profile log p ∧ EntryAt log p ∧ EntryApplies profile log p ∧
    entrySize log p = 0

/-- The scan reaches an entry whose size sum overflows. -/
def Aborts (profile : Profile) (log : Bytes) : Prop :=
  ∃ p, ScanReaches profile log p ∧ EntryAt log p ∧ ¬ EntryApplies profile log p

/-- **What one pass of the scan can do.** -/
theorem scanPass_cases (profile : Profile) (log : Bytes) (s : ScanState) :
    (∃ q o', ScanStep profile log s.pos q ∧ scanPass profile log s = .ok (.again ⟨q, o'⟩)) ∨
    ((∀ q, ¬ ScanStep profile log s.pos q) ∧
      scanPass profile log s = .ok (.leave s.overlay)) ∨
    (EntryAt log s.pos ∧ ¬ EntryApplies profile log s.pos ∧
      scanPass profile log s = .panic) := by
  unfold scanPass
  by_cases hin : s.pos + 4 ≤ log.length
  · rw [if_pos hin, slice_eq_ok (by omega) hin, Exec.ok_bind, Nat.add_sub_cancel_left]
    by_cases hmark : bytesAt log s.pos 4 = hvleMagic
    · rw [if_pos hmark]
      by_cases hlen : s.pos + 40 > log.length
      · rw [if_pos hlen]
        refine Or.inr (Or.inl ⟨fun q hq => ?_, rfl⟩)
        cases hq with
        | forward _ hne => exact hne hmark
        | entry hd _ => exact absurd hd.inside (by omega)
      · rw [if_neg hlen]
        rcases applyEntry_cases profile log s.pos s.overlay with ⟨happ, o', h⟩ | ⟨happ, h⟩
        · rw [h, Exec.ok_bind]
          exact Or.inl ⟨_, o', .entry ⟨by omega, hmark⟩ happ, rfl⟩
        · rw [h, Exec.panic_bind]
          exact Or.inr (Or.inr ⟨⟨by omega, hmark⟩, happ, rfl⟩)
    · rw [if_neg hmark]
      exact Or.inl ⟨_, s.overlay, .forward hin hmark, rfl⟩
  · rw [if_neg hin]
    refine Or.inr (Or.inl ⟨fun q hq => ?_, rfl⟩)
    cases hq with
    | forward h _ => exact hin h
    | entry hd _ => exact absurd hd.inside (by omega)

/-- The scan is deterministic. -/
theorem ScanStep.unique {profile : Profile} {log : Bytes} {p q q' : Nat}
    (h : ScanStep profile log p q) (h' : ScanStep profile log p q') : q = q' := by
  cases h with
  | forward _ hne =>
    cases h' with
    | forward _ _ => rfl
    | entry hd _ => exact absurd hd.mark hne
  | entry hd _ =>
    cases h' with
    | forward _ hne => exact absurd hd.mark hne
    | entry _ _ => rfl

/-- Where a step leads on, the pass goes on from there. -/
theorem scanPass_of_step {profile : Profile} {log : Bytes} {s : ScanState} {q : Nat}
    (h : ScanStep profile log s.pos q) :
    ∃ o', scanPass profile log s = .ok (.again ⟨q, o'⟩) := by
  rcases scanPass_cases profile log s with ⟨q', o', hq', hs⟩ | ⟨hno, _⟩ | ⟨hd, hnot, _⟩
  · rw [h.unique hq']; exact ⟨o', hs⟩
  · exact absurd h (hno q)
  · cases h with
    | forward _ hne => exact absurd hd.mark hne
    | entry _ happ => exact absurd happ hnot

/-- A debug build aborts on an entry whose sizes do not add up in 32 bits. -/
theorem scanPass_of_abort {profile : Profile} {log : Bytes} {s : ScanState}
    (hd : EntryAt log s.pos) (hnot : ¬ EntryApplies profile log s.pos) :
    scanPass profile log s = .panic := by
  have hin := hd.inside
  unfold scanPass
  rw [if_pos (by omega), slice_eq_ok (by omega) (by omega), Exec.ok_bind,
    Nat.add_sub_cancel_left, if_pos hd.mark, if_neg (by omega)]
  rcases applyEntry_cases profile log s.pos s.overlay with ⟨happ, _⟩ | ⟨_, h⟩
  · exact absurd happ hnot
  · rw [h, Exec.panic_bind]

/-- A pass that goes round again is a step of the scan. -/
theorem step_of_scanPass {profile : Profile} {log : Bytes} {s t : ScanState}
    (h : scanPass profile log s = .ok (.again t)) : ScanStep profile log s.pos t.pos := by
  rcases scanPass_cases profile log s with ⟨q, o', hq, hs⟩ | ⟨_, hs⟩ | ⟨_, _, hs⟩
  · rw [hs] at h
    obtain rfl : ScanState.mk q o' = t := by simpa using h
    exact hq
  · rw [hs] at h; cases h
  · rw [hs] at h; cases h

/-- An entry of size zero keeps the scan where it is, whatever leads to it. -/
theorem parseNewFormatLog_diverges {profile : Profile} {log : Bytes} (h : Stalls profile log)
    (overlay : OverlayBuffer) :
    Exec.Diverges fun n => parseNewFormatLog profile n log overlay := by
  obtain ⟨p, hreach, hd, happ, hzero⟩ := h
  intro n
  refine Exec.loop_timeout_of_stays
    (fun s : ScanState => ReflTransGen (ScanStep profile log) s.pos p) ?_ n ⟨512, overlay⟩ hreach
  intro s hs
  rcases ReflTransGen.cases_head hs with hhere | ⟨q, hstep, hrest⟩
  · -- at the entry itself: the step leads back to it
    have hstep : ScanStep profile log s.pos s.pos := by
      have := ScanStep.entry hd happ
      rw [hzero, Nat.add_zero] at this
      rw [hhere]; exact this
    obtain ⟨o', ho'⟩ := scanPass_of_step hstep
    exact Or.inr ⟨_, ho', hs⟩
  · obtain ⟨o', ho'⟩ := scanPass_of_step hstep
    exact Or.inr ⟨_, ho', hrest⟩

/-- A step from a reached position advances, unless the log stalls. -/
theorem ScanStep.lt {profile : Profile} {log : Bytes} (hno : ¬ Stalls profile log) {p q : Nat}
    (hp : ScanReaches profile log p) (h : ScanStep profile log p q) : p < q := by
  cases h with
  | forward _ _ => omega
  | entry hd happ =>
    have : entrySize log p ≠ 0 := fun hz => hno ⟨p, hp, hd, happ, hz⟩
    omega

/-- Steps start inside the log. -/
theorem ScanStep.lt_length {profile : Profile} {log : Bytes} {p q : Nat}
    (h : ScanStep profile log p q) : p < log.length := by
  cases h with
  | forward hin _ => omega
  | entry hd _ => have := hd.inside; omega

/-- Without a stall the length of the log bounds the number of passes. -/
theorem parseNewFormatLog_ends {profile : Profile} {log : Bytes} (h : ¬ Stalls profile log)
    (overlay : OverlayBuffer) : Exec.Ends fun n => parseNewFormatLog profile n log overlay := by
  refine ⟨log.length + 1, Exec.loop_ne_timeout (fun s : ScanState => ScanReaches profile log s.pos)
    (fun s : ScanState => log.length - s.pos) ?_ ?_ _ ⟨512, overlay⟩ ReflTransGen.refl ?_⟩
  · intro s _
    rcases scanPass_cases profile log s with ⟨_, _, _, hs⟩ | ⟨_, hs⟩ | ⟨_, _, hs⟩ <;> simp [hs]
  · intro s t hs hst
    have hstep := step_of_scanPass hst
    have hlt := hstep.lt h hs
    have hlen := hstep.lt_length
    exact ⟨hs.tail hstep, by omega⟩
  · show log.length - 512 < log.length + 1
    omega

/-- **The scan of one log ends** exactly when it reaches no entry of size zero. -/
theorem parseNewFormatLog_ends_iff (profile : Profile) (log : Bytes) (overlay : OverlayBuffer) :
    (Exec.Ends fun n => parseNewFormatLog profile n log overlay) ↔ ¬ Stalls profile log := by
  constructor
  · exact fun h hs => Exec.ends_iff_not_diverges.mp h (parseNewFormatLog_diverges hs overlay)
  · exact fun h => parseNewFormatLog_ends h overlay

/-- The scan of a log that aborts never gives an overlay. -/
theorem parseNewFormatLog_ne_ok {profile : Profile} {log : Bytes} (h : Aborts profile log)
    (n : Nat) (overlay o : OverlayBuffer) : parseNewFormatLog profile n log overlay ≠ .ok o := by
  obtain ⟨p, hreach, hd, hnot⟩ := h
  intro hok
  -- every state of the run still has the aborting entry ahead of it
  refine Exec.loop_inv (fun s : ScanState => ReflTransGen (ScanStep profile log) s.pos p)
    (fun _ => False) ?_ ?_ n ⟨512, overlay⟩ o hreach hok
  · intro s t hs hst
    rcases ReflTransGen.cases_head hs with hhere | ⟨q, hq, hrest⟩
    · rw [scanPass_of_abort (hhere ▸ hd) (hhere ▸ hnot)] at hst; cases hst
    · rw [(step_of_scanPass hst).unique hq]; exact hrest
  · intro s r hs hr
    rcases ReflTransGen.cases_head hs with hhere | ⟨q, hq, _⟩
    · rw [scanPass_of_abort (hhere ▸ hd) (hhere ▸ hnot)] at hr; cases hr
    · obtain ⟨o', ho'⟩ := scanPass_of_step hq
      rw [ho'] at hr; cases hr

/-- The scan of a log that does not abort never aborts nor fails. -/
theorem parseNewFormatLog_ok {profile : Profile} {log : Bytes} (h : ¬ Aborts profile log)
    {n : Nat} {overlay : OverlayBuffer} (hn : parseNewFormatLog profile n log overlay ≠ .timeout) :
    ∃ o, parseNewFormatLog profile n log overlay = .ok o := by
  have hfails : (∀ e, parseNewFormatLog profile n log overlay = .err e →
        ∃ t : ScanState, ScanReaches profile log t.pos ∧ scanPass profile log t = .err e) ∧
      (parseNewFormatLog profile n log overlay = .panic →
        ∃ t : ScanState, ScanReaches profile log t.pos ∧ scanPass profile log t = .panic) :=
    Exec.loop_fails (fun s : ScanState => ScanReaches profile log s.pos)
      (fun s t hs hst => hs.tail (step_of_scanPass hst)) n ⟨512, overlay⟩ ReflTransGen.refl
  cases hrun : parseNewFormatLog profile n log overlay with
  | ok o => exact ⟨o, rfl⟩
  | timeout => exact absurd hrun hn
  | err e =>
    obtain ⟨t, _, ht⟩ := hfails.1 e hrun
    rcases scanPass_cases profile log t with ⟨_, _, _, h'⟩ | ⟨_, h'⟩ | ⟨_, _, h'⟩ <;>
      rw [h'] at ht <;> cases ht
  | panic =>
    obtain ⟨t, hreach, ht⟩ := hfails.2 hrun
    rcases scanPass_cases profile log t with ⟨_, _, _, h'⟩ | ⟨_, h'⟩ | ⟨hd, hnot, _⟩
    · rw [h'] at ht; cases ht
    · rw [h'] at ht; cases ht
    · exact absurd ⟨t.pos, hreach, hd, hnot⟩ h

/-! ## All logs -/

/-- A log that the replay scans: long enough, with the magic, of a log file type. -/
structure Scanned (log : Bytes) : Prop where
  size : 512 ≤ log.length
  magic : bytesAt log 0 4 = BaseBlock.magic
  fileType : leU32 log 0x1C = 1 ∨ leU32 log 0x1C = 6

/-- The replay of the logs one after the other ends: the first log whose scan gives no overlay, if
    there is one, aborts it. -/
def ReplayEnds (profile : Profile) : List Bytes → Prop
  | [] => True
  | log :: rest =>
    ¬ (Scanned log ∧ Stalls profile log) ∧
      ((Scanned log ∧ Aborts profile log) ∨ ReplayEnds profile rest)

/-- A log in the new format is scanned. -/
theorem replayLog_scanned {profile : Profile} {log : Bytes} (h : Scanned log) (n : Nat)
    (overlay : OverlayBuffer) :
    replayLog profile n overlay log = parseNewFormatLog profile n log overlay := by
  have hsize := h.size
  unfold replayLog
  rw [if_neg (by omega), slice_eq_ok (by omega) (by omega), Exec.ok_bind,
    if_neg (not_not.mpr h.magic)]
  dsimp only
  rw [if_pos h.fileType]

/-- Any other log leaves the overlay as it is. -/
theorem replayLog_not_scanned {profile : Profile} {log : Bytes} (h : ¬ Scanned log) (n : Nat)
    (overlay : OverlayBuffer) : replayLog profile n overlay log = .ok overlay := by
  unfold replayLog
  by_cases hsize : log.length < 512
  · rw [if_pos hsize]
  · rw [if_neg hsize, slice_eq_ok (by omega) (by omega), Exec.ok_bind]
    by_cases hmagic : bytesAt log 0 4 = BaseBlock.magic
    · rw [if_neg (not_not.mpr hmagic)]
      dsimp only
      rw [if_neg fun htype => h ⟨by omega, hmagic, htype⟩]
    · rw [if_pos hmagic]

/-- More fuel never changes a result of the scan. -/
theorem replayLog_grows (profile : Profile) (overlay : OverlayBuffer) (log : Bytes) :
    Exec.Grows fun n => replayLog profile n overlay log := by
  intro n
  dsimp only
  by_cases h : Scanned log
  · rw [replayLog_scanned h, replayLog_scanned h]
    exact Exec.loop_grows _ _ n
  · rw [replayLog_not_scanned h, replayLog_not_scanned h]
    exact Exec.Refines.refl _

/-- One log of the replay ends unless its scan stalls. -/
theorem replayLog_ends_iff (profile : Profile) (overlay : OverlayBuffer) (log : Bytes) :
    (Exec.Ends fun n => replayLog profile n overlay log) ↔
      ¬ (Scanned log ∧ Stalls profile log) := by
  by_cases h : Scanned log
  · simp only [replayLog_scanned h, parseNewFormatLog_ends_iff]
    exact ⟨fun hs hs' => hs hs'.2, fun hs hs' => hs ⟨h, hs'⟩⟩
  · simp only [replayLog_not_scanned h]
    exact ⟨fun _ hs => h hs.1, fun _ => (Exec.Evals.const _).ends (by simp)⟩

/-- A log that ends gives an overlay exactly when its scan does not abort. -/
theorem replayLog_evals_ok_iff {profile : Profile} {overlay : OverlayBuffer} {log : Bytes}
    (hends : Exec.Ends fun n => replayLog profile n overlay log) :
    (∃ o, Exec.Evals (fun n => replayLog profile n overlay log) (.ok o)) ↔
      ¬ (Scanned log ∧ Aborts profile log) := by
  obtain ⟨n, hn⟩ := hends
  dsimp only at hn
  have hev := (replayLog_grows profile overlay log).evals hn
  constructor
  · rintro ⟨o, ho⟩ ⟨hs, habort⟩
    have hrun := hev.unique ho
    rw [replayLog_scanned hs] at hrun
    exact parseNewFormatLog_ne_ok habort n overlay o hrun
  · intro hno
    by_cases hs : Scanned log
    · have hn' := hn
      rw [replayLog_scanned hs] at hn'
      obtain ⟨o, ho⟩ := parseNewFormatLog_ok (fun ha => hno ⟨hs, ha⟩) hn'
      rw [replayLog_scanned hs, ho] at hev
      exact ⟨o, hev⟩
    · rw [replayLog_not_scanned hs] at hev
      exact ⟨overlay, hev⟩

/-- The replay from any overlay on. -/
theorem foldlM_replayLog_ends_iff (profile : Profile) :
    ∀ (logs : List Bytes) (overlay : OverlayBuffer),
      (Exec.Ends fun n => logs.foldlM (replayLog profile n) overlay) ↔
        ReplayEnds profile logs := by
  intro logs
  induction logs with
  | nil => exact fun overlay => ⟨fun _ => trivial, fun _ => (Exec.Evals.const _).ends (by simp)⟩
  | cons log rest ih =>
    intro overlay
    have hgrows : ∀ o, Exec.Grows fun n => rest.foldlM (replayLog profile n) o :=
      fun o n => Exec.Refines.foldlM (fun o' l => replayLog_grows profile o' l n) rest o
    simp only [List.foldlM_cons]
    rw [Exec.ends_bind_iff (replayLog_grows profile overlay log) hgrows, replayLog_ends_iff,
      ReplayEnds]
    refine and_congr_right fun hno => ?_
    have hends := (replayLog_ends_iff profile overlay log).mpr hno
    simp only [ih]
    by_cases ha : Scanned log ∧ Aborts profile log
    · exact ⟨fun _ => Or.inl ha,
        fun _ o ho => absurd ha ((replayLog_evals_ok_iff hends).mp ⟨o, ho⟩)⟩
    · obtain ⟨o, ho⟩ := (replayLog_evals_ok_iff hends).mpr ha
      exact ⟨fun h => Or.inr (h o ho), fun h _ _ => h.resolve_left ha⟩

/-- **When the replay ends**: the scan of a single log exactly when it reaches no entry of size
    zero, the replay exactly when no log it comes to is scanned up to such an entry.  The positions
    of a scan only grow, so a scan ends unless it stands still, and it stands still at an entry of
    size zero alone. -/
theorem replayTransactionLogs_ends_iff (profile : Profile) :
    (∀ log overlay, (Exec.Ends fun n => parseNewFormatLog profile n log overlay) ↔
      ¬ Stalls profile log) ∧
    ∀ hiveData logDatas,
      (Exec.Ends fun n => replayTransactionLogs profile n hiveData logDatas) ↔
        ReplayEnds profile logDatas :=
  ⟨parseNewFormatLog_ends_iff profile,
    fun hiveData logDatas => foldlM_replayLog_ends_iff profile logDatas (.new hiveData)⟩

/-- Wrapping sums never abort. -/
theorem not_aborts_release (log : Bytes) : ¬ Aborts .release log := by
  rintro ⟨p, _, _, hnot⟩
  exact hnot fun i _ _ hd => by cases hd

/-- In a release build the replay ends exactly when no scanned log stalls. -/
theorem replayEnds_release_iff (logs : List Bytes) :
    ReplayEnds .release logs ↔ ∀ log ∈ logs, ¬ (Scanned log ∧ Stalls .release log) := by
  induction logs with
  | nil => exact ⟨fun _ log h => absurd h List.not_mem_nil, fun _ => trivial⟩
  | cons log rest ih =>
    rw [ReplayEnds, ih, List.forall_mem_cons]
    refine and_congr_right fun _ => ⟨fun h => ?_, Or.inr⟩
    exact h.resolve_left fun ha => not_aborts_release log ha.2

/-- A log of 552 bytes: the magic, file type 1, and an empty entry of size zero after the
    header. -/
def zeroSizeLog : Bytes :=
  BaseBlock.magic ++ List.replicate 24 0 ++ u32Bytes 1 ++ List.replicate 480 0 ++
    (hvleMagic ++ List.replicate 36 0)

/-- The log is in the new format, so the scan does get to its entry. -/
theorem zeroSizeLog_scanned : Scanned zeroSizeLog :=
  ⟨by decide +kernel, by decide, by decide +kernel⟩

/-- An entry of size 0 leads back to itself. -/
theorem zeroSizeLog_stalls (profile : Profile) : Stalls profile zeroSizeLog := by
  have hcount : entryPageCount zeroSizeLog 512 = 0 := by decide +kernel
  refine ⟨512, ReflTransGen.refl, ⟨by decide +kernel, by decide +kernel⟩, ?_, by decide +kernel⟩
  intro i hi
  rw [hcount] at hi
  exact absurd hi (Nat.not_lt_zero i)

/-- Replaying that log onto any hive, here the empty one, never ends, in either build. -/
theorem replayTransactionLogs_diverges_zero_size :
    Exec.Diverges (fun n => replayTransactionLogs .debug n [] [zeroSizeLog]) ∧
    Exec.Diverges (fun n => replayTransactionLogs .release n [] [zeroSizeLog]) ∧
    Exec.Diverges (fun n => parseNewFormatLog .release n zeroSizeLog (.new [])) := by
  have h : ∀ profile,
      Exec.Diverges fun n => replayTransactionLogs profile n [] [zeroSizeLog] := by
    intro profile n
    have hlog : parseNewFormatLog profile n zeroSizeLog (.new []) = .timeout :=
      parseNewFormatLog_diverges (zeroSizeLog_stalls profile) _ n
    show [zeroSizeLog].foldlM (replayLog profile n) (.new []) = .timeout
    rw [List.foldlM_cons, replayLog_scanned zeroSizeLog_scanned, hlog, Exec.timeout_bind]
  exact ⟨h .debug, h .release, parseNewFormatLog_diverges (zeroSizeLog_stalls .release) _⟩

end Winreg
