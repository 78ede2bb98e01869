/-
  THE SENTINEL: what is left of a shim cache blob without a marker.

  A blob whose form is not known gives one entry without a path, so that its presence is recorded.
  Three branches of the dispatch stand before that one and decide without a marker: the two lengths
  of the header of Windows 10 and the first byte `0x80`.  A blob without a marker that enters one of
  them has no entries there, and nothing is recorded.

  1. **Branches** — what each of them makes of a blob without a marker (`parseBlob_unmarked`).
  2. **Hives** — a hive that holds a blob is parsed as the blob is (`HoldsBlob.parse`).
  3. **The sentinel** — it is what such a hive gives exactly when none of the three branches is
     entered (`parse_sentinel_iff`); a built hive shows the other case.
-/
import Winreg.Artifacts.ShimcacheBlob
import Winreg.Diff.Soundness
import Winreg.TestUtil.RoundTrip

namespace Winreg

open Rust

namespace Shimcache

open PathExpansion

/-- Neither marker is anywhere in the blob. -/
def Unmarked (blob : Bytes) : Prop := ∀ off,
  bytesAt blob off 4 ≠ entryMarkerWin81Win10 ∧ bytesAt blob off 4 ≠ entryMarkerWin80

/-- The entry that stands for a blob of no known form. -/
def sentinel (blob : Bytes) : ShimcacheEntry := ⟨[], none, blob.length, 0⟩

/-- The blob enters a branch that decides without a marker. -/
def ClaimedByHeader (blob : Bytes) : Prop :=
  u32At blob 0 = 0x30 ∨ u32At blob 0 = 0x34 ∨ blob.head? = some 0x80

/-! ## Branches -/

section Branches

variable {Timestamp : Type} (jiff : Jiff Timestamp) {blob : Bytes}

/-- A stream of entries ends where the marker is missing. -/
theorem parseWin10Entries_of_ne {marker : Bytes} {offset : Nat}
    (h : bytesAt blob offset 4 ≠ marker) (layout : EntryBodyLayout) (entryIndex : Nat) :
    parseWin10Entries jiff blob marker layout offset entryIndex = [] := by
  rw [parseWin10Entries]
  by_cases hroom : offset + entryFramingLen ≤ blob.length
  · rw [dif_pos hroom, if_pos h]
  · rw [dif_neg hroom]

/-- A word is the marker where its bytes are. -/
theorem u32At_eq_marker {offset : Nat} (hlen : offset + 4 ≤ blob.length)
    (h : u32At blob offset = entryMarkerWin81Win10U32) :
    bytesAt blob offset 4 = entryMarkerWin81Win10 := by
  rw [← u32Bytes_u32At hlen, h]
  rfl

/-- The entries behind a header without a marker end where the marker is missing. -/
theorem parseWin10_unmarked (h : Unmarked blob) : parseWin10 jiff blob = [] := by
  unfold parseWin10
  split
  · rfl
  · cases (u32At blob 4).toNat with
    | zero => rfl
    | succ left =>
      rw [legacyEntries]
      split
      · exact if_pos fun hmarker => (h 128).1 (u32At_eq_marker (by omega) hmarker)
      · rfl

/-- A blob without the mark has no entries to find. -/
theorem findMarker_unmarked (h : Unmarked blob) : findMarker blob = none := by
  induction blob with
  | nil => rfl
  | cons b rest ih =>
    have hrest : Unmarked rest := fun off => h (off + 1)
    have hfirst : (b :: rest).take 4 ≠ entryMarkerWin81Win10 := (h 0).1
    rw [findMarker, if_neg hfirst, ih hrest]
    rfl

/-- **A blob without a marker** has no entries in a branch that it enters by its header, and is
    recorded otherwise. -/
theorem parseBlob_unmarked (hlen : 4 ≤ blob.length) (h : Unmarked blob) :
    (ClaimedByHeader blob → parseBlob jiff blob = []) ∧
    (¬ ClaimedByHeader blob → parseBlob jiff blob = [sentinel blob]) := by
  have hsig : u32At blob 0 ≠ entryMarkerWin81Win10U32 := fun hmarker =>
    (h 0).1 (u32At_eq_marker hlen hmarker)
  have hstream : ¬ (blob.length ≥ win8xEntryStreamOffset + 4 ∧
      (bytesAt blob win8xEntryStreamOffset 4 = entryMarkerWin80 ∨
        bytesAt blob win8xEntryStreamOffset 4 = entryMarkerWin81Win10)) := fun hstream =>
    hstream.2.elim (h _).2 (h _).1
  have hdispatch : parseBlob jiff blob =
      if u32At blob 0 = 0x30 ∨ u32At blob 0 = 0x34 then []
      else if blob.head? = some 0x80 then [] else [sentinel blob] := by
    unfold parseBlob
    rw [if_neg (Nat.not_lt.mpr hlen)]
    dsimp only
    rw [if_neg hsig, if_neg hstream, parseWin10Entries_of_ne jiff (h _).1,
      parseWin10_unmarked jiff h, findMarker_unmarked h]
    rfl
  rw [hdispatch]
  constructor
  · rintro (h30 | h34 | h80)
    · rw [if_pos (Or.inl h30)]
    · rw [if_pos (Or.inr h34)]
    · rw [if_pos h80, ite_self]
  · intro hnone
    rw [if_neg fun hlength => hnone (hlength.imp_right Or.inl),
      if_neg fun hfirst => hnone (Or.inr (Or.inr hfirst))]

end Branches

/-! ## Hives -/

/-- The hive holds a blob: the key that is opened for the cache has it as its value. -/
def HoldsBlob (hive : Hive) (blob : Bytes) : Prop :=
  ∃ (current : UInt32) (key : Key) (v : Value),
    Exec.Evals (selectCurrent hive) (.ok current) ∧
    Exec.Evals (fun n => hive.openFirst n (candidates current)) (.ok (some key)) ∧
    key.value hive.reader "AppCompatCache".toList = .ok (some v) ∧
    v.rawData hive.reader = .ok blob

/-- Such a hive is parsed as the blob is. -/
theorem HoldsBlob.parse {Timestamp : Type} (jiff : Jiff Timestamp) {hive : Hive} {blob : Bytes}
    (h : HoldsBlob hive blob) : Exec.Evals (parse jiff hive) (.ok (parseBlob jiff blob)) := by
  obtain ⟨current, key, v, hselect, hopen, hvalue, hblob⟩ := h
  refine Exec.Evals.bind hselect (Exec.Evals.bind hopen ⟨0, fun n _ => ?_⟩)
  show parseKey jiff hive.reader key = _
  unfold parseKey
  rw [hvalue, Exec.attempt_ok, Exec.ok_bind]
  dsimp only
  rw [hblob, Exec.attempt_ok, Exec.ok_bind]

/-- **A blob without a marker is recorded** exactly when it enters none of the three branches that
    decide without one.  The recorded entry is the fallback behind the search for the mark, and a
    blob that an earlier branch has taken does not get there. -/
theorem parse_sentinel_iff {Timestamp : Type} (jiff : Jiff Timestamp) {hive : Hive} {blob : Bytes}
    (h : HoldsBlob hive blob) (hlen : 4 ≤ blob.length) (hmarker : Unmarked blob) :
    Exec.Evals (parse jiff hive) (.ok [⟨[], none, blob.length, 0⟩]) ↔
      u32At blob 0 ≠ 0x30 ∧ u32At blob 0 ≠ 0x34 ∧ blob.head? ≠ some 0x80 := by
  have hparse := h.parse jiff
  obtain ⟨hclaimed, hfree⟩ := parseBlob_unmarked jiff hlen hmarker
  have hnot : (u32At blob 0 ≠ 0x30 ∧ u32At blob 0 ≠ 0x34 ∧ blob.head? ≠ some 0x80) ↔
      ¬ ClaimedByHeader blob := by
    unfold ClaimedByHeader
    rw [not_or, not_or]
  rw [hnot]
  constructor
  · intro hsentinel hheader
    have hsame := Exec.ok.inj (hparse.unique hsentinel)
    rw [hclaimed hheader] at hsame
    cases hsame
  · intro hheader
    rw [hfree hheader] at hparse
    exact hparse

/-! ## A built hive -/

/-- The names on the way to the cache of a live hive. -/
def livePath : List Str :=
  ["CurrentControlSet".toList, "Control".toList, "Session Manager".toList, "AppCompatCache".toList]

/-- A hive that reads as a tree with a live cache holds the blob of that cache. -/
theorem holdsBlob_of_readsTree {hive : Hive} {t : KeyTree} (h : hive.ReadsTree t)
    (hselect : (t.atPath ["Select".toList]).isNone) {values : List RegValue}
    (hcache : (t.atPath livePath).map KeyTree.values = some values) {v : RegValue}
    (hv : (values.find? fun v =>
      toAsciiUppercase v.name = toAsciiUppercase "AppCompatCache".toList) = some v) :
    HoldsBlob hive v.data := by
  obtain ⟨cache, hat, rfl⟩ := Option.map_eq_some_iff.mp hcache
  obtain ⟨selected, hopenSelect, hrelSelect⟩ :=
    @Diff.openKey_reads hive t h ["Select".toList] (by decide) (by decide)
  obtain ⟨found, hopen, hrel⟩ := @Diff.openKey_reads hive t h livePath (by decide) (by decide)
  rw [Option.isNone_iff_eq_none.mp hselect] at hrelSelect
  rw [hat] at hrel
  cases hrelSelect
  cases hrel with
  | @some key _ hreads =>
    cases hreads with
    | @node key vals values kids children hvals hvalues =>
      have hfind := find?_rel (p := fun x : Value => decide (toAsciiUppercase x.name =
        toAsciiUppercase "AppCompatCache".toList)) (fun x y hxy => by rw [hxy.name]) hvalues
      rw [show values.find? _ = some v from hv] at hfind
      generalize hfound : vals.find? _ = value at hfind
      cases hfind with
      | @some x _ hx =>
        refine ⟨1, key, x, ?_, ?_, ?_, hx.data⟩
        · exact Exec.Evals.bind hopenSelect.attempt (Exec.Evals.const _)
        · exact Exec.Evals.bind hopen.attempt (Exec.Evals.const _)
        · unfold Key.value
          rw [hvals, Exec.ok_bind]
          exact congrArg Exec.ok hfound

/-- A hive with one key, the live cache, and a blob as its value. -/
def blobBuilder (blob : Bytes) : TestUtil.TestHiveBuilder :=
  (TestUtil.TestHiveBuilder.new.addKey
    "CurrentControlSet\\Control\\Session Manager\\AppCompatCache".toList).addValue
      "CurrentControlSet\\Control\\Session Manager\\AppCompatCache".toList
      "AppCompatCache".toList 3 blob

/-- The Windows 10 header length with nothing behind it, and four bytes of no known form. -/
def fourByteBlobs : List Bytes := [[0x34, 0, 0, 0], [1, 0, 0, 0]]

/-- The samples can be written. -/
theorem blobBuilder_valid {blob : Bytes} (h : blob ∈ fourByteBlobs) : (blobBuilder blob).Valid where
  components := by
    revert blob
    decide
  valueNames := by
    revert blob
    decide
  children p := by
    have hlen : ((blobBuilder blob).childNames p).length ≤ (blobBuilder blob).closure.length :=
      List.length_filterMap_le _ _
    have hfew : ∀ blob ∈ fourByteBlobs, (blobBuilder blob).closure.length ≤ 65535 := by
      decide
    exact hlen.trans (hfew blob h)
  data := by
    revert blob
    decide

/-- Some file opens as a hive that holds the blob. -/
theorem exists_holdsBlob {blob : Bytes} (h : blob ∈ fourByteBlobs) :
    ∃ image hive, Hive.fromBytes image = .ok hive ∧ HoldsBlob hive blob := by
  have hbuilt : ∀ blob ∈ fourByteBlobs, (blobBuilder blob).depth < 5 ∧
      (blobBuilder blob).planOf.totalFileSize < 2 ^ 31 ∧
      ((blobBuilder blob).tree.atPath ["Select".toList]).isNone ∧
      ((blobBuilder blob).tree.atPath livePath).map KeyTree.values =
        some [⟨"AppCompatCache".toList, .binary, blob⟩] := by decide
  obtain ⟨hdepth, hsize, hselect, hcache⟩ := hbuilt blob h
  have hvalid := blobBuilder_valid h
  obtain ⟨plan, hplan, hreads⟩ := TestUtil.build_reads hvalid hdepth
  obtain rfl : plan = (blobBuilder blob).planOf :=
    Exec.ok.inj (hplan.symm.trans (TestUtil.plan_eq hvalid hdepth))
  obtain ⟨image, hive, _, _, hopen, htree⟩ := hreads hsize
  exact ⟨image, hive, hopen, holdsBlob_of_readsTree htree hselect hcache
    (List.find?_cons_of_pos (decide_eq_true rfl))⟩

/-- Four bytes are too few for a marker behind them. -/
theorem unmarked_of_four {blob : Bytes} (h : blob ∈ fourByteBlobs) : Unmarked blob := by
  have hfirst : ∀ blob ∈ fourByteBlobs, blob.length = 4 ∧
      bytesAt blob 0 4 ≠ entryMarkerWin81Win10 ∧ bytesAt blob 0 4 ≠ entryMarkerWin80 := by decide
  obtain ⟨hlen, hmarkers⟩ := hfirst blob h
  intro off
  cases off with
  | zero => exact hmarkers
  | succ off =>
    have hshort : (bytesAt blob (off + 1) 4).length < 4 := by
      rw [length_bytesAt]
      omega
    exact ⟨fun heq => absurd (congrArg List.length heq) (Nat.ne_of_lt hshort),
      fun heq => absurd (congrArg List.length heq) (Nat.ne_of_lt hshort)⟩

/-- Four bytes of no known form are recorded. -/
theorem parse_sentinel_iff_unknown : ∃ hive, HoldsBlob hive [1, 0, 0, 0] ∧
    (Exec.Evals (parse epochJiff hive) (.ok [⟨[], none, 4, 0⟩]) ↔
      u32At [1, 0, 0, 0] 0 ≠ 0x30 ∧ u32At [1, 0, 0, 0] 0 ≠ 0x34 ∧
        ([1, 0, 0, 0] : Bytes).head? ≠ some 0x80) := by
  obtain ⟨_, hive, _, hholds⟩ := @exists_holdsBlob [1, 0, 0, 0] (by decide)
  exact ⟨hive, hholds,
    parse_sentinel_iff epochJiff hholds (by decide) (unmarked_of_four (by decide))⟩

/-- **A blob is dropped**: the length of a Windows 10 header and no marker, and nothing is
    recorded. -/
theorem parse_drops_header : ∃ image hive, Hive.fromBytes image = .ok hive ∧
    HoldsBlob hive [0x34, 0, 0, 0] ∧ Unmarked [0x34, 0, 0, 0] ∧
    ¬ Exec.Evals (parse epochJiff hive) (.ok [⟨[], none, 4, 0⟩]) ∧
    Exec.Evals (parse epochJiff hive) (.ok []) := by
  obtain ⟨image, hive, hopen, hholds⟩ := @exists_holdsBlob [0x34, 0, 0, 0] (by decide)
  have hmarker : Unmarked [0x34, 0, 0, 0] := unmarked_of_four (by decide)
  have hparse := hholds.parse epochJiff
  rw [(parseBlob_unmarked epochJiff (by decide) hmarker).1 (Or.inr (Or.inl (by decide)))] at hparse
  refine ⟨image, hive, hopen, hholds, hmarker, ?_, hparse⟩
  intro hsentinel
  cases Exec.ok.inj (hparse.unique hsentinel)

end Shimcache

end Winreg
