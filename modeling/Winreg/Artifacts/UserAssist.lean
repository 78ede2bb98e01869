/-
  USERASSIST: the programs that a user has started, with counts and times.

  Below each of two GUIDs the key `Count` holds one value for each program.  The name of the value
  is the program in ROT13, and its data are at least 68 bytes with the counts and a FILETIME at
  fixed places.

  1. **ROT13** — undoes itself, so each program has one name (`rot13Decode_involutive`).
  2. **The hive** — the extraction as the source has it.
  3. **Launches** — what may be stored for a program; every value of at least 68 readable bytes
     stores one (`recorded_iff`), and the extraction gives back exactly what is stored, in order,
     GUID by GUID (`parse_launches`).
-/
import Winreg.TestUtil.Shown

namespace Winreg

open Rust Exec TestUtil

namespace UserAssist

/-! ## ROT13 -/

/-- Rotate a letter by 13; other characters stay as they are. -/
def rot13Char (c : Char) : Char :=
  if 'A' ≤ c ∧ c ≤ 'Z' then Char.ofNat (65 + (c.toNat - 65 + 13) % 26)
  else if 'a' ≤ c ∧ c ≤ 'z' then Char.ofNat (97 + (c.toNat - 97 + 13) % 26)
  else c

/-- ROT13-decode a string. -/
def rot13Decode (s : Str) : Str := s.map rot13Char

example : rot13Decode "P:\\Jvaqbjf\\abgrcnq.rkr".toList = "C:\\Windows\\notepad.exe".toList := by
  decide

theorem toNat_ofNat_of_lt {n : Nat} (h : n < 0xD800) : (Char.ofNat n).toNat = n := by
  have hvalid : n.isValidChar := Or.inl h
  rw [Char.ofNat, dif_pos hvalid]
  show (UInt32.ofNatLT n _).toNat = n
  exact UInt32.toNat_ofNatLT

/-- The rotation by its numbers: thirteen on, around the end of the alphabet, in either case. -/
theorem toNat_rot13Char (c : Char) : (rot13Char c).toNat =
    if 65 ≤ c.toNat ∧ c.toNat ≤ 90 then 65 + (c.toNat - 65 + 13) % 26
    else if 97 ≤ c.toNat ∧ c.toNat ≤ 122 then 97 + (c.toNat - 97 + 13) % 26
    else c.toNat := by
  have hupper : ('A' ≤ c ∧ c ≤ 'Z') ↔ 65 ≤ c.toNat ∧ c.toNat ≤ 90 := Iff.rfl
  have hlower : ('a' ≤ c ∧ c ≤ 'z') ↔ 97 ≤ c.toNat ∧ c.toNat ≤ 122 := Iff.rfl
  rw [rot13Char]
  simp only [hupper, hlower]
  split
  · rw [toNat_ofNat_of_lt (by omega)]
  · split
    · rw [toNat_ofNat_of_lt (by omega)]
    · rfl

/-- Twice thirteen is the whole alphabet. -/
theorem rot13Char_rot13Char (c : Char) : rot13Char (rot13Char c) = c := by
  apply Char.toNat_inj.mp
  rw [toNat_rot13Char, toNat_rot13Char]
  by_cases hupper : 65 ≤ c.toNat ∧ c.toNat ≤ 90
  · rw [if_pos hupper, if_pos (by omega)]
    omega
  · rw [if_neg hupper]
    by_cases hlower : 97 ≤ c.toNat ∧ c.toNat ≤ 122
    · rw [if_pos hlower, if_neg (by omega), if_pos (by omega)]
      omega
    · rw [if_neg hlower, if_neg hupper, if_neg hlower]

/-- So decoding is encoding. -/
theorem rot13Decode_involutive : Function.Involutive rot13Decode := by
  intro s
  rw [rot13Decode, rot13Decode, List.map_map]
  exact (List.map_congr_left fun c _ => rot13Char_rot13Char c).trans (List.map_id s)

/-! ## The hive -/

/-- The GUID of executables. -/
def guidExe : Str := "{CEBFF5CD-ACE2-4F4F-9178-9926F41749EA}".toList

/-- The GUID of shortcuts. -/
def guidLnk : Str := "{F4E57C4B-2036-45F0-A9AB-443BCFE33D9F}".toList

/-- All GUIDs to enumerate. -/
def knownGuids : List Str := [guidExe, guidLnk]

/-- Minimum data size of a value. -/
def uaDataSize : Nat := 68

/-- The path of the key with the values of a GUID. -/
def countPath (guid : Str) : Str :=
  "Software\\Microsoft\\Windows\\CurrentVersion\\Explorer\\UserAssist\\".toList ++ guid ++
    "\\Count".toList

/-- An entry. -/
structure UserAssistEntry where
  program : Str
  runCount : UInt32
  focusCount : UInt32
  focusDurationMs : UInt32
  lastRun : Option Str
  guid : Str
deriving DecidableEq, Repr

section Parse

variable {Timestamp : Type} (jiff : Jiff Timestamp)

/-- The entry of a value with this name and these data; data that are too short have none. -/
def entry (guid name : Str) (raw : Bytes) : List UserAssistEntry :=
  -- the time is the last field, at 60 to 67
  if raw.length < uaDataSize then []
  else [{
    program := rot13Decode name
    runCount := leU32 raw 4
    focusCount := leU32 raw 8
    focusDurationMs := leU32 raw 12
    lastRun := jiff.iso (leU64 raw 60)
    guid := guid }]

/-- Extract all entries of an NTUSER.DAT hive. -/
def parse (hive : Hive) (n : Nat) : Exec HiveError (List UserAssistEntry) :=
  flatMapM (fun guid =>
    (hive.openKey n (countPath guid)).someOr [] fun countKey =>
      (countKey.values hive.reader).okOr [] fun values =>
        flatMapM (fun val =>
          (val.rawData hive.reader).okOr [] fun raw => .ok (entry jiff guid val.name raw)) values)
    knownGuids

end Parse

/-! ## Launches -/

/-- What is stored for a program.  The bytes between the documented fields are free. -/
structure Launch where
  program : Str
  runCount : UInt32
  focusCount : UInt32
  focusDurationMs : UInt32
  filetime : UInt64
  dataType : ValueType
  head : Bytes
  middle : Bytes
  tail : Bytes
  length_head : head.length = 4
  length_middle : middle.length = 44

namespace Launch

/-- The bytes of a launch: the fields at their places, and what lies between and behind them. -/
def data (l : Launch) : Bytes :=
  l.head ++ (u32Bytes l.runCount ++ (u32Bytes l.focusCount ++ (u32Bytes l.focusDurationMs ++
    (l.middle ++ (u64Bytes l.filetime ++ l.tail)))))

/-- The value that stores a launch. -/
def value (l : Launch) : ShownValue := ⟨rot13Decode l.program, l.dataType, some l.data⟩

end Launch

/-- The data of the value can be read, and are long enough. -/
def Recorded (v : ShownValue) : Prop := ∃ data, v.data = some data ∧ uaDataSize ≤ data.length

instance (v : ShownValue) : Decidable (Recorded v) :=
  match h : v.data with
  | none => isFalse fun ⟨_, hdata, _⟩ => by rw [h] at hdata; cases hdata
  | some data =>
    if hlen : uaDataSize ≤ data.length then isTrue ⟨data, h, hlen⟩
    else isFalse fun ⟨_, hdata, hlen'⟩ => by
      rw [h] at hdata
      obtain rfl := Option.some.inj hdata
      exact hlen hlen'

section Launch

variable {Timestamp : Type} (jiff : Jiff Timestamp)

/-- The entry of a launch. -/
def Launch.entry (guid : Str) (l : Launch) : UserAssistEntry where
  program := l.program
  runCount := l.runCount
  focusCount := l.focusCount
  focusDurationMs := l.focusDurationMs
  lastRun := jiff.iso l.filetime
  guid := guid

/-- The fixed part has 68 bytes. -/
theorem Launch.length_data (l : Launch) : l.data.length = 68 + l.tail.length := by
  simp only [data, List.length_append, length_u32Bytes, length_u64Bytes, l.length_head,
    l.length_middle]
  omega

/-- Data of at least 68 bytes, cut into the documented fields and what is between them. -/
theorem fields_eq {data : Bytes} (h : 68 ≤ data.length) :
    bytesAt data 0 4 ++ (u32Bytes (u32At data 4) ++ (u32Bytes (u32At data 8) ++
      (u32Bytes (u32At data 12) ++ (bytesAt data 16 44 ++
        (u64Bytes (u64At data 60) ++ data.drop 68))))) = data := by
  have hfields : bytesAt data 0 68 = bytesAt data 0 4 ++ (bytesAt data 4 4 ++ (bytesAt data 8 4 ++
      (bytesAt data 12 4 ++ (bytesAt data 16 44 ++ bytesAt data 60 8)))) := by
    rw [← bytesAt_add data 16 44 8, ← bytesAt_add data 12 4 52, ← bytesAt_add data 8 4 56,
      ← bytesAt_add data 4 4 60, ← bytesAt_add data 0 4 64]
  rw [u32Bytes_u32At (by omega), u32Bytes_u32At (by omega), u32Bytes_u32At (by omega),
    u64Bytes_u64At (by omega)]
  calc
    _ = bytesAt data 0 68 ++ data.drop 68 := by rw [hfields]; simp only [List.append_assoc]
    _ = data := List.take_append_drop 68 data

/-- **Every recorded value stores a launch.** -/
theorem recorded_iff (v : ShownValue) : Recorded v ↔ ∃ l : Launch, l.value = v := by
  constructor
  · rintro ⟨data, hdata, hlen⟩
    have hlen : 68 ≤ data.length := hlen
    refine ⟨⟨rot13Decode v.name, u32At data 4, u32At data 8, u32At data 12, u64At data 60,
      v.dataType, bytesAt data 0 4, bytesAt data 16 44, data.drop 68,
      length_bytesAt_of_le (by omega), length_bytesAt_of_le (by omega)⟩, ?_⟩
    obtain ⟨name, dataType, _⟩ := v
    subst hdata
    show ShownValue.mk (rot13Decode (rot13Decode name)) dataType _ = _
    rw [rot13Decode_involutive]
    exact congrArg (ShownValue.mk name dataType ∘ some) (fields_eq hlen)
  · rintro ⟨l, rfl⟩
    exact ⟨l.data, rfl, by rw [l.length_data]; exact Nat.le_add_right _ _⟩

/-- **A launch is read back.** -/
theorem entry_launch (guid : Str) (l : Launch) :
    entry jiff guid (rot13Decode l.program) l.data = [l.entry jiff guid] := by
  have hlen := l.length_data
  -- the data, cut in front of one field after the other
  have hrunAt : l.data = l.head ++ (u32Bytes l.runCount ++ _) := rfl
  have hfocusAt := hrunAt.trans (List.append_assoc _ _ _).symm
  have hdurationAt := hfocusAt.trans (List.append_assoc _ _ _).symm
  have hmiddleAt := hdurationAt.trans (List.append_assoc _ _ _).symm
  have htimeAt := hmiddleAt.trans (List.append_assoc _ _ _).symm
  have hrun : u32At l.data 4 = l.runCount :=
    u32At_of_bytesAt (bytesAt_part hrunAt l.length_head (length_u32Bytes _))
  have hfocus : u32At l.data 8 = l.focusCount := by
    refine u32At_of_bytesAt (bytesAt_part hfocusAt ?_ (length_u32Bytes _))
    rw [List.length_append, l.length_head, length_u32Bytes]
  have hduration : u32At l.data 12 = l.focusDurationMs := by
    refine u32At_of_bytesAt (bytesAt_part hdurationAt ?_ (length_u32Bytes _))
    simp only [List.length_append, l.length_head, length_u32Bytes]
  have htime : u64At l.data 60 = l.filetime := by
    refine u64At_of_bytesAt (bytesAt_part htimeAt ?_ (length_u64Bytes _))
    simp only [List.length_append, l.length_head, l.length_middle, length_u32Bytes]
  have hlong : ¬ l.data.length < uaDataSize := by
    rw [hlen]
    exact Nat.not_lt.mpr (Nat.le_add_right _ _)
  rw [entry, if_neg hlong, rot13Decode_involutive, leU32_eq_u32At (by omega),
    leU32_eq_u32At (by omega), leU32_eq_u32At (by omega), leU64_eq_u64At (by omega), hrun, hfocus,
    hduration, htime]
  rfl

/-- What a value contributes. -/
def entriesOf (guid : Str) (v : ShownValue) : List UserAssistEntry :=
  v.data.elim [] (entry jiff guid v.name)

/-- A value that is not recorded contributes nothing. -/
theorem entriesOf_eq_nil {guid : Str} {v : ShownValue} (h : ¬ Recorded v) :
    entriesOf jiff guid v = [] := by
  obtain ⟨name, dataType, data⟩ := v
  cases data with
  | none => rfl
  | some data => exact if_pos (Nat.lt_of_not_le fun hlen => h ⟨data, rfl, hlen⟩)

/-- Values that store launches among others contribute the launches. -/
theorem flatMap_entriesOf (guid : Str) {values : List ShownValue} {launches : List Launch}
    (h : values.filter Recorded = launches.map Launch.value) :
    values.flatMap (entriesOf jiff guid) = launches.map (Launch.entry jiff guid) := by
  have hrest : ∀ values : List ShownValue,
      values.flatMap (entriesOf jiff guid) =
        (values.filter Recorded).flatMap (entriesOf jiff guid) := by
    intro values
    induction values with
    | nil => rfl
    | cons v values ih =>
      by_cases hv : Recorded v
      · rw [List.filter_cons_of_pos (by simpa using hv), List.flatMap_cons, List.flatMap_cons, ih]
      · rw [List.filter_cons_of_neg (by simpa using hv), List.flatMap_cons,
          entriesOf_eq_nil jiff hv, List.nil_append, ih]
  have hone : ∀ l : Launch, entriesOf jiff guid l.value = [l.entry jiff guid] :=
    entry_launch jiff guid
  rw [hrest, h, List.flatMap_map]
  simp only [hone]
  exact List.map_eq_flatMap.symm

/-- What the extraction does, on what is shown. -/
theorem parse_evals {hive : Hive} {reg : Registry} {rel : Key → reg.Node → Prop}
    (shows_ : hive.Shows reg rel) :
    Evals (fun n => parse jiff hive n) (.ok (knownGuids.flatMap fun guid =>
      (reg.valuesAt (countPath guid)).flatMap (entriesOf jiff guid))) := by
  refine Evals.flatMapM (List.forall₂_same.mpr fun guid _ => rfl) fun guid _ heq => ?_
  subst heq
  refine shows_.onValuesAt (countPath guid) rfl fun vals values hvals => ?_
  refine Evals.flatMapM hvals fun val v hv => hv.data.from.okOr fun raw data hraw => ?_
  rw [show raw = data from hraw, hv.name]
  exact .const _

/-- **The extraction gives back what is stored.**  Below each GUID there are values that store
    launches, and others whose data are short or cannot be read: the entries are those of the
    launches, in order, first of the executables and then of the shortcuts.  Every value of at least
    68 readable bytes stores a launch.  Names are stored rotated, and rotating twice gives the name
    back; the fields are read from the places where they are written. -/
theorem parse_launches {hive : Hive} {reg : Registry} {rel : Key → reg.Node → Prop}
    (shows_ : hive.Shows reg rel) {launches : Str → List Launch}
    (h : ∀ guid ∈ knownGuids,
      (reg.valuesAt (countPath guid)).filter Recorded = (launches guid).map Launch.value) :
    Evals (fun n => parse jiff hive n)
        (.ok (knownGuids.flatMap fun guid => (launches guid).map (Launch.entry jiff guid))) ∧
      ∀ v, Recorded v ↔ ∃ l : Launch, l.value = v := by
  refine ⟨?_, recorded_iff⟩
  have hrun := parse_evals jiff shows_
  rwa [List.flatMap_congr fun guid hguid => flatMap_entriesOf jiff guid (h guid hguid)] at hrun

end Launch

/-- A program that was started three times. -/
def notepad : Launch where
  program := "C:\\notepad.exe".toList
  runCount := 3
  focusCount := 4
  focusDurationMs := 5
  filetime := 0
  dataType := .binary
  head := List.replicate 4 0
  middle := List.replicate 44 0
  tail := List.replicate 4 0
  length_head := List.length_replicate
  length_middle := List.length_replicate

/-- A hive that stores it, next to a value that is too short. -/
def launchBuilder : TestHiveBuilder where
  keys := []
  values := [⟨countPath guidExe, rot13Decode notepad.program, 3, notepad.data⟩,
    ⟨countPath guidExe, "HRZR".toList, 3, [1]⟩]
  keyFiletime := 0

set_option maxRecDepth 20000 in
/-- The sample can be written. -/
theorem launchBuilder_valid : launchBuilder.Valid where
  components := by decide
  valueNames := by decide
  children p := by
    have hlen : (launchBuilder.childNames p).length ≤ launchBuilder.closure.length :=
      List.length_filterMap_le _ _
    exact hlen.trans (by decide)
  data := by decide

set_option maxRecDepth 20000 in
/-- The one launch of the sample. -/
theorem parse_launches_notepad : ∃ image hive,
    (launchBuilder.build 9 : Exec HiveError Bytes) = .ok image ∧
      Hive.fromBytes image = .ok hive ∧
      Evals (fun n => parse (⟨some, fun _ => none⟩ : Jiff Int) hive n)
        (.ok [notepad.entry ⟨some, fun _ => none⟩ guidExe]) := by
  obtain ⟨image, hive, hbuild, hopen, hshows⟩ :=
    build_shows launchBuilder_valid (n := 9) (by decide) (by decide)
  refine ⟨image, hive, hbuild, hopen, ?_⟩
  exact (@parse_launches _ _ _ _ _ hshows
    (fun guid => if guid = guidExe then [notepad] else []) (by decide)).1

end UserAssist

end Winreg
