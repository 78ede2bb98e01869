/-
  SHELLBAGS: one entry for each key below the `BagMRU` keys of a hive.

  `parse` probes three paths; below each one that exists it walks the key tree recursively.  Errors
  of a key are swallowed: a key whose values cannot be read has an empty path and no order, a key
  whose subkeys cannot be listed has none.

  The time formatter and the decoder of shell items are other packages; they are the two fields of
  `ShellEnv`, and no result depends on what they compute.
-/
import Winreg.Core.Detect
import Winreg.Core.Iter

namespace Winreg

open Rust Relation

/-- The functions of other packages that the walk calls. -/
structure ShellEnv where
  /-- Unix nanoseconds as `%Y-%m-%dT%H:%M:%SZ`; `none` outside the range of a timestamp. -/
  formatNanoseconds : Int → Option Str
  /-- The folder path that an item id list spells; empty when it does not decode. -/
  idlistPath : Bytes → Str

/-- A single `BagMRU` entry. -/
structure ShellbagEntry where
  path : Str
  keyPath : Str
  lastWritten : Option Str
  mruOrder : List Str
deriving DecidableEq, Repr

namespace ShellBags

/-- Where shell bags are kept, for the two kinds of hives. -/
def bagmruPaths : List Str :=
  ["Software\\Microsoft\\Windows\\Shell\\BagMRU".toList,
   "Software\\Microsoft\\Windows\\ShellNoRoam\\BagMRU".toList,
   "Local Settings\\Software\\Microsoft\\Windows\\Shell\\BagMRU".toList]

/-- The slots of an `MRUListEx` value, up to the terminator. -/
def mruSlots : Bytes → List Str
  | b0 :: b1 :: b2 :: b3 :: rest =>
    let slot := u32At [b0, b1, b2, b3] 0
    if slot = 0xFFFFFFFF then [] else decimal slot.toNat :: mruSlots rest
  | _ => []

/-- The order of use of the slots. -/
def decodeMrulistex (r : CellReader) (key : Key) : Exec HiveError (List Str) := do
  match ← (key.value r "MRUListEx".toList).attempt with
  | .ok (some val) =>
    match ← (val.rawData r).attempt with
    | .ok raw => .ok (mruSlots raw)
    | .error _ => .ok []
  | _ => .ok []

/-- The text for one slot: its folder path, or a size preview when it has none. -/
def decodeSlot (env : ShellEnv) (r : CellReader) (slot : Str) (val : Value) :
    Exec HiveError Str := do
  let preview := "BagMRU[slot=".toList ++ slot ++ ", size=".toList ++
    decimal val.dataSize.toNat ++ " bytes]".toList
  match ← (val.rawData r).attempt with
  | .ok raw =>
    let path := env.idlistPath raw
    if path ≠ [] then .ok path else .ok preview
  | .error _ => .ok preview

/-- Numeric value names (the empty name included) are slots. -/
def isSlotName (name : Str) : Bool := name.all Char.isDigit

/-- The path of a key: the segments of its slots, joined. -/
def buildSlotPath (env : ShellEnv) (r : CellReader) (key : Key) : Exec HiveError Str := do
  match ← (key.values r).attempt with
  | .error _ => .ok []
  | .ok values => do
    let parts ← values.foldlM (fun parts val =>
      if isSlotName val.name then do
        let part ← decodeSlot env r val.name val
        .ok (parts ++ [part])
      else .ok parts) []
    .ok (List.intercalate "; ".toList parts)

/-- The entry of one key. -/
def keyEntry (env : ShellEnv) (r : CellReader) (key : Key) (keyPath : Str) :
    Exec HiveError ShellbagEntry := do
  let lastWritten := (filetimeToNanoseconds key.lastWrittenRaw).bind env.formatNanoseconds
  let mruOrder ← decodeMrulistex r key
  let path ← buildSlotPath env r key
  .ok ⟨path, keyPath, lastWritten, mruOrder⟩

/-- The entries of a key and of everything below it. -/
def walkKey (env : ShellEnv) (r : CellReader) :
    Nat → Key → Str → List ShellbagEntry → Exec HiveError (List ShellbagEntry)
  | 0, _, _, _ => .timeout
  | n + 1, key, keyPath, entries => do
    let entry ← keyEntry env r key keyPath
    match ← (key.subkeys r n).attempt with
    | .ok subkeys =>
      subkeys.foldlM (fun entries subkey =>
        walkKey env r n subkey (keyPath ++ '\\' :: subkey.name) entries) (entries ++ [entry])
    | .error _ => .ok (entries ++ [entry])

/-- One probed path. -/
def probe (env : ShellEnv) (hive : Hive) (n : Nat) (entries : List ShellbagEntry) (path : Str) :
    Exec HiveError (List ShellbagEntry) := do
  match ← (hive.openKey n path).attempt with
  | .ok (some root) => walkKey env hive.reader n root path entries
  | _ => .ok entries

/-- All `ShellBag` entries of a hive. -/
def parse (env : ShellEnv) (hive : Hive) (n : Nat) : Exec HiveError (List ShellbagEntry) :=
  bagmruPaths.foldlM (probe env hive n) []

/-! ## The walk ends over accessible keys -/

section Faults

variable (env : ShellEnv) {r : CellReader} {fault : Exec.Fault}
  (hr : ∀ off, (r.readCellRaw off).Avoids fault)
include hr

/-- Reading the order of use adds no fault to reading cells. -/
theorem decodeMrulistex_avoids (key : Key) : (decodeMrulistex r key).Avoids fault := by
  have hvalue : (key.value r "MRUListEx".toList).Avoids fault :=
    .bind (Key.values_avoids hr key) fun _ _ => .ok _
  refine .bind hvalue.attempt fun x _ => ?_
  split
  · refine .bind (Value.rawData_avoids hr _).attempt fun raw _ => ?_
    split <;> exact .ok _
  · exact .ok _

/-- Nor does decoding a slot. -/
theorem decodeSlot_avoids (slot : Str) (val : Value) :
    (decodeSlot env r slot val).Avoids fault := by
  refine .bind (Value.rawData_avoids hr val).attempt fun x _ => ?_
  split
  · dsimp only
    split <;> exact .ok _
  · exact .ok _

/-- Nor does joining them. -/
theorem buildSlotPath_avoids (key : Key) : (buildSlotPath env r key).Avoids fault := by
  refine .bind (Key.values_avoids hr key).attempt fun x _ => ?_
  split
  · exact .ok _
  · refine .bind (Exec.foldlM_avoids (fun parts val => ?_) _ _) fun parts _ => .ok _
    split
    · exact .bind (decodeSlot_avoids env hr _ _) fun part _ => .ok _
    · exact .ok _

/-- The entry of a key avoids a fault that cell reads avoid. -/
theorem keyEntry_avoids (key : Key) (keyPath : Str) :
    (keyEntry env r key keyPath).Avoids fault :=
  .bind (decodeMrulistex_avoids hr key) fun _ _ =>
    .bind (buildSlotPath_avoids env hr key) fun _ _ => .ok _

end Faults

/-- More fuel never changes a result of the walk, by induction on the fuel. -/
theorem walkKey_refines (env : ShellEnv) (r : CellReader) (n : Nat) :
    ∀ key keyPath entries, Exec.Refines (walkKey env r n key keyPath entries)
      (walkKey env r (n + 1) key keyPath entries) := by
  induction n with
  | zero => exact fun _ _ _ => Or.inl rfl
  | succ n ih =>
    intro key keyPath entries
    refine Exec.Refines.bind (Exec.Refines.refl _) fun entry => ?_
    refine Exec.Refines.bind (Exec.Refines.attempt (subkeys_grows key n)) fun x => ?_
    cases x with
    | error e => exact Exec.Refines.refl _
    | ok subkeys => exact Exec.Refines.foldlM (fun entries subkey => ih subkey _ entries) _ _

/-- Nor of the walk over a list of subkeys. -/
theorem foldlM_walkKey_grows (env : ShellEnv) (r : CellReader) (keyPath : Str)
    (subkeys : List Key) (entries : List ShellbagEntry) :
    Exec.Grows fun n => subkeys.foldlM (fun entries subkey =>
      walkKey env r n subkey (keyPath ++ '\\' :: subkey.name) entries) entries :=
  fun n => Exec.Refines.foldlM (fun entries subkey => walkKey_refines env r n subkey _ entries) _ _

/-- **The walk below an accessible key ends.** -/
theorem walkKey_ends (env : ShellEnv) {r : CellReader}
    (hr : ∀ off, (r.readCellRaw off).Avoids .timeout) {key : Key}
    (hacc : Acc (flip (Kids r)) key) :
    ListingsReturn r key → ∀ keyPath entries,
      Exec.Ends fun n => walkKey env r n key keyPath entries := by
  induction hacc with
  | intro key _ ih =>
    intro hlist keyPath entries
    obtain ⟨x, hx, hev⟩ := hlist key ReflTransGen.refl
    refine Exec.Ends.of_succ ?_
    simp only [walkKey]
    refine Exec.Ends.bind (Exec.grows_const _) (fun entry => ?_)
      (Exec.ends_const_iff.mpr (keyEntry_avoids env hr key keyPath)) fun _ entry _ => ?_
    · refine fun n => Exec.Refines.bind (Exec.Refines.attempt (subkeys_grows key n)) fun x => ?_
      cases x with
      | error e => exact Exec.Refines.refl _
      | ok subkeys => exact foldlM_walkKey_grows env r keyPath subkeys _ n
    · refine Exec.Ends.bind (fun n => Exec.Refines.attempt (subkeys_grows key n)) (fun x => ?_)
        (hev.ends hx.ne_timeout).attempt fun n x hsub => ?_
      · cases x with
        | error e => exact Exec.grows_const _
        | ok subkeys => exact foldlM_walkKey_grows env r keyPath subkeys _
      · cases x with
        | error e => exact ⟨0, by simp⟩
        | ok subkeys =>
          have hkid : ∀ subkey ∈ subkeys, Kids r key subkey := fun _ hmem =>
            (kids_iff_mem (Exec.attempt_eq_ok hsub)).mpr hmem
          dsimp only
          refine Exec.ends_foldlM (fun entries subkey n => ?_) subkeys (fun subkey hmem s => ?_) _
          · exact walkKey_refines env r n subkey _ entries
          · exact ih subkey (hkid subkey hmem) (hlist.of_kids (hkid subkey hmem)) _ s

/-- Nor of a walk from one of the paths. -/
theorem probe_grows (env : ShellEnv) (hive : Hive) (entries : List ShellbagEntry) (path : Str) :
    Exec.Grows fun n => probe env hive n entries path := by
  intro n
  refine Exec.Refines.bind (Exec.Refines.attempt (openKey_grows hive path n)) fun x => ?_
  split
  · exact walkKey_refines env hive.reader n _ _ _
  · exact Exec.Refines.refl _

/-- **Extracting shell bags ends** when no key in reach of the root lists itself or an ancestor. -/
theorem parse_ends (env : ShellEnv) {hive : Hive} (hlist : hive.SubkeysReturn)
    (hcycle : hive.NoKeyCycle) : Exec.Ends fun n => parse env hive n := by
  refine Exec.ends_foldlM (probe_grows env hive) bagmruPaths (fun path _ entries => ?_) []
  simp only [probe]
  refine Exec.Ends.bind (fun n => Exec.Refines.attempt (openKey_grows hive path n)) (fun x => ?_)
    (openKey_ends hlist path).attempt fun n x hopen => ?_
  · split
    · exact fun n => walkKey_refines env hive.reader n _ _ _
    · exact Exec.grows_const _
  · split
    · rename_i key
      obtain ⟨root, hroot, hreach⟩ := openKey_eq_some (Exec.attempt_eq_ok hopen)
      have hacc := acc_of_reachable (noCycleFrom_iff_acc.mp (hcycle root hroot)) hreach
      exact walkKey_ends env (r := hive.reader) hive.readCellRaw_ne_timeout hacc
        ((hlist root hroot).of_reachable hreach) path entries
    · exact ⟨0, by simp⟩

end ShellBags

end Winreg
