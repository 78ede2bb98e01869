/-
  LSA SECRETS: which secrets and cached credentials a SECURITY hive holds.

  The data of a secret are in the keys `CurrVal` and `OldVal` below it.  The extractor lists the
  secrets, but opens these two keys by path, from the root again, with the name of the secret
  written into the path.  A cached credential it reads from the listed key.

  1. **The hive** — the extraction as the source has it.
  2. **Paths** — a path that is written from a key and a name leads down from that key, but a name
     is taken apart at its backslashes, and an empty one is left out (`openKey_child`).
  3. **Secrets** — hence each secret has one entry, in order, with the sizes of its own data where
     its name is one component, and no other secret has the name (`parseSecrets_own`); the slots
     never need this (`parseDcc2Slots_evals`).
-/
import Winreg.TestUtil.Shown

namespace Winreg

open Rust Exec TestUtil

namespace LsaDump

/-! ## The hive -/

/-- Metadata about a secret. -/
structure LsaSecretEntry (Timestamp : Type) where
  name : Str
  hasCurrent : Bool
  hasOld : Bool
  currSize : Nat
  oldSize : Nat
  isInteresting : Bool
  lastWritten : Option Timestamp
deriving DecidableEq, Repr

/-- Occupancy of a cache slot. -/
structure Dcc2SlotEntry (Timestamp : Type) where
  slotName : Str
  isPopulated : Bool
  dataSize : Nat
  lastWritten : Option Timestamp
deriving DecidableEq, Repr

/-- The secrets with a name of their own. -/
def interestingNames : List Str :=
  ["$MACHINE.ACC".toList, "DefaultPassword".toList, "DPAPI_SYSTEM".toList, "NL$KM".toList,
   "RasDialParams".toList]

/-- Is the secret forensically interesting? -/
def isInterestingSecret (name : Str) : Bool :=
  name ∈ interestingNames ∨ "_SC_".toList <+: name

/-- Where the secrets are. -/
def secretsPath : Str := "Policy\\Secrets".toList
/-- Where the slots of cached logons are. -/
def cachePath : Str := "Cache".toList
/-- The subkey with the current value of a secret. -/
def currVal : Str := "CurrVal".toList
/-- The subkey with the one before. -/
def oldVal : Str := "OldVal".toList

/-- `format!("Policy\\Secrets\\{name}\\{which}")` -/
def dataPath (name which : Str) : Str :=
  "Policy\\Secrets\\".toList ++ name ++ '\\' :: which

/-- The length of the first of some values that can be read, zero if there is none. -/
def firstSize (r : CellReader) (values : List Value) : Exec HiveError Nat := do
  -- a value that cannot be read does not end the search
  match ← findMapM (fun val => (val.rawData r).okOr none fun d => .ok (some d.length)) values with
  | some size => .ok size
  | none => .ok 0

/-- The length of the first value of the key at a path. -/
def readBinaryValueSize (hive : Hive) (n : Nat) (keyPath : Str) : Exec HiveError Nat :=
  (hive.openKey n keyPath).someOr 0 fun key =>
    (key.values hive.reader).okOr 0 (firstSize hive.reader)

section Parse

variable {Timestamp : Type} (jiff : Jiff Timestamp)

/-- The entry of a secret. -/
def secretEntry (hive : Hive) (n : Nat) (secretKey : Key) :
    Exec HiveError (LsaSecretEntry Timestamp) := do
  let name := secretKey.name
  -- the data are opened by path from the root again, not from the key at hand
  let currSize ← readBinaryValueSize hive n (dataPath name currVal)
  let oldSize ← readBinaryValueSize hive n (dataPath name oldVal)
  .ok {
    name := name
    hasCurrent := currSize > 0
    hasOld := oldSize > 0
    currSize := currSize
    oldSize := oldSize
    isInteresting := isInterestingSecret name
    lastWritten := secretKey.lastWritten jiff }

/-- Enumerate the secrets. -/
def parseSecrets (hive : Hive) (n : Nat) : Exec HiveError (List (LsaSecretEntry Timestamp)) :=
  (hive.openKey n secretsPath).someOr [] fun secretsKey =>
    (secretsKey.subkeys hive.reader n).okOr [] fun subkeys =>
      collectM (secretEntry jiff hive n) subkeys

/-- The entry of a slot. -/
def slotEntry (r : CellReader) (slotKey : Key) : Exec HiveError (Dcc2SlotEntry Timestamp) := do
  let dataSize ← (slotKey.values r).okOr 0 (firstSize r)
  .ok ⟨slotKey.name, dataSize > 0, dataSize, slotKey.lastWritten jiff⟩

/-- Enumerate the cache slots. -/
def parseDcc2Slots (hive : Hive) (n : Nat) : Exec HiveError (List (Dcc2SlotEntry Timestamp)) :=
  (hive.openKey n cachePath).someOr [] fun cacheKey =>
    (cacheKey.subkeys hive.reader n).okOr [] fun subkeys =>
      collectM (slotEntry jiff hive.reader) subkeys

end Parse

/-! ## Paths -/

section Paths

variable {reg : Registry}

/-- The length of the first value whose data are shown. -/
def shownSize (values : List ShownValue) : Nat :=
  (values.findSome? fun v => v.data.map List.length).getD 0

/-- The length of the data below a key. -/
def sizeBelow (reg : Registry) (a : reg.Node) (which : Str) : Nat :=
  (reg.subkey a which).elim 0 fun b => shownSize (reg.valueList b)

/-- The path of the data goes through the key of the secrets and the secret's own name. -/
theorem dataPath_eq (name which : Str) :
    dataPath name which = secretsPath ++ '\\' :: (name ++ '\\' :: which) := by
  show ("Policy\\Secrets\\".toList ++ name) ++ '\\' :: which = _
  rw [show "Policy\\Secrets\\".toList = secretsPath ++ ['\\'] by decide, List.append_assoc,
    List.append_assoc]
  rfl

/-- **The data of a secret are opened below the first secret of its name**, if the name is one
    component. -/
theorem openKey_child {secrets : reg.Node} (hopen : reg.openKey secretsPath = some secrets)
    {name which : Str} (hne : name ≠ []) (hsep : '\\' ∉ name)
    (hwhich : Key.pathParts which = [which]) :
    reg.openKey (dataPath name which) =
      (reg.subkey secrets name).bind fun b => reg.subkey b which := by
  rw [dataPath_eq, reg.openKey_below (by decide) hne hsep hwhich, hopen, Option.bind_some]

end Paths

/-! ## Secrets -/

section Secrets

variable {Timestamp : Type} (jiff : Jiff Timestamp) {hive : Hive} {reg : Registry}
  {rel : Key → reg.Node → Prop} (shows_ : hive.Shows reg rel)

/-- The entry of a secret, with the data at its paths. -/
def secretOf (reg : Registry) (a : reg.Node) : LsaSecretEntry Timestamp :=
  let currSize := shownSize (reg.valuesAt (dataPath (reg.name a) currVal))
  let oldSize := shownSize (reg.valuesAt (dataPath (reg.name a) oldVal))
  { name := reg.name a
    hasCurrent := currSize > 0
    hasOld := oldSize > 0
    currSize := currSize
    oldSize := oldSize
    isInteresting := isInterestingSecret (reg.name a)
    lastWritten := reg.lastWritten jiff a }

/-- The entry of a secret with the data of this key. -/
def entryWith (reg : Registry) (a b : reg.Node) : LsaSecretEntry Timestamp where
  name := reg.name a
  hasCurrent := sizeBelow reg b currVal > 0
  hasOld := sizeBelow reg b oldVal > 0
  currSize := sizeBelow reg b currVal
  oldSize := sizeBelow reg b oldVal
  isInteresting := isInterestingSecret (reg.name a)
  lastWritten := reg.lastWritten jiff a

/-- The entry of a slot. -/
def slotOf (reg : Registry) (a : reg.Node) : Dcc2SlotEntry Timestamp where
  slotName := reg.name a
  isPopulated := shownSize (reg.valueList a) > 0
  dataSize := shownSize (reg.valueList a)
  lastWritten := reg.lastWritten jiff a

/-- Where the data of a secret are found: below the first secret of its name. -/
def holder (reg : Registry) (a : reg.Node) : reg.Node :=
  ((reg.openKey secretsPath).bind (reg.subkey · (reg.name a))).getD a

/-- A listed secret is below the key of the secrets, which is there. -/
theorem exists_secrets {a : reg.Node} (ha : a ∈ reg.subkeysAt secretsPath) :
    ∃ secrets, reg.openKey secretsPath = some secrets ∧ a ∈ reg.subkeyList secrets := by
  unfold Registry.subkeysAt at ha
  cases hopen : reg.openKey secretsPath with
  | none =>
    rw [hopen] at ha
    cases ha
  | some secrets =>
    rw [hopen] at ha
    exact ⟨secrets, rfl, ha⟩

/-- A secret whose name is one component has the data below the first secret of its name: the path
    to the data goes down through the key of the secrets and stops at the first match there. -/
theorem secretOf_eq {a : reg.Node} (ha : a ∈ reg.subkeysAt secretsPath)
    (hname : reg.name a ≠ [] ∧ '\\' ∉ reg.name a) :
    secretOf jiff reg a = entryWith jiff reg a (holder reg a) := by
  obtain ⟨secrets, hopen, hmem⟩ := exists_secrets ha
  obtain ⟨b, hb⟩ : ∃ b, reg.subkey secrets (reg.name a) = some b := Registry.exists_subkey hmem rfl
  have hholder : holder reg a = b := by
    rw [holder, hopen, Option.bind_some, hb, Option.getD_some]
  have hsize : ∀ which, Key.pathParts which = [which] →
      shownSize (reg.valuesAt (dataPath (reg.name a) which)) =
        sizeBelow reg (holder reg a) which := by
    intro which hwhich
    rw [Registry.valuesAt, openKey_child hopen hname.1 hname.2 hwhich, hb, Option.bind_some,
      sizeBelow, hholder]
    cases reg.subkey b which with
    | none => rfl
    | some c => rfl
  rw [secretOf, entryWith, hsize currVal (by decide), hsize oldVal (by decide)]

/-- The size of the first value whose data can be read. -/
theorem firstSize_evals {r : CellReader} {vals : List Value} {values : List ShownValue}
    (h : List.Forall₂ (ShowsValue r) vals values) :
    Evals (fun _ => firstSize r vals) (.ok (shownSize values)) := by
  have hfind := @Evals.findMapM HiveError _ _ _ _ _ _ h
    (fun _ val => (val.rawData r).okOr none fun d => .ok (some d.length))
    (fun v => v.data.map List.length) fun _ _ hv => hv.data.map? List.length
  refine hfind.bind (g := fun _ found => match found with
    | some size => .ok size
    | none => .ok 0) ?_
  unfold shownSize
  cases values.findSome? fun v => v.data.map List.length with
  | none => exact .const _
  | some size => exact .const _

include shows_

/-- The size at a path; a missing key has none. -/
theorem readBinaryValueSize_evals (keyPath : Str) :
    Evals (fun n => readBinaryValueSize hive n keyPath)
      (.ok (shownSize (reg.valuesAt keyPath))) :=
  shows_.onValuesAt keyPath rfl fun _ _ h => firstSize_evals h

/-- The entry of one secret.  Its data is looked up by name from the root again, so it may be found
    below another key of that name. -/
theorem secretEntry_evals {k : Key} {a : reg.Node} (hk : rel k a) :
    Evals (fun n => secretEntry jiff hive n k) (.ok (secretOf jiff reg a)) := by
  simp only [secretEntry, shows_.name hk, shows_.lastWritten jiff hk]
  exact (readBinaryValueSize_evals shows_ _).bind
    ((readBinaryValueSize_evals shows_ _).bind (.const _))

/-- The entries of all secrets, in order. -/
theorem parseSecrets_evals :
    Evals (fun n => parseSecrets jiff hive n)
      (.ok ((reg.subkeysAt secretsPath).map (secretOf jiff reg))) :=
  shows_.onSubkeysAt secretsPath (h := List.map _) rfl fun _ _ hkids =>
    Evals.collectM hkids fun _ _ hk => secretEntry_evals jiff shows_ hk.2

/-- The entries of all slots: here the size is that of the value at hand. -/
theorem parseDcc2Slots_evals :
    Evals (fun n => parseDcc2Slots jiff hive n)
      (.ok ((reg.subkeysAt cachePath).map (slotOf jiff reg))) := by
  refine shows_.onSubkeysAt cachePath (h := List.map _) rfl fun kids nodes hkids => ?_
  refine Evals.collectM hkids fun k a hka => ?_
  have hsize := shows_.onValues (d := 0) hka.2 rfl fun _ _ h => firstSize_evals h
  simp only [slotEntry, shows_.name hka.2, shows_.lastWritten jiff hka.2]
  exact hsize.bind (.const _)

/-- **Secrets and slots have their own entries.**  Where the name of every secret is one component
    of a path, each secret has one entry, in order, with the sizes of the data below the first
    secret of its name; that is the secret itself if no two names agree but for ASCII case.  Each
    slot has one entry, with the size of its own data, whatever its name.  A hive without the key of
    the secrets has none of them. -/
theorem parse_own
    (hnames : ∀ a ∈ reg.subkeysAt secretsPath, reg.name a ≠ [] ∧ '\\' ∉ reg.name a) :
    Evals (fun n => parseSecrets jiff hive n)
        (.ok ((reg.subkeysAt secretsPath).map fun a => entryWith jiff reg a (holder reg a))) ∧
      (((reg.subkeysAt secretsPath).map fun b => toAsciiUppercase (reg.name b)).Nodup →
        ∀ a ∈ reg.subkeysAt secretsPath, holder reg a = a) ∧
      Evals (fun n => parseDcc2Slots jiff hive n)
        (.ok ((reg.subkeysAt cachePath).map (slotOf jiff reg))) := by
  refine ⟨?_, fun hdistinct a ha => ?_, parseDcc2Slots_evals jiff shows_⟩
  · have hrun := parseSecrets_evals jiff shows_
    rwa [List.map_congr_left fun a ha => secretOf_eq jiff ha (hnames a ha)] at hrun
  · obtain ⟨secrets, hopen, hmem⟩ := exists_secrets ha
    rw [Registry.subkeysAt, hopen, Option.elim_some] at hdistinct
    rw [holder, hopen, Option.bind_some, Registry.subkey_eq_some hdistinct hmem rfl,
      Option.getD_some]

end Secrets

/-- A hive with the secret of the machine account, and one populated slot. -/
def machineBuilder : TestHiveBuilder where
  keys := ["Cache\\NL$2".toList]
  values := [⟨"Policy\\Secrets\\$MACHINE.ACC\\CurrVal".toList, [], 3, [1, 2, 3]⟩,
    ⟨"Cache\\NL$1".toList, [], 3, [4]⟩]
  keyFiletime := 0

set_option maxRecDepth 20000 in
/-- The sample can be written. -/
theorem machineBuilder_valid : machineBuilder.Valid where
  components := by decide
  valueNames := by decide
  children p := by
    have hlen : (machineBuilder.childNames p).length ≤ machineBuilder.closure.length :=
      List.length_filterMap_le _ _
    exact hlen.trans (by decide)
  data := by decide

set_option maxRecDepth 20000 in
/-- The account of the machine, with the sizes of its two values. -/
theorem parse_own_machine : ∃ image hive,
    (machineBuilder.build 5 : Exec HiveError Bytes) = .ok image ∧ Hive.fromBytes image = .ok hive ∧
      Evals (fun n => parseSecrets (⟨some, fun _ => none⟩ : Jiff Int) hive n)
        (.ok [⟨"$MACHINE.ACC".toList, true, false, 3, 0, true, none⟩]) ∧
      Evals (fun n => parseDcc2Slots (⟨some, fun _ => none⟩ : Jiff Int) hive n)
        (.ok [⟨"NL$2".toList, false, 0, none⟩, ⟨"NL$1".toList, true, 1, none⟩]) := by
  obtain ⟨image, hive, hbuild, hopen, hshows⟩ :=
    build_shows machineBuilder_valid (n := 5) (by decide) (by decide)
  obtain ⟨hsecrets, _, hslots⟩ := @parse_own _ ⟨some, fun _ => none⟩ _ _ _ hshows
    (by decide)
  exact ⟨image, hive, hbuild, hopen, hsecrets, hslots⟩

end LsaDump

end Winreg
