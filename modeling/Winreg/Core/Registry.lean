/-
  REGISTRIES: what a hive shows, without cells, offsets and errors.

  The extractors read a hive from its root: by path, from a key to its subkeys and values, from a
  value to its data.  Errors they pass over as if nothing were there.  All they can find out is a
  `Registry`: keys that list values and subkeys, or do not show them.

  1. **Registries** — the lookups of keys and values, on what is shown.
  2. **Hives that show a registry** — `hive.Shows reg rel`: the reads of the hive come back, and
     `rel` relates its keys to those of the registry.  Then every lookup in the hive finds what the
     lookup in the registry finds (`Shows.openKey`, `Shows.value`, `Shows.openFirst`).
  3. **Every readable hive shows one** — a registry is shown exactly where the reads return
     (`Hive.shows_iff_readsReturn`).
-/
import Winreg.Base.Dropped
import Winreg.Base.Paired
import Winreg.Core.Detect
import Winreg.Core.ReadSafety
import Winreg.Core.Iter
import Winreg.Core.PathCompose

namespace Winreg

open Rust Relation Exec

/-! ## Registries -/

/-- A value as it is shown, with its data unless they cannot be read. -/
structure ShownValue where
  name : Str
  dataType : ValueType
  data : Option Bytes
deriving DecidableEq, Repr

namespace ShownValue

/-- The data as a string. -/
def text (v : ShownValue) : Option Str := v.data.map decodeUtf16le

/-- The data as a number; shorter data are zero. -/
def number (v : ShownValue) : Option UInt32 :=
  v.data.map fun data => if data.length < 4 then 0 else u32At data 0

/-- The data as a long number; shorter data are zero. -/
def number64 (v : ShownValue) : Option UInt64 :=
  v.data.map fun data => if data.length < 8 then 0 else u64At data 0

end ShownValue

/-- What can be found out about a hive by reading it. -/
structure Registry where
  Node : Type
  root : Option Node
  name : Node → Str
  lastWrittenRaw : Node → UInt64
  values : Node → Option (List ShownValue)
  subkeys : Node → Option (List Node)

namespace Registry

variable (reg : Registry)

/-- The first subkey of a name. -/
def subkey (a : reg.Node) (name : Str) : Option reg.Node :=
  (reg.subkeys a).bind
    (·.find? fun b => toAsciiUppercase (reg.name b) = toAsciiUppercase name)

/-- The first value of a name. -/
def value (a : reg.Node) (name : Str) : Option ShownValue :=
  (reg.values a).bind (·.find? fun v => toAsciiUppercase v.name = toAsciiUppercase name)

/-- Down by one subkey for each part. -/
def descend : reg.Node → List Str → Option reg.Node
  | a, [] => some a
  | a, part :: rest => (reg.subkey a part).bind (descend · rest)

/-- The key at a path below the root. -/
def openKey (path : Str) : Option reg.Node :=
  match Key.pathParts path with
  | [] => none
  | parts => reg.root.bind (reg.descend · parts)

/-- A value as a string. -/
def text (a : reg.Node) (name : Str) : Option Str := (reg.value a name).bind ShownValue.text

/-- A value as a number. -/
def number (a : reg.Node) (name : Str) : Option UInt32 :=
  (reg.value a name).bind ShownValue.number

/-- The values of a key, none if they are not shown. -/
def valueList (a : reg.Node) : List ShownValue := (reg.values a).getD []

/-- The subkeys of a key, none if they are not shown. -/
def subkeyList (a : reg.Node) : List reg.Node := (reg.subkeys a).getD []

/-- The values of the key at a path. -/
def valuesAt (path : Str) : List ShownValue := (reg.openKey path).elim [] reg.valueList

/-- The subkeys of the key at a path. -/
def subkeysAt (path : Str) : List reg.Node := (reg.openKey path).elim [] reg.subkeyList

/-- The time of a key, where it is one. -/
def lastWritten {Timestamp : Type} (jiff : Jiff Timestamp) (a : reg.Node) : Option Timestamp :=
  filetimeToDatetime jiff (reg.lastWrittenRaw a)

end Registry

/-- `filetime_to_datetime(ft).and_then(|dt| strtime::format(.., dt).ok())` -/
def Jiff.iso {Timestamp : Type} (jiff : Jiff Timestamp) (filetime : UInt64) : Option Str :=
  (filetimeToDatetime jiff filetime).bind jiff.format

/-- A subkey found by its name is a subkey and has the name. -/
theorem Registry.mem_of_subkey {reg : Registry} {a b : reg.Node} {name : Str}
    (h : reg.subkey a name = some b) :
    b ∈ reg.subkeyList a ∧ toAsciiUppercase (reg.name b) = toAsciiUppercase name := by
  obtain ⟨kids, hkids, hfind⟩ := Option.bind_eq_some_iff.mp h
  refine ⟨?_, by simpa using List.find?_some hfind⟩
  rw [Registry.subkeyList, hkids]
  exact List.mem_of_find?_eq_some hfind

/-- A subkey is found by its name, or one in front of it that has the same name. -/
theorem Registry.exists_subkey {reg : Registry} {a b : reg.Node} {name : Str}
    (hb : b ∈ reg.subkeyList a) (hname : toAsciiUppercase (reg.name b) = toAsciiUppercase name) :
    ∃ c, reg.subkey a name = some c := by
  unfold Registry.subkeyList at hb
  unfold Registry.subkey
  cases hkids : reg.subkeys a with
  | none =>
    rw [hkids] at hb
    cases hb
  | some kids =>
    rw [hkids] at hb
    exact Option.isSome_iff_exists.mp (List.find?_isSome.mpr ⟨b, hb, decide_eq_true hname⟩)

/-- Where the names of the subkeys differ by more than ASCII case, each is found by its name. -/
theorem Registry.subkey_eq_some {reg : Registry} {a b : reg.Node} {name : Str}
    (hdistinct : ((reg.subkeyList a).map fun b => toAsciiUppercase (reg.name b)).Nodup)
    (hb : b ∈ reg.subkeyList a) (hname : toAsciiUppercase (reg.name b) = toAsciiUppercase name) :
    reg.subkey a name = some b := by
  obtain ⟨c, hc⟩ := exists_subkey hb hname
  obtain ⟨hmem, hsame⟩ := mem_of_subkey hc
  rw [hc, List.inj_on_of_nodup_map hdistinct hmem hb (hsame.trans hname.symm)]

/-- Going down a path in two steps. -/
theorem Registry.descend_append (reg : Registry) (below : List Str) : ∀ (parts : List Str)
    (a : reg.Node), reg.descend a (parts ++ below) = (reg.descend a parts).bind (reg.descend · below)
  | [], _ => rfl
  | part :: rest, a => by
    simp only [List.cons_append, Registry.descend, Option.bind_assoc]
    exact Option.bind_congr fun b _ => descend_append reg below rest b

/-- A path that is written behind another one is walked from there. -/
theorem Registry.openKey_append (reg : Registry) {p : Str} (hp : Key.pathParts p ≠ []) (q : Str) :
    reg.openKey (p ++ '\\' :: q) = (reg.openKey p).bind (reg.descend · (Key.pathParts q)) := by
  unfold Registry.openKey
  rw [Key.pathParts_append]
  cases hparts : Key.pathParts p with
  | nil => exact absurd hparts hp
  | cons part rest =>
    rw [List.cons_append]
    simp only [Option.bind_assoc]
    exact Option.bind_congr fun root _ => reg.descend_append _ (part :: rest) root

/-- A path that is written from a path, a name and another name leads down by the two names, if
    the first is one component and so is the second. -/
theorem Registry.openKey_below (reg : Registry) {p name which : Str} (hp : Key.pathParts p ≠ [])
    (hne : name ≠ []) (hsep : '\\' ∉ name) (hwhich : Key.pathParts which = [which]) :
    reg.openKey (p ++ '\\' :: (name ++ '\\' :: which)) =
      (reg.openKey p).bind fun a => (reg.subkey a name).bind fun b => reg.subkey b which := by
  rw [reg.openKey_append hp, Key.pathParts_cons hne hsep, hwhich]
  simp only [Registry.descend, Option.bind_fun_some]

/-- Names that agree but for ASCII case name the same subkey. -/
theorem Registry.subkey_congr (reg : Registry) {name name' : Str}
    (h : toAsciiUppercase name = toAsciiUppercase name') (a : reg.Node) :
    reg.subkey a name = reg.subkey a name' := by
  rw [Registry.subkey, Registry.subkey, h]

/-! ## Calls of the extractors -/

/-- `key.value(name).ok().flatten().and_then(|v| v.as_string().ok())` -/
def Key.readString (r : CellReader) (key : Key) (name : Str) : Exec HiveError (Option Str) :=
  (key.value r name).someOr none fun v => (v.asString r).okOr none fun s => .ok (some s)

/-- `key.value(name).ok().flatten().and_then(|v| v.as_u32().ok())` -/
def Key.readNumber (r : CellReader) (key : Key) (name : Str) : Exec HiveError (Option UInt32) :=
  (key.value r name).someOr none fun v => (v.asU32 r).okOr none fun u => .ok (some u)

/-! ## Hives that show a registry -/

/-- Reading the value gives what is shown of it. -/
structure ShowsValue (r : CellReader) (val : Value) (v : ShownValue) : Prop where
  name : val.name = v.name
  dataType : val.dataType = v.dataType
  data : Keeps Eq (val.rawData r) v.data

/-- The reads of the hive come back, and give what the registry shows. -/
structure Hive.Shows (hive : Hive) (reg : Registry) (rel : Key → reg.Node → Prop) : Prop where
  root : Keeps rel hive.rootKey reg.root
  name : ∀ {k a}, rel k a → k.name = reg.name a
  stamp : ∀ {k a}, rel k a → k.lastWrittenRaw = reg.lastWrittenRaw a
  values : ∀ {k a}, rel k a →
    Keeps (List.Forall₂ (ShowsValue hive.reader)) (k.values hive.reader) (reg.values a)
  subkeys : ∀ {k a}, rel k a →
    KeepsFrom (List.Forall₂ rel) (fun n => k.subkeys hive.reader n) (reg.subkeys a)

section ShowsValue

variable {r : CellReader} {val : Value} {v : ShownValue}

/-- The string reading of a value is that of what is shown of it. -/
theorem ShowsValue.asString (h : ShowsValue r val v) : Keeps Eq (val.asString r) v.text := by
  have hdata := h.data
  unfold Value.asString ShownValue.text
  generalize val.rawData r = x, v.data = o at hdata
  cases hdata with
  | value heq => exact .value (congrArg decodeUtf16le heq)
  | error e => exact .error e

/-- The same for the 32-bit reading. -/
theorem ShowsValue.asU32 (h : ShowsValue r val v) : Keeps Eq (val.asU32 r) v.number := by
  have hdata := h.data
  unfold Value.asU32 ShownValue.number
  generalize val.rawData r = x, v.data = o at hdata
  cases hdata with
  | @value a b heq => exact .value (by rw [show a = b from heq])
  | error e => exact .error e

/-- The same for the 64-bit reading. -/
theorem ShowsValue.asU64 (h : ShowsValue r val v) : Keeps Eq (val.asU64 r) v.number64 := by
  have hdata := h.data
  unfold Value.asU64 ShownValue.number64
  generalize val.rawData r = x, v.data = o at hdata
  cases hdata with
  | @value a b heq => exact .value (by rw [show a = b from heq])
  | error e => exact .error e

end ShowsValue

namespace Hive.Shows

variable {hive : Hive} {reg : Registry} {rel : Key → reg.Node → Prop}
  (shows_ : hive.Shows reg rel)

include shows_

/-- A key has the time that is shown of it. -/
theorem lastWritten {Timestamp : Type} (jiff : Jiff Timestamp) {k : Key} {a : reg.Node}
    (h : rel k a) : k.lastWritten jiff = reg.lastWritten jiff a := by
  rw [Key.lastWritten, Registry.lastWritten, shows_.stamp h]

theorem subkey {k : Key} {a : reg.Node} (h : rel k a) (name : Str) :
    FindsFrom rel (fun n => k.subkey hive.reader n name) (reg.subkey a name) :=
  (shows_.subkeys h).find fun c b hcb => by rw [shows_.name hcb]

theorem value {k : Key} {a : reg.Node} (h : rel k a) (name : Str) :
    FindsFrom (ShowsValue hive.reader) (fun _ => k.value hive.reader name)
      (reg.value a name) :=
  (shows_.values h).from.find fun val v hv => by rw [hv.name]

theorem descend : ∀ (parts : List Str) {k : Key} {a : reg.Node}, rel k a →
    FindsFrom rel (fun n => Key.descend hive.reader n k parts) (reg.descend a parts)
  | [], _, _, h => (Finds.found h).from
  | part :: rest, _, _, h => by
    simp only [Key.descend, Registry.descend]
    exact (shows_.subkey h part).andFind (fun _ => rfl) fun _ _ => descend rest

/-- **A key is found by its path** where the registry shows it. -/
theorem openKey (path : Str) : FindsFrom rel (fun n => hive.openKey n path) (reg.openKey path) := by
  unfold Hive.openKey Registry.openKey Key.subkeyPath
  cases hparts : Key.pathParts path with
  | nil =>
    have hnone : FindsFrom rel (fun n => hive.rootKey >>= fun _ => .ok none)
        (reg.root.bind fun _ => none) :=
      shows_.root.from.andFind (g := fun _ _ => .ok none) fun _ _ _ => Finds.missing.from
    rwa [Option.bind_fun_none] at hnone
  | cons part rest => exact shows_.root.from.andFind fun _ _ => shows_.descend (part :: rest)

/-- The same for the first of some paths, which never fails. -/
theorem openFirst (paths : List Str) : ∃ found,
    Evals (fun n => hive.openFirst n paths) (.ok found) ∧
      Option.Rel rel found (paths.findSome? reg.openKey) := by
  induction paths with
  | nil => exact ⟨none, .const _, .none⟩
  | cons path paths ih =>
    obtain ⟨x, hx, hfinds⟩ := shows_.openKey path
    obtain ⟨found, hrest, hrel⟩ := ih
    simp only [Hive.openFirst, List.findSome?_cons]
    generalize reg.openKey path = o at hfinds
    cases hfinds with
    | found h => exact ⟨_, Evals.bind hx.attempt (.const _), .some h⟩
    | missing => exact ⟨found, Evals.bind hx.attempt hrest, hrel⟩
    | error e => exact ⟨found, Evals.bind hx.attempt hrest, hrel⟩

/-- A value is read as a string where the registry shows one. -/
theorem readString {k : Key} {a : reg.Node} (h : rel k a) (name : Str) :
    Evals (fun _ => k.readString hive.reader name) (.ok (reg.text a name)) :=
  (shows_.value h name).andThen fun _ _ hv => hv.asString.value?

/-- A value is read as a number where the registry shows one. -/
theorem readNumber {k : Key} {a : reg.Node} (h : rel k a) (name : Str) :
    Evals (fun _ => k.readNumber hive.reader name) (.ok (reg.number a name)) :=
  (shows_.value h name).andThen fun _ _ hv => hv.asU32.value?

section Loops

variable {γ : Type} {d : γ} {k : Key} {a : reg.Node} (path : Str)

/-- What a loop over the values of a key gives. -/
theorem onValues (hkey : rel k a) {g : Nat → List Value → Exec HiveError γ}
    {h : List ShownValue → γ} (hnil : h [] = d)
    (hgh : ∀ vals values, List.Forall₂ (ShowsValue hive.reader) vals values →
      Evals (fun n => g n vals) (.ok (h values))) :
    Evals (fun n => (k.values hive.reader).okOr d (g n)) (.ok (h (reg.valueList a))) := by
  have hrun := (shows_.values hkey).from.okOr (d := d) hgh
  unfold Registry.valueList
  cases hvalues : reg.values a with
  | none =>
    rw [hvalues] at hrun
    exact hnil.symm ▸ hrun
  | some values => rwa [hvalues] at hrun

/-- What a loop over the subkeys of a key gives. -/
theorem onSubkeys (hkey : rel k a) {g : Nat → List Key → Exec HiveError γ}
    {h : List reg.Node → γ} (hnil : h [] = d)
    (hgh : ∀ kids nodes, List.Forall₂ (fun k b => b ∈ reg.subkeyList a ∧ rel k b) kids nodes →
      Evals (fun n => g n kids) (.ok (h nodes))) :
    Evals (fun n => (k.subkeys hive.reader n).okOr d (g n)) (.ok (h (reg.subkeyList a))) := by
  have hrun := (shows_.subkeys hkey).here.okOr (d := d) fun kids nodes hkids =>
    hgh kids nodes <| by
      obtain ⟨hkids, hnodes⟩ := hkids
      refine ((List.forall₂_and_left _ _).mpr ⟨fun b hb => ?_, hkids.flip⟩).flip
      rwa [Registry.subkeyList, hnodes]
  unfold Registry.subkeyList
  cases hnodes : reg.subkeys a with
  | none =>
    rw [hnodes] at hrun
    exact hnil.symm ▸ hrun
  | some nodes => rwa [hnodes] at hrun

/-- The same below the key at a path. -/
theorem onValuesAt {g : Nat → List Value → Exec HiveError γ}
    {h : List ShownValue → γ} (hnil : h [] = d)
    (hgh : ∀ vals values, List.Forall₂ (ShowsValue hive.reader) vals values →
      Evals (fun n => g n vals) (.ok (h values))) :
    Evals (fun n => (hive.openKey n path).someOr d fun key =>
      (key.values hive.reader).okOr d (g n)) (.ok (h (reg.valuesAt path))) := by
  have hrun := (shows_.openKey path).someOr (d := d) fun _ _ hkey =>
    shows_.onValues hkey hnil hgh
  unfold Registry.valuesAt
  cases hopen : reg.openKey path with
  | none =>
    rw [hopen] at hrun
    exact hnil.symm ▸ hrun
  | some a => rwa [hopen] at hrun

/-- The common shape of the extractors: open a key by its path, list its subkeys, and go through
    them.  A missing key counts as one without subkeys. -/
theorem onSubkeysAt {g : Nat → List Key → Exec HiveError γ}
    {h : List reg.Node → γ} (hnil : h [] = d)
    (hgh : ∀ kids nodes, List.Forall₂ (fun k b => b ∈ reg.subkeysAt path ∧ rel k b) kids nodes →
      Evals (fun n => g n kids) (.ok (h nodes))) :
    Evals (fun n => (hive.openKey n path).someOr d fun key =>
      (key.subkeys hive.reader n).okOr d (g n)) (.ok (h (reg.subkeysAt path))) := by
  have hrun := (shows_.openKey path).here.someOr (d := d) fun _ a hkey =>
    shows_.onSubkeys hkey.1 hnil fun kids nodes hkids => hgh kids nodes <| by
      have hlist : reg.subkeysAt path = reg.subkeyList a := by rw [Registry.subkeysAt, hkey.2]; rfl
      rwa [hlist]
  unfold Registry.subkeysAt
  cases hopen : reg.openKey path with
  | none =>
    rw [hopen] at hrun
    exact hnil.symm ▸ hrun
  | some a => rwa [hopen] at hrun

end Loops

end Hive.Shows

/-! ## Every readable hive shows one -/

/-- What reading a value gives. -/
def Value.shown (r : CellReader) (val : Value) : ShownValue where
  name := val.name
  dataType := val.dataType
  data := match val.rawData r with
    | .ok data => some data
    | _ => none

open Classical in
/-- The subkeys of a key, if listing them comes back with them. -/
noncomputable def Key.shownSubkeys (r : CellReader) (k : Key) : Option (List Key) :=
  if h : ∃ kids, Evals (fun n => k.subkeys r n) (.ok kids) then some h.choose else none

/-- A listing that returns keys is shown as these keys. -/
theorem Key.shownSubkeys_of_ok {r : CellReader} {k : Key} {kids : List Key}
    (h : Evals (fun n => k.subkeys r n) (.ok kids)) : k.shownSubkeys r = some kids := by
  have hshown : ∃ kids, Evals (fun n => k.subkeys r n) (.ok kids) := ⟨kids, h⟩
  rw [Key.shownSubkeys, dif_pos hshown, Exec.ok.inj (hshown.choose_spec.unique h)]

/-- A listing that fails is shown as unreadable. -/
theorem Key.shownSubkeys_of_err {r : CellReader} {k : Key} {e : HiveError}
    (h : Evals (fun n => k.subkeys r n) (.err e)) : k.shownSubkeys r = none := by
  refine dif_neg ?_
  rintro ⟨kids, hkids⟩
  cases hkids.unique h

/-- The registry of a hive: its keys, as they are read. -/
noncomputable def Hive.registry (hive : Hive) : Registry where
  Node := Key
  root := match hive.rootKey with
    | .ok root => some root
    | _ => none
  name := Key.name
  lastWrittenRaw := Key.lastWrittenRaw
  values k := match k.values hive.reader with
    | .ok vals => some (vals.map (Value.shown hive.reader))
    | _ => none
  subkeys := Key.shownSubkeys hive.reader

/-- The root of the registry that a hive shows is its root key, where that can be read. -/
theorem Hive.registry_root {hive : Hive} {root : Key} (h : hive.rootKey = .ok root) :
    hive.registry.root = some root := by
  unfold registry
  rw [h]

/-- The key is in reach of the root. -/
def Hive.InReach (hive : Hive) (k : Key) : Prop :=
  ∃ root, hive.rootKey = .ok root ∧ ReflTransGen (Kids hive.reader) root k

/-- A key in reach and its counterpart, which is itself. -/
inductive Hive.IsShown (hive : Hive) : Key → hive.registry.Node → Prop where
  | mk {k : Key} (h : hive.InReach k) : hive.IsShown k k

/-- A value whose data can be read, or fails to be with an error, shows what is read of it. -/
theorem Value.shows_shown {r : CellReader} {val : Value} (h : (val.rawData r).Returns) :
    ShowsValue r val (val.shown r) := by
  refine ⟨rfl, rfl, ?_⟩
  show Keeps Eq (val.rawData r) (match val.rawData r with | .ok data => some data | _ => none)
  rcases h with ⟨data, h⟩ | ⟨e, h⟩
  · rw [h]
    exact .value rfl
  · rw [h]
    exact .error e

/-- The reads in reach of the root come back, with a value or an error. -/
structure Hive.ReadsReturn (hive : Hive) : Prop where
  root : hive.rootKey.Returns
  subkeys : hive.SubkeysReturn
  values : ∀ k, hive.InReach k → (k.values hive.reader).Returns
  data : ∀ k, hive.InReach k → ∀ vals, k.values hive.reader = .ok vals →
    ∀ val ∈ vals, (val.rawData hive.reader).Returns

/-- A hive whose reads return shows its registry. -/
theorem Hive.ReadsReturn.shows_registry {hive : Hive} (h : hive.ReadsReturn) :
    hive.Shows hive.registry hive.IsShown := by
  refine ⟨?_, ?_, ?_, ?_, ?_⟩
  · show Keeps _ hive.rootKey (match hive.rootKey with | .ok root => some root | _ => none)
    rcases h.root with ⟨root, hopen⟩ | ⟨e, hopen⟩
    · rw [hopen]
      exact .value (.mk ⟨root, hopen, .refl⟩)
    · rw [hopen]
      exact .error e
  · rintro k _ ⟨_⟩
    rfl
  · rintro k _ ⟨_⟩
    rfl
  · rintro k _ ⟨hk⟩
    show Keeps _ (k.values hive.reader) (match k.values hive.reader with
      | .ok vals => some (vals.map (Value.shown hive.reader))
      | _ => none)
    rcases h.values k hk with ⟨vals, hvals⟩ | ⟨e, hvals⟩
    · rw [hvals]
      refine .value (List.forall₂_map_right_iff.mpr (List.forall₂_same.mpr fun val hval => ?_))
      exact val.shows_shown (h.data k hk vals hvals val hval)
    · rw [hvals]
      exact .error e
  · rintro k _ ⟨root, hopen, hreach⟩
    obtain ⟨x, hx, hkids⟩ := h.subkeys root hopen k hreach
    refine ⟨x, hkids, ?_⟩
    show Keeps _ x (k.shownSubkeys hive.reader)
    rcases hx with ⟨kids, rfl⟩ | ⟨e, rfl⟩
    · rw [Key.shownSubkeys_of_ok hkids]
      refine .value (List.forall₂_same.mpr fun kid hkid => .mk ⟨root, hopen, ?_⟩)
      exact hreach.tail ⟨kids, hkids, hkid⟩
    · rw [Key.shownSubkeys_of_err hkids]
      exact .error e

section Reach

variable {hive : Hive} {reg : Registry} {rel : Key → reg.Node → Prop}
  (shows_ : hive.Shows reg rel)

include shows_

/-- Every key in reach has a counterpart. -/
theorem Hive.Shows.exists_node {root : Key} (hopen : hive.rootKey = .ok root) {k : Key}
    (h : ReflTransGen (Kids hive.reader) root k) : ∃ a, rel k a := by
  induction h with
  | refl =>
    have hroot := shows_.root
    rw [hopen] at hroot
    generalize reg.root = o at hroot
    cases hroot with
    | @value _ a ha => exact ⟨a, ha⟩
  | tail _ hkid ih =>
    obtain ⟨a, ha⟩ := ih
    obtain ⟨kids, hkids, hmem⟩ := hkid
    obtain ⟨x, hx, hkeeps⟩ := shows_.subkeys ha
    obtain rfl := hx.unique hkids
    generalize reg.subkeys a = o at hkeeps
    cases hkeeps with
    | value hrel =>
      obtain ⟨b, _, hb⟩ := forall₂_left hrel hmem
      exact ⟨b, hb⟩

/-- The reads of a hive that shows a registry return. -/
theorem Hive.Shows.readsReturn : hive.ReadsReturn where
  root := shows_.root.returns
  subkeys root hopen k hk := by
    obtain ⟨a, ha⟩ := shows_.exists_node hopen hk
    obtain ⟨x, hx, hkeeps⟩ := shows_.subkeys ha
    exact ⟨x, hkeeps.returns, hx⟩
  values k := by
    rintro ⟨root, hopen, hk⟩
    obtain ⟨a, ha⟩ := shows_.exists_node hopen hk
    exact (shows_.values ha).returns
  data k := by
    rintro ⟨root, hopen, hk⟩ vals hvals val hval
    obtain ⟨a, ha⟩ := shows_.exists_node hopen hk
    have hkeeps := shows_.values ha
    rw [hvals] at hkeeps
    generalize reg.values a = o at hkeeps
    cases hkeeps with
    | value hrel =>
      obtain ⟨v, _, hv⟩ := forall₂_left hrel hval
      exact hv.data.returns

end Reach

/-- **A hive shows a registry exactly where its reads return.**  One direction reads the registry
    off the keys in reach; the other one is that a read that shows something has returned. -/
theorem Hive.shows_iff_readsReturn {hive : Hive} :
    (∃ (reg : Registry) (rel : Key → reg.Node → Prop), hive.Shows reg rel) ↔ hive.ReadsReturn :=
  ⟨fun ⟨_, _, h⟩ => h.readsReturn, fun h => ⟨_, _, h.shows_registry⟩⟩

/-- The reads return in a hive without undersized cells, in which listing subkeys comes back. -/
theorem Hive.readsReturn_of_cells {hive : Hive} (hcells : ∀ offset, ¬ hive.UndersizedCell offset)
    (hlist : hive.SubkeysReturn) : hive.ReadsReturn := by
  have hraw : ∀ fault offset, (hive.reader.readCellRaw offset).Avoids fault := fun fault offset =>
    ((hive.readCellRaw_returns_iff offset).mpr (hcells offset)).avoids fault
  have hreturns : ∀ {α : Type} {x : Exec HiveError α}, (∀ fault, x.Avoids fault) → x.Returns :=
    fun h => Exec.returns_iff.mpr ⟨h .panic, h .timeout⟩
  refine ⟨hreturns fun fault => ?_, hlist,
    fun k _ => hreturns fun fault => Key.values_avoids (hraw fault) k,
    fun k _ vals _ val _ => hreturns fun fault => Value.rawData_avoids (hraw fault) val⟩
  refine .bind (hive.reader.readCell_avoids (hraw fault _)) fun cell _ => ?_
  split
  · exact .ok _
  · exact .err _

end Winreg
