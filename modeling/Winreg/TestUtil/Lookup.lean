/-
  LOOKUP: what is written to a hive is found there by its path.

  A built hive is a dictionary.  A path opens the key that was given under it, ASCII case ignored,
  and a path that was not given opens none; under a name a key has the first value that was given.

  1. **Complete registries** — in a hive that shows all of a registry no lookup fails
     (`Shows.openKey_complete`, `Shows.value_complete`).
  2. **The registry of a builder** — its lookups search the prefix closure of the given paths
     (`openKey_registry`).
  3. **Built hives** — and so do those of the hive (`build_lookup`).
-/
import Winreg.TestUtil.Shown

namespace Winreg

open Rust Relation Exec

/-! ## Complete registries -/

/-- Nothing of the registry is hidden. -/
structure Registry.Complete (reg : Registry) : Prop where
  root : reg.root ≠ none
  subkeys : ∀ a, reg.subkeys a ≠ none
  values : ∀ a, reg.values a ≠ none

section Complete

variable {hive : Hive} {reg : Registry} {rel : Key → reg.Node → Prop}
  (shows_ : hive.Shows reg rel) (complete : reg.Complete)

include shows_ complete

/-- In a registry without unreadable lists a lookup finds what there is, or that there is
    nothing. -/
theorem Hive.Shows.subkey_complete {k : Key} {a : reg.Node} (h : rel k a) (name : Str) :
    ∃ found, Evals (fun n => k.subkey hive.reader n name) (.ok found) ∧
      Option.Rel rel found (reg.subkey a name) := by
  obtain ⟨x, hx, hfinds⟩ := shows_.subkeys h
  unfold Registry.subkey
  cases hnodes : reg.subkeys a with
  | none => exact absurd hnodes (complete.subkeys a)
  | some nodes =>
    rw [hnodes] at hfinds
    cases hfinds with
    | value hkids =>
      refine ⟨_, Evals.bind hx (.const _), ?_⟩
      exact forall₂_find? hkids fun c b hcb => by rw [shows_.name hcb]

/-- The same for a way down, by induction on the path. -/
theorem Hive.Shows.descend_complete : ∀ (parts : List Str) {k : Key} {a : reg.Node}, rel k a →
    ∃ found, Evals (fun n => Key.descend hive.reader n k parts) (.ok found) ∧
      Option.Rel rel found (reg.descend a parts)
  | [], k, _, h => ⟨some k, .const _, .some h⟩
  | part :: rest, k, a, h => by
    obtain ⟨found, hfound, hrel⟩ := shows_.subkey_complete complete h part
    simp only [Key.descend, Registry.descend]
    generalize reg.subkey a part = o at hrel
    cases hrel with
    | none => exact ⟨none, Evals.bind hfound (.const _), .none⟩
    | some hnext =>
      obtain ⟨last, hlast, hrel⟩ := descend_complete rest hnext
      exact ⟨last, Evals.bind hfound hlast, hrel⟩

/-- **Opening a path does not fail.** -/
theorem Hive.Shows.openKey_complete (path : Str) :
    ∃ found, Evals (fun n => hive.openKey n path) (.ok found) ∧
      Option.Rel rel found (reg.openKey path) := by
  have hstart := shows_.root
  unfold Hive.openKey Registry.openKey Key.subkeyPath
  generalize hive.rootKey = x, hroot : reg.root = o at hstart
  cases hstart with
  | error e => exact absurd hroot complete.root
  | @value root a ha =>
    cases hparts : Key.pathParts path with
    | nil => exact ⟨none, .const _, .none⟩
    | cons part rest => exact shows_.descend_complete complete (part :: rest) ha

/-- **Looking up a value does not fail.** -/
theorem Hive.Shows.value_complete {k : Key} {a : reg.Node} (h : rel k a) (name : Str) :
    ∃ found, k.value hive.reader name = .ok found ∧
      Option.Rel (ShowsValue hive.reader) found (reg.value a name) := by
  have hkeeps := shows_.values h
  unfold Key.value Registry.value
  generalize k.values hive.reader = x at hkeeps
  cases hvalues : reg.values a with
  | none => exact absurd hvalues (complete.values a)
  | some values =>
    rw [hvalues] at hkeeps
    cases hkeeps with
    | value hvals => exact ⟨_, rfl, forall₂_find? hvals fun val v hv => by rw [hv.name]⟩

end Complete

namespace TestUtil

/-! ## The registry of a builder -/

/-- A path with its case dropped. -/
def folded (p : Path) : Path := p.map toAsciiUppercase

section Registry

variable {b : TestHiveBuilder} (h : b.Valid)

/-- Every list of a built hive can be read. -/
theorem complete_registry (b : TestHiveBuilder) : b.registry.Complete where
  root := Option.some_ne_none _
  subkeys _ := Option.some_ne_none _
  values _ := Option.some_ne_none _

include h

/-- A key of the builder is named by the end of its path. -/
theorem name_registry {p : Path} {c : Str} (hc : c ∈ b.childNames p) :
    b.registry.name (p ++ [c]) = c := by
  have hlast : c ∈ p ++ [c] := List.mem_append_right _ (List.mem_singleton_self c)
  show latin1 (keyName (p ++ [c])) = c
  rw [keyName_concat, latin1_asBytes (component_of_mem h (mem_childNames.mp hc) hlast).1]

variable (hdistinct : ∀ p ∈ [] :: b.closure, ((b.childNames p).map toAsciiUppercase).Nodup)

include hdistinct

/-- Siblings have different names where the given paths have. -/
theorem distinct_registry (p : Path) :
    ((b.registry.subkeyList p).map fun q => toAsciiUppercase (b.registry.name q)).Nodup := by
  have hnames : ((b.registry.subkeyList p).map fun q => toAsciiUppercase (b.registry.name q)) =
      (b.childNames p).map toAsciiUppercase := by
    refine List.map_map.trans (List.map_congr_left fun c hc => ?_)
    exact congrArg toAsciiUppercase (name_registry h hc)
  rw [hnames]
  by_cases hp : p ∈ [] :: b.closure
  · exact hdistinct p hp
  · have hnil : b.childNames p = [] := List.eq_nil_iff_forall_not_mem.mpr fun c hc => hp <| by
      by_cases hroot : p = []
      · exact hroot ▸ List.mem_cons_self
      · have hgiven : p ∈ b.closure :=
          closure_of_prefix (mem_childNames.mp hc) (List.prefix_append p [c]) hroot
        exact List.mem_cons_of_mem _ hgiven
    rw [hnil]
    exact List.nodup_nil

/-- Down by one name. -/
theorem subkey_registry (p : Path) (n : Str) (q : Path) : b.registry.subkey p n = some q ↔
    ∃ c ∈ b.childNames p, toAsciiUppercase c = toAsciiUppercase n ∧ q = p ++ [c] := by
  constructor
  · intro hsubkey
    obtain ⟨hmem, hname⟩ := Registry.mem_of_subkey hsubkey
    obtain ⟨c, hc, rfl⟩ := List.mem_map.mp hmem
    rw [name_registry h hc] at hname
    exact ⟨c, hc, hname, rfl⟩
  · rintro ⟨c, hc, hname, rfl⟩
    refine Registry.subkey_eq_some (distinct_registry h hdistinct p) (List.mem_map_of_mem hc) ?_
    rw [name_registry h hc, hname]

/-- Where siblings differ but for ASCII case, a way down arrives at the one key whose path folds to
    it. -/
theorem descend_registry : ∀ (names : List Str) {p : Path}, (p = [] ∨ p ∈ b.closure) →
    ∀ q : Path, b.registry.descend p names = some q ↔
      (q = p ∨ q ∈ b.closure) ∧ ∃ below, q = p ++ below ∧ folded below = folded names
  | [], p, hp, q => by
    constructor
    · rintro ⟨⟩
      exact ⟨Or.inl rfl, [], (List.append_nil p).symm, rfl⟩
    · rintro ⟨_, below, rfl, hbelow⟩
      obtain rfl : below = [] := List.map_eq_nil_iff.mp hbelow
      exact congrArg some (List.append_nil p).symm
  | n :: names, p, hp, q => by
    refine Option.bind_eq_some_iff.trans ?_
    constructor
    · rintro ⟨next, hnext, hq⟩
      -- one step goes to a child in the closure, and from there the induction goes on
      obtain ⟨c, hc, hname, rfl⟩ := (subkey_registry h hdistinct p n next).mp hnext
      have hmem := mem_childNames.mp hc
      obtain ⟨hq, below, rfl, hbelow⟩ := (descend_registry names (Or.inr hmem) q).mp hq
      refine ⟨Or.inr ?_, c :: below, ?_, ?_⟩
      · rcases hq with hself | hq
        · rw [hself]
          exact hmem
        · exact hq
      · rw [List.append_assoc, List.singleton_append]
      · rw [folded, folded, List.map_cons, List.map_cons, hname]
        exact congrArg _ hbelow
    · rintro ⟨hq, below, rfl, hbelow⟩
      cases below with
      | nil => cases hbelow
      | cons c below =>
        obtain ⟨hname, hbelow⟩ := List.cons.inj hbelow
        have hq : p ++ c :: below ∈ b.closure := hq.resolve_left fun hself => by
          simpa using congrArg List.length hself
        -- the closure has every prefix of the path, so the child on the way is there
        have hmem : p ++ [c] ∈ b.closure :=
          closure_of_prefix hq ⟨below, by rw [List.append_assoc, List.singleton_append]⟩ (by simp)
        refine ⟨p ++ [c], ?_, ?_⟩
        · exact (subkey_registry h hdistinct p n _).mpr ⟨c, mem_childNames.mpr hmem, hname, rfl⟩
        · refine (descend_registry names (Or.inr hmem) _).mpr ⟨Or.inr hq, below, ?_, hbelow⟩
          rw [List.append_assoc, List.singleton_append]

/-- **A path is looked up in the prefix closure.** -/
theorem openKey_registry (path : Str) : b.registry.openKey path =
    b.closure.find? fun q => folded q = folded (Key.pathParts path) := by
  have hfind : ∀ q, b.closure.find? (fun q => folded q = folded (Key.pathParts path)) = some q →
      q ∈ b.closure ∧ folded q = folded (Key.pathParts path) := fun q hq =>
    ⟨List.mem_of_find?_eq_some hq, by simpa using List.find?_some hq⟩
  have hdescend : ∀ q : Path, b.registry.openKey path = some q ↔
      q ∈ b.closure ∧ folded q = folded (Key.pathParts path) := by
    intro q
    unfold Registry.openKey
    -- a path without components opens nothing, not even the root
    cases hparts : Key.pathParts path with
    | nil =>
      constructor
      · intro hnone
        cases hnone
      · rintro ⟨hq, hnil⟩
        exact absurd (List.map_eq_nil_iff.mp hnil) (mem_closure.mp hq).1
    | cons part rest =>
      refine (descend_registry h hdistinct (part :: rest) (Or.inl rfl) q).trans ?_
      constructor
      · rintro ⟨hq, below, rfl, hbelow⟩
        refine ⟨hq.resolve_left fun hself => ?_, hbelow⟩
        rw [hself] at hbelow
        cases hbelow
      · exact fun ⟨hq, hbelow⟩ => ⟨Or.inr hq, q, rfl, hbelow⟩
  refine Option.ext fun q => (hdescend q).trans ⟨fun ⟨hq, hsame⟩ => ?_, hfind q⟩
  -- the first key with this path is the only one
  obtain ⟨q', hq'⟩ : ∃ q', b.closure.find? (fun q =>
      folded q = folded (Key.pathParts path)) = some q' :=
    Option.isSome_iff_exists.mp (List.find?_isSome.mpr ⟨q, hq, decide_eq_true hsame⟩)
  have hone : some q' = some q :=
    ((hdescend q').mpr (hfind q' hq')).symm.trans ((hdescend q).mpr ⟨hq, hsame⟩)
  rw [hq', hone]

end Registry

/-! ## Built hives -/

/-- A value that is shown reads in one way. -/
theorem reads_of_shows {r : CellReader} {val : Value} {v : TreeValue}
    (h : ShowsValue r val v.shown) : ReadsValue r val v.toRegValue where
  name := h.name
  dataType := h.dataType
  data := by
    have hdata : Keeps Eq (val.rawData r) (some v.data) := h.data
    generalize val.rawData r = x at hdata
    cases hdata with
    | value heq => exact congrArg Exec.ok heq

/-- A key of the hive is the one that was given under a path. -/
structure IsGiven (b : TestHiveBuilder) (hive : Hive) (key : Key) (q : Path) : Prop where
  name : ∀ p c, q = p ++ [c] → key.name = c
  values : ∀ name, ∃ found, key.value hive.reader name = .ok found ∧
    Option.Rel (fun val v => ReadsValue hive.reader val v.toRegValue) found
      ((b.valuesAt q).find? fun v => toAsciiUppercase v.name = toAsciiUppercase name)

/-- **A built hive is a dictionary**: each path opens the key that was given under it, ASCII case
    ignored, or none, and each name gives the first value that was given under it, or none.  The
    built hive shows the registry of what was given, in which every list can be read; there a lookup
    is a search among the given names. -/
theorem build_lookup {b : TestHiveBuilder} (h : b.Valid)
    (hdistinct : ∀ p ∈ [] :: b.closure, ((b.childNames p).map toAsciiUppercase).Nodup) {n : Nat}
    (hn : b.depth < n) (hsize : b.planOf.totalFileSize < 2 ^ 31) :
    ∃ image hive, (b.build n : Exec HiveError Bytes) = .ok image ∧
      Hive.fromBytes image = .ok hive ∧ ∀ path, ∃ found,
        Evals (fun n => hive.openKey n path) (.ok found) ∧ Option.Rel (IsGiven b hive) found
          (b.closure.find? fun q => folded q = folded (Key.pathParts path)) := by
  obtain ⟨image, hive, hbuild, hopen, hshows⟩ := build_shows h hn hsize
  refine ⟨image, hive, hbuild, hopen, fun path => ?_⟩
  obtain ⟨found, hfound, hrel⟩ := hshows.openKey_complete (complete_registry b) path
  rw [openKey_registry h hdistinct] at hrel
  refine ⟨found, hfound, ?_⟩
  generalize hfind : b.closure.find? (fun q => folded q = folded (Key.pathParts path)) = o at hrel
  cases hrel with
  | none => exact .none
  | @some key q hkey =>
    have hq : q ∈ b.closure := List.mem_of_find?_eq_some hfind
    refine .some ⟨?_, fun name => ?_⟩
    · rintro p c rfl
      rw [hshows.name hkey]
      exact name_registry h (mem_childNames.mpr hq)
    · obtain ⟨val, hval, hrel⟩ := hshows.value_complete (complete_registry b) hkey name
      refine ⟨val, hval, ?_⟩
      have hvalue : b.registry.value q name = ((b.valuesAt q).find? fun v =>
          toAsciiUppercase v.name = toAsciiUppercase name).map TreeValue.shown := List.find?_map
      rw [hvalue] at hrel
      generalize (b.valuesAt q).find? _ = o at hrel
      cases o with
      | none =>
        cases hrel
        exact .none
      | some v =>
        cases hrel with
        | some hv => exact .some (reads_of_shows hv)

/-- A key with a value, and a key below it. -/
def lettersBuilder : TestHiveBuilder where
  keys := ["A\\B".toList]
  values := [⟨"A".toList, "v".toList, 3, [0x78, 0x79]⟩]
  keyFiletime := 0

set_option maxRecDepth 20000 in
/-- The sample can be written. -/
theorem lettersBuilder_valid : lettersBuilder.Valid where
  components := by decide
  valueNames := by decide
  children p := by
    have hlen : (lettersBuilder.childNames p).length ≤ lettersBuilder.closure.length :=
      List.length_filterMap_le _ _
    exact hlen.trans (by decide)
  data := by decide

set_option maxRecDepth 20000 in
/-- A path with separators at both ends and small letters opens the key that was given in
    capitals. -/
theorem build_lookup_letters : ∃ image hive key val,
    (lettersBuilder.build 3 : Exec HiveError Bytes) = .ok image ∧
      Hive.fromBytes image = .ok hive ∧
      Evals (fun n => hive.openKey n "\\a\\".toList) (.ok (some key)) ∧ key.name = "A".toList ∧
      key.value hive.reader "V".toList = .ok (some val) ∧
      val.rawData hive.reader = .ok [0x78, 0x79] ∧
      Evals (fun n => hive.openKey n "b".toList) (.ok none) := by
  obtain ⟨image, hive, hbuild, hopen, hlookup⟩ :=
    build_lookup lettersBuilder_valid (by decide) (n := 3) (by decide) (by decide)
  obtain ⟨key, hkey, hrel⟩ := hlookup "\\a\\".toList
  obtain ⟨missing, hmissing, hnone⟩ := hlookup "b".toList
  have hfind : (lettersBuilder.closure.find? fun q =>
      folded q = folded (Key.pathParts "\\a\\".toList)) = some ["A".toList] := by decide
  have hfind' : (lettersBuilder.closure.find? fun q =>
      folded q = folded (Key.pathParts "b".toList)) = none := by decide
  rw [hfind] at hrel
  rw [hfind'] at hnone
  cases hnone
  cases hrel with
  | @some key _ hgiven =>
    obtain ⟨val, hval, hrel⟩ := hgiven.values "V".toList
    have hvalue : ((lettersBuilder.valuesAt ["A".toList]).find? fun v =>
        toAsciiUppercase v.name = toAsciiUppercase "V".toList) =
          some ⟨"v".toList, 3, [0x78, 0x79]⟩ := by decide
    rw [hvalue] at hrel
    cases hrel with
    | @some val _ hreads =>
      exact ⟨image, hive, key, val, hbuild, hopen, hkey, hgiven.name [] _ rfl, hval, hreads.data,
        hmissing⟩

end TestUtil

end Winreg
