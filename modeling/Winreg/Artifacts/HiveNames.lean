/-
  HIVE NAMES: what a machine hive drops from the front of a catalog path.

  A catalog path may repeat the name of its hive, and `scan` drops that name.  The two names are
  tried one after the other, whichever hive is scanned: `SYSTEM\` is dropped in a SOFTWARE hive, and
  `SOFTWARE\` in a SYSTEM hive.

  1. Collapsing doubled backslashes keeps the components of a path (`pathParts_collapse`).
  2. One strip of a name takes the first component, or nothing (`Strip`).
  3. `RespectsHive` is what a hive should drop; `Harmless` says for which paths it does
     (`templateSegments_respects_iff`).
-/
import Winreg.Artifacts.Catalog
import Winreg.Base.Search
import Winreg.Core.PathCompose

namespace Winreg

open Rust

namespace Catalog

open PathExpansion

/-! ## Doubled backslashes -/

/-- Collapsing keeps the components, also those of what stands in front. -/
theorem pathParts_append_collapse (front raw : Str) :
    Key.pathParts (front ++ collapseBackslashes raw) = Key.pathParts (front ++ raw) := by
  induction raw using collapseBackslashes.induct generalizing front with
  | case1 rest ih =>
    rw [collapseBackslashes, Key.pathParts_append, Key.pathParts_append, Key.pathParts_backslash]
    exact congrArg _ (ih [])
  | case2 c rest hne ih =>
    rw [collapseBackslashes.eq_2 c rest hne]
    have hmove := ih (front ++ [c])
    rw [List.append_assoc, List.append_assoc] at hmove
    exact hmove
  | case3 => rfl

/-- Doubled separators make no difference to the parts of a path. -/
theorem pathParts_collapse (raw : Str) :
    Key.pathParts (collapseBackslashes raw) = Key.pathParts raw :=
  pathParts_append_collapse [] raw

/-- Collapsing keeps the part before the first backslash. -/
theorem cutAtFirst_collapse (raw : Str) :
    cutAtFirst '\\' (collapseBackslashes raw) = cutAtFirst '\\' raw := by
  show (collapseBackslashes raw).takeWhile (· ≠ '\\') = raw.takeWhile (· ≠ '\\')
  induction raw using collapseBackslashes.induct with
  | case1 rest ih =>
    rw [collapseBackslashes]
    rfl
  | case2 c rest hne ih =>
    rw [collapseBackslashes.eq_2 c rest hne, List.takeWhile_cons, List.takeWhile_cons, ih]
  | case3 => rfl

/-- Nor to its first character. -/
theorem head?_collapse (raw : Str) : (collapseBackslashes raw).head? = raw.head? := by
  induction raw using collapseBackslashes.induct with
  | case1 rest _ =>
    rw [collapseBackslashes]
    rfl
  | case2 c rest hne _ =>
    rw [collapseBackslashes.eq_2 c rest hne]
    rfl
  | case3 => rfl

/-! ## Names in front -/

/-- Only a separator folds to a separator. -/
theorem backslash_keepsOnly : KeepsOnly Char.toLower '\\' :=
  toLower_keepsOnly (by decide) (by decide)

/-- A path begins with a name and a backslash, ignoring case. -/
def BeginsWith (path name : Str) : Prop :=
  ∃ own rest, path = own ++ '\\' :: rest ∧ eqIgnoreAsciiCase own name

/-- What two texts have in common but for case. -/
theorem backslash_not_mem {own name : Str} (h : eqIgnoreAsciiCase own name) (hname : '\\' ∉ name) :
    '\\' ∉ own := by
  intro hmem
  have hlower : '\\' ∈ toAsciiLowercase name :=
    eqIgnoreAsciiCase_iff.mp h ▸ backslash_keepsOnly.mem_map.mpr hmem
  exact hname (backslash_keepsOnly.mem_map.mp hlower)

/-- One strip of a name: the first component goes, or nothing does. -/
inductive Strip (name path : Str) : Str → Prop
  | taken {own rest : Str} : path = own ++ '\\' :: rest → eqIgnoreAsciiCase own name →
      Strip name path rest
  | kept : ¬ BeginsWith path name → Strip name path path

/-- A hive's name is stripped exactly from a path that has it, but for ASCII case, as its first
    part. -/
theorem stripPrefixCi_name {path name tail : Str} :
    stripPrefixCi path (name ++ ['\\']) = .ok (some tail) ↔
      ∃ own, path = own ++ '\\' :: tail ∧ eqIgnoreAsciiCase own name := by
  rw [stripPrefixCi_eq_some_iff]
  constructor
  · rintro ⟨head, rfl, hhead⟩
    obtain ⟨own, rfl, hown⟩ := (eqIgnoreAsciiCase_append_singleton backslash_keepsOnly).mp hhead
    exact ⟨own, by rw [List.append_assoc, List.singleton_append], hown⟩
  · rintro ⟨own, rfl, hown⟩
    exact ⟨own ++ ['\\'], by rw [List.append_assoc, List.singleton_append],
      (eqIgnoreAsciiCase_append_singleton backslash_keepsOnly).mpr ⟨own, rfl, hown⟩⟩

/-- The first of some names is stripped, and then the others. -/
theorem stripEach_cons {name path p : Str} {roots : List Str}
    (h : stripEach ((name ++ ['\\']) :: roots) path = .ok p) :
    ∃ p', Strip name path p' ∧ stripEach roots p' = .ok p := by
  rw [stripEach_step] at h
  obtain ⟨o, hstrip, hrest⟩ := Exec.bind_eq_ok.mp h
  refine ⟨o.getD path, ?_, hrest⟩
  cases o with
  | some tail =>
    obtain ⟨own, hpath, hown⟩ := stripPrefixCi_name.mp hstrip
    exact .taken hpath hown
  | none =>
    refine .kept ?_
    rintro ⟨own, rest, hpath, hown⟩
    rw [stripPrefixCi_name.mpr ⟨own, hpath, hown⟩] at hstrip
    cases hstrip

/-! ## Roots -/

/-- The names of the roots of a registry. -/
def rootNames : List Str :=
  ["HKEY_LOCAL_MACHINE".toList, "HKEY_CURRENT_USER".toList, "HKEY_USERS".toList,
   "HKLM".toList, "HKCU".toList, "HKU".toList]

/-- The first component is the name of a root, or begins as one. -/
def StartsWithRoot (raw : Str) : Prop :=
  (∃ name ∈ rootNames, eqIgnoreAsciiCase (cutAtFirst '\\' raw) name) ∨
    "HKEY_".toList <+: cutAtFirst '\\' raw

instance (raw : Str) : Decidable (StartsWithRoot raw) :=
  inferInstanceAs (Decidable ((∃ name ∈ rootNames, _) ∨ _))

/-- The part in front of the first separator. -/
theorem firstPart_eq {own : Str} (h : '\\' ∉ own) (rest : Str) :
    cutAtFirst '\\' (own ++ '\\' :: rest) = own := by
  rw [cutAtFirst_append h]
  exact List.append_nil own

/-- A path has one first component. -/
theorem firstPart_inj {own own' rest rest' : Str} (hown : '\\' ∉ own) (hown' : '\\' ∉ own')
    (h : own ++ '\\' :: rest = own' ++ '\\' :: rest') : own = own' ∧ rest = rest' := by
  have hsame := congrArg (cutAtFirst '\\') h
  rw [firstPart_eq hown, firstPart_eq hown'] at hsame
  subst hsame
  exact ⟨rfl, (List.cons.inj (List.append_cancel_left h)).2⟩

/-- No root is stripped from a path that starts with none. -/
theorem stripEach_roots {path p : Str} : ∀ {names : List Str},
    (∀ name ∈ names, '\\' ∉ name ∧ ¬ eqIgnoreAsciiCase (cutAtFirst '\\' path) name) →
    stripEach (names.map (· ++ ['\\'])) path = .ok p → p = path
  | [], _, h => (Exec.ok.inj h).symm
  | name :: names, hnames, h => by
    obtain ⟨p', hstrip, hrest⟩ := stripEach_cons h
    have hname := hnames name List.mem_cons_self
    cases hstrip with
    | @taken own _ hpath hown =>
      rw [hpath, firstPart_eq (backslash_not_mem hown hname.1)] at hname
      exact absurd hown hname.2
    | kept _ => exact stripEach_roots (fun n hn => hnames n (List.mem_cons_of_mem name hn)) hrest

/-- A path that does not start with a root does not look like one when it is collapsed. -/
theorem looksLikeHiveRoot_collapse {raw : Str} (h : ¬ StartsWithRoot raw) :
    looksLikeHiveRoot (collapseBackslashes raw) = false := by
  have hseg : (collapseBackslashes raw).takeWhile (· ≠ '\\') = cutAtFirst '\\' raw :=
    cutAtFirst_collapse raw
  unfold looksLikeHiveRoot
  rw [hseg, Bool.or_eq_false_iff, Bool.eq_false_iff, Bool.eq_false_iff]
  constructor
  · intro heq
    exact h (.inl ⟨_, by decide, heq⟩)
  · intro hpre
    exact h (.inr (List.isPrefixOf_iff_prefix.mp hpre))

/-- **What is left of a path without a root**: the collapsed path, less the names of hives. -/
theorem templateSegments_rest {raw : Str} {opt : Option (List Segment)}
    (h : templateSegments raw true = .ok opt) (hpercent : '%' ∉ raw) (hslash : '/' ∉ raw)
    (hroot : ¬ StartsWithRoot raw) : ∃ p,
      stripEach hiveNames (collapseBackslashes raw) = .ok p ∧
        opt.getD [] = (Key.pathParts p).map parseSegment := by
  have hcontains : (raw.contains '%' || raw.contains '/') = false := by
    rw [Bool.or_eq_false_iff]
    simp only [List.contains_eq_mem, decide_eq_false_iff_not]
    exact ⟨hpercent, hslash⟩
  unfold templateSegments at h
  rw [hcontains, if_neg Bool.false_ne_true] at h
  obtain ⟨normalized, hnorm, h⟩ := Exec.bind_eq_ok.mp h
  obtain ⟨path, hpath, hnorm⟩ := Exec.bind_eq_ok.mp hnorm
  -- the path starts with no root, so the roots take nothing off
  obtain rfl : path = collapseBackslashes raw := by
    refine @stripEach_roots _ _ rootNames (fun name hname => ?_) hpath
    rw [cutAtFirst_collapse]
    refine ⟨?_, fun heq => hroot (.inl ⟨name, hname, heq⟩)⟩
    revert name
    decide
  rw [looksLikeHiveRoot_collapse hroot, Bool.and_false, if_neg Bool.false_ne_true, if_pos rfl]
    at hnorm
  obtain ⟨p, hp, hnorm⟩ := Exec.bind_eq_ok.mp hnorm
  obtain rfl := Exec.ok.inj hnorm
  refine ⟨p, hp, ?_⟩
  by_cases hempty : p = []
  · rw [if_pos hempty] at h
    obtain rfl := Exec.ok.inj h
    rw [hempty]
    rfl
  · rw [if_neg hempty] at h
    obtain rfl := Exec.ok.inj h
    split
    · rename_i hnone
      rw [hnone]
      rfl
    · rfl

/-! ## The two hives -/

/-- The hives whose name a path may repeat. -/
inductive MachineHive where
  | software
  | system
deriving DecidableEq, Repr

namespace MachineHive

/-- The target of a hive in the catalog. -/
def target : MachineHive → HiveTarget
  | software => .hklmSoftware
  | system => .hklmSystem

/-- The name that can be repeated in a path. -/
def name : MachineHive → Str
  | software => "SOFTWARE".toList
  | system => "SYSTEM".toList

/-- The other one of the two hives. -/
def other : MachineHive → MachineHive
  | software => system
  | system => software

end MachineHive

/-- The template that `scan` resolves for a path against a hive with some target. -/
def scanTemplate (target : HiveTarget) (raw : Str) : Exec HiveError (Option (List Segment)) :=
  templateSegments raw (target = .hklmSoftware || target = .hklmSystem)

/-- A hive drops its own name in front, and nothing else. -/
structure RespectsHive (hive : MachineHive) (raw : Str) (segments : List Segment) : Prop where
  /-- At most one component is dropped, and only if it is the name of the hive. -/
  atMostOwn : segments = (Key.pathParts raw).map parseSegment ∨ ∃ first rest,
    Key.pathParts raw = first :: rest ∧ eqIgnoreAsciiCase first hive.name ∧
      segments = rest.map parseSegment
  /-- The name of the other hive stays. -/
  otherStays : ∀ first rest, Key.pathParts raw = first :: rest →
    eqIgnoreAsciiCase first hive.other.name → segments = (first :: rest).map parseSegment
  /-- The name of the hive in front of that of the other one goes. -/
  ownGoes : ∀ first second rest, Key.pathParts raw = first :: second :: rest →
    raw.head? ≠ some '\\' → eqIgnoreAsciiCase first hive.name →
    eqIgnoreAsciiCase second hive.other.name → segments = (second :: rest).map parseSegment

/-- No name is in front that the hive drops and should not: that of the other hive, which it tries
    to drop too, at the start or, in a SOFTWARE hive, after its own. -/
def Harmless (hive : MachineHive) (raw : Str) : Prop :=
  match hive with
  | .software => ¬ BeginsWith (collapseBackslashes raw) "SYSTEM".toList ∧
      ¬ BeginsWith (collapseBackslashes raw) "SOFTWARE\\SYSTEM".toList
  | .system => ¬ BeginsWith (collapseBackslashes raw) "SOFTWARE".toList

/-- The names of the two hives differ. -/
theorem MachineHive.not_both {hive : MachineHive} {own : Str} (h : eqIgnoreAsciiCase own hive.name)
    (h' : eqIgnoreAsciiCase own hive.other.name) : False := by
  have hnames := (eqIgnoreAsciiCase_iff.mp h).symm.trans (eqIgnoreAsciiCase_iff.mp h')
  cases hive <;> exact absurd hnames (by decide)

/-- The names are single parts. -/
theorem MachineHive.backslash_not_mem_name (hive : MachineHive) : '\\' ∉ hive.name := by
  cases hive <;> decide

/-- A spelling of the name is not empty. -/
theorem MachineHive.name_ne_nil {hive : MachineHive} {own : Str}
    (h : eqIgnoreAsciiCase own hive.name) : own ≠ [] := by
  rintro rfl
  have hnames := eqIgnoreAsciiCase_iff.mp h
  cases hive <;> exact absurd hnames (by decide)

/-- A path that begins with the name of a hive has it as its first component. -/
theorem pathParts_of_begins {hive : MachineHive} {raw own rest : Str}
    (hpath : collapseBackslashes raw = own ++ '\\' :: rest)
    (hown : eqIgnoreAsciiCase own hive.name) :
    Key.pathParts raw = own :: Key.pathParts rest := by
  rw [← pathParts_collapse, hpath]
  exact Key.pathParts_cons (MachineHive.name_ne_nil hown)
    (backslash_not_mem hown hive.backslash_not_mem_name) rest

/-- Two components have a backslash between them. -/
theorem eq_first_append {path first second : Str} {rest : List Str} (hhead : path.head? ≠ some '\\')
    (h : Key.pathParts path = first :: second :: rest) : ∃ tail, path = first ++ '\\' :: tail := by
  by_cases hsep : '\\' ∈ path
  · obtain ⟨own, tail, rfl, hown⟩ := List.eq_append_cons_of_mem hsep
    have hne : own ≠ [] := by
      rintro rfl
      exact hhead rfl
    rw [Key.pathParts_cons hne hown] at h
    exact ⟨tail, by rw [(List.cons.inj h).1]⟩
  · unfold Key.pathParts at h
    rw [List.splitOn_eq_singleton hsep] at h
    have hlen := (List.filter_sublist (p := fun s : Str => decide (s ≠ [])) (l := [path])).length_le
    rw [h] at hlen
    exact absurd hlen (by simp)

/-- A path that does not begin with the name of the hive keeps all its components. -/
theorem respects_kept {hive : MachineHive} {raw : Str} {segments : List Segment}
    (hkept : ¬ BeginsWith (collapseBackslashes raw) hive.name)
    (hsegments : segments = (Key.pathParts raw).map parseSegment) :
    RespectsHive hive raw segments where
  atMostOwn := .inl hsegments
  otherStays first rest hparts _ := by rw [hsegments, hparts]
  ownGoes first second rest hparts hhead hfirst _ := by
    rw [← head?_collapse] at hhead
    rw [← pathParts_collapse] at hparts
    obtain ⟨tail, hpath⟩ := eq_first_append hhead hparts
    exact absurd ⟨first, tail, hpath, hfirst⟩ hkept

/-- A path that begins with the name of the hive loses it. -/
theorem respects_taken {hive : MachineHive} {raw own tail : Str} {segments : List Segment}
    (hpath : collapseBackslashes raw = own ++ '\\' :: tail) (hown : eqIgnoreAsciiCase own hive.name)
    (hsegments : segments = (Key.pathParts tail).map parseSegment) :
    RespectsHive hive raw segments where
  atMostOwn := .inr ⟨own, Key.pathParts tail, pathParts_of_begins hpath hown, hown, hsegments⟩
  otherStays first rest hparts hfirst := by
    rw [pathParts_of_begins hpath hown] at hparts
    rw [← (List.cons.inj hparts).1] at hfirst
    exact absurd hfirst fun h => MachineHive.not_both hown h
  ownGoes first second rest hparts _ _ _ := by
    rw [pathParts_of_begins hpath hown] at hparts
    rw [hsegments, (List.cons.inj hparts).2]

/-- A hive that drops the name of the other one does not respect it. -/
theorem not_respects_other {hive : MachineHive} {raw own tail : Str} {segments : List Segment}
    (hpath : collapseBackslashes raw = own ++ '\\' :: tail)
    (hown : eqIgnoreAsciiCase own hive.other.name)
    (hlen : segments.length ≤ (Key.pathParts tail).length) : ¬ RespectsHive hive raw segments := by
  intro h
  have hkept := h.otherStays own _ (pathParts_of_begins hpath hown) hown
  rw [hkept, List.length_map, List.length_cons] at hlen
  omega

/-- A hive drops at most one component. -/
theorem RespectsHive.length_le {hive : MachineHive} {raw : Str} {segments : List Segment}
    (h : RespectsHive hive raw segments) : (Key.pathParts raw).length ≤ segments.length + 1 := by
  rcases h.atMostOwn with rfl | ⟨first, rest, hparts, _, rfl⟩
  · rw [List.length_map]
    omega
  · rw [hparts, List.length_map, List.length_cons]

/-- A strip adds no component. -/
theorem Strip.length_le {name path p : Str} (h : Strip name path p) :
    (Key.pathParts p).length ≤ (Key.pathParts path).length := by
  cases h with
  | @taken own _ hpath _ =>
    rw [hpath, Key.pathParts_append, List.length_append]
    omega
  | kept _ => exact Nat.le_refl _

/-- The names of both hives, one after the other. -/
theorem beginsWith_both {path : Str} : BeginsWith path "SOFTWARE\\SYSTEM".toList ↔
    ∃ own own' rest, path = own ++ '\\' :: (own' ++ '\\' :: rest) ∧
      eqIgnoreAsciiCase own "SOFTWARE".toList ∧ eqIgnoreAsciiCase own' "SYSTEM".toList := by
  have hjoined : "SOFTWARE\\SYSTEM".toList = ("SOFTWARE".toList ++ ['\\']) ++ "SYSTEM".toList := by
    decide
  constructor
  · rintro ⟨both, rest, rfl, hboth⟩
    rw [hjoined] at hboth
    obtain ⟨front, own', rfl, hfront, hown'⟩ := eqIgnoreAsciiCase_append_iff.mp hboth
    obtain ⟨own, rfl, hown⟩ := (eqIgnoreAsciiCase_append_singleton backslash_keepsOnly).mp hfront
    refine ⟨own, own', rest, ?_, hown, hown'⟩
    rw [List.append_assoc, List.append_assoc, List.singleton_append]
  · rintro ⟨own, own', rest, rfl, hown, hown'⟩
    refine ⟨(own ++ ['\\']) ++ own', rest, ?_, ?_⟩
    · rw [List.append_assoc, List.append_assoc, List.singleton_append]
    · have hfront := (eqIgnoreAsciiCase_append_singleton backslash_keepsOnly).mpr ⟨own, rfl, hown⟩
      rw [hjoined]
      exact eqIgnoreAsciiCase_append_iff.mpr ⟨own ++ ['\\'], own', rfl, hfront, hown'⟩

/-! ## What is dropped -/

/-- Nor does it have a separator: folding keeps the characters that are no letters. -/
theorem MachineHive.not_backslash {hive : MachineHive} {own : Str}
    (h : eqIgnoreAsciiCase own hive.name) : '\\' ∉ own :=
  backslash_not_mem h hive.backslash_not_mem_name

/-- A path that begins with one of the names does not begin with the other. -/
theorem not_begins_other {hive : MachineHive} {path own tail : Str}
    (hpath : path = own ++ '\\' :: tail) (hown : eqIgnoreAsciiCase own hive.name) :
    ¬ BeginsWith path hive.other.name := by
  rintro ⟨own', rest, hpath', hown'⟩
  obtain ⟨rfl, _⟩ := firstPart_inj (MachineHive.not_backslash hown)
    (MachineHive.not_backslash hown') (hpath.symm.trans hpath')
  exact MachineHive.not_both hown hown'

/-- In a SOFTWARE hive. -/
theorem respects_software_iff {raw p : Str} {segments : List Segment}
    (hp : stripEach hiveNames (collapseBackslashes raw) = .ok p)
    (hsegments : segments = (Key.pathParts p).map parseSegment) :
    RespectsHive .software raw segments ↔ Harmless .software raw := by
  obtain ⟨p', hfirst, hp⟩ := @stripEach_cons "SOFTWARE".toList _ _ _ hp
  obtain ⟨p'', hsecond, hp⟩ := @stripEach_cons "SYSTEM".toList _ _ _ hp
  obtain rfl := Exec.ok.inj hp
  cases hfirst with
  | @taken own _ hpath hown =>
    cases hsecond with
    | @taken own' _ hpath' hown' =>
      -- both names go
      have hparts : Key.pathParts raw = own :: own' :: Key.pathParts p'' := by
        rw [@pathParts_of_begins .software _ _ _ hpath hown, hpath',
          Key.pathParts_cons (@MachineHive.name_ne_nil .system _ hown')
            (@MachineHive.not_backslash .system _ hown')]
      constructor
      · intro h
        have hlen := h.length_le
        rw [hparts, hsegments, List.length_map, List.length_cons, List.length_cons] at hlen
        omega
      · rintro ⟨_, hboth⟩
        rw [hpath'] at hpath
        exact absurd (beginsWith_both.mpr ⟨own, own', p'', hpath, hown, hown'⟩) hboth
    | kept hkept' =>
      have hrespects := @respects_taken .software _ _ _ _ hpath hown hsegments
      refine iff_of_true hrespects ⟨@not_begins_other .software _ _ _ hpath hown, fun hboth => ?_⟩
      obtain ⟨first, own', rest, hpath', hfirst, hown'⟩ := beginsWith_both.mp hboth
      obtain ⟨_, htail⟩ := firstPart_inj (@MachineHive.not_backslash .software _ hown)
        (@MachineHive.not_backslash .software _ hfirst) (hpath.symm.trans hpath')
      exact hkept' ⟨own', rest, htail, hown'⟩
  | kept hkept =>
    cases hsecond with
    | @taken own _ hpath hown =>
      refine iff_of_false (@not_respects_other .software _ _ _ _ hpath hown ?_) ?_
      · rw [hsegments, List.length_map]
      · rintro ⟨hother, _⟩
        exact hother ⟨own, _, hpath, hown⟩
    | kept hkept' =>
      rw [pathParts_collapse] at hsegments
      have hrespects := @respects_kept .software _ _ hkept hsegments
      refine iff_of_true hrespects ⟨hkept', fun hboth => ?_⟩
      obtain ⟨own, own', rest, hpath, hown, _⟩ := beginsWith_both.mp hboth
      exact hkept ⟨own, _, hpath, hown⟩

/-- In a SYSTEM hive. -/
theorem respects_system_iff {raw p : Str} {segments : List Segment}
    (hp : stripEach hiveNames (collapseBackslashes raw) = .ok p)
    (hsegments : segments = (Key.pathParts p).map parseSegment) :
    RespectsHive .system raw segments ↔ Harmless .system raw := by
  obtain ⟨p', hfirst, hp⟩ := @stripEach_cons "SOFTWARE".toList _ _ _ hp
  obtain ⟨p'', hsecond, hp⟩ := @stripEach_cons "SYSTEM".toList _ _ _ hp
  obtain rfl := Exec.ok.inj hp
  cases hfirst with
  | @taken own _ hpath hown =>
    refine iff_of_false (@not_respects_other .system _ _ _ _ hpath hown ?_)
      fun hharmless => hharmless ⟨own, _, hpath, hown⟩
    rw [hsegments, List.length_map]
    exact hsecond.length_le
  | kept hkept =>
    refine iff_of_true ?_ hkept
    cases hsecond with
    | taken hpath hown => exact @respects_taken .system _ _ _ _ hpath hown hsegments
    | kept hkept' =>
      rw [pathParts_collapse] at hsegments
      exact @respects_kept .system _ _ hkept' hsegments

/-- **A hive drops its own name, and nothing else**, from a path without a root, exactly when the
    path begins with no name that the hive should keep.  A path with a slash is not resolved.  The
    two names are tried one after the other in either hive, so the other hive's name is stripped as
    well, and so is a second one behind the first. -/
theorem templateSegments_respects_iff {hive : MachineHive} {raw : Str}
    {opt : Option (List Segment)} (h : scanTemplate hive.target raw = .ok opt)
    (hpercent : '%' ∉ raw) (hroot : ¬ StartsWithRoot raw) :
    ('/' ∉ raw → RespectsHive hive raw (opt.getD [])) ↔ ('/' ∉ raw → Harmless hive raw) := by
  refine forall_congr' fun hslash => ?_
  have htrue : templateSegments raw true = .ok opt := by
    cases hive <;> exact h
  obtain ⟨p, hp, hsegments⟩ := templateSegments_rest htrue hpercent hslash hroot
  cases hive with
  | software => exact respects_software_iff hp hsegments
  | system => exact respects_system_iff hp hsegments

/-- A SOFTWARE hive drops its own name. -/
theorem templateSegments_respects_iff_own :
    scanTemplate .hklmSoftware "software\\Microsoft".toList =
      .ok (some [.literal "Microsoft".toList]) ∧
    (('/' ∉ "software\\Microsoft".toList →
        RespectsHive .software "software\\Microsoft".toList [.literal "Microsoft".toList]) ↔
      ('/' ∉ "software\\Microsoft".toList →
        Harmless .software "software\\Microsoft".toList)) := by
  have hscan : scanTemplate .hklmSoftware "software\\Microsoft".toList =
      .ok (some [.literal "Microsoft".toList]) := by
    decide
  exact ⟨hscan, @templateSegments_respects_iff .software _ _ hscan (by decide) (by decide)⟩

/-- A SOFTWARE hive drops the name of the other hive. -/
theorem scanTemplate_drops_other : ∃ segments,
    scanTemplate MachineHive.software.target "SYSTEM\\Foo".toList = .ok (some segments) ∧
      '%' ∉ "SYSTEM\\Foo".toList ∧ '/' ∉ "SYSTEM\\Foo".toList ∧
      ¬ StartsWithRoot "SYSTEM\\Foo".toList ∧
      segments = [.literal "Foo".toList] ∧
      ¬ RespectsHive .software "SYSTEM\\Foo".toList segments := by
  refine ⟨_, by decide, by decide, by decide, by decide, rfl, ?_⟩
  intro h
  have hkept := h.otherStays "SYSTEM".toList ["Foo".toList] (by decide) (by decide)
  exact absurd hkept (by decide)

end Catalog

end Winreg
