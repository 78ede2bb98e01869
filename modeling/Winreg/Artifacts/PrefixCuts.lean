/-
  PREFIX CUTS: where a prefix is cut off inside a character.

  `strip_prefix_ci` cuts a path at the length of the prefix, in bytes, and compares only then.  It
  checks that the path is long enough; that the cut is between two characters it does not check, and
  a path with a wider character there aborts, whatever the prefix.

  1. A cut is inside a character, behind some of the prefixes before it (`CutsInside`); `Leaves` is
     what is left when no prefix is in front any more.  Neither names a step of the loop: a cut that
     is not made, since a prefix was dropped before it, would have been between ASCII characters.
  2. The loop over the prefixes aborts exactly at such cuts (`stripEach_eq_panic_iff`).
  3. The functions of the scanner come back exactly from the paths without such cuts
     (`templateSegments_returns_iff`, `stripUserPlaceholderPrefix_returns_iff`), so from all ASCII
     paths (`returns_of_isAscii`).
-/
import Winreg.Artifacts.UserPaths

namespace Winreg

open Rust

namespace Catalog

/-! ## Cuts one after another -/

/-- A cut is inside a character: that of some prefix, behind some of those before it. -/
def CutsInside (roots : List Str) (path : Str) : Prop :=
  ∃ dropped next rest, (dropped ++ [next]).Sublist roots ∧ Leads dropped path rest ∧
    InsideChar rest (utf8Len next)

/-- What is left of a path behind some of the prefixes, if none of those after them is next. -/
def Leaves (roots : List Str) (path rest : Str) : Prop :=
  ∃ dropped, dropped.Sublist roots ∧ Leads dropped path rest ∧
    ∀ next, (dropped ++ [next]).Sublist roots → ∀ rest', ¬ Leads [next] rest rest'

/-- No root of the list starts with one that is tried before it. -/
theorem tried_hiveRoots : Tried hiveRoots where
  ascii := by decide
  ordered := by decide

/-- Nor does a name of a hive. -/
theorem tried_hiveNames : Tried hiveNames where
  ascii := by decide
  ordered := by decide

variable {root path rest : Str} {roots : List Str}

/-- The first prefix is cut inside a character, or dropped, or passed over. -/
theorem cutsInside_cons : CutsInside (root :: roots) path ↔
    InsideChar path (utf8Len root) ∨ (∃ mid, Leads [root] path mid ∧ CutsInside roots mid) ∨
      CutsInside roots path := by
  constructor
  · rintro ⟨dropped, next, rest, hsub, hlead, hinside⟩
    rcases List.sublist_cons_iff.mp hsub with hsub | ⟨later, heq, hsub⟩
    · exact .inr (.inr ⟨dropped, next, rest, hsub, hlead, hinside⟩)
    · cases dropped with
      | nil =>
        obtain ⟨rfl, rfl⟩ := List.cons.inj heq
        rw [leads_nil.mp hlead]
        exact .inl hinside
      | cons first dropped =>
        obtain ⟨rfl, rfl⟩ := List.cons.inj heq
        obtain ⟨mid, hfirst, hlead⟩ := leads_cons.mp hlead
        exact .inr (.inl ⟨mid, hfirst, dropped, next, rest, hsub, hlead, hinside⟩)
  · rintro (hinside | ⟨mid, hfirst, dropped, next, rest, hsub, hlead, hinside⟩ |
      ⟨dropped, next, rest, hsub, hlead, hinside⟩)
    · exact ⟨[], root, path, List.cons_sublist_cons.mpr (List.nil_sublist roots),
        leads_nil.mpr rfl, hinside⟩
    · exact ⟨root :: dropped, next, rest, List.cons_sublist_cons.mpr hsub,
        leads_cons.mpr ⟨mid, hfirst, hlead⟩, hinside⟩
    · exact ⟨dropped, next, rest, hsub.cons root, hlead, hinside⟩

/-- Where nothing is tried nothing is cut. -/
theorem not_cutsInside_nil : ¬ CutsInside [] path := by
  rintro ⟨dropped, next, rest, hsub, _⟩
  exact absurd (List.sublist_nil.mp hsub) (by simp)

/-- Once the first prefix is dropped, the cuts in the whole path are no matter. -/
theorem Tried.not_cutsInside (h : Tried (root :: roots)) (hlead : Leads [root] path rest) :
    ¬ CutsInside roots path := by
  rintro ⟨dropped, next, rest', hsub, hlead', hinside⟩
  cases dropped with
  | nil =>
    have hnext : next ∈ roots := List.singleton_sublist.mp hsub
    rw [← leads_nil.mp hlead'] at hinside
    exact h.not_insideChar hlead hnext hinside
  | cons first dropped =>
    have hfirst : first ∈ roots := hsub.subset List.mem_cons_self
    obtain ⟨mid, hmid, _⟩ := leads_cons.mp hlead'
    exact h.not_leads hlead hfirst mid hmid

/-- When a root has been taken off, the cuts that are left are those in the rest. -/
theorem Tried.cutsInside_taken (h : Tried (root :: roots)) (hlead : Leads [root] path rest) :
    CutsInside (root :: roots) path ↔ CutsInside roots rest := by
  rw [cutsInside_cons]
  constructor
  · rintro (hinside | ⟨mid, hmid, hcut⟩ | hcut)
    · exact absurd hinside hlead.not_insideChar
    · rw [hlead.unique hmid]
      exact hcut
    · exact absurd hcut (h.not_cutsInside hlead)
  · intro hcut
    exact .inr (.inl ⟨rest, hlead, hcut⟩)

/-- When it has not, they are those in the same path. -/
theorem cutsInside_kept (hinside : ¬ InsideChar path (utf8Len root))
    (hlead : ∀ rest, ¬ Leads [root] path rest) :
    CutsInside (root :: roots) path ↔ CutsInside roots path := by
  rw [cutsInside_cons]
  constructor
  · rintro (h | ⟨mid, hmid, _⟩ | hcut)
    · exact absurd h hinside
    · exact absurd hmid (hlead mid)
    · exact hcut
  · intro hcut
    exact .inr (.inr hcut)

/-! ## What is left -/

/-- Where nothing is tried the path stays. -/
theorem leaves_nil : Leaves [] path rest ↔ path = rest := by
  constructor
  · rintro ⟨dropped, hsub, hlead, _⟩
    rw [List.sublist_nil.mp hsub] at hlead
    exact leads_nil.mp hlead
  · rintro rfl
    refine ⟨[], List.Sublist.refl [], leads_nil.mpr rfl, fun next hnext => ?_⟩
    exact absurd (List.sublist_nil.mp hnext) (by simp)

/-- What is left behind a root that has been taken off. -/
theorem Tried.leaves_taken {mid : Str} (h : Tried (root :: roots)) (hlead : Leads [root] path mid) :
    Leaves (root :: roots) path rest ↔ Leaves roots mid rest := by
  constructor
  · rintro ⟨dropped, hsub, hrest, hlast⟩
    cases dropped with
    | nil =>
      -- the first prefix is still in front
      rw [← leads_nil.mp hrest] at hlast
      exact absurd hlead (hlast root (List.cons_sublist_cons.mpr (List.nil_sublist roots)) mid)
    | cons first dropped =>
      obtain ⟨mid', hfirst, hrest⟩ := leads_cons.mp hrest
      rcases List.sublist_cons_iff.mp hsub with hsub | ⟨later, heq, hsub⟩
      · exact absurd hfirst (h.not_leads hlead (hsub.subset List.mem_cons_self) mid')
      · obtain ⟨rfl, rfl⟩ := List.cons.inj heq
        rw [hlead.unique hfirst]
        exact ⟨dropped, hsub, hrest, fun next hnext => hlast next (hnext.cons_cons first)⟩
  · rintro ⟨dropped, hsub, hrest, hlast⟩
    refine ⟨root :: dropped, hsub.cons_cons root, leads_cons.mpr ⟨mid, hlead, hrest⟩, ?_⟩
    intro next hnext
    rcases List.sublist_cons_iff.mp hnext with hnext | ⟨later, heq, hnext⟩
    · exact hlast next ((List.sublist_cons_self root _).trans hnext)
    · obtain ⟨_, rfl⟩ := List.cons.inj heq
      exact hlast next hnext

/-- And of a path that does not have the root. -/
theorem leaves_kept (hlead : ∀ rest, ¬ Leads [root] path rest) :
    Leaves (root :: roots) path rest ↔ Leaves roots path rest := by
  constructor
  · rintro ⟨dropped, hsub, hrest, hlast⟩
    rcases List.sublist_cons_iff.mp hsub with hsub | ⟨later, rfl, hsub⟩
    · exact ⟨dropped, hsub, hrest, fun next hnext => hlast next (hnext.cons root)⟩
    · obtain ⟨mid, hfirst, _⟩ := leads_cons.mp hrest
      exact absurd hfirst (hlead mid)
  · rintro ⟨dropped, hsub, hrest, hlast⟩
    refine ⟨dropped, hsub.cons root, hrest, fun next hnext => ?_⟩
    rcases List.sublist_cons_iff.mp hnext with hnext | ⟨later, heq, hnext⟩
    · exact hlast next hnext
    · cases dropped with
      | nil =>
        obtain ⟨rfl, _⟩ := List.cons.inj heq
        rw [← leads_nil.mp hrest]
        exact hlead
      | cons first dropped =>
        obtain ⟨rfl, _⟩ := List.cons.inj heq
        obtain ⟨mid, hfirst, _⟩ := leads_cons.mp hrest
        exact absurd hfirst (hlead mid)

/-! ## The loop over the prefixes -/

/-- Stripping some prefixes comes back, or aborts. -/
theorem stripEach_cases : ∀ (roots : List Str) (path : Str),
    stripEach roots path = .panic ∨ ∃ rest, stripEach roots path = .ok rest
  | [], path => .inr ⟨path, rfl⟩
  | root :: roots, path => by
    rw [stripEach_step]
    rcases stripPrefixCi_cases path root with hpanic | ⟨o, ho⟩
    · rw [hpanic]
      exact .inl rfl
    · rw [ho]
      exact stripEach_cases roots (o.getD path)

/-- **Stripping some prefixes aborts** exactly where a cut is inside a character. -/
theorem stripEach_eq_panic_iff : ∀ {roots : List Str}, Tried roots → ∀ {path : Str},
    stripEach roots path = .panic ↔ CutsInside roots path
  | [], _, path => iff_of_false nofun not_cutsInside_nil
  | root :: roots, h, path => by
    rw [stripEach_step]
    have hcut := cutOff root path
    generalize stripPrefixCi path root = outcome at hcut ⊢
    cases hcut with
    | inside hinside => exact iff_of_true rfl (cutsInside_cons.mpr (.inl hinside))
    | taken hlead =>
      rw [h.cutsInside_taken hlead]
      exact stripEach_eq_panic_iff h.tail
    | kept hinside hlead =>
      rw [cutsInside_kept hinside hlead]
      exact stripEach_eq_panic_iff h.tail

/-- What stripping some prefixes comes back with. -/
theorem stripEach_leaves : ∀ {roots : List Str}, Tried roots → ∀ {path rest : Str},
    stripEach roots path = .ok rest → ∀ {rest'}, Leaves roots path rest' ↔ rest = rest'
  | [], _, path, rest, hstrip, rest' => by
    obtain rfl := Exec.ok.inj hstrip
    exact leaves_nil
  | root :: roots, h, path, rest, hstrip, rest' => by
    rw [stripEach_step] at hstrip
    have hcut := cutOff root path
    generalize stripPrefixCi path root = outcome at hcut hstrip
    cases hcut with
    | inside _ => cases hstrip
    | taken hlead =>
      rw [h.leaves_taken hlead]
      exact stripEach_leaves h.tail hstrip
    | kept _ hlead =>
      rw [leaves_kept hlead]
      exact stripEach_leaves h.tail hstrip

/-! ## The functions of the scanner -/

/-- A path that still begins as a root does. -/
def keepsRoot (path : Str) : Bool :=
  "HK".toList.isPrefixOf path && path.contains '\\' && looksLikeHiveRoot path

/-- Where `normalize_path_prefixes` cuts inside a character: at a root, or at the name of a hive
    behind the roots, which is tried only on a path without a root. -/
def NormalizesInside (path : Str) (stripHiveRoot : Bool) : Prop :=
  CutsInside hiveRoots path ∨
    stripHiveRoot = true ∧
      ∃ rest, Leaves hiveRoots path rest ∧ keepsRoot rest = false ∧ CutsInside hiveNames rest

/-- Behind the roots, a cut can still fall inside a character at the names of the hives, if these
    are stripped at all. -/
theorem normalizesInside_of_roots {path rest : Str} {stripHiveRoot : Bool}
    (hroots : stripEach hiveRoots path = .ok rest) : NormalizesInside path stripHiveRoot ↔
      stripHiveRoot = true ∧ keepsRoot rest = false ∧ CutsInside hiveNames rest := by
  have hclean : ¬ CutsInside hiveRoots path := by
    rw [← stripEach_eq_panic_iff tried_hiveRoots, hroots]
    exact nofun
  constructor
  · rintro (hroot | ⟨hstrip, rest', hrest, hnames⟩)
    · exact absurd hroot hclean
    · obtain rfl := (stripEach_leaves tried_hiveRoots hroots).mp hrest
      exact ⟨hstrip, hnames⟩
  · rintro ⟨hstrip, hnames⟩
    exact .inr ⟨hstrip, rest, (stripEach_leaves tried_hiveRoots hroots).mpr rfl, hnames⟩

/-- Behind the roots, what is done with the rest of the path. -/
theorem normalizePathPrefixes_of_roots {raw path : Str} (stripHiveRoot : Bool)
    (hroots : stripEach hiveRoots (collapseBackslashes raw) = .ok path) :
    normalizePathPrefixes raw stripHiveRoot =
      if keepsRoot path then .ok none
      else (if stripHiveRoot then stripEach hiveNames path else .ok path) >>= fun normalized =>
        .ok (if normalized = [] then none else some normalized) := by
  rw [normalizePathPrefixes, hroots]
  cases stripHiveRoot <;> rfl

/-- Normalizing panics exactly where a cut falls inside a character, and returns otherwise. -/
theorem normalizePathPrefixes_cases (raw : Str) (stripHiveRoot : Bool) :
    (NormalizesInside (collapseBackslashes raw) stripHiveRoot ∧
        normalizePathPrefixes raw stripHiveRoot = .panic) ∨
      (¬ NormalizesInside (collapseBackslashes raw) stripHiveRoot ∧
        ∃ o, normalizePathPrefixes raw stripHiveRoot = .ok o) := by
  rcases stripEach_cases hiveRoots (collapseBackslashes raw) with hroots | ⟨path, hroots⟩
  · refine .inl ⟨.inl ((stripEach_eq_panic_iff tried_hiveRoots).mp hroots), ?_⟩
    rw [normalizePathPrefixes, hroots]
    rfl
  rw [normalizePathPrefixes_of_roots stripHiveRoot hroots, normalizesInside_of_roots hroots]
  by_cases hkeeps : keepsRoot path = true
  · rw [if_pos hkeeps, hkeeps]
    exact .inr ⟨nofun, none, rfl⟩
  rw [if_neg hkeeps]
  cases stripHiveRoot with
  | false => exact .inr ⟨nofun, _, rfl⟩
  | true =>
    rw [if_pos rfl, ← stripEach_eq_panic_iff tried_hiveNames]
    rcases stripEach_cases hiveNames path with hnames | ⟨normalized, hnames⟩
    · rw [hnames]
      exact .inl ⟨⟨rfl, Bool.eq_false_iff.mpr hkeeps, rfl⟩, rfl⟩
    · rw [hnames]
      exact .inr ⟨nofun, _, rfl⟩

/-- **A catalog path is made a template** exactly if it is out of scope or no cut of its collapsed
    form is inside a character. -/
theorem templateSegments_returns_iff (raw : Str) (stripHiveRoot : Bool) :
    (templateSegments raw stripHiveRoot).Returns ↔
      ('%' ∈ raw ∨ '/' ∈ raw) ∨ ¬ NormalizesInside (collapseBackslashes raw) stripHiveRoot := by
  have hscope : (raw.contains '%' || raw.contains '/') = true ↔ '%' ∈ raw ∨ '/' ∈ raw := by
    rw [Bool.or_eq_true, List.contains_iff_mem, List.contains_iff_mem]
  unfold templateSegments
  by_cases hraw : (raw.contains '%' || raw.contains '/') = true
  · rw [if_pos hraw]
    exact iff_of_true (.inl ⟨none, rfl⟩) (.inl (hscope.mp hraw))
  rw [if_neg hraw, or_iff_right (fun h => hraw (hscope.mpr h))]
  rcases normalizePathPrefixes_cases raw stripHiveRoot with ⟨hinside, hpanic⟩ | ⟨hclean, o, ho⟩
  · rw [hpanic]
    exact iff_of_false (fun h => h.ne_panic rfl) (fun h => h hinside)
  · rw [ho]
    refine iff_of_true (.inl ?_) hclean
    cases o with
    | none => exact ⟨_, rfl⟩
    | some normalized => exact ⟨_, rfl⟩

-- the root is dropped first: in the whole path, `SYSTEM\` would be cut inside the character
example : templateSegments "HKLM\\日".toList true = .ok (some [.literal "日".toList]) := by decide

/-- **The root of a user is stripped** exactly if neither of its two cuts is inside a character. -/
theorem stripUserPlaceholderPrefix_returns_iff (raw : Str) :
    (stripUserPlaceholderPrefix raw).Returns ↔
      ¬ InsideChar raw (utf8Len "HKEY_USERS\\".toList) ∧
        ¬ InsideChar raw (utf8Len "HKU\\".toList) := by
  rw [← cutsClean_iff]
  rcases stripUserPlaceholderPrefix_eq raw with ⟨hclean, o, ho, _⟩ | ⟨hcut, hpanic⟩
  · exact iff_of_true (.inl ⟨o, ho⟩) hclean
  · rw [hpanic]
    exact iff_of_false (fun h => h.ne_panic rfl) hcut

/-! ## ASCII paths -/

/-- Collapsing keeps a path ASCII. -/
theorem isAscii_collapse {raw : Str} (h : isAscii raw = true) :
    isAscii (collapseBackslashes raw) = true := by
  induction raw using collapseBackslashes.induct with
  | case1 rest ih =>
    rw [collapseBackslashes]
    obtain ⟨hslash, hrest⟩ := isAscii_cons_iff.mp (isAscii_cons_iff.mp h).2
    exact isAscii_cons_iff.mpr ⟨hslash, ih hrest⟩
  | case2 c rest hne ih =>
    rw [collapseBackslashes.eq_2 c rest hne]
    obtain ⟨hc, hrest⟩ := isAscii_cons_iff.mp h
    exact isAscii_cons_iff.mpr ⟨hc, ih hrest⟩
  | case3 => rfl

/-- An ASCII path has a boundary at every byte. -/
theorem not_cutsInside_of_isAscii (h : isAscii path = true) : ¬ CutsInside roots path := by
  rintro ⟨dropped, next, rest, _, ⟨front, rfl, _⟩, hinside⟩
  exact not_insideChar_of_isAscii (isAscii_append_iff.mp h).2 _ hinside

/-- **A path of ASCII characters** aborts neither function. -/
theorem returns_of_isAscii {raw : Str} (h : isAscii raw = true) (stripHiveRoot : Bool) :
    (templateSegments raw stripHiveRoot).Returns ∧ (stripUserPlaceholderPrefix raw).Returns := by
  constructor
  · refine (templateSegments_returns_iff raw stripHiveRoot).mpr (.inr ?_)
    have hascii := isAscii_collapse h
    rintro (hroot | ⟨_, rest, ⟨dropped, _, ⟨front, heq, _⟩, _⟩, _, hname⟩)
    · exact not_cutsInside_of_isAscii hascii hroot
    · rw [heq] at hascii
      exact not_cutsInside_of_isAscii (isAscii_append_iff.mp hascii).2 hname
  · exact (stripUserPlaceholderPrefix_returns_iff raw).mpr
      ⟨not_insideChar_of_isAscii h _, not_insideChar_of_isAscii h _⟩

/-! ## All paths -/

/-- **Both functions come back** exactly from the paths that they cut between characters: for a
    template the collapsed path, if it is in scope, at the roots in front of it and at the names of
    hives; for a user the path itself, at the lengths of the two roots.  A prefix is compared by
    cutting the path at the prefix's length in bytes; the cut is taken before it is known whether
    the prefix is there. -/
theorem catalogPath_returns_iff (raw : Str) (stripHiveRoot : Bool) :
    ((templateSegments raw stripHiveRoot).Returns ↔
      ('%' ∈ raw ∨ '/' ∈ raw) ∨ ¬ NormalizesInside (collapseBackslashes raw) stripHiveRoot) ∧
    ((stripUserPlaceholderPrefix raw).Returns ↔
      ¬ InsideChar raw (utf8Len "HKEY_USERS\\".toList) ∧
        ¬ InsideChar raw (utf8Len "HKU\\".toList)) :=
  ⟨templateSegments_returns_iff raw stripHiveRoot, stripUserPlaceholderPrefix_returns_iff raw⟩

/-- The second of two characters stands across the ends of `HKLM\` and of `HKU\`. -/
theorem catalogPath_aborts :
    templateSegments "日本".toList true = .panic ∧ templateSegments "日本".toList false = .panic ∧
      stripUserPlaceholderPrefix "日本".toList = .panic ∧
      ¬ ∀ (raw : Str) (stripHiveRoot : Bool), (templateSegments raw stripHiveRoot).Returns ∧
        (stripUserPlaceholderPrefix raw).Returns := by
  have htemplate : templateSegments "日本".toList true = .panic := by decide
  have huser : stripUserPlaceholderPrefix "日本".toList = .panic := by decide
  refine ⟨htemplate, by decide, huser, fun h => ?_⟩
  obtain ⟨hreturns, _⟩ := h "日本".toList true
  exact hreturns.ne_panic htemplate

end Catalog

end Winreg
