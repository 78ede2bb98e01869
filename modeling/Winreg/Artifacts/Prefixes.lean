/-
  PREFIXES: what is in front of a catalog path, and what a cut at its length does.

  1. `Leads` — a path begins with some prefixes, one behind the other.
  2. `CutOff` — `strip_prefix_ci` cuts a path inside a character, or takes the prefix, or keeps it.
  3. `Tried` — prefixes of which at most one is in front of a path; then the path is cut between
     characters at the lengths of those after it too.
-/
import Winreg.Artifacts.Catalog

namespace Winreg

open Rust

namespace Catalog

/-! ## In front of a path -/

/-- A path begins with some prefixes, one behind the other, ASCII case ignored. -/
def Leads (dropped : List Str) (path rest : Str) : Prop :=
  ∃ front, path = front ++ rest ∧ eqIgnoreAsciiCase front dropped.flatten

/-- Without roots a path leads to itself. -/
theorem leads_nil {path rest : Str} : Leads [] path rest ↔ path = rest := by
  constructor
  · rintro ⟨front, rfl, hfront⟩
    have hnil : front.map Char.toLower = [] := eqIgnoreAsciiCase_iff.mp hfront
    rw [List.map_eq_nil_iff.mp hnil, List.nil_append]
  · rintro rfl
    exact ⟨[], rfl, rfl⟩

/-- One root is taken off, in whatever case it is spelled. -/
theorem leads_singleton {root path rest : Str} :
    Leads [root] path rest ↔ ∃ front, path = front ++ rest ∧ eqIgnoreAsciiCase front root := by
  unfold Leads
  rw [List.flatten_singleton]

/-- Roots are taken off one after the other. -/
theorem leads_cons {root path rest : Str} {roots : List Str} :
    Leads (root :: roots) path rest ↔ ∃ mid, Leads [root] path mid ∧ Leads roots mid rest := by
  constructor
  · rintro ⟨front, rfl, hfront⟩
    rw [List.flatten_cons] at hfront
    obtain ⟨first, second, rfl, hfirst, hsecond⟩ := eqIgnoreAsciiCase_append_iff.mp hfront
    exact ⟨second ++ rest, leads_singleton.mpr ⟨first, List.append_assoc _ _ _, hfirst⟩,
      second, rfl, hsecond⟩
  · rintro ⟨mid, hlead, second, rfl, hsecond⟩
    obtain ⟨first, rfl, hfirst⟩ := leads_singleton.mp hlead
    refine ⟨first ++ second, (List.append_assoc _ _ _).symm, ?_⟩
    rw [List.flatten_cons]
    exact eqIgnoreAsciiCase_append_iff.mpr ⟨first, second, rfl, hfirst, hsecond⟩

/-- The lower case of a prefix begins the lower case of the path. -/
theorem Leads.lower_prefix {root path rest : Str} (h : Leads [root] path rest) :
    toAsciiLowercase root <+: toAsciiLowercase path := by
  obtain ⟨front, rfl, hfront⟩ := leads_singleton.mp h
  rw [← eqIgnoreAsciiCase_iff.mp hfront]
  exact (List.prefix_append front rest).map Char.toLower

/-! ## One cut -/

/-- What `strip_prefix_ci` makes of a path. -/
inductive CutOff (root path : Str) : Exec HiveError (Option Str) → Prop
  | inside : InsideChar path (utf8Len root) → CutOff root path .panic
  | taken {rest : Str} : Leads [root] path rest → CutOff root path (.ok (some rest))
  | kept : ¬ InsideChar path (utf8Len root) → (∀ rest, ¬ Leads [root] path rest) →
      CutOff root path (.ok none)

/-- The code takes a root off exactly where the path leads behind it. -/
theorem stripPrefixCi_taken_iff {root path rest : Str} :
    stripPrefixCi path root = .ok (some rest) ↔ Leads [root] path rest := by
  rw [stripPrefixCi_eq_some_iff, leads_singleton]

/-- The three ends of stripping: taken off, kept, or cut inside a character. -/
theorem cutOff (root path : Str) : CutOff root path (stripPrefixCi path root) := by
  rcases stripPrefixCi_cases path root with hpanic | ⟨o, ho⟩
  · rw [hpanic]
    exact .inside (stripPrefixCi_eq_panic_iff.mp hpanic)
  · cases o with
    | some rest =>
      rw [ho]
      exact .taken (stripPrefixCi_taken_iff.mp ho)
    | none =>
      have hinside : ¬ InsideChar path (utf8Len root) := by
        rw [← stripPrefixCi_eq_panic_iff, ho]
        exact nofun
      have hleads : ∀ rest, ¬ Leads [root] path rest := by
        intro rest
        rw [← stripPrefixCi_taken_iff, ho]
        exact nofun
      rw [ho]
      exact .kept hinside hleads

/-- A path is cut in one way. -/
theorem Leads.unique {root path rest rest' : Str} (h : Leads [root] path rest)
    (h' : Leads [root] path rest') : rest = rest' := by
  have hcut := stripPrefixCi_taken_iff.mpr h
  rw [stripPrefixCi_taken_iff.mpr h'] at hcut
  exact (Option.some.inj (Exec.ok.inj hcut)).symm

/-- A path that begins with a prefix is cut between characters behind it. -/
theorem Leads.not_insideChar {root path rest : Str} (h : Leads [root] path rest) :
    ¬ InsideChar path (utf8Len root) := by
  rw [← stripPrefixCi_eq_panic_iff, stripPrefixCi_taken_iff.mpr h]
  exact nofun

/-! ## Prefixes that exclude each other -/

/-- ASCII prefixes from long to short, none of which begins one before it. -/
structure Tried (roots : List Str) : Prop where
  ascii : ∀ root ∈ roots, isAscii root = true
  ordered : roots.Pairwise fun earlier later =>
    later.length ≤ earlier.length ∧ ¬ toAsciiLowercase later <+: toAsciiLowercase earlier

variable {root path rest : Str} {roots : List Str}

/-- The condition goes over to the roots that are still to be tried. -/
theorem Tried.tail (h : Tried (root :: roots)) : Tried roots where
  ascii later hlater := h.ascii later (List.mem_cons_of_mem root hlater)
  ordered := (List.pairwise_cons.mp h.ordered).2

/-- No path begins with two of the prefixes. -/
theorem Tried.not_leads (h : Tried (root :: roots)) (hlead : Leads [root] path rest) {later : Str}
    (hlater : later ∈ roots) (rest' : Str) : ¬ Leads [later] path rest' := by
  intro hlead'
  obtain ⟨hlen, hnot⟩ := (List.pairwise_cons.mp h.ordered).1 later hlater
  refine hnot (List.prefix_of_prefix_length_le hlead'.lower_prefix hlead.lower_prefix ?_)
  unfold toAsciiLowercase
  rw [List.length_map, List.length_map]
  exact hlen

/-- A path that begins with a prefix is cut between characters at the length of a later one. -/
theorem Tried.not_insideChar (h : Tried (root :: roots)) (hlead : Leads [root] path rest)
    {later : Str} (hlater : later ∈ roots) : ¬ InsideChar path (utf8Len later) := by
  obtain ⟨hlen, _⟩ := (List.pairwise_cons.mp h.ordered).1 later hlater
  obtain ⟨front, rfl, hfront⟩ := leads_singleton.mp hlead
  rw [utf8Len_of_isAscii (h.ascii later (List.mem_cons_of_mem root hlater))]
  apply IsCharBoundary.not_insideChar
  exact isCharBoundary_of_eqIgnoreAsciiCase hfront (h.ascii root List.mem_cons_self) hlen rest

end Catalog

end Winreg
