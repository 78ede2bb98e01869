/-
  PATHS of a Unix file system: joining them and taking them apart.

  A path is a string.  Its components are what is between the slashes; empty ones and dots count
  for nothing, except a dot at the front.  The root directory is a component of its own, `/`.

  `components_join`: joining a file name to a path adds one component at the end.
-/
import Winreg.Base.Text

namespace Rust

namespace UnixPath

/-- `base.join(path)`: an absolute path replaces the base. -/
def join (base path : Str) : Str :=
  if path.head? = some '/' then path
  else if base = [] ∨ base.getLast? = some '/' then base ++ path
  else base ++ '/' :: path

/-- What is between two slashes counts unless it is empty or a dot. -/
def counts (part : Str) : Bool := part ≠ [] && part ≠ ['.']

/-- `path.components()`, each as a string. -/
def components (path : Str) : List Str :=
  match path.splitOn '/' with
  | [] => []
  | first :: rest =>
    if first ≠ [] then first :: rest.filter counts
    -- an absolute path starts with a slash
    else if path ≠ [] then ['/'] :: rest.filter counts
    else []

/-- The name of a directory entry. -/
structure IsFileName (name : Str) : Prop where
  nonempty : name ≠ []
  no_slash : '/' ∉ name
  not_dot : name ≠ ['.']

/-- The name of a file counts as a component. -/
theorem IsFileName.counts {name : Str} (h : IsFileName name) : counts name = true := by
  simp [UnixPath.counts, h.nonempty, h.not_dot]

/-- A path with a further part behind a slash. -/
theorem components_append_slash (base : Str) {part : Str} (hpart : '/' ∉ part) :
    components (base ++ '/' :: part) =
      (if base = [] then [['/']] else components base) ++ [part].filter counts := by
  have hsplit : (base ++ '/' :: part).splitOn '/' = base.splitOn '/' ++ [part] := by
    rw [List.splitOn_append_cons_self, List.splitOn_eq_singleton hpart]
  unfold components
  rw [hsplit]
  cases hfirst : base.splitOn '/' with
  | nil => exact absurd hfirst (List.splitOn_ne_nil _ _)
  | cons first rest =>
    rw [List.cons_append]
    dsimp only
    rw [List.filter_append, if_pos (show base ++ '/' :: part ≠ [] by simp)]
    by_cases hnil : base = []
    · subst hnil
      rw [List.splitOn_nil] at hfirst
      cases hfirst
      rfl
    · rw [if_neg hnil, if_pos hnil]
      split <;> rw [List.cons_append]

/-- **Joining a file name** adds a component. -/
theorem components_join {base name : Str} (h : IsFileName name) :
    components (join base name) = components base ++ [name] := by
  have hhead : name.head? ≠ some '/' := fun hc => h.no_slash (List.mem_of_mem_head? hc)
  have hcounts : [name].filter counts = [name] := by
    rw [List.filter_cons_of_pos h.counts, List.filter_nil]
  rw [join, if_neg hhead]
  by_cases hnil : base = []
  · subst hnil
    rw [if_pos (Or.inl rfl), List.nil_append]
    unfold components
    rw [List.splitOn_eq_singleton h.no_slash, List.splitOn_nil]
    dsimp only
    rw [if_pos h.nonempty]
    rfl
  by_cases hlast : base.getLast? = some '/'
  · obtain ⟨q, rfl⟩ := List.getLast?_eq_some_iff.mp hlast
    rw [if_pos (Or.inr hlast), List.append_assoc, List.singleton_append,
      components_append_slash q h.no_slash,
      components_append_slash q List.not_mem_nil, hcounts]
    simp [counts]
  · rw [if_neg (by simp [hnil, hlast]), components_append_slash base h.no_slash,
      if_neg hnil, hcounts]

end UnixPath

end Rust
