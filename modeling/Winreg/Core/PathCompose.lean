/-
  PATH LOOKUP COMPOSES: a path can be looked up in two steps, cut at any backslash.

  `subkey_path` takes the first component outside of its loop, returns early where a key is missing
  and leaves empty components out.  Together that is one walk down the components, so a lookup along
  `p\q` is the lookup along `p` followed by the one along `q`.

  1. **Components** — those of `p\q` are those of `p` and those of `q`; more backslashes add none
     (`pathParts_append`).
  2. **Outcomes** — what the lookup along `p` leaves to the one along `q` (`subkeyPath_append`).
-/
import Winreg.Core.Path

namespace Winreg

open Rust

namespace Key

/-! ## Components -/

/-- **The components of a joined path** are those of its two parts. -/
theorem pathParts_append (p q : Str) : pathParts (p ++ '\\' :: q) = pathParts p ++ pathParts q := by
  unfold pathParts
  rw [List.splitOn_append_cons_self, List.filter_append]

/-- A leading backslash adds no component. -/
theorem pathParts_backslash (q : Str) : pathParts ('\\' :: q) = pathParts q :=
  pathParts_append [] q

/-- A component in front. -/
theorem pathParts_cons {name : Str} (hne : name ≠ []) (hsep : '\\' ∉ name) (rest : Str) :
    pathParts (name ++ '\\' :: rest) = name :: pathParts rest := by
  unfold pathParts
  rw [List.splitOn_append_cons_self_of_not_mem hsep, List.filter_cons_of_pos (by simpa using hne)]

/-! ## Outcomes -/

/-- The lookup with its first step outside of the loop, as the source has it. -/
theorem subkeyPath_first (r : CellReader) (n : Nat) (k : Key) (path : Str) :
    k.subkeyPath r n path = match pathParts path with
      | [] => .ok none
      | part :: parts => k.subkey r n part >>= fun
        | none => .ok none
        | some current => descend r n current parts := by
  unfold subkeyPath
  cases pathParts path with
  | nil => rfl
  | cons part parts => rfl

/-- A lookup along a path with a component is the walk down its components. -/
theorem subkeyPath_eq_descend (r : CellReader) (n : Nat) (k : Key) {path : Str}
    (h : pathParts path ≠ []) : k.subkeyPath r n path = descend r n k (pathParts path) := by
  unfold subkeyPath
  cases hparts : pathParts path with
  | nil => exact absurd hparts h
  | cons part parts => rfl

/-- **Path lookup composes**, on every backend and with every outcome: a key found along `p` is
    where the lookup along `q` goes on, and any other outcome of `p` is the outcome of `p\q`.  Both
    lookups take the parts of the path one by one, so the parts of `p\q` are those of `p` and those
    of `q`, and nothing is left between them. -/
theorem subkeyPath_append (r : CellReader) (n : Nat) (k : Key) {p q : Str}
    (hp : pathParts p ≠ []) (hq : pathParts q ≠ []) :
    (∀ k2, k.subkeyPath r n p = .ok (some k2) →
      k.subkeyPath r n (p ++ '\\' :: q) = k2.subkeyPath r n q) ∧
    ((∀ k2, k.subkeyPath r n p ≠ .ok (some k2)) →
      k.subkeyPath r n (p ++ '\\' :: q) = k.subkeyPath r n p) := by
  have hpq : pathParts (p ++ '\\' :: q) ≠ [] := by
    rw [pathParts_append]
    exact List.append_ne_nil_of_left_ne_nil hp _
  -- both lookups descend part by part, so the long one goes on where the short one ends
  have hwalk : k.subkeyPath r n (p ++ '\\' :: q) = (k.subkeyPath r n p >>= fun
      | none => .ok none
      | some k2 => k2.subkeyPath r n q) := by
    rw [subkeyPath_eq_descend r n k hpq, subkeyPath_eq_descend r n k hp, pathParts_append,
      descend_append n (pathParts q) (pathParts p) k]
    refine congrArg _ (funext fun found => ?_)
    cases found with
    | none => rfl
    | some k2 => exact (subkeyPath_eq_descend r n k2 hq).symm
  refine ⟨?_, ?_⟩
  · intro k2 hfound
    rw [hwalk, hfound]
    rfl
  · intro hnone
    rw [hwalk]
    cases hout : k.subkeyPath r n p with
    | ok found =>
      cases found with
      | none => rfl
      | some k2 => exact absurd hout (hnone k2)
    | err e => rfl
    | panic => rfl
    | timeout => rfl

/-- From the root of the nested tree, down `a` and then down `\b`. -/
theorem subkeyPath_append_nested : ∃ n,
    nestedRoot.subkeyPath nestedHive.reader n "a".toList = .ok (some nestedA) ∧
      nestedRoot.subkeyPath nestedHive.reader n "a\\\\b".toList =
        nestedA.subkeyPath nestedHive.reader n "\\b".toList := by
  have hdown : Exec.Evals (fun n => descend nestedHive.reader n nestedRoot [['a']])
      (.ok (some nestedA)) :=
    Exec.Evals.bind (Exec.Evals.bind nested_subkeys.1 (Exec.Evals.const (.ok (some nestedA))))
      (Exec.Evals.const _)
  obtain ⟨n, hn⟩ := hdown
  have hfound : nestedRoot.subkeyPath nestedHive.reader n "a".toList = .ok (some nestedA) := by
    rw [subkeyPath_eq_descend _ _ _ (by decide)]
    exact hn n (Nat.le_refl n)
  exact ⟨n, hfound, (subkeyPath_append nestedHive.reader n nestedRoot (p := "a".toList)
    (q := "\\b".toList) (by decide) (by decide)).1 nestedA hfound⟩

end Key

end Winreg
