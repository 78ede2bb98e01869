/-
  LITERAL PATHS: a template of literals against the lookup of a path.

  The catalog is scanned with `expand`, the fixed paths of the decoders with `subkey_path`.  Both go
  down one level per name, and take the first subkey whose name is equal but for ASCII case: the
  one compares the lower case of the names, the other the upper case.  A listing that fails ends
  the expansion without a match, and the lookup with the error.

  1. **Down by names** — `descendNamed` also keeps the names of the keys that it passes.
  2. **One descent** — `descend` is that descent without the names (`descend_eq`), and so is the
     walk of a template of literals down to the depth cap, with one call of `emit` at the end
     (`walk_literals`).
  3. **The same key** — where the lookup finds a key, the expansion emits that key, once, and
     where it finds none or fails, nothing (`expand_literals`).
-/
import Winreg.Artifacts.Expansion

namespace Winreg

open Rust Relation

/-! ## Down by names -/

namespace Key

/-- Descend one level per name, and keep the names of the keys on the way. -/
def descendNamed (r : CellReader) (n : Nat) : Key → List Str →
    Exec HiveError (Option (List Str × Key))
  | key, [] => .ok (some ([], key))
  | key, name :: rest => do
    match ← key.subkey r n name with
    | none => .ok none
    | some child =>
      .ok ((← descendNamed r n child rest).map fun below => (child.name :: below.1, below.2))

end Key

section Descent

variable {r : CellReader}

/-- The lookup is this descent without the names. -/
theorem descend_eq (n : Nat) : ∀ (names : List Str) (key : Key),
    Key.descend r n key names =
      (Key.descendNamed r n key names >>= fun found => .ok (found.map Prod.snd))
  | [], key => rfl
  | name :: rest, key => by
    rw [Key.descend, Key.descendNamed, bind_assoc]
    refine congrArg _ (funext fun found => ?_)
    cases found with
    | none => rfl
    | some child =>
      dsimp only
      rw [descend_eq n rest child, bind_assoc]
      refine congrArg _ (funext fun below => ?_)
      rw [Exec.ok_bind, Option.map_map]
      rfl

/-- More fuel never changes a way down by names. -/
theorem descendNamed_grows : ∀ (names : List Str) (key : Key),
    Exec.Grows fun n => Key.descendNamed r n key names
  | [], _ => Exec.grows_const _
  | name :: rest, key => fun n => Exec.Refines.bind (subkey_grows key name n) fun found => by
    cases found with
    | none => exact Exec.Refines.refl _
    | some child =>
      exact Exec.Refines.bind (descendNamed_grows rest child n) fun _ => Exec.Refines.refl _

/-- The subkey that is found has the name looked for, but for ASCII case. -/
theorem name_of_subkey {key child : Key} {n : Nat} {name : Str}
    (h : key.subkey r n name = .ok (some child)) : eqIgnoreAsciiCase child.name name = true := by
  obtain ⟨keys, _, hfind⟩ := Exec.bind_eq_ok.mp h
  have hfolded := List.find?_some (Exec.ok.inj hfind)
  rw [eqIgnoreAsciiCase_iff, ← toAsciiUppercase_eq_iff]
  exact of_decide_eq_true hfolded

/-- **The descent goes down the key graph**: over keys that have the names looked for, but for ASCII
    case. -/
theorem descendNamed_eq_some {root : Key} {n : Nat} : ∀ (names : List Str) {key k : Key}
    {above passed : List Str}, Below r root above key →
    Key.descendNamed r n key names = .ok (some (passed, k)) →
    Below r root (above ++ passed) k ∧
      List.Forall₂ (fun onDisk name => eqIgnoreAsciiCase onDisk name = true) passed names := by
  intro names
  induction names with
  | nil =>
    intro key k above passed habove h
    cases h
    exact ⟨by rwa [List.append_nil], .nil⟩
  | cons name rest ih =>
    intro key k above passed habove h
    obtain ⟨found, hfound, h⟩ := Exec.bind_eq_ok.mp h
    cases found with
    | none => cases h
    | some child =>
      obtain ⟨below, hbelow, h⟩ := Exec.bind_eq_ok.mp h
      cases below with
      | none => cases h
      | some below =>
        cases h
        have hchild : Below r root (above ++ [child.name]) child :=
          .kid habove (subkey_eq_some hfound)
        obtain ⟨hk, hpassed⟩ := ih hchild hbelow
        rw [List.append_assoc] at hk
        exact ⟨hk, .cons (name_of_subkey hfound) hpassed⟩

end Descent

/-! ## One descent -/

namespace PathExpansion

variable {σ : Type} {emit : Emit σ} {r : CellReader} {n : Nat}
  {controlset : Option ControlSetResolver}

/-- The emission of the key that a descent has found, if it has found one. -/
def emitFound (emit : Emit σ) (path : Str) (s : WalkState σ) :
    Except HiveError (Option (List Str × Key)) → Exec HiveError (WalkState σ)
  | .ok (some (passed, k)) => do
    let out ← emit s.out s.bindings (passed.foldl joinPath path) k
    .ok { s with matched := s.matched + 1, out := out }
  | _ => .ok s

/-- A walk takes a literal as the lookup does, but for a failure. -/
theorem walk_literal {key : Key} {name : Str} {rest : List Segment} {path : Str} {depth : Nat}
    {s : WalkState σ} (hmatched : s.matched < maxGlobMatches) (hdepth : depth ≤ maxGlobDepth) :
    walk r n controlset emit key (.literal name :: rest) path depth s =
      ((key.subkey r n name).attempt >>= fun
        | .ok (some child) =>
          walk r n controlset emit child rest (joinPath path child.name) (depth + 1) s
        | _ => .ok s) := by
  have hfold : ∀ child : Key, eqIgnoreAsciiCase child.name name =
      decide (toAsciiUppercase child.name = toAsciiUppercase name) := fun child => by
    rw [Bool.eq_iff_iff, eqIgnoreAsciiCase_iff, ← toAsciiUppercase_eq_iff, decide_eq_true_iff]
  rw [walk, dif_neg (by omega), Key.subkey]
  cases key.subkeys r n with
  | ok children =>
    simp only [Exec.attempt_ok, Exec.ok_bind, hfold]
    cases children.find? fun child =>
      decide (toAsciiUppercase child.name = toAsciiUppercase name) <;> rfl
  | err e => rfl
  | panic => rfl
  | timeout => rfl

/-- **The walk of a template of literals** is the descent by its names; where that finds a key the
    walk emits it. -/
theorem walk_literals : ∀ (names : List Str) {key : Key} {path : Str} {depth : Nat}
    {s : WalkState σ}, s.matched < maxGlobMatches → depth + names.length ≤ maxGlobDepth →
    walk r n controlset emit key (names.map .literal) path depth s =
      ((Key.descendNamed r n key names).attempt >>= emitFound emit path s) := by
  intro names
  induction names with
  | nil =>
    intro key path depth s hmatched hdepth
    rw [List.length_nil] at hdepth
    rw [List.map_nil, walk, dif_neg (by omega)]
    rfl
  | cons name rest ih =>
    intro key path depth s hmatched hdepth
    rw [List.length_cons] at hdepth
    rw [List.map_cons, walk_literal hmatched (by omega), Key.descendNamed]
    cases key.subkey r n name with
    | err e => rfl
    | panic => rfl
    | timeout => rfl
    | ok found =>
      cases found with
      | none => rfl
      | some child =>
        simp only [Exec.attempt_ok, Exec.ok_bind]
        rw [ih hmatched (by omega)]
        cases Key.descendNamed r n child rest with
        | err e => rfl
        | panic => rfl
        | timeout => rfl
        | ok below => cases below <;> rfl

/-- Expansion of a template of literals. -/
theorem expand_eq_descend {root : Key} {names : List Str} (hlength : names.length ≤ maxGlobDepth)
    (out : σ) :
    expand r n root (names.map .literal) controlset emit out =
      ((Key.descendNamed r n root names).attempt >>= fun
        | .ok (some (passed, k)) => emit out [] (passed.foldl joinPath []) k
        | _ => .ok out) := by
  unfold expand
  rw [walk_literals names (show 0 < maxGlobMatches by decide) (by omega), bind_assoc]
  refine congrArg _ (funext fun found => ?_)
  rcases found with e | _ | ⟨passed, k⟩
  · rfl
  · rfl
  · unfold emitFound
    dsimp only
    rw [bind_assoc]
    exact bind_pure _

/-! ## The same key -/

section Lookup

variable {root : Key} {names : List Str}

/-- The lookup of joined names is the descent by these names. -/
theorem subkeyPath_joined (hne : names ≠ [])
    (hnames : ∀ name ∈ names, name ≠ [] ∧ '\\' ∉ name) :
    root.subkeyPath r n (['\\'].intercalate names) = Key.descend r n root names := by
  unfold Key.subkeyPath
  rw [pathParts_intercalate hnames]
  cases names with
  | nil => exact absurd rfl hne
  | cons name rest => rfl

/-- Names that are equal to nonempty names but for ASCII case are joined by backslashes. -/
theorem foldl_joinPath_folded {onDisk : List Str}
    (h : List.Forall₂ (fun onDisk name => eqIgnoreAsciiCase onDisk name = true) onDisk names)
    (hnames : ∀ name ∈ names, name ≠ []) :
    onDisk.foldl joinPath [] = ['\\'].intercalate onDisk := by
  rw [foldl_joinPath]
  cases h with
  | nil => rfl
  | @cons a name onDisk names hfolded _ =>
    have ha : a ≠ [] := by
      rintro rfl
      have hlower := eqIgnoreAsciiCase_iff.mp hfolded
      exact hnames name List.mem_cons_self (List.map_eq_nil_iff.mp hlower.symm)
    rw [List.dropWhile_cons_of_neg (by simpa using ha)]

/-- **Literal expansion is path lookup**: for a list of at most 64 nonempty names without
    backslashes, if the lookup of the joined names finds a key then the expansion of the template
    of these names emits that key, once, without bindings and with the path of the names on the
    way to it; if the lookup finds none or fails then it emits nothing.  A literal segment looks
    its name up as the path lookup does, so both go the same way; the caps are not reached by one
    emission. -/
theorem expand_literals (hne : names ≠ []) (hlength : names.length ≤ 64)
    (hnames : ∀ name ∈ names, name ≠ [] ∧ '\\' ∉ name) (controlset : Option ControlSetResolver)
    (emit : Emit σ) (out : σ) :
    (∀ k, Exec.Evals (fun n => root.subkeyPath r n (['\\'].intercalate names)) (.ok (some k)) →
      ∃ onDisk, Below r root onDisk k ∧
        List.Forall₂ (fun onDisk name => eqIgnoreAsciiCase onDisk name = true) onDisk names ∧
        Exec.Evals (fun n => expand r n root (names.map .literal) controlset emit out)
          (emit out [] (['\\'].intercalate onDisk) k)) ∧
    (Exec.Evals (fun n => root.subkeyPath r n (['\\'].intercalate names)) (.ok none) ∨
        (∃ e, Exec.Evals (fun n => root.subkeyPath r n (['\\'].intercalate names)) (.err e)) →
      Exec.Evals (fun n => expand r n root (names.map .literal) controlset emit out) (.ok out)) := by
  -- both are the same way down by names
  have hlookup : ∀ n, root.subkeyPath r n (['\\'].intercalate names) =
      (Key.descendNamed r n root names >>= fun found => .ok (found.map Prod.snd)) := fun n =>
    (subkeyPath_joined hne hnames).trans (descend_eq n names root)
  have hexpand := fun n => @expand_eq_descend σ emit r n controlset root names hlength out
  simp only [hlookup, hexpand]
  refine ⟨fun k hk => ?_, ?_⟩
  · -- a budget at which the lookup has found the key fixes the names on the way
    obtain ⟨N, hN⟩ := hk
    obtain ⟨found, hfound, hfoundk⟩ := Exec.bind_eq_ok.mp (hN N (Nat.le_refl N))
    obtain ⟨⟨onDisk, _⟩, rfl, rfl⟩ := Option.map_eq_some_iff.mp (Exec.ok.inj hfoundk)
    obtain ⟨hbelow, hfolded⟩ := descendNamed_eq_some names Below.root hfound
    refine ⟨onDisk, hbelow, hfolded, ?_⟩
    have hevals := (descendNamed_grows names root).evals (n := N) (by rw [hfound]; exact nofun)
    rw [hfound] at hevals
    refine Exec.Evals.bind hevals.attempt ?_
    dsimp only
    rw [foldl_joinPath_folded hfolded fun name hname => (hnames name hname).1]
    exact Exec.Evals.const _
  · rintro (⟨N, hN⟩ | ⟨e, N, hN⟩)
    · refine ⟨N, fun n hn => ?_⟩
      obtain ⟨found, hfound, hnone⟩ := Exec.bind_eq_ok.mp (hN n hn)
      dsimp only
      rw [hfound, Option.map_eq_none_iff.mp (Exec.ok.inj hnone)]
      rfl
    · refine ⟨N, fun n hn => ?_⟩
      rcases Exec.bind_eq_err.mp (hN n hn) with hfound | ⟨_, _, hfails⟩
      · dsimp only
        rw [hfound]
        rfl
      · cases hfails

end Lookup

/-- The path `a\b` in the hive of the keys `A` and `A\B`. -/
theorem expand_literals_nested :
    ∃ onDisk, Below nestedHive.reader nestedRoot onDisk nestedB ∧
      List.Forall₂ (fun onDisk name => eqIgnoreAsciiCase onDisk name = true) onDisk
        [['a'], ['b']] ∧
      Exec.Evals (fun n => expand nestedHive.reader n nestedRoot
          ([['a'], ['b']].map .literal) none
          (fun calls bindings path key => .ok (calls ++ [(bindings, path, key)])) [])
        (.ok [([], ['\\'].intercalate onDisk, nestedB)]) := by
  obtain ⟨hroot, ha, _⟩ := nested_subkeys
  have hnames : ∀ name ∈ [['a'], ['b']], name ≠ [] ∧ '\\' ∉ name := by decide
  have hdown : Exec.Evals (fun n => Key.descend nestedHive.reader n nestedRoot [['a'], ['b']])
      (.ok (some nestedB)) :=
    Exec.Evals.bind (Exec.Evals.bind hroot (Exec.Evals.const (.ok (some nestedA))))
      (Exec.Evals.bind (Exec.Evals.bind ha (Exec.Evals.const (.ok (some nestedB))))
        (Exec.Evals.const _))
  exact (expand_literals (List.cons_ne_nil _ _) (by decide) hnames none
    (fun calls bindings path key => .ok (calls ++ [(bindings, path, key)])) []).1 nestedB
      (hdown.congr fun n => subkeyPath_joined (List.cons_ne_nil _ _) hnames)

end PathExpansion

end Winreg
