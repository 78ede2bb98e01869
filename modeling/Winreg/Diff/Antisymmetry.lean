/-
  ANTISYMMETRY OF THE DIFF: exchanging the hives exchanges what is recorded.

  Nothing is assumed of the two hives: names may repeat or differ in case only, and reads may fail.

  1. **Mirrored results** — entries, details and counters with added and removed exchanged, paths
     and names up to ASCII case.
  2. **Steps** — each handler of the two merge joins mirrors the one for the other side
     (`valueHandlers_mirrors`, `recordRemoved_mirrors`); a join of exchanged lists is the exchanged
     join (`joinByKey_swap`), so joins mirror joins.
  3. **The crux (`diffKeyRecursive_mirrors`)** — by induction on the budget, a comparison that
     gives a result is mirrored by the comparison of the exchanged keys, with any mirrored entries
     in front; only the entry of the roots has a path of its own (`diffHives_mirrors`).
-/
import Winreg.Diff.Changes

namespace Winreg

open Rust

/-! ## Mirrored results -/

/-- Added and removed exchanged. -/
def DiffKind.swap : DiffKind → DiffKind
  | .keyAdded => .keyRemoved
  | .keyRemoved => .keyAdded
  | .keyModified => .keyModified

/-- What a change of a value is when the two hives change places: added and removed are exchanged,
    and a changed value has its two snapshots exchanged. -/
def ValueDiffKind.swap : ValueDiffKind → ValueDiffKind
  | .added value => .removed value
  | .removed value => .added value
  | .changed left right => .changed right left

/-- The counts with the two hives exchanged: additions and removals change places, modifications
    stay. -/
def DiffStats.swap (stats : DiffStats) : DiffStats where
  keysAdded := stats.keysRemoved
  keysRemoved := stats.keysAdded
  keysModified := stats.keysModified
  valuesAdded := stats.valuesRemoved
  valuesRemoved := stats.valuesAdded
  valuesChanged := stats.valuesChanged

/-- The same value-level change with the sides exchanged. -/
structure ValueDiff.Mirrors (d d' : ValueDiff) : Prop where
  name : toAsciiUppercase d.name = toAsciiUppercase d'.name
  kind : d'.kind = d.kind.swap

/-- The same entry with the sides exchanged. -/
structure DiffEntry.Mirrors (e e' : DiffEntry) : Prop where
  path : toAsciiUppercase e.path = toAsciiUppercase e'.path
  kind : e'.kind = e.kind.swap
  details : List.Forall₂ ValueDiff.Mirrors e.details e'.details

namespace Diff

/-- What two comparisons with exchanged sides have recorded, each behind entries of its own. -/
structure Delta.Mirrors (before before' : List DiffEntry) (d d' : Delta) : Prop where
  entries : ∃ new new', d.entries = before ++ new ∧ d'.entries = before' ++ new' ∧
    List.Forall₂ DiffEntry.Mirrors new new'
  stats : d'.stats = d.stats.swap

/-- One more mirrored entry. -/
theorem Delta.Mirrors.concat {before before' : List DiffEntry} {d d' : Delta}
    (h : Delta.Mirrors before before' d d') {e e' : DiffEntry} (he : e.Mirrors e')
    {stats stats' : DiffStats} (hstats : stats' = stats.swap) :
    Delta.Mirrors before before' ⟨d.entries ++ [e], stats⟩ ⟨d'.entries ++ [e'], stats'⟩ := by
  obtain ⟨new, new', hnew, hnew', hmirror⟩ := h.entries
  refine ⟨⟨new ++ [e], new' ++ [e'], ?_, ?_, List.rel_append hmirror (.cons he .nil)⟩, hstats⟩
  · rw [hnew, List.append_assoc]
  · rw [hnew', List.append_assoc]

/-- Paths that agree up to case stay so below names that do. -/
theorem childPath_folded {current current' name name' : Str}
    (hcurrent : toAsciiUppercase current = toAsciiUppercase current')
    (hname : toAsciiUppercase name = toAsciiUppercase name') :
    toAsciiUppercase (childPath current name) = toAsciiUppercase (childPath current' name') := by
  cases current with
  | nil =>
    cases current' with
    | nil => exact hname
    | cons c current' => cases hcurrent
  | cons c current =>
    cases current' with
    | nil => cases hcurrent
    | cons c' current' =>
      show toAsciiUppercase (c :: current ++ '\\' :: name) =
        toAsciiUppercase (c' :: current' ++ '\\' :: name')
      unfold toAsciiUppercase at hcurrent hname ⊢
      have htail : ('\\' :: name).map Char.toUpper = ('\\' :: name').map Char.toUpper :=
        congrArg (Char.toUpper '\\' :: ·) hname
      rw [List.map_append, List.map_append, hcurrent, htail]

/-! ## Steps -/

section Values

variable {rl rr : CellReader}

/-- What is done with a pair of values, or with a value alone, mirrors what is done with the
    exchanged one. -/
theorem valueHandlers_mirrors {x : Aligned Value Value}
    (hname : ∀ l r, x = .both l r → valueOrder l = valueOrder r) {diffs diffs' : List ValueDiff}
    (h : List.Forall₂ ValueDiff.Mirrors diffs diffs') :
    Exec.Follows (List.Forall₂ ValueDiff.Mirrors) ((valueHandlers rl rr).run diffs x)
      ((valueHandlers rr rl).run diffs' x.swap) := by
  cases x with
  | left l =>
    refine Exec.Follows.after (valueToSnapshot rl l) fun value _ => Exec.Follows.ok ?_
    exact List.rel_append h (.cons ⟨rfl, rfl⟩ .nil)
  | right r =>
    refine Exec.Follows.after (valueToSnapshot rr r) fun value _ => Exec.Follows.ok ?_
    exact List.rel_append h (.cons ⟨rfl, rfl⟩ .nil)
  | both l r =>
    -- the left side is read first, so the exchanged run makes the same two calls in the other order
    refine Exec.Follows.either_order fun leftRaw rightRaw _ _ => ?_
    by_cases hdiffer : leftRaw ≠ rightRaw ∨ l.dataType ≠ r.dataType
    · rw [if_pos hdiffer, if_pos (hdiffer.imp Ne.symm Ne.symm)]
      refine Exec.Follows.either_order fun left right _ _ => Exec.Follows.ok ?_
      exact List.rel_append h (.cons ⟨hname l r rfl, rfl⟩ .nil)
    · rw [if_neg hdiffer, if_neg fun h => hdiffer (h.imp Ne.symm Ne.symm)]
      exact Exec.Follows.ok h

/-- A pair of the join has one name up to case. -/
theorem both_joinByKey {α κ : Type} [Ord κ] [Std.TransOrd κ] [Std.LawfulEqOrd κ] {key : α → κ}
    {xs ys : List α} {l r : α} (h : .both l r ∈ joinByKey key key xs ys) : key l = key r :=
  Std.LawfulEqCmp.eq_of_compare (align_both h)

/-- **Comparing the values of two keys** is mirrored by the comparison with the sides
    exchanged. -/
theorem diffValues_mirrors (left right : Key) :
    Exec.Follows (List.Forall₂ ValueDiff.Mirrors) (diffValues rl rr left right)
      (diffValues rr rl right left) := by
  refine Exec.Follows.either_order fun lvals rvals _ _ => ?_
  rw [mergeJoin_sorted, mergeJoin_sorted, joinByKey_swap lvals rvals]
  refine Exec.Follows.foldlM (fun x hx diffs diffs' h => ?_) .nil
  exact valueHandlers_mirrors (fun l r hlr => both_joinByKey (hlr ▸ hx)) h

end Values

/-- Counting mirrored value changes. -/
theorem foldl_countValueDiff_swap {ds ds' : List ValueDiff}
    (h : List.Forall₂ ValueDiff.Mirrors ds ds') : ∀ stats : DiffStats,
    ds'.foldl countValueDiff stats.swap = (ds.foldl countValueDiff stats).swap := by
  induction h with
  | nil => exact fun _ => rfl
  | @cons d d' ds ds' hd _ ih =>
    intro stats
    have hcount : countValueDiff stats.swap d' = (countValueDiff stats d).swap := by
      unfold countValueDiff
      rw [hd.kind]
      cases d.kind <;> rfl
    rw [List.foldl_cons, List.foldl_cons, hcount, ih]

section Keys

variable {before before' : List DiffEntry} {delta delta' : Delta} {path path' : Str}

/-- Recording the value changes of two keys with one name up to case. -/
theorem recordValueDiffs_mirrors (h : Delta.Mirrors before before' delta delta')
    (hpath : toAsciiUppercase path = toAsciiUppercase path') {left right : Key}
    (hname : keyOrder left = keyOrder right) {ds ds' : List ValueDiff}
    (hds : List.Forall₂ ValueDiff.Mirrors ds ds') :
    Delta.Mirrors before before' (recordValueDiffs left path delta ds)
      (recordValueDiffs right path' delta' ds') := by
  have hempty : path = [] ↔ path' = [] := by
    unfold toAsciiUppercase at hpath
    rw [← List.map_eq_nil_iff, hpath, List.map_eq_nil_iff]
  unfold recordValueDiffs
  cases hds with
  | nil => exact h
  | @cons d d' ds ds' hd hds =>
    rw [if_pos (List.cons_ne_nil d ds), if_pos (List.cons_ne_nil d' ds')]
    have hcount := foldl_countValueDiff_swap (.cons hd hds) delta.stats
    refine h.concat ⟨?_, rfl, .cons hd hds⟩ ?_
    · by_cases hnil : path = []
      · rw [if_pos hnil, if_pos (hempty.mp hnil)]
        exact hname
      · rw [if_neg hnil, if_neg (hempty.not.mp hnil)]
        exact hpath
    · rw [h.stats, hcount]
      rfl

/-- A key of the left only is a key of the right only with the sides exchanged. -/
theorem recordRemoved_mirrors (h : Delta.Mirrors before before' delta delta')
    (hpath : toAsciiUppercase path = toAsciiUppercase path') (key : Key) :
    Delta.Mirrors before before' (recordRemoved path delta key) (recordAdded path' delta' key) := by
  refine h.concat ⟨childPath_folded hpath rfl, rfl, .nil⟩ ?_
  rw [h.stats]
  rfl

/-- A subkey that one diff records as added is recorded by the mirrored diff as removed, so the
    records stay mirror images of each other. -/
theorem recordAdded_mirrors (h : Delta.Mirrors before before' delta delta')
    (hpath : toAsciiUppercase path = toAsciiUppercase path') (key : Key) :
    Delta.Mirrors before before' (recordAdded path delta key) (recordRemoved path' delta' key) := by
  refine h.concat ⟨childPath_folded hpath rfl, rfl, .nil⟩ ?_
  rw [h.stats]
  rfl

end Keys

/-! ## Runs -/

/-- A comparison of two keys is mirrored by another one, whatever is recorded before. -/
def Mirrored (f g : Key → Key → Str → Delta → Exec HiveError Delta) : Prop :=
  ∀ left right path path' before before' delta delta', keyOrder left = keyOrder right →
    toAsciiUppercase path = toAsciiUppercase path' →
    Delta.Mirrors before before' delta delta' →
    Exec.Follows (Delta.Mirrors before before') (f left right path delta)
      (g right left path' delta')

/-- **A join of subkeys** whose pairs are mirrored is mirrored. -/
theorem mergeJoinSubkeys_mirrors {f g : Key → Key → Str → Delta → Exec HiveError Delta}
    (hfg : Mirrored f g) {before before' : List DiffEntry} {delta delta' : Delta}
    {path path' : Str} (hpath : toAsciiUppercase path = toAsciiUppercase path')
    (h : Delta.Mirrors before before' delta delta') (ls rs : List Key) :
    Exec.Follows (Delta.Mirrors before before')
      (mergeJoinSubkeys f (sortByKey keyOrder ls) (sortByKey keyOrder rs) path delta)
      (mergeJoinSubkeys g (sortByKey keyOrder rs) (sortByKey keyOrder ls) path' delta') := by
  unfold mergeJoinSubkeys
  rw [mergeJoin_sorted, mergeJoin_sorted, joinByKey_swap ls rs]
  refine Exec.Follows.foldlM (fun x hx s t hst => ?_) h
  cases x with
  | left l => exact Exec.Follows.ok (recordRemoved_mirrors hst hpath l)
  | right r => exact Exec.Follows.ok (recordAdded_mirrors hst hpath r)
  | both l r =>
    have hname : keyOrder l = keyOrder r := both_joinByKey hx
    exact hfg l r _ _ before before' s t hname (childPath_folded hpath hname) hst

/-- **The recursion is mirrored** by the recursion with the sides exchanged. -/
theorem diffKeyRecursive_mirrors (rl rr : CellReader) :
    ∀ n, Mirrored (diffKeyRecursive rl rr n) (diffKeyRecursive rr rl n)
  | 0 => fun _ _ _ _ _ _ _ _ _ _ _ d hd => by cases hd
  | n + 1 => by
    intro left right path path' before before' delta delta' hname hpath h
    refine Exec.Follows.bind (diffValues_mirrors left right) fun ds ds' hds => ?_
    have hrecord := recordValueDiffs_mirrors h hpath hname hds
    refine Exec.Follows.either_order fun ls rs _ _ => ?_
    exact mergeJoinSubkeys_mirrors (diffKeyRecursive_mirrors rl rr n) hpath hrecord ls rs

/-! ## Hives -/

/-- The results of two comparisons with exchanged hives: the entries of the roots, if their values
    differ, carry the names of the two roots; all other entries are mirrored one by one. -/
structure ResultMirrors (a b : Hive) (result result' : DiffResult) : Prop where
  entries : ∃ rootA rootB details details' below below',
    a.rootKey = .ok rootA ∧ b.rootKey = .ok rootB ∧
    diffValues a.reader b.reader rootA rootB = .ok details ∧
    diffValues b.reader a.reader rootB rootA = .ok details' ∧
    List.Forall₂ ValueDiff.Mirrors details details' ∧
    result.entries = rootEntry rootA.name details ++ below ∧
    result'.entries = rootEntry rootB.name details' ++ below' ∧
    List.Forall₂ DiffEntry.Mirrors below below'
  stats : result'.stats = result.stats.swap

/-- The entry of the roots, and nothing mirrored behind it yet. -/
theorem recordValueDiffs_roots (left right : Key) {ds ds' : List ValueDiff}
    (hds : List.Forall₂ ValueDiff.Mirrors ds ds') :
    Delta.Mirrors (rootEntry left.name ds) (rootEntry right.name ds')
      (recordValueDiffs left [] ⟨[], {}⟩ ds) (recordValueDiffs right [] ⟨[], {}⟩ ds') := by
  unfold recordValueDiffs rootEntry
  cases hds with
  | nil => exact ⟨⟨[], [], rfl, rfl, .nil⟩, rfl⟩
  | @cons d d' ds ds' hd hds =>
    rw [if_pos (List.cons_ne_nil d ds), if_pos (List.cons_ne_nil d' ds'),
      if_pos (List.cons_ne_nil d ds), if_pos (List.cons_ne_nil d' ds')]
    have hcount := foldl_countValueDiff_swap (.cons hd hds) {}
    have hswap : DiffStats.swap {} = {} := rfl
    rw [hswap] at hcount
    refine ⟨⟨[], [], rfl, rfl, .nil⟩, ?_⟩
    rw [hcount]
    rfl

/-- A comparison that gives a result is mirrored by the comparison of the exchanged hives. -/
theorem diffHives_mirrors (a b : Hive) (la lb la' lb' : Str) (n : Nat) :
    Exec.Follows (ResultMirrors a b) (diffHives n a b la lb) (diffHives n b a la' lb') := by
  refine Exec.Follows.either_order fun rootA rootB hrootA hrootB => ?_
  cases n with
  | zero => exact fun _ h => by cases h
  | succ n =>
    intro result hresult
    obtain ⟨d, hd, hok⟩ := Exec.bind_eq_ok.mp hresult
    obtain ⟨ds, hds, hrest⟩ := Exec.bind_eq_ok.mp hd
    obtain ⟨ls, hls, hrest⟩ := Exec.bind_eq_ok.mp hrest
    obtain ⟨rs, hrs, hjoin⟩ := Exec.bind_eq_ok.mp hrest
    obtain ⟨ds', hds', hmirror⟩ := diffValues_mirrors rootA rootB ds hds
    obtain ⟨d', hd', hmirrors⟩ := mergeJoinSubkeys_mirrors
      (diffKeyRecursive_mirrors a.reader b.reader n) rfl
      (recordValueDiffs_roots rootA rootB hmirror) ls rs d hjoin
    refine ⟨⟨la', lb', d'.entries, d'.stats⟩, ?_, ?_⟩
    · show (diffKeyRecursive b.reader a.reader (n + 1) rootB rootA [] ⟨[], {}⟩ >>= _) = _
      rw [diffKeyRecursive, hds', Exec.ok_bind]
      dsimp only
      rw [hrs, Exec.ok_bind, hls, Exec.ok_bind, hd', Exec.ok_bind]
    · obtain ⟨new, new', hnew, hnew', hall⟩ := hmirrors.entries
      rw [← Exec.ok.inj hok]
      exact ⟨⟨rootA, rootB, ds, ds', new, new', hrootA, hrootB, hds, hds', hmirror, hnew, hnew',
        hall⟩, hmirrors.stats⟩

/-- One direction: where one comparison has a result, the other one has the mirrored result. -/
theorem evals_of_diffHives {a b : Hive} {la lb : Str} (la' lb' : Str) {result : DiffResult}
    (h : Exec.Evals (fun n => diffHives n a b la lb) (.ok result)) :
    ∃ result', Exec.Evals (fun n => diffHives n b a la' lb') (.ok result') ∧
      ResultMirrors a b result result' := by
  obtain ⟨n, hn⟩ := h
  obtain ⟨result', hresult', hmirrors⟩ := diffHives_mirrors a b la lb la' lb' n result
    (hn n (Nat.le_refl n))
  refine ⟨result', ?_, hmirrors⟩
  have hends : diffHives n b a la' lb' ≠ .timeout := by rw [hresult']; exact nofun
  exact hresult' ▸ (diffHives_grows b a la' lb').evals hends

/-- **The diff is antisymmetric**, for all hives: one comparison has a result exactly when the
    other one has, and then the results are mirrored.  The two runs are compared step by step:
    they read the same cells, and what one of them has recorded is the mirror image of what the
    other one has. -/
theorem diffHives_antisymm (a b : Hive) (la lb la' lb' : Str) :
    ((∃ result, Exec.Evals (fun n => diffHives n a b la lb) (.ok result)) ↔
      ∃ result', Exec.Evals (fun n => diffHives n b a la' lb') (.ok result')) ∧
    ∀ result result', Exec.Evals (fun n => diffHives n a b la lb) (.ok result) →
      Exec.Evals (fun n => diffHives n b a la' lb') (.ok result') →
        ResultMirrors a b result result' := by
  refine ⟨⟨fun ⟨_, h⟩ => ?_, fun ⟨_, h⟩ => ?_⟩, fun result result' h h' => ?_⟩
  · obtain ⟨result', h', _⟩ := evals_of_diffHives la' lb' h
    exact ⟨result', h'⟩
  · obtain ⟨result, h', _⟩ := evals_of_diffHives la lb h
    exact ⟨result, h'⟩
  · obtain ⟨other, hother, hmirrors⟩ := evals_of_diffHives la' lb' h
    obtain rfl := Exec.ok.inj (h'.unique hother)
    exact hmirrors

end Diff

end Winreg
