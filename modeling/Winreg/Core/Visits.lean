/-
  VISITS: the keys that a walk over a registry comes to.

  A walk goes from a key to its subkeys, down to a limit or, without one, as far as there are keys.

  1. **Visited trees** — `reg.Visited limit depth a t`: from the key `a`, which is at this depth, the
     walk visits the tree `t` of keys and their depths.  There is one such tree with a limit
     (`exists_visited_limited`), and without one where no key of the hive is below itself
     (`Shows.exists_visited`).
  2. **Breadth first** — the iterator of the hive yields a visited tree in level order, with an error
     for each key of which the subkeys are not shown (`Shows.yields_visited`).
  3. **Loops with `?`** — a loop over the iterator that stops at the first error is the fold over
     the items (`forItems_yields`).
-/
import Winreg.Base.Printing
import Winreg.Core.IterOrder
import Winreg.Core.Registry

namespace Winreg

open Rust Relation Exec

/-! ## Visited trees -/

/-- What a walk visits from a key at this depth; the limit zero stands for none. -/
inductive Registry.Visited (reg : Registry) (limit : Nat) :
    Nat → reg.Node → Rose (Nat × reg.Node) → Prop where
  | last {depth : Nat} {a : reg.Node} (h : depth + 1 = limit) :
      Visited reg limit depth a (.node (depth, a) [])
  | onward {depth : Nat} {a : reg.Node} {children : List (Rose (Nat × reg.Node))}
      (h : limit = 0 ∨ depth + 1 < limit)
      (hlength : (reg.subkeyList a).length = children.length)
      (hchildren : ∀ p ∈ (reg.subkeyList a).zip children, Visited reg limit (depth + 1) p.1 p.2) :
      Visited reg limit depth a (.node (depth, a) children)

section Visited

variable {reg : Registry}

/-- The keys of the limited walk. -/
theorem Registry.exists_visited_limited {limit : Nat} : ∀ (rest : Nat) {depth : Nat}
    (a : reg.Node), depth + rest + 1 = limit → ∃ t, reg.Visited limit depth a t
  | 0, _, _, h => ⟨_, .last h⟩
  | rest + 1, depth, a, h => by
    obtain ⟨children, hall⟩ := exists_forall₂ (R := reg.Visited limit (depth + 1))
      fun b (_ : b ∈ reg.subkeyList a) => exists_visited_limited rest b (by omega)
    obtain ⟨hlength, hzip⟩ := List.forall₂_iff_zip.mp hall
    exact ⟨_, .onward (.inr (by omega)) hlength fun p hp => hzip hp⟩

/-- A walk visits one tree. -/
theorem Registry.Visited.unique {limit depth : Nat} {a : reg.Node} {t : Rose (Nat × reg.Node)}
    (h : reg.Visited limit depth a t) : ∀ t', reg.Visited limit depth a t' → t = t' := by
  induction h with
  | last h =>
    intro t' h'
    cases h' with
    | last _ => rfl
    | onward hmore _ _ => omega
  | @onward depth a children hmore hlength _ ih =>
    intro t' h'
    cases h' with
    | last h => omega
    | @onward _ _ children' _ hlength' hchildren' =>
      -- the children are trees of the same subkeys, so the induction fixes them one by one
      have hsame : children = children' := by
        refine List.ext_getElem (by omega) fun i hi hi' => ?_
        exact ih _ (getElem_mem_zip hlength (by omega)) _
          (hchildren' _ (getElem_mem_zip hlength' (by omega)))
      rw [hsame]

variable {hive : Hive} {rel : Key → reg.Node → Prop} (shows_ : hive.Shows reg rel)

include shows_

/-- The subkeys that are shown, and the keys of the hive that they stand for. -/
theorem Hive.Shows.subkeyList {k : Key} {a : reg.Node} (h : rel k a) :
    ∃ kids, List.Forall₂ rel kids (reg.subkeyList a) ∧ ∀ kid ∈ kids, Kids hive.reader k kid := by
  obtain ⟨x, hx, hkeeps⟩ := shows_.subkeys h
  unfold Registry.subkeyList
  generalize reg.subkeys a = o at hkeeps
  cases hkeeps with
  | @value kids _ hkids => exact ⟨kids, hkids, fun kid hkid => ⟨kids, hx, hkid⟩⟩
  | error e => exact ⟨[], .nil, fun _ h => absurd h List.not_mem_nil⟩

/-- The keys of the walk without a limit. -/
theorem Hive.Shows.exists_visited {k : Key} (hacc : Acc (flip (Kids hive.reader)) k) :
    ∀ {a : reg.Node}, rel k a → ∀ depth, ∃ t, reg.Visited 0 depth a t := by
  induction hacc with
  | intro k _ ih =>
    intro a ha depth
    obtain ⟨kids, hrel, hkids⟩ := shows_.subkeyList ha
    obtain ⟨children, hall⟩ := exists_forall₂ (R := reg.Visited 0 (depth + 1)) fun b hb => by
      obtain ⟨kid, hkid, hb⟩ := forall₂_right hrel hb
      exact ih kid (hkids kid hkid) hb _
    obtain ⟨hlength, hzip⟩ := List.forall₂_iff_zip.mp hall
    exact ⟨_, .onward (.inl rfl) hlength fun p hp => hzip hp⟩

/-- The keys of the walk from the root. -/
theorem Hive.Shows.exists_visited_root (hcycle : hive.NoKeyCycle) {a : reg.Node}
    (hroot : reg.root = some a) : ∃ t, reg.Visited 0 0 a t := by
  have hstart := shows_.root
  rw [hroot] at hstart
  generalize hopen : hive.rootKey = x at hstart
  cases hstart with
  | value ha => exact shows_.exists_visited (noCycleFrom_iff_acc.mp (hcycle _ hopen)) ha 0

/-! ## Breadth first -/

omit shows_ in
/-- What the iterator yields for a visited key. -/
inductive Registry.Yielded (reg : Registry) (rel : Key → reg.Node → Prop) :
    IterItem → Nat × reg.Node → Prop where
  | key {k : Key} {p : Nat × reg.Node} (h : rel k p.2) (hsubkeys : reg.subkeys p.2 ≠ none) :
      Yielded reg rel (.ok k) p
  | error {e : HiveError} {p : Nat × reg.Node} (hsubkeys : reg.subkeys p.2 = none) :
      Yielded reg rel (.error e) p

/-- The items below a key are those of the visited keys. -/
theorem Hive.Shows.unrolls {depth : Nat} {a : reg.Node} {t : Rose (Nat × reg.Node)}
    (ht : reg.Visited 0 depth a t) : ∀ {k : Key}, rel k a →
      ∃ items, Unrolls hive.reader k items ∧ Rose.Rel (reg.Yielded rel) items t := by
  induction ht with
  | last h => cases h
  | @onward depth a children _ hlength _ ih =>
    -- a key whose subkeys cannot be listed gives its error in place of the key itself
    intro k hk
    obtain ⟨x, hx, hkeeps⟩ := shows_.subkeys hk
    unfold Registry.subkeyList at hlength ih
    cases hsubkeys : reg.subkeys a with
    | none =>
      rw [hsubkeys] at hkeeps hlength
      obtain rfl : children = [] := List.length_eq_zero_iff.mp hlength.symm
      cases hkeeps with
      | error e =>
        exact ⟨_, .failed hx, .node (.error hsubkeys) rfl fun p hp => absurd hp List.not_mem_nil⟩
    | some nodes =>
      rw [hsubkeys] at hkeeps hlength ih
      cases hkeeps with
      | @value kids _ hkids =>
        -- the items below the subkeys, one tree for each
        obtain ⟨items, hitems, hbelow⟩ := exists_forall₂_between <|
          (forall₂_zip_trans hkids hlength).imp fun kid child ⟨b, hb, hmem⟩ => ih (b, child) hmem hb
        obtain ⟨hkidsLength, hkidsZip⟩ := List.forall₂_iff_zip.mp hitems
        obtain ⟨hitemsLength, hitemsZip⟩ := List.forall₂_iff_zip.mp hbelow
        have hshown : reg.subkeys a ≠ none := by rw [hsubkeys]; exact Option.some_ne_none nodes
        exact ⟨.node (.ok k) items, .listed hx hkidsLength fun _ hp => hkidsZip hp,
          .node (.key hk hshown) hitemsLength fun _ hp => hitemsZip hp⟩

/-- In its own registry the hive has the subkeys that are shown. -/
theorem Hive.Shows.registry_subkeyList {k : Key} {a : reg.Node} (h : rel k a) :
    List.Forall₂ rel (hive.registry.subkeyList k) (reg.subkeyList a) := by
  obtain ⟨x, hx, hkeeps⟩ := shows_.subkeys h
  unfold Registry.subkeyList
  show List.Forall₂ rel ((k.shownSubkeys hive.reader).getD []) _
  generalize reg.subkeys a = o at hkeeps
  cases hkeeps with
  | value hkids =>
    rw [Key.shownSubkeys_of_ok hx]
    exact hkids
  | error e =>
    rw [Key.shownSubkeys_of_err hx]
    exact .nil

/-- A key whose subkeys are shown has them in the hive's own registry. -/
theorem Hive.Shows.registry_subkeys {k : Key} {a : reg.Node} (h : rel k a)
    (hshown : reg.subkeys a ≠ none) : hive.registry.subkeys k ≠ none := by
  obtain ⟨x, hx, hkeeps⟩ := shows_.subkeys h
  show k.shownSubkeys hive.reader ≠ none
  generalize reg.subkeys a = o at hshown hkeeps
  cases hkeeps with
  | value _ =>
    rw [Key.shownSubkeys_of_ok hx]
    exact Option.some_ne_none _
  | error e => exact absurd rfl hshown

/-- A walk over a registry that a hive shows visits what the walk over the hive's own registry does:
    the keys that the visited ones stand for. -/
theorem Hive.Shows.visited_registry {depth : Nat} {a : reg.Node} {t : Rose (Nat × reg.Node)}
    (ht : reg.Visited 0 depth a t) : ∀ {k : Key}, rel k a →
      ∃ t' : Rose (Nat × Key), hive.registry.Visited 0 depth k t' ∧
        Rose.Rel (fun q p => rel q.2 p.2) t' t := by
  induction ht with
  | last h => cases h
  | @onward depth a children _ hlength _ ih =>
    intro k hk
    have hkids := shows_.registry_subkeyList hk
    obtain ⟨trees, htrees, hbelow⟩ := exists_forall₂_between <|
      (forall₂_zip_trans hkids hlength).imp fun kid child ⟨b, hb, hmem⟩ => ih (b, child) hmem hb
    obtain ⟨hkidsLength, hkidsZip⟩ := List.forall₂_iff_zip.mp htrees
    obtain ⟨htreesLength, htreesZip⟩ := List.forall₂_iff_zip.mp hbelow
    exact ⟨.node (depth, k) trees, .onward (.inl rfl) hkidsLength fun _ hp => hkidsZip hp,
      .node hk htreesLength fun _ hp => htreesZip hp⟩

/-- A hive of which the visited keys form a tree has no cycle. -/
theorem Hive.Shows.noKeyCycle {a : reg.Node} (hroot : reg.root = some a)
    {t : Rose (Nat × reg.Node)} (ht : reg.Visited 0 0 a t) : hive.NoKeyCycle := by
  have hstart := shows_.root
  rw [hroot] at hstart
  generalize hopen : hive.rootKey = x at hstart
  cases hstart with
  | value ha =>
    obtain ⟨_, hunrolls, _⟩ := shows_.unrolls ht ha
    exact Hive.noKeyCycle_of_root hopen (noCycleFrom_iff_acc.mpr hunrolls.acc)

/-- **The breadth-first iterator** yields the visited keys in level order. -/
theorem Hive.Shows.yields_visited {k : Key} {a : reg.Node} {t : Rose (Nat × reg.Node)}
    (hk : rel k a) (ht : reg.Visited 0 0 a t) : ∃ items,
      Yields (BfsIter.next hive.reader) [k] items ∧
        List.Forall₂ (reg.Yielded rel) items t.levelOrder := by
  obtain ⟨items, hunrolls, hrel⟩ := shows_.unrolls ht hk
  exact ⟨_, yields_levelOrder hunrolls, hrel.levelOrder⟩

end Visited

/-! ## Loops with `?` -/

section Items

variable {δ σ : Type} (wrap : HiveError → δ) (printed : σ → List Str)
  (visit : σ → IterItem → Exec (Aborted δ) σ)

/-- One pass of `for item in iter`, with what was printed before. -/
def itemPass (next : List Key → Exec HiveError IterStep) (s : List Key × σ) :
    Exec (Aborted δ) (Exec.Pass (List Key × σ) σ) := do
  match ← (next s.1).orAbort wrap (printed s.2) with
  | none => .ok (.leave s.2)
  | some (item, pending) => do
    let acc ← visit s.2 item
    .ok (.again (pending, acc))

variable {wrap printed visit}

/-- **The loop over an iterator** is the fold over what it yields. -/
theorem forItems_yields {next : Nat → List Key → Exec HiveError IterStep} {pending : List Key}
    {out : List IterItem} (h : Yields next pending out) : ∀ acc, ∃ N, ∀ m n, N ≤ m → N ≤ n →
      Exec.loop (itemPass wrap printed visit (next m)) n (pending, acc) = out.foldlM visit acc := by
  induction h with
  | nil hnext =>
    refine fun acc => ⟨1, fun m n _ hn => ?_⟩
    obtain ⟨k, rfl⟩ : ∃ k, n = k + 1 := ⟨n - 1, by omega⟩
    have hpass : itemPass wrap printed visit (next m) ([], acc) = .ok (.leave acc) := by
      rw [itemPass, hnext m]
      rfl
    rw [Exec.loop_leave hpass]
    rfl
  | @step pending pending' item out hnext _ ih =>
    intro acc
    obtain ⟨M, hM⟩ := hnext
    have hloop : ∀ m k, M ≤ m →
        Exec.loop (itemPass wrap printed visit (next m)) (k + 1) (pending, acc) =
          visit acc item >>= fun acc =>
            Exec.loop (itemPass wrap printed visit (next m)) k (pending', acc) := by
      intro m k hm
      have hyield : next m pending = .ok (some (item, pending')) := hM m hm
      rw [Exec.loop, itemPass, hyield]
      show (visit acc item >>= fun acc => Exec.ok (Exec.Pass.again (pending', acc))) >>= _ = _
      rw [bind_assoc]
      rfl
    rw [List.foldlM_cons]
    rcases hvisit : visit acc item with acc' | e | _ | _
    · obtain ⟨N, hN⟩ := ih acc'
      refine ⟨max M N + 1, fun m n hm hn => ?_⟩
      obtain ⟨k, rfl⟩ : ∃ k, n = k + 1 := ⟨n - 1, by omega⟩
      rw [hloop m k (by omega), hvisit, Exec.ok_bind, hN m k (by omega) (by omega), Exec.ok_bind]
    -- a visit that fails ends the loop and the fold
    all_goals
      refine ⟨M + 1, fun m n hm hn => ?_⟩
      obtain ⟨k, rfl⟩ : ∃ k, n = k + 1 := ⟨n - 1, by omega⟩
      rw [hloop m k (by omega), hvisit]
      rfl

end Items

end Winreg
