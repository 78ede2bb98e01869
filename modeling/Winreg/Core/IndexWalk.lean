/-
  THE INDEX WALK: when the subkeys of a key are listed in finitely many steps.

  `collectSubkeyOffsets` follows the entries of `ri` cells, which are offsets read from the file,
  with no bound on the depth and no set of visited cells.

  1. **What a finite walk lists** — `Lists r off offsets`: the cells below `off` form a finite tree
     of readable index cells, whose leaves list `offsets` from left to right.  It is exactly the
     result of the walk (`lists_iff_evals`).
  2. **The calls of a walk** — `IndexCalls r a b`: `a` is an `ri` cell that lists `b`, and the walks
     of the entries before `b` give lists.  The walk ends exactly when no cycle of calls can be
     reached (`collectSubkeyOffsets_ends_iff`), and aborts exactly when it ends and reads an
     undersized cell (`collectSubkeyOffsets_panics_iff`).
  3. **Subkeys** — the same for the listing of a key, whose second phase reads the listed cells
     (`subkeys_returns_iff`).
-/
import Winreg.Base.Graph
import Winreg.Core.ReadSafety

namespace Winreg

open Rust Relation

/-! ## What a finite walk lists -/

/-- The key offsets that a cell lists by itself; `none` for an `ri` index. -/
def Cell.leafOffsets : Cell → Option (List CellOffset)
  | .index (.hashLeaf elements) => some (elements.map (·.keyOffset))
  | .index (.fastLeaf elements) => some (elements.map (·.keyOffset))
  | .index (.indexLeaf offsets) => some offsets
  | .index (.rootIndex _) => none
  | _ => some []

mutual

/-- Below `off` there is a finite tree of readable index cells that lists these offsets. -/
inductive Lists (r : CellReader) : CellOffset → List CellOffset → Prop where
  | leaf {off : CellOffset} {cell : Cell} {offsets : List CellOffset}
      (read : r.readCell off = .ok cell) (lists : cell.leafOffsets = some offsets) :
      Lists r off offsets
  | root {off : CellOffset} {subs offsets : List CellOffset}
      (read : r.readCell off = .ok (.index (.rootIndex subs))) (all : ListsAll r subs offsets) :
      Lists r off offsets

/-- The same for a list of index cells, from left to right. -/
inductive ListsAll (r : CellReader) : List CellOffset → List CellOffset → Prop where
  | nil : ListsAll r [] []
  | cons {sub : CellOffset} {subs offsets more : List CellOffset} (head : Lists r sub offsets)
      (tail : ListsAll r subs more) : ListsAll r (sub :: subs) (offsets ++ more)

end

instance : Finite CellOffset :=
  Finite.of_injective (fun off : CellOffset => off.val.toBitVec.toFin) fun a b h => by
    cases a; cases b
    congr 1
    exact UInt32.toBitVec_inj.mp (BitVec.toFin_inj.mp h)

/-- `a` is an `ri` cell that lists `b` after entries whose walks all give lists. -/
def IndexCalls (r : CellReader) (a b : CellOffset) : Prop :=
  ∃ before after offsets, r.readCell a = .ok (.index (.rootIndex (before ++ b :: after))) ∧
    ListsAll r before offsets

section Walk

variable {r : CellReader}

/-- The fold over the entries of an `ri` cell. -/
def collectEntries (r : CellReader) (n : Nat) (all subs : List CellOffset) :
    Exec HiveError (List CellOffset) :=
  subs.foldlM (fun all sub => do
    let more ← Key.collectSubkeyOffsets r n sub
    .ok (all ++ more)) all

/-- The entries of a root index are followed one after the other. -/
theorem collectEntries_cons (n : Nat) (all : List CellOffset) (sub : CellOffset)
    (subs : List CellOffset) :
    collectEntries r n all (sub :: subs) =
      (Key.collectSubkeyOffsets r n sub >>= fun more => collectEntries r n (all ++ more) subs) := by
  unfold collectEntries
  rw [List.foldlM_cons, bind_assoc]
  rfl

/-- A leaf gives the offsets it lists. -/
theorem collectSubkeyOffsets_leaf {off : CellOffset} {cell : Cell} {offsets : List CellOffset}
    (h : r.readCell off = .ok cell) (hl : cell.leafOffsets = some offsets) (n : Nat) :
    Key.collectSubkeyOffsets r (n + 1) off = .ok offsets := by
  rw [Key.collectSubkeyOffsets, h, Exec.ok_bind]
  cases cell with
  | index idx =>
    cases idx with
    | fastLeaf _ => cases hl; rfl
    | hashLeaf _ => cases hl; rfl
    | indexLeaf _ => cases hl; rfl
    | rootIndex _ => cases hl
  | _ => cases hl; rfl

/-- A root index gives those of its entries. -/
theorem collectSubkeyOffsets_root {off : CellOffset} {subs : List CellOffset}
    (h : r.readCell off = .ok (.index (.rootIndex subs))) (n : Nat) :
    Key.collectSubkeyOffsets r (n + 1) off = collectEntries r n [] subs := by
  rw [Key.collectSubkeyOffsets, h, Exec.ok_bind]
  rfl

/-- A cell either lists offsets by itself or is an `ri` index. -/
theorem Cell.leaf_or_root (cell : Cell) :
    (∃ offsets, cell.leafOffsets = some offsets) ∨ ∃ subs, cell = .index (.rootIndex subs) := by
  unfold Cell.leafOffsets
  split
  · exact Or.inl ⟨_, rfl⟩
  · exact Or.inl ⟨_, rfl⟩
  · exact Or.inl ⟨_, rfl⟩
  · exact Or.inr ⟨_, rfl⟩
  · exact Or.inl ⟨_, rfl⟩

/-- More fuel never changes a result that was there.  By induction on the fuel: the entries of a
    root index are followed with one unit less. -/
theorem collectSubkeyOffsets_refines (n : Nat) :
    ∀ off, Exec.Refines (Key.collectSubkeyOffsets r n off)
      (Key.collectSubkeyOffsets r (n + 1) off) := by
  induction n with
  | zero => exact fun _ => Or.inl rfl
  | succ n ih =>
    intro off
    cases hread : r.readCell off with
    | err e => exact Or.inr (by simp [Key.collectSubkeyOffsets, hread])
    | panic => exact Or.inr (by simp [Key.collectSubkeyOffsets, hread])
    | timeout => exact Or.inr (by simp [Key.collectSubkeyOffsets, hread])
    | ok cell =>
      rcases cell.leaf_or_root with ⟨offsets, hl⟩ | ⟨subs, rfl⟩
      · rw [collectSubkeyOffsets_leaf hread hl, collectSubkeyOffsets_leaf hread hl]
        exact Exec.Refines.refl _
      · rw [collectSubkeyOffsets_root hread, collectSubkeyOffsets_root hread]
        exact Exec.Refines.foldlM (fun all sub =>
          Exec.Refines.bind (ih sub) fun _ => Exec.Refines.refl _) subs []

/-- The same for any two amounts of fuel. -/
theorem collectSubkeyOffsets_grows (off : CellOffset) :
    Exec.Grows fun n => Key.collectSubkeyOffsets r n off :=
  fun n => collectSubkeyOffsets_refines n off

/-- And for the entries of a root index. -/
theorem collectEntries_grows (all subs : List CellOffset) :
    Exec.Grows fun n => collectEntries r n all subs :=
  fun n => Exec.Refines.foldlM (fun _ sub =>
    Exec.Refines.bind (collectSubkeyOffsets_refines n sub) fun _ => Exec.Refines.refl _) subs all

/-- A list that comes out of the entries is made of lists of the single entries. -/
theorem listsAll_of_collectEntries {n : Nat}
    (ih : ∀ sub offsets, Key.collectSubkeyOffsets r n sub = .ok offsets → Lists r sub offsets) :
    ∀ (subs all res : List CellOffset), collectEntries r n all subs = .ok res →
      ∃ offsets, res = all ++ offsets ∧ ListsAll r subs offsets := by
  intro subs
  induction subs with
  | nil =>
    intro all res h
    obtain rfl : all = res := by simpa [collectEntries] using h
    exact ⟨[], (List.append_nil all).symm, .nil⟩
  | cons sub subs ihs =>
    intro all res h
    rw [collectEntries_cons] at h
    obtain ⟨more, hmore, hrest⟩ := Exec.bind_eq_ok.mp h
    obtain ⟨offsets, rfl, hall⟩ := ihs (all ++ more) res hrest
    exact ⟨more ++ offsets, List.append_assoc _ _ _, .cons (ih sub more hmore) hall⟩

/-- A list that comes out of the walk is listed by a finite tree of index cells. -/
theorem lists_of_collect (n : Nat) : ∀ (off : CellOffset) (offsets : List CellOffset),
    Key.collectSubkeyOffsets r n off = .ok offsets → Lists r off offsets := by
  induction n with
  | zero => intro off offsets h; cases h
  | succ n ih =>
    intro off offsets h
    cases hread : r.readCell off with
    | err e => rw [Key.collectSubkeyOffsets, hread] at h; cases h
    | panic => rw [Key.collectSubkeyOffsets, hread] at h; cases h
    | timeout => rw [Key.collectSubkeyOffsets, hread] at h; cases h
    | ok cell =>
      rcases cell.leaf_or_root with ⟨leafs, hl⟩ | ⟨subs, rfl⟩
      · rw [collectSubkeyOffsets_leaf hread hl] at h
        obtain rfl : leafs = offsets := by simpa using h
        exact .leaf hread hl
      · rw [collectSubkeyOffsets_root hread] at h
        obtain ⟨offsets', hres, hall⟩ := listsAll_of_collectEntries ih subs [] offsets h
        rw [hres, List.nil_append]
        exact .root hread hall

mutual

/-- The walk of a finite tree of readable index cells gives its list. -/
theorem Lists.evals {off : CellOffset} {offsets : List CellOffset} :
    Lists r off offsets → Exec.Evals (fun n => Key.collectSubkeyOffsets r n off) (.ok offsets)
  | .leaf hread hl => Exec.Evals.of_succ ⟨0, fun n _ => collectSubkeyOffsets_leaf hread hl n⟩
  | .root hread hall => by
    have hentries := ListsAll.evals hall []
    rw [List.nil_append] at hentries
    exact Exec.Evals.of_succ (hentries.congr fun n => collectSubkeyOffsets_root hread n)

/-- Entries that list offsets are collected in order, behind what has been collected before. -/
theorem ListsAll.evals {subs offsets : List CellOffset} :
    ListsAll r subs offsets → ∀ all,
      Exec.Evals (fun n => collectEntries r n all subs) (.ok (all ++ offsets))
  | .nil => fun all => by rw [List.append_nil]; exact Exec.Evals.const _
  | @ListsAll.cons _ _ _ offsets more hhead htail => fun all => by
    have htail' := ListsAll.evals htail (all ++ offsets)
    rw [List.append_assoc] at htail'
    exact (Exec.Evals.bind (g := fun n more => collectEntries r n (all ++ more) _)
      hhead.evals htail').congr fun n => collectEntries_cons n all _ _

end

/-- **What the walk gives**: the list of the finite tree of index cells, when there is one. -/
theorem lists_iff_evals {off : CellOffset} {offsets : List CellOffset} :
    Lists r off offsets ↔
      Exec.Evals (fun n => Key.collectSubkeyOffsets r n off) (.ok offsets) := by
  refine ⟨Lists.evals, fun h => ?_⟩
  obtain ⟨n, hn⟩ := h
  exact lists_of_collect n off offsets (hn n (Nat.le_refl n))

/-! ## The calls of a walk -/

/-- Over entries that all give lists the fold runs out of budget or goes on behind them. -/
theorem collectEntries_append {before offsets : List CellOffset} (h : ListsAll r before offsets) :
    ∀ (n : Nat) (all rest : List CellOffset),
      collectEntries r n all (before ++ rest) = .timeout ∨
      collectEntries r n all (before ++ rest) = collectEntries r n (all ++ offsets) rest := by
  intro n
  induction before generalizing offsets with
  | nil =>
    intro all rest
    cases h
    exact Or.inr (by rw [List.append_nil]; rfl)
  | cons sub subs ih =>
    intro all rest
    cases h with
    | cons hhead htail =>
      rename_i more others
      rw [List.cons_append, collectEntries_cons]
      by_cases ht : Key.collectSubkeyOffsets r n sub = .timeout
      · exact Or.inl (by rw [ht, Exec.timeout_bind])
      · have hok := ((collectSubkeyOffsets_grows sub).evals ht).unique hhead.evals
        rw [hok, Exec.ok_bind, ← List.append_assoc]
        exact ih htail (all ++ more) rest

/-- A call that runs out of budget makes its caller run out of budget. -/
theorem collectSubkeyOffsets_down {a b : CellOffset} (h : IndexCalls r a b) {n : Nat}
    (hb : Key.collectSubkeyOffsets r n b = .timeout) :
    Key.collectSubkeyOffsets r (n + 1) a = .timeout := by
  obtain ⟨before, after, offsets, hread, hall⟩ := h
  rw [collectSubkeyOffsets_root hread]
  rcases collectEntries_append hall n [] (b :: after) with ht | hgo
  · exact ht
  · rw [hgo, collectEntries_cons, hb, Exec.timeout_bind]

/-- The entries end when every entry does that comes after entries with lists. -/
theorem collectEntries_ends {subs : List CellOffset} (all : List CellOffset)
    (h : ∀ before b after offsets, subs = before ++ b :: after → ListsAll r before offsets →
      Exec.Ends fun n => Key.collectSubkeyOffsets r n b) :
    Exec.Ends fun n => collectEntries r n all subs := by
  induction subs generalizing all with
  | nil => exact (Exec.Evals.const (.ok all)).ends (by simp)
  | cons sub subs ih =>
    simp only [collectEntries_cons]
    rw [Exec.ends_bind_iff (collectSubkeyOffsets_grows sub) fun more => collectEntries_grows _ _]
    refine ⟨h [] sub subs [] rfl .nil, fun more hmore => ih (all ++ more) ?_⟩
    intro before b after offsets hsplit hall
    exact h (sub :: before) b after (more ++ offsets) (by rw [hsplit]; rfl)
      (.cons (lists_iff_evals.mpr hmore) hall)

/-- An abort of the fold is the abort of an entry that comes after entries with lists. -/
theorem panic_of_collectEntries {n : Nat} : ∀ (subs all : List CellOffset),
    collectEntries r n all subs = .panic →
    ∃ before b after offsets, subs = before ++ b :: after ∧ ListsAll r before offsets ∧
      Key.collectSubkeyOffsets r n b = .panic := by
  intro subs
  induction subs with
  | nil => intro all h; cases h
  | cons sub subs ih =>
    intro all h
    rw [collectEntries_cons] at h
    rcases Exec.bind_eq_panic.mp h with h' | ⟨more, hmore, h'⟩
    · exact ⟨[], sub, subs, [], rfl, .nil, h'⟩
    · obtain ⟨before, b, after, offsets, rfl, hall, hb⟩ := ih (all ++ more) h'
      exact ⟨sub :: before, b, after, more ++ offsets, rfl,
        .cons (lists_of_collect n sub more hmore) hall, hb⟩

/-- A read that calls lead to and that aborts makes the walk abort. -/
theorem evals_panic_of_read {off b : CellOffset} (h : ReflTransGen (IndexCalls r) off b)
    (hb : r.readCell b = .panic) :
    Exec.Evals (fun n => Key.collectSubkeyOffsets r n off) .panic := by
  induction h using ReflTransGen.head_induction_on with
  | refl =>
    refine Exec.Evals.of_succ ⟨0, fun n _ => ?_⟩
    dsimp only
    rw [Key.collectSubkeyOffsets, hb, Exec.panic_bind]
  | head hcall _ ih =>
    obtain ⟨before, after, offsets, hread, hall⟩ := hcall
    have hentries : Exec.Evals (fun n => collectEntries r n [] before >>= fun all =>
        Key.collectSubkeyOffsets r n _ >>= fun more => collectEntries r n (all ++ more) after)
        .panic :=
      Exec.Evals.bind (hall.evals []) (Exec.Evals.bind_panic ih)
    refine Exec.Evals.of_succ (hentries.congr fun n => ?_)
    rw [collectSubkeyOffsets_root hread]
    simp only [← collectEntries_cons]
    exact List.foldlM_append

variable (hr : ∀ off, r.readCell off ≠ .timeout)
include hr

/-- A walk ends when all the calls it makes end. -/
theorem collectSubkeyOffsets_up (a : CellOffset)
    (h : ∀ b, IndexCalls r a b → Exec.Ends fun n => Key.collectSubkeyOffsets r n b) :
    Exec.Ends fun n => Key.collectSubkeyOffsets r n a := by
  cases hread : r.readCell a with
  | timeout => exact absurd hread (hr a)
  | err e => exact ⟨1, by simp [Key.collectSubkeyOffsets, hread]⟩
  | panic => exact ⟨1, by simp [Key.collectSubkeyOffsets, hread]⟩
  | ok cell =>
    rcases cell.leaf_or_root with ⟨offsets, hl⟩ | ⟨subs, rfl⟩
    · exact (Lists.leaf hread hl).evals.ends (by simp)
    · obtain ⟨n, hn⟩ := collectEntries_ends (r := r) [] fun before b after offsets hsplit hall =>
        h b ⟨before, after, offsets, hsplit ▸ hread, hall⟩
      refine ⟨n + 1, ?_⟩
      dsimp only
      rw [collectSubkeyOffsets_root hread]
      exact hn

/-- The collection from an offset ends exactly when the calls it makes are well-founded there. -/
theorem collectSubkeyOffsets_ends_iff_acc (off : CellOffset) :
    (Exec.Ends fun n => Key.collectSubkeyOffsets r n off) ↔ Acc (flip (IndexCalls r)) off :=
  ends_iff_acc (fun _ => rfl) (fun _ _ _ h hb => collectSubkeyOffsets_down h hb)
    (collectSubkeyOffsets_up hr) off

/-- An abort of the walk is the abort of a read that calls lead to. -/
theorem panic_of_collect (n : Nat) : ∀ off, Key.collectSubkeyOffsets r n off = .panic →
    ∃ b, ReflTransGen (IndexCalls r) off b ∧ r.readCell b = .panic := by
  induction n with
  | zero => intro off h; cases h
  | succ n ih =>
    intro off h
    cases hread : r.readCell off with
    | timeout => exact absurd hread (hr off)
    | err e => rw [Key.collectSubkeyOffsets, hread] at h; cases h
    | panic => exact ⟨off, ReflTransGen.refl, hread⟩
    | ok cell =>
      rcases cell.leaf_or_root with ⟨offsets, hl⟩ | ⟨subs, rfl⟩
      · rw [collectSubkeyOffsets_leaf hread hl] at h; cases h
      · rw [collectSubkeyOffsets_root hread] at h
        obtain ⟨before, b, after, offsets, rfl, hall, hb⟩ := panic_of_collectEntries subs [] h
        obtain ⟨c, hreach, hc⟩ := ih b hb
        exact ⟨c, ReflTransGen.head ⟨before, after, offsets, hread, hall⟩ hreach, hc⟩

omit hr in
/-- An abort of the walk is the abort of a read, and conversely. -/
theorem collectSubkeyOffsets_panics_iff (hr : ∀ off, r.readCell off ≠ .timeout)
    (off : CellOffset) :
    Exec.Evals (fun n => Key.collectSubkeyOffsets r n off) .panic ↔
      ∃ b, ReflTransGen (IndexCalls r) off b ∧ r.readCell b = .panic := by
  constructor
  · rintro ⟨n, hn⟩
    exact panic_of_collect hr n off (hn n (Nat.le_refl n))
  · rintro ⟨b, hreach, hb⟩
    exact evals_panic_of_read hreach hb

/-- **The walk ends** exactly when no cycle of calls can be reached. -/
theorem collectSubkeyOffsets_ends_iff (off : CellOffset) :
    (Exec.Ends fun n => Key.collectSubkeyOffsets r n off) ↔ NoCycleFrom (IndexCalls r) off :=
  (collectSubkeyOffsets_ends_iff_acc hr off).trans noCycleFrom_iff_acc.symm

end Walk

/-! ## Subkeys -/

/-- The key has a subkey list to walk. -/
structure Key.ListsSubkeys (k : Key) : Prop where
  count : k.node.subkeyCount ≠ 0
  list : k.node.subkeysListOffset.isNull = false

/-- The cells that listing the subkeys reads: the index cells that calls lead to, and the listed
    cells up to the first one that cannot be read. -/
inductive SubkeyReads (r : CellReader) (k : Key) : CellOffset → Prop where
  | index {off : CellOffset} (lists : k.ListsSubkeys)
      (calls : ReflTransGen (IndexCalls r) k.node.subkeysListOffset off) : SubkeyReads r k off
  | key {off : CellOffset} {before after : List CellOffset} (lists : k.ListsSubkeys)
      (listed : Lists r k.node.subkeysListOffset (before ++ off :: after))
      (readable : ∀ p ∈ before, ∃ cell, r.readCell p = .ok cell) : SubkeyReads r k off

section Subkeys

variable {r : CellReader}

/-- A key that declares no subkeys, or no list of them, has none. -/
theorem subkeys_of_not_lists {k : Key} (h : ¬ k.ListsSubkeys) (n : Nat) :
    k.subkeys r n = .ok [] := by
  unfold Key.subkeys
  refine if_pos ?_
  by_contra hno
  obtain ⟨hcount, hlist⟩ := not_or.mp hno
  exact h ⟨hcount, by simpa using hlist⟩

/-- Otherwise the offsets are collected first, and then the keys are read from them. -/
theorem subkeys_of_lists {k : Key} (h : k.ListsSubkeys) (n : Nat) :
    k.subkeys r n = (Key.collectSubkeyOffsets r n k.node.subkeysListOffset >>= fun offsets =>
      offsets.foldlM (Key.pushKey r) []) := by
  unfold Key.subkeys
  rw [if_neg]
  rintro (hcount | hlist)
  · exact h.count hcount
  · rw [h.list] at hlist; cases hlist

/-- More fuel never changes a listing. -/
theorem subkeys_grows (k : Key) : Exec.Grows fun n => k.subkeys r n := by
  intro n
  dsimp only
  by_cases h : k.ListsSubkeys
  · rw [subkeys_of_lists h, subkeys_of_lists h]
    exact Exec.Refines.bind (collectSubkeyOffsets_refines n _) fun _ => Exec.Refines.refl _
  · rw [subkeys_of_not_lists h, subkeys_of_not_lists h]
    exact Exec.Refines.refl _

/-- A listed cell that can be read is pushed or skipped. -/
theorem pushKey_of_read {off : CellOffset} {cell : Cell} (h : r.readCell off = .ok cell)
    (keys : List Key) : ∃ keys', Key.pushKey r keys off = .ok keys' := by
  unfold Key.pushKey
  rw [h, Exec.ok_bind]
  split <;> exact ⟨_, rfl⟩

/-- Reading the listed cells aborts exactly when the first unreadable one aborts. -/
theorem foldlM_pushKey_panic_iff : ∀ (offsets : List CellOffset) (keys : List Key),
    offsets.foldlM (Key.pushKey r) keys = .panic ↔
      ∃ before off after, offsets = before ++ off :: after ∧
        (∀ p ∈ before, ∃ cell, r.readCell p = .ok cell) ∧ r.readCell off = .panic := by
  intro offsets
  induction offsets with
  | nil => intro keys; simp
  | cons off offsets ih =>
    intro keys
    rw [List.foldlM_cons]
    -- an unreadable first cell decides: nothing may come before the aborting one
    have hfirst : ∀ {x : Exec HiveError Cell}, r.readCell off = x → (∀ cell, x ≠ .ok cell) →
        ((∃ before o after, off :: offsets = before ++ o :: after ∧
          (∀ p ∈ before, ∃ cell, r.readCell p = .ok cell) ∧ r.readCell o = .panic) ↔
          x = .panic) := by
      intro x hx hno
      constructor
      · rintro ⟨before, o, after, hsplit, hread, hpanic⟩
        cases before with
        | nil =>
          obtain ⟨rfl, -⟩ := List.cons.inj hsplit
          rw [← hx, hpanic]
        | cons p before =>
          obtain ⟨rfl, -⟩ := List.cons.inj hsplit
          obtain ⟨cell, hcell⟩ := hread _ List.mem_cons_self
          exact absurd (hx.symm.trans hcell) (hno cell)
      · intro hpanic
        exact ⟨[], off, offsets, rfl, by simp, hx.trans hpanic⟩
    cases hread : r.readCell off with
    | timeout => rw [hfirst hread (by simp)]; simp [Key.pushKey, hread]
    | err e => rw [hfirst hread (by simp)]; simp [Key.pushKey, hread]
    | panic => rw [hfirst hread (by simp)]; simp [Key.pushKey, hread]
    | ok cell =>
      obtain ⟨keys', hkeys⟩ := pushKey_of_read hread keys
      rw [hkeys, Exec.ok_bind, ih]
      constructor
      · rintro ⟨before, o, after, rfl, hall, hpanic⟩
        exact ⟨off :: before, o, after, rfl,
          List.forall_mem_cons.mpr ⟨⟨cell, hread⟩, hall⟩, hpanic⟩
      · rintro ⟨before, o, after, hsplit, hall, hpanic⟩
        cases before with
        | nil =>
          obtain ⟨rfl, -⟩ := List.cons.inj hsplit
          rw [hread] at hpanic; cases hpanic
        | cons p before =>
          obtain ⟨-, rfl⟩ := List.cons.inj hsplit
          exact ⟨before, o, after, rfl, (List.forall_mem_cons.mp hall).2, hpanic⟩

variable (hr : ∀ off, r.readCell off ≠ .timeout)
include hr

/-- Reading the keys from the offsets needs no fuel. -/
theorem foldlM_pushKey_ne_timeout : ∀ (offsets : List CellOffset) (keys : List Key),
    offsets.foldlM (Key.pushKey r) keys ≠ .timeout := by
  intro offsets
  induction offsets with
  | nil => intro keys; simp
  | cons off offsets ih =>
    intro keys h
    rw [List.foldlM_cons] at h
    rcases Exec.bind_eq_timeout.mp h with h' | ⟨keys', _, h'⟩
    · cases hread : r.readCell off with
      | timeout => exact hr off hread
      | err e => simp [Key.pushKey, hread] at h'
      | panic => simp [Key.pushKey, hread] at h'
      | ok cell =>
        obtain ⟨keys', hkeys⟩ := pushKey_of_read hread keys
        rw [hkeys] at h'; cases h'
    · exact ih keys' h'

/-- **Listing the subkeys ends** exactly when no cycle of index calls can be reached. -/
theorem subkeys_ends_iff (k : Key) :
    (Exec.Ends fun n => k.subkeys r n) ↔
      (k.ListsSubkeys → NoCycleFrom (IndexCalls r) k.node.subkeysListOffset) := by
  by_cases h : k.ListsSubkeys
  · simp only [subkeys_of_lists h]
    rw [Exec.ends_bind_iff (collectSubkeyOffsets_grows _) fun _ _ => Exec.Refines.refl _,
      collectSubkeyOffsets_ends_iff hr]
    refine ⟨fun hends _ => hends.1, fun hno => ⟨hno h, fun offsets _ => ⟨0, ?_⟩⟩⟩
    exact foldlM_pushKey_ne_timeout hr offsets []
  · simp only [subkeys_of_not_lists h]
    exact ⟨fun _ hl => absurd hl h, fun _ => ⟨0, by simp⟩⟩

/-- **Listing the subkeys aborts** exactly when a cell that it reads aborts the read. -/
theorem subkeys_panics_iff (k : Key) :
    Exec.Evals (fun n => k.subkeys r n) .panic ↔
      ∃ off, SubkeyReads r k off ∧ r.readCell off = .panic := by
  by_cases h : k.ListsSubkeys
  · simp only [subkeys_of_lists h]
    constructor
    · rintro ⟨n, hn⟩
      rcases Exec.bind_eq_panic.mp (hn n (Nat.le_refl n)) with hp | ⟨offsets, hok, hp⟩
      · obtain ⟨b, hreach, hb⟩ := panic_of_collect hr n _ hp
        exact ⟨b, .index h hreach, hb⟩
      · obtain ⟨before, off, after, rfl, hread, hoff⟩ :=
          (foldlM_pushKey_panic_iff offsets []).mp hp
        exact ⟨off, .key h (lists_of_collect n _ _ hok) hread, hoff⟩
    · rintro ⟨off, hreads, hoff⟩
      cases hreads with
      | index _ hreach => exact Exec.Evals.bind_panic (evals_panic_of_read hreach hoff)
      | key _ hlists hread =>
        refine Exec.Evals.bind hlists.evals ?_
        rw [(foldlM_pushKey_panic_iff _ []).mpr ⟨_, off, _, rfl, hread, hoff⟩]
        exact Exec.Evals.const _
  · simp only [subkeys_of_not_lists h]
    constructor
    · rintro ⟨n, hn⟩
      cases hn n (Nat.le_refl n)
    · rintro ⟨off, hreads, _⟩
      cases hreads with
      | index hl _ => exact absurd hl h
      | key hl _ _ => exact absurd hl h

end Subkeys

/-! ## Subkeys -/

/-- Reading a cell panics on an undersized one only. -/
theorem Hive.readCell_eq_panic_iff (hive : Hive) (off : CellOffset) :
    hive.reader.readCell off = .panic ↔ hive.UndersizedCell off := by
  have hret := hive.readCell_returns_iff off
  rw [Exec.returns_iff] at hret
  constructor
  · intro hp
    by_contra hu
    exact (hret.mpr hu).1 hp
  · intro hu
    by_contra hp
    exact hret.mp ⟨hp, hive.readCell_ne_timeout off⟩ hu

/-- **When the subkeys of a key are listed.**  The listing ends exactly when no cycle of index calls
    can be reached from the list of the key; it comes back, with keys or with an error, exactly when
    besides it reads no undersized cell.  A collection that ends is well-founded on its calls; in a
    file the offsets are finitely many, so a call that is not well-founded runs into a cycle. -/
theorem subkeys_returns_iff (hive : Hive) (k : Key) :
    ((Exec.Ends fun n => k.subkeys hive.reader n) ↔
      (k.ListsSubkeys → NoCycleFrom (IndexCalls hive.reader) k.node.subkeysListOffset)) ∧
    ((∃ x : Exec HiveError (List Key), x.Returns ∧
        Exec.Evals (fun n => k.subkeys hive.reader n) x) ↔
      (k.ListsSubkeys → NoCycleFrom (IndexCalls hive.reader) k.node.subkeysListOffset) ∧
      ∀ off, SubkeyReads hive.reader k off → ¬ hive.UndersizedCell off) := by
  have hr := hive.readCell_ne_timeout
  refine ⟨subkeys_ends_iff hr k, ?_⟩
  rw [← subkeys_ends_iff hr k]
  have hpanics := subkeys_panics_iff hr k
  simp only [hive.readCell_eq_panic_iff] at hpanics
  constructor
  · rintro ⟨x, hx, hev⟩
    refine ⟨hev.ends hx.ne_timeout, fun off hreads hu => ?_⟩
    exact hx.ne_panic (hev.unique (hpanics.mpr ⟨off, hreads, hu⟩))
  · rintro ⟨⟨n, hn⟩, hno⟩
    refine ⟨k.subkeys hive.reader n, Exec.returns_iff.mpr ⟨fun hp => ?_, hn⟩,
      (subkeys_grows k).evals hn⟩
    obtain ⟨off, hreads, hu⟩ := hpanics.mp (hp ▸ (subkeys_grows k).evals hn)
    exact hno off hreads hu

/-- Two cells: a root key that lists one subkey, and the `ri` index of its list, whose only entry
    is the index itself. -/
def selfIndexCells : Bytes :=
  cellBytes (-80) (nkRecordBytes 0x20 1 112 0 0xFFFFFFFF []) ++
    cellBytes (-16) ([0x72, 0x69] ++ u16Bytes 1 ++ u32Bytes 112 ++ u32Bytes 0)

/-- The root key of that image. -/
def selfIndexRoot : Key := ⟨nkRecord ⟨0x20⟩ 1 112 0 0xFFFFFFFF [], ⟨32⟩⟩

/-- The index cell of the sample lists itself. -/
theorem selfIndex_readCell :
    (oneBinHive 32 selfIndexCells).reader.readCell ⟨32⟩ = .ok (.keyNode selfIndexRoot.node) ∧
    (oneBinHive 32 selfIndexCells).reader.readCell ⟨112⟩ =
      .ok (.index (.rootIndex [⟨112⟩])) := by
  constructor
  · exact Hive.readCell_oneBin 0 80 (by decide) rfl (by decide) (by decide)
      (by decide) (by decide)
  · exact Hive.readCell_oneBin 80 16 (by decide) rfl (by decide) (by decide)
      (by decide) (by decide)

/-- The hive opens, its root key is reached, and listing the subkeys of the root never ends. -/
theorem subkeys_diverges_self_index :
    Hive.fromBytes (oneBinImage 32 selfIndexCells) = .ok (oneBinHive 32 selfIndexCells) ∧
    (oneBinHive 32 selfIndexCells).rootKey = .ok selfIndexRoot ∧
    Exec.Diverges fun n => selfIndexRoot.subkeys (oneBinHive 32 selfIndexCells).reader n := by
  obtain ⟨hroot, hindex⟩ := selfIndex_readCell
  refine ⟨Hive.fromBytes_oneBinImage (by decide), ?_, ?_⟩
  · show Key.fromCellOffset (oneBinHive 32 selfIndexCells).reader ⟨32⟩ = _
    rw [Key.fromCellOffset, hroot, Exec.ok_bind]
    rfl
  · have hcycle : IndexCalls (oneBinHive 32 selfIndexCells).reader ⟨112⟩ ⟨112⟩ :=
      ⟨[], [], [], hindex, .nil⟩
    have hlists : selfIndexRoot.ListsSubkeys := ⟨by decide, by decide⟩
    by_contra hdiv
    have hno := (subkeys_ends_iff (Hive.readCell_ne_timeout _) selfIndexRoot).mp
      (Exec.ends_iff_not_diverges.mpr hdiv) hlists
    exact hno ⟨112⟩ ReflTransGen.refl (TransGen.single hcycle)

end Winreg
