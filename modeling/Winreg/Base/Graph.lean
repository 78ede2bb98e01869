/-
  RECURSION OVER A GRAPH: when a traversal without a visited set comes to an end.

  A recursive function that calls itself along the edges of a graph ends at a vertex exactly when
  the edges below the vertex are well-founded; among finitely many reachable vertices that means
  that no cycle can be reached.

  1. **Cycles** — `NoCycleFrom R v` says that no vertex reachable from `v` reaches itself in one or
     more steps; with finitely many reachable vertices it is accessibility (`noCycleFrom_iff_acc`).
  2. **Recursion** — `ends_iff_acc`: a recursion with a budget ends exactly at the accessible
     vertices, given that a call passes on its lack of budget, and that it ends when all the calls
     it makes end.
  3. **Worklists** — replacing one entry of a worklist by its successors moves down a well-founded
     relation while all entries are accessible (`wellFounded_shrinks`); an inaccessible entry always
     has an inaccessible successor (`exists_not_acc`).
-/
import Winreg.Base.Exec
import Mathlib.Data.Fintype.Card
import Mathlib.Logic.Hydra
import Mathlib.Tactic.Abel

namespace Rust

open Relation

variable {V : Type} {R : V → V → Prop}

/-! ## Cycles -/

/-- No cycle can be reached from `v`. -/
def NoCycleFrom (R : V → V → Prop) (v : V) : Prop := ∀ w, ReflTransGen R v w → ¬ TransGen R w w

/-- An accessible vertex is on no cycle. -/
theorem not_transGen_self_of_acc {v : V} (h : Acc (flip R) v) : ¬ TransGen R v v := by
  have hacc : Acc (TransGen (flip R)) v := acc_transGen_iff.mpr h
  intro hcycle
  have hself : TransGen (flip R) v v := transGen_swap.mpr hcycle
  clear hcycle h
  induction hacc with
  | intro v _ ih => exact ih v hself hself

/-- What is in reach of a well-founded point is well-founded. -/
theorem acc_of_reachable {v w : V} (h : Acc (flip R) v) (hw : ReflTransGen R v w) :
    Acc (flip R) w := by
  induction hw with
  | refl => exact h
  | tail _ hbc ih => exact ih.inv hbc

/-- **Accessible means no cycle in reach**, when finitely many vertices can be reached. -/
theorem noCycleFrom_iff_acc {v : V} [Finite {w // ReflTransGen R v w}] :
    NoCycleFrom R v ↔ Acc (flip R) v := by
  constructor
  · intro h
    -- reaching in one or more steps is a strict order on the reachable vertices
    let below : {w // ReflTransGen R v w} → {w // ReflTransGen R v w} → Prop :=
      fun a b => TransGen R b.1 a.1
    have htrans : IsTrans _ below := ⟨fun a b c hab hbc => hbc.trans hab⟩
    have hirrefl : Std.Irrefl below := ⟨fun a ha => h a.1 a.2 ha⟩
    have hwf : WellFounded below := Finite.wellFounded_of_trans_of_irrefl below
    have hacc : ∀ a : {w // ReflTransGen R v w}, Acc (flip R) a.1 := by
      intro a
      induction a using hwf.induction with
      | h a ih =>
        exact Acc.intro _ fun b (hb : R a.1 b) => ih ⟨b, a.2.tail hb⟩ (TransGen.single hb)
    exact hacc ⟨v, ReflTransGen.refl⟩
  · exact fun h w hw => not_transGen_self_of_acc (acc_of_reachable h hw)

/-! ## Recursion -/

/-- **A recursion ends exactly at the accessible vertices.** -/
theorem ends_iff_acc {ε α : Type} {F : Nat → V → Exec ε α} {Calls : V → V → Prop}
    (zero : ∀ v, F 0 v = .timeout)
    (down : ∀ v w n, Calls v w → F n w = .timeout → F (n + 1) v = .timeout)
    (up : ∀ v, (∀ w, Calls v w → Exec.Ends fun n => F n w) → Exec.Ends fun n => F n v) (v : V) :
    (Exec.Ends fun n => F n v) ↔ Acc (flip Calls) v := by
  constructor
  · rintro ⟨n, hn⟩
    induction n generalizing v with
    | zero => exact absurd (zero v) hn
    | succ n ih => exact Acc.intro v fun w hw => ih w fun ht => hn (down v w n hw ht)
  · intro h
    induction h with
    | intro v _ ih => exact up v fun w hw => ih w hw

/-! ## Worklists -/

/-- A worklist of accessible entries shrinks: one entry is replaced by some of its successors. -/
structure Shrinks (R : V → V → Prop) (after before : List V) : Prop where
  accessible : ∀ v ∈ before, Acc (flip R) v
  replaces : ∃ v rest next, before.Perm (v :: rest) ∧ after.Perm (rest ++ next) ∧
    ∀ w ∈ next, R v w

/-- Steps below accessible vertices are well-founded. -/
theorem wellFounded_below_acc : WellFounded fun w v => R v w ∧ Acc (flip R) v := by
  refine ⟨fun v => ?_⟩
  by_cases hv : Acc (flip R) v
  · exact Subrelation.accessible (fun h => h.1) hv
  · exact Acc.intro v fun w hw => absurd hw.2 hv

/-- **Worklists of accessible entries shrink only finitely often**: the hydra order. -/
theorem wellFounded_shrinks : WellFounded (Shrinks R) := by
  have hirrefl : Std.Irrefl fun w v => R v w ∧ Acc (flip R) v :=
    ⟨fun v hv => not_transGen_self_of_acc hv.2 (TransGen.single hv.1)⟩
  have hcut := (wellFounded_below_acc (R := R)).cutExpand
  refine Subrelation.wf ?_ (InvImage.wf (fun l : List V => (l : Multiset V)) hcut)
  rintro after before ⟨hacc, v, rest, next, hbefore, hafter, hnext⟩
  have hv : Acc (flip R) v := hacc v (hbefore.mem_iff.mpr List.mem_cons_self)
  refine ⟨(next : Multiset V), v, fun w hw => ⟨hnext w hw, hv⟩, ?_⟩
  show (after : Multiset V) + {v} = (before : Multiset V) + next
  rw [Multiset.coe_eq_coe.mpr hafter, Multiset.coe_eq_coe.mpr hbefore, ← Multiset.cons_coe,
    ← Multiset.coe_add, ← Multiset.singleton_add]
  abel

/-- An inaccessible vertex has an inaccessible successor. -/
theorem exists_not_acc {v : V} (h : ¬ Acc (flip R) v) : ∃ w, R v w ∧ ¬ Acc (flip R) w := by
  by_contra hno
  exact h (Acc.intro v fun w hw => not_not.mp fun hw' => hno ⟨w, hw, hw'⟩)

end Rust
