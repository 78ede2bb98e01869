/-
  RUNS WITH TWO CALLBACKS: what an expansion hands to its callback.

  The walk passes the callback's state on without looking at it, and makes the bindings itself.  So
  two runs whose callbacks keep their states related end in the same way, with related states
  (`expand_rel`), and the callbacks only have to do so for bindings that a walk makes (`Made`).
-/
import Winreg.Artifacts.Expansion

namespace Winreg

open Rust

namespace PathExpansion

/-- What a walk makes of its choices: a subkey, or a key with the name of a control set. -/
inductive Made (sets : List Str) : Binding → Prop
  | subkey (name : Str) : Made sets ⟨.subkey, name⟩
  | controlSet {set : Str} (hset : set ∈ sets) {name : Str} (hname : eqIgnoreAsciiCase name set) :
    Made sets ⟨.controlSet, name⟩

/-- No choice is about a user. -/
theorem Made.kind_ne_user {sets : List Str} {b : Binding} (h : Made sets b) : b.kind ≠ .user := by
  cases h <;> nofun

/-- States of two walks in step. -/
structure WalkState.Rel {σ τ : Type} (sets : List Str) (R : σ → τ → Prop) (s : WalkState σ)
    (t : WalkState τ) : Prop where
  matched : s.matched = t.matched
  bindings : s.bindings = t.bindings
  made : ∀ b ∈ t.bindings, Made sets b
  out : R s.out t.out

section Rel

variable {σ τ : Type} {sets : List Str} {R : σ → τ → Prop}

/-- Two calls that keep two walks in step. -/
def InStep (sets : List Str) (R : σ → τ → Prop) (f : WalkState σ → Exec HiveError (WalkState σ))
    (g : WalkState τ → Exec HiveError (WalkState τ)) : Prop :=
  ∀ s t, WalkState.Rel sets R s t → Exec.Rel (WalkState.Rel sets R) (f s) (g t)

namespace InStep

variable {f : WalkState σ → Exec HiveError (WalkState σ)}
  {g : WalkState τ → Exec HiveError (WalkState τ)}

/-- Doing nothing keeps the walks in step. -/
theorem skip : InStep sets R .ok .ok := fun _ _ h => .ok h

/-- Both walks put the same binding on the stack, and take it off again. -/
theorem push {binding : Binding} (hmade : Made sets binding) (hfg : InStep sets R f g) :
    InStep sets R (withBinding binding f) (withBinding binding g) := by
  intro s t h
  unfold withBinding
  refine Exec.Rel.bind (hfg _ _ ⟨h.matched, ?_, ?_, h.out⟩) fun s' t' h' => .ok ?_
  · rw [h.bindings]
  · intro b hb
    rcases List.mem_append.mp hb with hb | hb
    · exact h.made b hb
    · rw [List.mem_singleton.mp hb]
      exact hmade
  · refine ⟨h'.matched, ?_, fun b hb => h'.made b (List.dropLast_subset _ hb), h'.out⟩
    rw [h'.bindings]

/-- Giving up early happens in both walks or in none. -/
theorem guard (hfg : InStep sets R f g) :
    InStep sets R (fun s => if s.matched ≥ maxGlobMatches then .ok s else f s)
      (fun t => if t.matched ≥ maxGlobMatches then .ok t else g t) := by
  intro s t h
  dsimp only
  rw [h.matched]
  split
  · exact .ok h
  · exact hfg s t h

/-- Steps in step make loops in step, by induction on the list. -/
theorem foldlM {α : Type} {f : WalkState σ → α → Exec HiveError (WalkState σ)}
    {g : WalkState τ → α → Exec HiveError (WalkState τ)} {xs : List α}
    (hfg : ∀ x ∈ xs, InStep sets R (fun s => f s x) fun t => g t x) :
    InStep sets R (fun s => xs.foldlM f s) fun t => xs.foldlM g t :=
  fun _ _ h => Exec.Rel.foldlM (fun x hx s t h => hfg x hx s t h) h

end InStep

section Segments

variable {r : CellReader} {n : Nat} {controlset : Option ControlSetResolver} {emit : Emit σ}
  {emit' : Emit τ} {key : Key} {path : Str} {depth : Nat}

/-- The walks on the rest of a template, below a child of the key, stay in step. -/
def InStepBelow (r : CellReader) (n : Nat) (controlset : Option ControlSetResolver)
    (R : σ → τ → Prop) (emit : Emit σ) (emit' : Emit τ) (depth : Nat) (rest : List Segment) :
    Prop :=
  ∀ child path, InStep (controlSets controlset) R
    (walk r n controlset emit child rest path (depth + 1))
    (walk r n controlset emit' child rest path (depth + 1))

/-- The caps of both walks are reached together, so it remains to look at what is below them. -/
theorem walk_inStep {segments : List Segment}
    (h : ∀ s t, ¬ (s.matched ≥ maxGlobMatches ∨ depth > maxGlobDepth) →
      ¬ (t.matched ≥ maxGlobMatches ∨ depth > maxGlobDepth) →
      WalkState.Rel (controlSets controlset) R s t →
      Exec.Rel (WalkState.Rel (controlSets controlset) R)
        (walk r n controlset emit key segments path depth s)
        (walk r n controlset emit' key segments path depth t)) :
    InStep (controlSets controlset) R (walk r n controlset emit key segments path depth)
      (walk r n controlset emit' key segments path depth) := by
  intro s t hst
  by_cases hs : s.matched ≥ maxGlobMatches ∨ depth > maxGlobDepth
  · rw [walk_of_capped hs, walk_of_capped (hst.matched ▸ hs)]
    exact .ok hst
  · exact h s t hs (hst.matched ▸ hs) hst

/-- A literal segment: both walks look the same name up, and go on below. -/
theorem literal_inStep {name : Str} {rest : List Segment}
    (hbelow : InStepBelow r n controlset R emit emit' depth rest) :
    InStep (controlSets controlset) R
      (walk r n controlset emit key (.literal name :: rest) path depth)
      (walk r n controlset emit' key (.literal name :: rest) path depth) := by
  refine walk_inStep fun s t hs ht h => ?_
  rw [walk, dif_neg hs, walk, dif_neg ht]
  refine Exec.Rel.after _ fun listed _ => ?_
  cases listed with
  | error e => exact .ok h
  | ok children =>
    dsimp only
    split
    · exact hbelow _ _ s t h
    · exact .ok h

/-- A user variable matches nothing in either walk. -/
theorem user_inStep {pattern : Str} {rest : List Segment} :
    InStep (controlSets controlset) R
      (walk r n controlset emit key (.var .user pattern :: rest) path depth)
      (walk r n controlset emit' key (.var .user pattern :: rest) path depth) := by
  refine walk_inStep fun s t hs ht h => ?_
  rw [walk, dif_neg hs, walk, dif_neg ht]
  exact .ok h

/-- The binding is the name of the child, which is that of the control set up to case. -/
theorem controlSet_inStep {pattern : Str} {rest : List Segment}
    (hbelow : InStepBelow r n controlset R emit emit' depth rest) :
    InStep (controlSets controlset) R
      (walk r n controlset emit key (.var .controlSet pattern :: rest) path depth)
      (walk r n controlset emit' key (.var .controlSet pattern :: rest) path depth) := by
  refine walk_inStep fun s t hs ht h => ?_
  rw [walk, dif_neg hs, walk, dif_neg ht]
  refine Exec.Rel.after _ fun listed _ => ?_
  cases listed with
  | error e => exact .ok h
  | ok children =>
    refine InStep.foldlM (fun setName hset => InStep.guard ?_) s t h
    split
    · rename_i child hfind
      have hname : eqIgnoreAsciiCase child.name setName := by
        simpa using List.find?_some hfind
      exact (hbelow _ _).push (.controlSet hset hname)
    · exact .skip

/-- A segment with `**`: both match it with nothing, or go down to every subkey. -/
theorem deep_inStep {pattern : Str} {rest : List Segment} (hstars : ['*', '*'] <:+: pattern)
    (hrest : InStep (controlSets controlset) R (walk r n controlset emit key rest path depth)
      (walk r n controlset emit' key rest path depth))
    (hbelow : InStepBelow r n controlset R emit emit' depth (.var .subkey pattern :: rest)) :
    InStep (controlSets controlset) R
      (walk r n controlset emit key (.var .subkey pattern :: rest) path depth)
      (walk r n controlset emit' key (.var .subkey pattern :: rest) path depth) := by
  refine walk_inStep fun s t hs ht h => ?_
  rw [walk, dif_neg hs, if_pos hstars, walk, dif_neg ht, if_pos hstars]
  refine Exec.Rel.bind (hrest s t h) fun s t h => ?_
  refine Exec.Rel.after _ fun listed _ => ?_
  cases listed with
  | error e => exact .ok h
  | ok children =>
    exact InStep.foldlM (fun child _ => ((hbelow _ _).push (.subkey _)).guard) s t h

/-- A wildcard: both go through the same subkeys in the same order. -/
theorem subkey_inStep {pattern : Str} {rest : List Segment} (hstars : ¬ ['*', '*'] <:+: pattern)
    (hbelow : InStepBelow r n controlset R emit emit' depth rest) :
    InStep (controlSets controlset) R
      (walk r n controlset emit key (.var .subkey pattern :: rest) path depth)
      (walk r n controlset emit' key (.var .subkey pattern :: rest) path depth) := by
  refine walk_inStep fun s t hs ht h => ?_
  rw [walk, dif_neg hs, if_neg hstars, walk, dif_neg ht, if_neg hstars]
  refine Exec.Rel.after _ fun listed _ => ?_
  cases listed with
  | error e => exact .ok h
  | ok children =>
    refine InStep.foldlM (fun child _ => InStep.guard fun s t h => ?_) s t h
    refine Exec.Rel.after _ fun matching _ => ?_
    cases matching with
    | true => exact (hbelow _ _).push (.subkey _) s t h
    | false => exact .ok h

end Segments

/-- **Walks with callbacks in step stay in step**: by induction on the levels that are left and, at
    one key, on the template. -/
theorem walk_rel {r : CellReader} {n : Nat} {controlset : Option ControlSetResolver}
    {emit : Emit σ} {emit' : Emit τ}
    (hemit : ∀ out out' bindings path key, R out out' →
      (∀ b ∈ bindings, Made (controlSets controlset) b) →
      Exec.Rel R (emit out bindings path key) (emit' out' bindings path key)) :
    ∀ (levels : Nat) (key : Key) (segments : List Segment) (path : Str) (depth : Nat),
      levels = maxGlobDepth + 1 - depth →
      InStep (controlSets controlset) R (walk r n controlset emit key segments path depth)
        (walk r n controlset emit' key segments path depth) := by
  intro levels
  induction levels with
  | zero =>
    intro key segments path depth hlevels s t h
    rw [walk_of_capped (Or.inr (by omega)), walk_of_capped (Or.inr (by omega))]
    exact .ok h
  | succ levels ih =>
    intro key segments path depth hlevels
    -- the levels are those that are left below the greatest depth
    have hbelow : ∀ rest, InStepBelow r n controlset R emit emit' depth rest :=
      fun rest child path => ih child rest path (depth + 1) (by omega)
    induction segments with
    | nil =>
      -- the template has come to its end: both emit, and count one match
      refine walk_inStep fun s t hs ht h => ?_
      rw [walk, dif_neg hs, walk, dif_neg ht, h.bindings]
      refine Exec.Rel.bind (hemit _ _ _ _ _ h.out h.made) fun out out' hout => .ok ?_
      exact ⟨congrArg (· + 1) h.matched, rfl, h.made, hout⟩
    | cons segment rest ihrest =>
      cases segment with
      | literal name => exact literal_inStep (hbelow rest)
      | var domain pattern =>
        cases domain with
        | user => exact user_inStep
        | controlSet => exact controlSet_inStep (hbelow rest)
        | subkey =>
          by_cases hstars : ['*', '*'] <:+: pattern
          · exact deep_inStep hstars ihrest (hbelow _)
          · exact subkey_inStep hstars (hbelow rest)

/-- **Expansions with callbacks in step end in step.** -/
theorem expand_rel {r : CellReader} {n : Nat} {root : Key} {segments : List Segment}
    {controlset : Option ControlSetResolver} {emit : Emit σ} {emit' : Emit τ}
    (hemit : ∀ out out' bindings path key, R out out' →
      (∀ b ∈ bindings, Made (controlSets controlset) b) →
      Exec.Rel R (emit out bindings path key) (emit' out' bindings path key))
    {out : σ} {out' : τ} (h : R out out') :
    Exec.Rel R (expand r n root segments controlset emit out)
      (expand r n root segments controlset emit' out') := by
  unfold expand
  have hstart : WalkState.Rel (controlSets controlset) R (⟨0, [], out⟩ : WalkState σ)
      ⟨0, [], out'⟩ :=
    ⟨rfl, rfl, fun b hb => absurd hb List.not_mem_nil, h⟩
  exact Exec.Rel.bind (walk_rel hemit _ root segments [] 0 rfl _ _ hstart) fun s t h => .ok h.out

/-- A walk does not depend on what the callback does with bindings that no walk makes. -/
theorem expand_congr {r : CellReader} {n : Nat} {root : Key} {segments : List Segment}
    {controlset : Option ControlSetResolver} {emit emit' : Emit σ}
    (hemit : ∀ out bindings path key, (∀ b ∈ bindings, Made (controlSets controlset) b) →
      emit out bindings path key = emit' out bindings path key) (out : σ) :
    expand r n root segments controlset emit out =
      expand r n root segments controlset emit' out := by
  have hrel : Exec.Rel Eq (expand r n root segments controlset emit out)
      (expand r n root segments controlset emit' out) := by
    refine expand_rel (fun out out' bindings path key hout hmade => ?_) rfl
    exact Exec.rel_eq_iff.mpr (by rw [hout, hemit out' bindings path key hmade])
  exact Exec.rel_eq_iff.mp hrel

end Rel

end PathExpansion

end Winreg
