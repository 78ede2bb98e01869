/-
  WHAT EXPANSION FINDS: the derivations of a template, in order.

  A derivation consumes a whole template on its way down a key graph.  The keys it leads to, with
  the names passed and the choices made, are listed depth first; the graph may have cycles, since
  a derivation goes down at most 64 levels.

  1. **Derivations** — `derivations name children sets levels key segments`, over any graph.
  2. **Visits** — `Visits emit act es`: whatever the state, the call `act` hands the emissions `es`
     to the callback until the cap on the matches is reached, and leaves the stack of bindings as
     it was.  Visits compose along sequences, loops and pushed bindings.
  3. **Expansion** — a walk visits the derivations of its template (`walk_visits`), so `expand`
     calls `emit` on the first 4096 of them (`expand_eq`).  The path it passes on is the names
     joined by backslashes, but without empty names at the front (`foldl_joinPath`).
-/
import Winreg.Artifacts.PathExpansion
import Winreg.Core.Path

namespace Winreg

open Rust Relation

namespace PathExpansion

/-! ## Derivations -/

/-- A way to consume a template: the choices at its variable segments, the names passed, and the
    vertex it leads to. -/
structure Derivation (V : Type) where
  bindings : List Binding
  names : List Str
  key : V

/-- A derivation that first passes a child. -/
def Derivation.below {V : Type} (name : Str) (bindings : List Binding) (d : Derivation V) :
    Derivation V := ⟨bindings ++ d.bindings, name :: d.names, d.key⟩

section Derivations

variable {V : Type} (name : V → Str) (children : V → List V) (sets : List Str)

/-- The first child with a name, ASCII case ignored. -/
def firstNamed (key : V) (n : Str) : Option V :=
  (children key).find? fun child => eqIgnoreAsciiCase (name child) n

/-- A child whose name matches a pattern, ASCII case ignored. -/
def Globbed (pattern : Str) (child : V) : Prop :=
  Glob '*' (toAsciiLowercase pattern) (toAsciiLowercase (name child))

open Classical in
/-- The derivations of a template from a vertex on, on paths of so many vertices, depth first. -/
noncomputable def derivations : Nat → V → List Segment → List (Derivation V)
  | 0, _, _ => []
  | _ + 1, key, [] => [⟨[], [], key⟩]
  | levels + 1, key, .literal n :: rest =>
    (firstNamed name children key n).toList.flatMap fun child =>
      (derivations levels child rest).map (.below (name child) [])
  | levels + 1, key, .var .controlSet _ :: rest =>
    sets.flatMap fun n => (firstNamed name children key n).toList.flatMap fun child =>
      (derivations levels child rest).map (.below (name child) [⟨.controlSet, name child⟩])
  | levels + 1, key, .var .subkey pattern :: rest =>
    if ['*', '*'] <:+: pattern then
      derivations (levels + 1) key rest ++ (children key).flatMap fun child =>
        (derivations levels child (.var .subkey pattern :: rest)).map
          (.below (name child) [⟨.subkey, name child⟩])
    else
      ((children key).filter fun child => Globbed name pattern child).flatMap fun child =>
        (derivations levels child rest).map (.below (name child) [⟨.subkey, name child⟩])
  | _ + 1, _, .var .user _ :: _ => []
termination_by levels _ segments => (levels, segments.length)

end Derivations

/-- The key graph below a root: the listed subkeys of each key, none where the listing fails. -/
structure KeyGraph (r : CellReader) (root : Key) where
  children : Key → List Key
  lists : ∀ k, ReflTransGen (Kids r) root k →
    Exec.Evals (fun n => k.subkeys r n) (.ok (children k)) ∨
    children k = [] ∧ ∃ e, Exec.Evals (fun n => k.subkeys r n) (.err e)

/-- Where all listings in reach come back there is such a graph. -/
theorem exists_keyGraph {r : CellReader} {root : Key} (h : ListingsReturn r root) :
    Nonempty (KeyGraph r root) := by
  have hone : ∀ k, ∃ children : List Key, ReflTransGen (Kids r) root k →
      Exec.Evals (fun n => k.subkeys r n) (.ok children) ∨
      children = [] ∧ ∃ e, Exec.Evals (fun n => k.subkeys r n) (.err e) := by
    intro k
    by_cases hk : ReflTransGen (Kids r) root k
    · obtain ⟨x, hret, hev⟩ := h k hk
      rcases hret with ⟨children, rfl⟩ | ⟨e, rfl⟩
      · exact ⟨children, fun _ => Or.inl hev⟩
      · exact ⟨[], fun _ => Or.inr ⟨rfl, e, hev⟩⟩
    · exact ⟨[], fun h => absurd h hk⟩
  choose children hchildren using hone
  exact ⟨children, hchildren⟩

/-! ## Visits -/

/-- A call of `emit`: the bindings on top of the current stack, the path and the key. -/
structure Emission where
  bindings : List Binding
  path : Str
  key : Key

/-- The emission of a derivation below a path. -/
def Emission.at (path : Str) (d : Derivation Key) : Emission :=
  ⟨d.bindings, d.names.foldl joinPath path, d.key⟩

section Visits

variable {σ : Type} (emit : Emit σ)

/-- One emission, unless the cap is reached. -/
def visitOne (s : WalkState σ) (e : Emission) : Exec HiveError (WalkState σ) :=
  if s.matched ≥ maxGlobMatches then .ok s
  else do
    let out ← emit s.out (s.bindings ++ e.bindings) e.path e.key
    .ok { s with matched := s.matched + 1, out := out }

/-- Emissions in order, up to the cap. -/
def visit (es : List Emission) (s : WalkState σ) : Exec HiveError (WalkState σ) :=
  es.foldlM (visitOne emit) s

/-- From every state the call makes these emissions. -/
def Visits (act : Nat → WalkState σ → Exec HiveError (WalkState σ)) (es : List Emission) : Prop :=
  ∀ s, Exec.Evals (fun n => act n s) (visit emit es s)

variable {emit}

/-- When the cap is reached nothing more is visited. -/
theorem visit_of_full {s : WalkState σ} (h : s.matched ≥ maxGlobMatches) :
    ∀ es, visit emit es s = .ok s
  | [] => rfl
  | e :: es => by
    unfold visit
    rw [List.foldlM_cons, visitOne, if_pos h, Exec.ok_bind]
    exact visit_of_full h es

/-- Two lists of emissions are visited one after the other. -/
theorem visit_append (es es' : List Emission) (s : WalkState σ) :
    visit emit (es ++ es') s = (visit emit es s >>= visit emit es') := List.foldlM_append

/-- Emissions under a pushed binding are emissions with that binding in front. -/
theorem withBinding_visit (binding : Binding) : ∀ (es : List Emission) (s : WalkState σ),
    withBinding binding (visit emit es) s =
      visit emit (es.map fun e => ⟨binding :: e.bindings, e.path, e.key⟩) s
  | [], s => by
    show Exec.ok _ = Exec.ok _
    rw [List.dropLast_concat]
  | e :: es, s => by
    unfold withBinding visit
    rw [List.map_cons, List.foldlM_cons, List.foldlM_cons, visitOne, visitOne, bind_assoc]
    by_cases hfull : s.matched ≥ maxGlobMatches
    · rw [if_pos hfull, if_pos hfull]
      exact withBinding_visit binding es s
    · rw [if_neg hfull, if_neg hfull, bind_assoc, bind_assoc, List.append_assoc]
      refine congrArg _ (funext fun out => ?_)
      exact withBinding_visit binding es { s with matched := s.matched + 1, out := out }

/-- Doing nothing visits nothing. -/
theorem Visits.skip : Visits emit (fun _ s => .ok s) [] := fun _ => Exec.Evals.const _

/-- One emission. -/
theorem Visits.one (e : Emission) : Visits emit (fun _ s => visitOne emit s e) [e] := by
  intro s
  unfold visit
  rw [List.foldlM_cons]
  simp only [List.foldlM_nil, bind_pure]
  exact Exec.Evals.const _

/-- Two actions visit what the first does, and then what the second does. -/
theorem Visits.seq {act act' : Nat → WalkState σ → Exec HiveError (WalkState σ)}
    {es es' : List Emission} (h : Visits emit act es) (h' : Visits emit act' es') :
    Visits emit (fun n s => act n s >>= act' n) (es ++ es') := by
  intro s
  rw [visit_append]
  exact Exec.Evals.andThen (h s) h'

/-- Giving up early when the cap is reached makes no difference. -/
theorem Visits.guard {act : Nat → WalkState σ → Exec HiveError (WalkState σ)}
    {es : List Emission} (h : Visits emit act es) :
    Visits emit (fun n s => if s.matched ≥ maxGlobMatches then .ok s else act n s) es := by
  intro s
  by_cases hfull : s.matched ≥ maxGlobMatches
  · rw [visit_of_full hfull]
    exact ⟨0, fun n _ => if_pos hfull⟩
  · exact (h s).congr fun n => if_neg hfull

/-- A call under a pushed binding. -/
theorem Visits.push {act : Nat → WalkState σ → Exec HiveError (WalkState σ)}
    {es : List Emission} (h : Visits emit act es) (binding : Binding) :
    Visits emit (fun n s => withBinding binding (act n) s)
      (es.map fun e => ⟨binding :: e.bindings, e.path, e.key⟩) := by
  intro s
  rw [← withBinding_visit]
  exact Exec.Evals.andThen (h _) fun _ => Exec.Evals.const _

/-- A loop over some elements. -/
theorem Visits.foldlM {α : Type} {act : Nat → WalkState σ → α → Exec HiveError (WalkState σ)}
    {es : α → List Emission} : ∀ {xs : List α},
      (∀ x ∈ xs, Visits emit (fun n s => act n s x) (es x)) →
      Visits emit (fun n s => xs.foldlM (act n) s) (xs.flatMap es)
  | [], _ => .skip
  | x :: xs, h => by
    have hrest := Visits.foldlM fun y hy => h y (List.mem_cons_of_mem x hy)
    exact Visits.seq (h x List.mem_cons_self) hrest

/-- A call on what was found, if anything was. -/
def onFound (call : Key → WalkState σ → Exec HiveError (WalkState σ)) (s : WalkState σ) :
    Option Key → Exec HiveError (WalkState σ)
  | some child => call child s
  | none => .ok s

/-- An action on a key that may be missing visits what it does on the key. -/
theorem Visits.onFound {call : Nat → Key → WalkState σ → Exec HiveError (WalkState σ)}
    {es : Key → List Emission} {found : Option Key}
    (h : ∀ child, found = some child → Visits emit (fun n s => call n child s) (es child)) :
    Visits emit (fun n s => PathExpansion.onFound (call n) s found) (found.toList.flatMap es) := by
  cases found with
  | none => exact .skip
  | some child =>
    rw [Option.toList_some, List.flatMap_singleton]
    exact h child rfl

/-- Listing the subkeys of a key of the graph, and a call on them. -/
theorem Visits.subkeys {r : CellReader} {root : Key} (graph : KeyGraph r root) {key : Key}
    (hkey : ReflTransGen (Kids r) root key)
    (act : Nat → WalkState σ → List Key → Exec HiveError (WalkState σ)) {es : List Emission}
    (h : Visits emit (fun n s => act n s (graph.children key)) es)
    (hnone : graph.children key = [] → es = []) :
    Visits emit (fun n s => (key.subkeys r n).attempt >>= fun
      | .error _ => .ok s
      | .ok children => act n s children) es := by
  intro s
  rcases graph.lists key hkey with hlist | ⟨hempty, e, herr⟩
  · exact Exec.Evals.bind hlist.attempt (h s)
  · rw [hnone hempty]
    exact Exec.Evals.bind herr.attempt (Exec.Evals.const _)

/-- Up to the cap the emissions are calls of `emit`, one after the other. -/
theorem visit_eq : ∀ (es : List Emission) (s : WalkState σ),
    (visit emit es s >>= fun s => .ok s.out) =
      (es.take (maxGlobMatches - s.matched)).foldlM
        (fun out e => emit out (s.bindings ++ e.bindings) e.path e.key) s.out
  | [], s => by rw [List.take_nil]; rfl
  | e :: es, s => by
    by_cases hfull : s.matched ≥ maxGlobMatches
    · rw [visit_of_full hfull, Nat.sub_eq_zero_of_le hfull]
      rfl
    · obtain ⟨k, hk⟩ : ∃ k, maxGlobMatches - s.matched = k + 1 :=
        ⟨maxGlobMatches - s.matched - 1, by omega⟩
      rw [hk, List.take_succ_cons, List.foldlM_cons]
      unfold visit
      rw [List.foldlM_cons, visitOne, if_neg hfull, bind_assoc, bind_assoc]
      refine congrArg _ (funext fun out => ?_)
      have hrest := visit_eq es { s with matched := s.matched + 1, out := out }
      rw [show maxGlobMatches - (s.matched + 1) = k by omega] at hrest
      exact hrest

end Visits

/-! ## Expansion -/

/-- The names that a `CurrentControlSet` segment ranges over. -/
def controlSets (controlset : Option ControlSetResolver) : List Str :=
  (controlset.getD ⟨["ControlSet001".toList]⟩).sets

section Walk

variable {σ : Type} {emit : Emit σ} {r : CellReader} {root : Key}

/-- A child in the graph is a subkey. -/
theorem KeyGraph.kids (graph : KeyGraph r root) {key child : Key}
    (hkey : ReflTransGen (Kids r) root key) (hchild : child ∈ graph.children key) :
    Kids r key child := by
  rcases graph.lists key hkey with hlist | ⟨hempty, _⟩
  · exact ⟨_, hlist, hchild⟩
  · rw [hempty] at hchild
    cases hchild

/-- The children in the graph are what the listing gives. -/
theorem KeyGraph.children_eq (graph : KeyGraph r root) {key : Key} {kids : List Key}
    (hkey : ReflTransGen (Kids r) root key)
    (hlist : Exec.Evals (fun n => key.subkeys r n) (.ok kids)) : graph.children key = kids := by
  rcases graph.lists key hkey with h | ⟨_, e, h⟩
  · exact Exec.ok.inj (h.unique hlist)
  · cases h.unique hlist

/-- Testing a name against a pattern returns, and tells whether the pattern matches. -/
theorem segmentMatches_eq (pattern : Str) (child : Key) : ∃ b,
    segmentMatches pattern child.name = .ok b ∧ (b = true ↔ Globbed Key.name pattern child) :=
  globMatch_eq _ _

/-- **The matcher is exact**: it ends, and says whether the text can be cut into one piece for each
    character of the pattern, any piece for a star and the character itself for every other; a
    component is matched in lower case. -/
theorem globMatch_exact :
    (∀ pat txt : List Char, ∃ b, (globMatch pat txt : Exec HiveError Bool) = .ok b ∧
      (b = true ↔ ∃ pieces : List (List Char),
        List.Forall₂ (fun c piece => c ≠ '*' → piece = [c]) pat pieces ∧
          pieces.flatten = txt)) ∧
    ∀ pattern name : Str, ∃ b, segmentMatches pattern name = .ok b ∧
      (b = true ↔ ∃ pieces : List (List Char),
        List.Forall₂ (fun c piece => c ≠ '*' → piece = [c]) (toAsciiLowercase pattern) pieces ∧
          pieces.flatten = toAsciiLowercase name) := by
  refine ⟨?_, ?_⟩
  · intro pat txt
    obtain ⟨b, hb, hglob⟩ := @globMatch_eq HiveError pat txt
    exact ⟨b, hb, hglob.trans Glob.iff_pieces⟩
  · intro pattern name
    obtain ⟨b, hb, hglob⟩ :=
      @globMatch_eq HiveError (toAsciiLowercase pattern) (toAsciiLowercase name)
    exact ⟨b, hb, hglob.trans Glob.iff_pieces⟩

/-- A walk beyond one of the caps does nothing. -/
theorem walk_of_capped {n : Nat} {controlset : Option ControlSetResolver} {key : Key}
    {segments : List Segment} {path : Str} {depth : Nat} {s : WalkState σ}
    (h : s.matched ≥ maxGlobMatches ∨ depth > maxGlobDepth) :
    walk r n controlset emit key segments path depth s = .ok s := by
  rw [walk.eq_def, dif_pos h]

/-- A walk within the depth cap is its match on the template, unless the cap on the matches is
    reached. -/
theorem visits_walk {controlset : Option ControlSetResolver} {key : Key}
    {segments : List Segment} {path : Str} {depth : Nat} {es : List Emission}
    {body : Nat → WalkState σ → Exec HiveError (WalkState σ)} (h : Visits emit body es)
    (hbody : ∀ n s, ¬ (s.matched ≥ maxGlobMatches ∨ depth > maxGlobDepth) →
      walk r n controlset emit key segments path depth s = body n s)
    (hdepth : depth ≤ maxGlobDepth) :
    Visits emit (fun n s => walk r n controlset emit key segments path depth s) es := by
  intro s
  by_cases hfull : s.matched ≥ maxGlobMatches
  · rw [visit_of_full hfull]
    exact ⟨0, fun n _ => walk_of_capped (Or.inl hfull)⟩
  · exact (h s).congr fun n => hbody n s (by omega)

/-- Emissions behind one child, with the choice made there if there was one. -/
theorem map_at_below (path name : Str) (ds : List (Derivation Key)) :
    (ds.map (.below name [])).map (Emission.at path) =
      ds.map (Emission.at (joinPath path name)) ∧
    ∀ binding, (ds.map (.below name [binding])).map (Emission.at path) =
      (ds.map (Emission.at (joinPath path name))).map fun e =>
        ⟨binding :: e.bindings, e.path, e.key⟩ := by
  refine ⟨?_, fun binding => ?_⟩ <;> simp only [List.map_map] <;> rfl

/-- A loop over the elements that pass a test. -/
theorem flatMap_filter_eq {α β : Type} (p : α → Bool) (f : α → List β) : ∀ xs : List α,
    (xs.filter p).flatMap f = xs.flatMap fun x => if p x then f x else []
  | [] => rfl
  | x :: xs => by
    rw [List.flatMap_cons, ← flatMap_filter_eq p f xs]
    by_cases hx : p x = true
    · rw [List.filter_cons_of_pos hx, List.flatMap_cons, if_pos hx]
    · rw [List.filter_cons_of_neg hx, if_neg hx, List.nil_append]

/-! ### One segment -/

section Segments

variable {controlset : Option ControlSetResolver} {levels depth : Nat} {key : Key}
  {rest : List Segment} {path : Str}

/-- Behind the child, the walk visits the derivations of the remaining template. -/
def VisitsChild (graph : KeyGraph r root) (emit : Emit σ) (controlset : Option ControlSetResolver)
    (levels depth : Nat) (path : Str) (rest : List Segment) (child : Key) : Prop :=
  Visits emit
    (fun n s => walk r n controlset emit child rest (joinPath path child.name) (depth + 1) s)
    (((derivations Key.name graph.children (controlSets controlset) levels child rest).map
      (.below child.name [])).map (Emission.at path))

/-- Choosing the child for a variable segment. -/
theorem VisitsChild.push {graph : KeyGraph r root} {child : Key}
    (h : VisitsChild graph emit controlset levels depth path rest child) (binding : Binding) :
    Visits emit (fun n s => withBinding binding (fun s =>
        walk r n controlset emit child rest (joinPath path child.name) (depth + 1) s) s)
      (((derivations Key.name graph.children (controlSets controlset) levels child rest).map
        (.below child.name [binding])).map (Emission.at path)) := by
  unfold VisitsChild at h
  rw [(map_at_below path child.name _).1] at h
  rw [(map_at_below path child.name _).2]
  exact Visits.push h binding

/-- The whole template is consumed. -/
theorem visits_nil (graph : KeyGraph r root) (hdepth : depth ≤ maxGlobDepth) :
    Visits emit (fun n s => walk r n controlset emit key [] path depth s)
      ((derivations Key.name graph.children (controlSets controlset) (levels + 1) key []).map
        (Emission.at path)) := by
  rw [derivations]
  refine visits_walk (Visits.one ⟨[], path, key⟩) (fun n s hs => ?_) hdepth
  rw [walk, dif_neg hs, visitOne, if_neg (by omega), List.append_nil]

/-- A user segment is not matched here. -/
theorem visits_user (graph : KeyGraph r root) (hdepth : depth ≤ maxGlobDepth) (pattern : Str) :
    Visits emit (fun n s => walk r n controlset emit key (.var .user pattern :: rest) path depth s)
      ((derivations Key.name graph.children (controlSets controlset) (levels + 1) key
        (.var .user pattern :: rest)).map (Emission.at path)) := by
  rw [derivations]
  exact visits_walk .skip (fun n s hs => by rw [walk, dif_neg hs]) hdepth

variable (graph : KeyGraph r root) (hkey : ReflTransGen (Kids r) root key)
  (hdepth : depth ≤ maxGlobDepth)

include hkey hdepth

/-- A literal goes to the first child of that name. -/
theorem visits_literal (name : Str) (hchild : ∀ child ∈ graph.children key,
      VisitsChild graph emit controlset levels depth path rest child) :
    Visits emit (fun n s => walk r n controlset emit key (.literal name :: rest) path depth s)
      ((derivations Key.name graph.children (controlSets controlset) (levels + 1) key
        (.literal name :: rest)).map (Emission.at path)) := by
  rw [derivations, List.map_flatMap]
  refine visits_walk (Visits.subkeys graph hkey (fun n s children =>
    onFound (fun child s =>
      walk r n controlset emit child rest (joinPath path child.name) (depth + 1) s) s
      (children.find? fun child => eqIgnoreAsciiCase child.name name))
    (Visits.onFound fun child hfind => ?_) fun hempty => ?_) (fun n s hs => ?_) hdepth
  · exact hchild child (List.mem_of_find?_eq_some hfind)
  · unfold firstNamed
    rw [hempty]
    rfl
  · rw [walk]
    exact dif_neg hs

/-- A control set segment goes to the first child of each name. -/
theorem visits_controlSet (pattern : Str) (hchild : ∀ child ∈ graph.children key,
      VisitsChild graph emit controlset levels depth path rest child) :
    Visits emit
      (fun n s => walk r n controlset emit key (.var .controlSet pattern :: rest) path depth s)
      ((derivations Key.name graph.children (controlSets controlset) (levels + 1) key
        (.var .controlSet pattern :: rest)).map (Emission.at path)) := by
  rw [derivations, List.map_flatMap]
  refine visits_walk (Visits.subkeys graph hkey (fun n s children =>
    (controlSets controlset).foldlM (fun s setName =>
      if s.matched ≥ maxGlobMatches then .ok s
      else
        onFound (fun child s => withBinding ⟨.controlSet, child.name⟩ (fun s =>
          walk r n controlset emit child rest (joinPath path child.name) (depth + 1) s) s) s
          (children.find? fun child => eqIgnoreAsciiCase child.name setName)) s)
    (Visits.foldlM fun setName _ => ?_) fun hempty => ?_) (fun n s hs => ?_) hdepth
  · rw [List.map_flatMap]
    refine Visits.guard (Visits.onFound fun child hfind => ?_)
    exact (hchild child (List.mem_of_find?_eq_some hfind)).push ⟨.controlSet, child.name⟩
  · unfold firstNamed
    rw [hempty]
    simp
  · rw [walk, dif_neg hs]
    rfl

/-- A pattern with `**` takes zero levels, then each child with the pattern kept. -/
theorem visits_deep {pattern : Str} (hstars : ['*', '*'] <:+: pattern)
    (hrest : Visits emit (fun n s => walk r n controlset emit key rest path depth s)
      ((derivations Key.name graph.children (controlSets controlset) (levels + 1) key rest).map
        (Emission.at path)))
    (hchild : ∀ child ∈ graph.children key,
      VisitsChild graph emit controlset levels depth path (.var .subkey pattern :: rest) child) :
    Visits emit
      (fun n s => walk r n controlset emit key (.var .subkey pattern :: rest) path depth s)
      ((derivations Key.name graph.children (controlSets controlset) (levels + 1) key
        (.var .subkey pattern :: rest)).map (Emission.at path)) := by
  rw [derivations, if_pos hstars, List.map_append, List.map_flatMap]
  refine visits_walk (Visits.seq hrest (Visits.subkeys graph hkey
    (fun n s children => children.foldlM (fun s child =>
      if s.matched ≥ maxGlobMatches then .ok s
      else
        withBinding ⟨.subkey, child.name⟩ (fun s =>
          walk r n controlset emit child (.var .subkey pattern :: rest)
            (joinPath path child.name) (depth + 1) s) s) s)
    (Visits.foldlM fun child hmem => ((hchild child hmem).push _).guard) fun hempty => ?_))
    (fun n s hs => ?_) hdepth
  · rw [hempty]
    rfl
  · rw [walk, dif_neg hs]
    exact if_pos hstars

/-- A pattern without `**` takes each child whose name matches. -/
theorem visits_subkey {pattern : Str} (hstars : ¬ ['*', '*'] <:+: pattern)
    (hchild : ∀ child ∈ graph.children key,
      VisitsChild graph emit controlset levels depth path rest child) :
    Visits emit
      (fun n s => walk r n controlset emit key (.var .subkey pattern :: rest) path depth s)
      ((derivations Key.name graph.children (controlSets controlset) (levels + 1) key
        (.var .subkey pattern :: rest)).map (Emission.at path)) := by
  rw [derivations, if_neg hstars, flatMap_filter_eq, List.map_flatMap]
  refine visits_walk (Visits.subkeys graph hkey
    (fun n s children => children.foldlM (fun s child =>
      if s.matched ≥ maxGlobMatches then .ok s
      else do
        if ← segmentMatches pattern child.name then
          withBinding ⟨.subkey, child.name⟩ (fun s =>
            walk r n controlset emit child rest (joinPath path child.name) (depth + 1) s) s
        else .ok s) s)
    (Visits.foldlM fun child hmem => Visits.guard ?_) fun hempty => ?_)
    (fun n s hs => ?_) hdepth
  · obtain ⟨b, hb, hglob⟩ := segmentMatches_eq pattern child
    rw [hb]
    by_cases hmatch : Globbed Key.name pattern child
    · rw [if_pos (by simpa using hmatch), hglob.mpr hmatch]
      exact (hchild child hmem).push _
    · rw [if_neg (by simpa using hmatch), Bool.eq_false_iff.mpr fun h => hmatch (hglob.mp h)]
      exact .skip
  · rw [hempty]
    rfl
  · rw [walk, dif_neg hs]
    exact if_neg hstars

end Segments

/-- **A walk visits the derivations of its template**: by induction on the levels that are left and,
    at one key, on the template. -/
theorem walk_visits (graph : KeyGraph r root) (controlset : Option ControlSetResolver) :
    ∀ (levels : Nat) {key : Key} (segments : List Segment) (path : Str) (depth : Nat),
      ReflTransGen (Kids r) root key → levels = maxGlobDepth + 1 - depth →
      Visits emit (fun n s => walk r n controlset emit key segments path depth s)
        ((derivations Key.name graph.children (controlSets controlset) levels key segments).map
          (Emission.at path)) := by
  intro levels
  induction levels with
  | zero =>
    intro key segments path depth _ hlevels s
    rw [derivations]
    exact ⟨0, fun n _ => walk_of_capped (Or.inr (by omega))⟩
  | succ levels ih =>
    intro key segments path depth hkey hlevels
    have hdepth : depth ≤ maxGlobDepth := by omega
    -- the walk of a child has one level less
    have hchild : ∀ rest, ∀ child ∈ graph.children key,
        VisitsChild graph emit controlset levels depth path rest child := fun rest child hmem => by
      have hbelow := ih rest (joinPath path child.name) (depth + 1)
        (hkey.tail (graph.kids hkey hmem)) (by omega)
      unfold VisitsChild
      rw [(map_at_below path child.name _).1]
      exact hbelow
    induction segments with
    | nil => exact visits_nil graph hdepth
    | cons segment rest ihrest =>
      cases segment with
      | literal name => exact visits_literal graph hkey hdepth name (hchild rest)
      | var domain pattern =>
        cases domain with
        | user => exact visits_user graph hdepth pattern
        | controlSet => exact visits_controlSet graph hkey hdepth pattern (hchild rest)
        | subkey =>
          by_cases hstars : ['*', '*'] <:+: pattern
          · exact visits_deep graph hkey hdepth hstars ihrest (hchild _)
          · exact visits_subkey graph hkey hdepth hstars (hchild rest)

end Walk

/-! ## Paths -/

/-- **The path of an emission**: the names joined by backslashes, the empty ones at the front left
    out. -/
theorem foldl_joinPath : ∀ names : List Str,
    names.foldl joinPath [] = ['\\'].intercalate (names.dropWhile (· = [])) :=
  foldl_separated (fun _ => rfl) fun _ _ h => if_neg h

/-- Expansion visits the derivations of the whole template. -/
theorem expand_visits {σ : Type} {r : CellReader} {root : Key} (graph : KeyGraph r root)
    (segments : List Segment) (controlset : Option ControlSetResolver) (emit : Emit σ) (out : σ) :
    Exec.Evals (fun n => expand r n root segments controlset emit out)
      (((((derivations Key.name graph.children (controlSets controlset) (maxGlobDepth + 1) root
        segments).map (Emission.at []))).take maxGlobMatches).foldlM
          (fun out e => emit out e.bindings e.path e.key) out) := by
  have hwalk := @walk_visits σ emit r root graph controlset (maxGlobDepth + 1) root segments [] 0
    ReflTransGen.refl rfl ⟨0, [], out⟩
  have hrun := Exec.Evals.andThen hwalk fun s : WalkState σ =>
    Exec.Evals.const (Exec.ok s.out : Exec HiveError σ)
  rw [visit_eq] at hrun
  exact hrun

end PathExpansion

end Winreg
