/-
  OUTCOMES of running code: the four things a call can do, and loops over them.

  A call returns a value (`ok`), returns an error value (`err`), aborts on a failed run-time check
  (`panic`: a slice or an index out of range, an arithmetic overflow), or has not finished within
  the recursion budget it was given (`timeout`).  Code whose recursion is not bounded by its
  source takes the budget as a `Nat`; "the code returns `r`" is then `Evals f r`: every large
  enough budget gives `r`.  "The code runs for ever" is `Diverges f`: no budget is enough.

  1. **Outcomes** — the monad, and what `>>=` does on each outcome.
  2. **Related runs** — `Rel R x y`: the same failure, or values that `R` relates;
     `Follows R x y`: wherever `x` gives a value, `y` gives a related one.
  3. **Budgets** — `Evals` composes along `>>=`, `foldlM` and `mapM`, so that finitely many calls
     share one large enough budget; a family that only ever turns `timeout` into a result
     (`Grows`) has at most one result.
  4. **Loops** — `loop body` is a source `while`: each pass leaves with a result or goes round
     again.  The rules: an invariant with a decreasing measure gives a result (`loop_total`) or at
     least an end (`loop_ne_timeout`), an invariant alone bounds the results (`loop_inv`), a
     failure comes from a pass (`loop_fails`), bodies that agree give the same loop
     (`loop_congr`), a set of states in which no pass leaves never ends
     (`loop_timeout_of_stays`), and states that descend bring the loop to an end
     (`loop_evals_of_acc`).
-/
import Mathlib.Data.List.Forall2
import Mathlib.Tactic.Common

namespace Rust

/-! ## Outcomes -/

/-- What a call can do: return a value, return an error, abort, or exceed its budget. -/
inductive Exec (ε α : Type) where
  | ok (a : α)
  | err (e : ε)
  | panic
  | timeout
deriving DecidableEq, Repr

namespace Exec

variable {ε α β γ σ ρ : Type}

/-- Run `x`, then `f` on its value; every other outcome of `x` ends the call. -/
def bind : Exec ε α → (α → Exec ε β) → Exec ε β
  | ok a, f => f a
  | err e, _ => err e
  | panic, _ => panic
  | timeout, _ => timeout

instance : Monad (Exec ε) where
  pure := ok
  bind := bind

@[simp] theorem pure_eq (a : α) : (pure a : Exec ε α) = ok a := rfl
@[simp] theorem ok_bind (a : α) (f : α → Exec ε β) : (ok a >>= f) = f a := rfl
@[simp] theorem err_bind (e : ε) (f : α → Exec ε β) : (err e >>= f) = err e := rfl
@[simp] theorem panic_bind (f : α → Exec ε β) : ((panic : Exec ε α) >>= f) = panic := rfl
@[simp] theorem timeout_bind (f : α → Exec ε β) : ((timeout : Exec ε α) >>= f) = timeout := rfl

instance : LawfulMonad (Exec ε) := LawfulMonad.mk' (Exec ε)
  (by intro _ x; cases x <;> rfl)
  (by intro _ _ a f; rfl)
  (by intro _ _ _ x f g; cases x <;> rfl)

/-- A value comes out of `x >>= f` only through a value of `x`. -/
theorem bind_eq_ok {x : Exec ε α} {f : α → Exec ε β} {b : β} :
    (x >>= f) = ok b ↔ ∃ a, x = ok a ∧ f a = ok b := by
  cases x <;> simp

/-- An error comes out of `x >>= f` from `x` or from `f` on the value of `x`. -/
theorem bind_eq_err {x : Exec ε α} {f : α → Exec ε β} {e : ε} :
    (x >>= f) = err e ↔ x = err e ∨ ∃ a, x = ok a ∧ f a = err e := by
  cases x <;> simp

/-- A sequence panics in its first part or in its second. -/
theorem bind_eq_panic {x : Exec ε α} {f : α → Exec ε β} :
    (x >>= f) = panic ↔ x = panic ∨ ∃ a, x = ok a ∧ f a = panic := by
  cases x <;> simp

/-- It runs out of fuel in its first part or in its second. -/
theorem bind_eq_timeout {x : Exec ε α} {f : α → Exec ε β} :
    (x >>= f) = timeout ↔ x = timeout ∨ ∃ a, x = ok a ∧ f a = timeout := by
  cases x <;> simp

/-- The call came back to its caller, with a value or with an error. -/
def Returns (x : Exec ε α) : Prop := (∃ a, x = ok a) ∨ ∃ e, x = err e

theorem Returns.ne_timeout {x : Exec ε α} (h : x.Returns) : x ≠ timeout := by
  rintro rfl
  rcases h with ⟨a, ha⟩ | ⟨e, he⟩
  · cases ha
  · cases he

theorem Returns.ne_panic {x : Exec ε α} (h : x.Returns) : x ≠ panic := by
  rintro rfl
  rcases h with ⟨a, ha⟩ | ⟨e, he⟩
  · cases ha
  · cases he

/-- A program returns when it neither panics nor runs out of fuel. -/
theorem returns_iff {x : Exec ε α} : x.Returns ↔ x ≠ panic ∧ x ≠ timeout := by
  cases x <;> simp [Returns]

/-- The two ways of not coming back. -/
inductive Fault where
  | panic
  | timeout

/-- The call does not end in the given fault. -/
def Avoids (x : Exec ε α) : Fault → Prop
  | .panic => x ≠ panic
  | .timeout => x ≠ timeout

theorem Avoids.ok {fault : Fault} (a : α) : (ok a : Exec ε α).Avoids fault := by
  cases fault <;> simp [Avoids]

theorem Avoids.err {fault : Fault} (e : ε) : (err e : Exec ε α).Avoids fault := by
  cases fault <;> simp [Avoids]

/-- A program that returns has neither fault. -/
theorem Returns.avoids {x : Exec ε α} (h : x.Returns) (fault : Fault) : x.Avoids fault := by
  rcases h with ⟨a, rfl⟩ | ⟨e, rfl⟩
  · exact Avoids.ok a
  · exact Avoids.err e

/-- A sequence of calls that avoid a fault avoids it. -/
theorem Avoids.bind {x : Exec ε α} {f : α → Exec ε β} {fault : Fault} (hx : x.Avoids fault)
    (hf : ∀ a, x = .ok a → (f a).Avoids fault) : (x >>= f).Avoids fault := by
  cases x with
  | ok a => exact hf a rfl
  | err e => exact Avoids.err e
  | panic => cases fault with
    | panic => exact absurd rfl hx
    | timeout => simp [Avoids]
  | timeout => cases fault with
    | panic => simp [Avoids]
    | timeout => exact absurd rfl hx

/-- A fold of steps that avoid a fault avoids it, by induction on the list. -/
theorem foldlM_avoids {step : σ → α → Exec ε σ} {fault : Fault}
    (h : ∀ s x, (step s x).Avoids fault) : ∀ (xs : List α) (s : σ), (xs.foldlM step s).Avoids fault
  | [], s => Avoids.ok s
  | x :: xs, s => by
    rw [List.foldlM_cons]
    exact Avoids.bind (h s x) fun t _ => foldlM_avoids h xs t

/-- An invariant of every pass holds at the end of the fold. -/
theorem foldlM_inv {step : σ → α → Exec ε σ} (I : σ → Prop) : ∀ {xs : List α},
    (∀ x ∈ xs, ∀ s t, I s → step s x = .ok t → I t) →
    ∀ {s t : σ}, I s → xs.foldlM step s = .ok t → I t
  | [], _, s, t, hs, h => by
    cases h
    exact hs
  | x :: xs, hstep, s, t, hs, h => by
    rw [List.foldlM_cons] at h
    obtain ⟨s', hs', h⟩ := bind_eq_ok.mp h
    exact foldlM_inv I (fun y hy => hstep y (List.mem_cons_of_mem x hy))
      (hstep x List.mem_cons_self s s' hs hs') h

/-- A fold that collects keeps what holds of every element that it collects. -/
theorem foldlM_collect_inv {f : α → Exec ε (List β)} (P : β → Prop) {xs : List α}
    {acc res : List β} (hf : ∀ x new, f x = .ok new → ∀ y ∈ new, P y) (hacc : ∀ y ∈ acc, P y)
    (h : xs.foldlM (fun acc x => f x >>= fun new => (ok (acc ++ new) : Exec ε (List β))) acc =
      .ok res) : ∀ y ∈ res, P y := by
  refine foldlM_inv (fun ys => ∀ y ∈ ys, P y) (fun x _ ys zs hys hstep => ?_) hacc h
  obtain ⟨new, hnew, hok⟩ := bind_eq_ok.mp hstep
  obtain rfl := Exec.ok.inj hok
  intro y hy
  rcases List.mem_append.mp hy with hin | hin
  · exact hys y hin
  · exact hf x new hnew y hin

/-- `x.unwrap_or_default()`: an error becomes the default value. -/
def unwrapOr (x : Exec ε α) (d : α) : Exec ε α :=
  match x with
  | err _ => ok d
  | y => y

@[simp] theorem unwrapOr_ok (a d : α) : (ok a : Exec ε α).unwrapOr d = ok a := rfl
@[simp] theorem unwrapOr_err (e : ε) (d : α) : (err e : Exec ε α).unwrapOr d = ok d := rfl

/-- Give the error outcome of `x` to the caller as a value (`match x { Ok.. Err.. }`). -/
def attempt : Exec ε α → Exec ε (Except ε α)
  | ok a => ok (.ok a)
  | err e => ok (.error e)
  | panic => panic
  | timeout => timeout

@[simp] theorem attempt_ok (a : α) : (ok a : Exec ε α).attempt = ok (.ok a) := rfl
@[simp] theorem attempt_err (e : ε) : (err e : Exec ε α).attempt = ok (.error e) := rfl
@[simp] theorem attempt_panic : (panic : Exec ε α).attempt = panic := rfl
@[simp] theorem attempt_timeout : (timeout : Exec ε α).attempt = timeout := rfl

/-- Turning errors into results adds no fault. -/
theorem Avoids.attempt {x : Exec ε α} {fault : Fault} (h : x.Avoids fault) :
    x.attempt.Avoids fault := by
  cases x with
  | ok a => exact Avoids.ok _
  | err e => exact Avoids.ok _
  | panic => cases fault with
    | panic => exact absurd rfl h
    | timeout => simp [Avoids]
  | timeout => cases fault with
    | panic => simp [Avoids]
    | timeout => exact absurd rfl h

/-! ## Related runs -/

/-- The outcomes are the same failure, or values that are related. -/
inductive Rel (R : α → β → Prop) : Exec ε α → Exec ε β → Prop
  | ok {a : α} {b : β} (h : R a b) : Rel R (ok a) (ok b)
  | err (e : ε) : Rel R (err e) (err e)
  | panic : Rel R panic panic
  | timeout : Rel R timeout timeout

/-- Related programs followed by related continuations are related. -/
theorem Rel.bind {R : α → β → Prop} {S : σ → ρ → Prop} {x : Exec ε α} {y : Exec ε β}
    {f : α → Exec ε σ} {g : β → Exec ε ρ} (h : Rel R x y)
    (hfg : ∀ a b, R a b → Rel S (f a) (g b)) : Rel S (x >>= f) (y >>= g) := by
  cases h with
  | ok h => exact hfg _ _ h
  | err e => exact .err e
  | panic => exact .panic
  | timeout => exact .timeout

/-- Two runs that start with the same call. -/
theorem Rel.after {S : σ → ρ → Prop} (x : Exec ε α) {f : α → Exec ε σ} {g : α → Exec ε ρ}
    (hfg : ∀ a, x = .ok a → Rel S (f a) (g a)) : Rel S (x >>= f) (x >>= g) := by
  cases x with
  | ok a => exact hfg a rfl
  | err e => exact .err e
  | panic => exact .panic
  | timeout => exact .timeout

/-- A relation between two states that each pair of steps keeps holds after the folds.  By induction
    on the list, for any two related starts. -/
theorem Rel.foldlM {R : σ → ρ → Prop} {f : σ → α → Exec ε σ} {g : ρ → α → Exec ε ρ} :
    ∀ {xs : List α}, (∀ x ∈ xs, ∀ s t, R s t → Rel R (f s x) (g t x)) →
      ∀ {s : σ} {t : ρ}, R s t → Rel R (xs.foldlM f s) (xs.foldlM g t)
  | [], _, _, _, h => .ok h
  | x :: xs, hstep, s, t, h => by
    rw [List.foldlM_cons, List.foldlM_cons]
    refine Rel.bind (hstep x List.mem_cons_self s t h) fun s' t' h' => ?_
    exact Rel.foldlM (fun y hy => hstep y (List.mem_cons_of_mem x hy)) h'

/-- Programs with equal results of equal kinds are equal. -/
theorem rel_eq_iff {x y : Exec ε α} : Rel Eq x y ↔ x = y := by
  constructor
  · intro h
    cases h with
    | ok h => rw [h]
    | err e => rfl
    | panic => rfl
    | timeout => rfl
  · rintro rfl
    cases x with
    | ok a => exact .ok rfl
    | err e => exact .err e
    | panic => exact .panic
    | timeout => exact .timeout

/-- A list of calls that all return. -/
theorem mapM_eq_ok {f : α → Exec ε β} : ∀ {xs : List α} {ys : List β}, xs.mapM f = .ok ys →
    List.Forall₂ (fun x y => f x = .ok y) xs ys
  | [], ys, h => by
    rw [List.mapM_nil] at h
    cases h
    exact .nil
  | x :: xs, ys, h => by
    rw [List.mapM_cons] at h
    obtain ⟨y, hy, h⟩ := bind_eq_ok.mp h
    obtain ⟨ys', hys, h⟩ := bind_eq_ok.mp h
    cases h
    exact .cons hy (mapM_eq_ok hys)

/-- **A fold that collects** what is made of each element gives a list exactly when each call
    returns. -/
theorem foldlM_collect_eq_ok_iff {f : α → Exec ε β} {g : β → List σ} : ∀ {xs : List α}
    {acc res : List σ},
    (xs.foldlM (fun acc x => f x >>= fun y => (ok (acc ++ g y) : Exec ε (List σ))) acc = .ok res ↔
      ∃ ys, List.Forall₂ (fun x y => f x = .ok y) xs ys ∧ res = acc ++ ys.flatMap g)
  | [], acc, res => by
    rw [List.foldlM_nil]
    constructor
    · intro h
      exact ⟨[], .nil, by rw [← Exec.ok.inj h, List.flatMap_nil, List.append_nil]⟩
    · rintro ⟨ys, hys, rfl⟩
      cases hys
      rw [List.flatMap_nil, List.append_nil]
      rfl
  | x :: xs, acc, res => by
    rw [List.foldlM_cons]
    constructor
    · intro h
      obtain ⟨acc', hacc, hrest⟩ := bind_eq_ok.mp h
      obtain ⟨y, hy, hok⟩ := bind_eq_ok.mp hacc
      obtain ⟨ys, hys, rfl⟩ := foldlM_collect_eq_ok_iff.mp hrest
      exact ⟨y :: ys, .cons hy hys, by
        rw [← Exec.ok.inj hok, List.flatMap_cons, List.append_assoc]⟩
    · rintro ⟨ys, hall, rfl⟩
      cases hall with
      | @cons _ y _ ys hy hys =>
        refine bind_eq_ok.mpr ⟨acc ++ g y, bind_eq_ok.mpr ⟨y, hy, rfl⟩, ?_⟩
        exact foldlM_collect_eq_ok_iff.mpr ⟨ys, hys, by
          rw [List.flatMap_cons, List.append_assoc]⟩

/-- Whenever `x` gives a value, `y` gives a related one. -/
def Follows (R : α → β → Prop) (x : Exec ε α) (y : Exec ε β) : Prop :=
  ∀ a, x = ok a → ∃ b, y = ok b ∧ R a b

/-- A result follows a related one. -/
theorem Follows.ok {R : α → β → Prop} {a : α} {b : β} (h : R a b) :
    Follows R (ok a : Exec ε α) (ok b) := fun a' ha => by
  obtain rfl := Exec.ok.inj ha
  exact ⟨b, rfl, h⟩

/-- Whatever the first program gives is matched in the second, one step after the other. -/
theorem Follows.bind {R : α → β → Prop} {S : σ → ρ → Prop} {x : Exec ε α} {y : Exec ε β}
    {f : α → Exec ε σ} {g : β → Exec ε ρ} (h : Follows R x y)
    (hfg : ∀ a b, R a b → Follows S (f a) (g b)) : Follows S (x >>= f) (y >>= g) := by
  intro s hs
  obtain ⟨a, ha, hf⟩ := bind_eq_ok.mp hs
  obtain ⟨b, hb, hab⟩ := h a ha
  obtain ⟨t, hg, hst⟩ := hfg a b hab s hf
  exact ⟨t, bind_eq_ok.mpr ⟨b, hb, hg⟩, hst⟩

/-- The same call in front of two runs. -/
theorem Follows.after {S : σ → ρ → Prop} (x : Exec ε α) {f : α → Exec ε σ} {g : α → Exec ε ρ}
    (hfg : ∀ a, x = .ok a → Follows S (f a) (g a)) : Follows S (x >>= f) (x >>= g) := by
  intro s hs
  obtain ⟨a, ha, hf⟩ := bind_eq_ok.mp hs
  obtain ⟨t, hg, hst⟩ := hfg a ha s hf
  exact ⟨t, bind_eq_ok.mpr ⟨a, ha, hg⟩, hst⟩

/-- **Two calls in either order** give the same two values, if both give one. -/
theorem Follows.either_order {S : σ → ρ → Prop} {x : Exec ε α} {y : Exec ε β}
    {f : α → β → Exec ε σ} {g : β → α → Exec ε ρ}
    (h : ∀ a b, x = .ok a → y = .ok b → Follows S (f a b) (g b a)) :
    Follows S (x >>= fun a => y >>= fun b => f a b) (y >>= fun b => x >>= fun a => g b a) := by
  intro s hs
  obtain ⟨a, ha, hrest⟩ := bind_eq_ok.mp hs
  obtain ⟨b, hb, hf⟩ := bind_eq_ok.mp hrest
  obtain ⟨t, hg, hst⟩ := h a b ha hb s hf
  exact ⟨t, bind_eq_ok.mpr ⟨b, hb, bind_eq_ok.mpr ⟨a, ha, hg⟩⟩, hst⟩

/-- A fold over a list follows the fold over its image when the steps do. -/
theorem Follows.foldlM {R : σ → ρ → Prop} {f : σ → α → Exec ε σ} {g : ρ → β → Exec ε ρ}
    {image : α → β} : ∀ {xs : List α},
      (∀ x ∈ xs, ∀ s t, R s t → Follows R (f s x) (g t (image x))) →
      ∀ {s : σ} {t : ρ}, R s t → Follows R (xs.foldlM f s) ((xs.map image).foldlM g t)
  | [], _, _, _, h => Follows.ok h
  | x :: xs, hstep, s, t, h => by
    rw [List.map_cons, List.foldlM_cons, List.foldlM_cons]
    exact Follows.bind (hstep x List.mem_cons_self s t h) fun s' t' h' =>
      Follows.foldlM (fun y hy => hstep y (List.mem_cons_of_mem x hy)) h'

/-- Two folds over the same list. -/
theorem Follows.foldlM_same {R : σ → ρ → Prop} {f : σ → α → Exec ε σ} {g : ρ → α → Exec ε ρ}
    {xs : List α} (hstep : ∀ x ∈ xs, ∀ s t, R s t → Follows R (f s x) (g t x)) {s : σ} {t : ρ}
    (h : R s t) : Follows R (xs.foldlM f s) (xs.foldlM g t) := by
  have hfold := @Follows.foldlM _ _ _ _ _ R f g id xs hstep s t h
  rwa [List.map_id] at hfold

/-! ## Budgets -/

/-- Every large enough budget makes `f` end with the outcome `r`. -/
def Evals (f : Nat → Exec ε α) (r : Exec ε α) : Prop := ∃ N, ∀ n, N ≤ n → f n = r

/-- No budget is enough. -/
def Diverges (f : Nat → Exec ε α) : Prop := ∀ n, f n = timeout

/-- Some budget is enough: the run is finite. -/
def Ends (f : Nat → Exec ε α) : Prop := ∃ n, f n ≠ timeout

/-- A program ends or it runs out of every amount of fuel. -/
theorem ends_iff_not_diverges {f : Nat → Exec ε α} : Ends f ↔ ¬ Diverges f :=
  not_forall.symm

/-- A result other than running out of fuel is an end. -/
theorem Evals.ends {f : Nat → Exec ε α} {r : Exec ε α} (h : Evals f r) (hr : r ≠ timeout) :
    Ends f := by
  obtain ⟨N, hN⟩ := h
  exact ⟨N, by rw [hN N (Nat.le_refl N)]; exact hr⟩

/-- A program that needs no fuel. -/
theorem Evals.const (r : Exec ε α) : Evals (fun _ => r) r := ⟨0, fun _ _ => rfl⟩

/-- There is one result: beyond both bounds the two agree. -/
theorem Evals.unique {f : Nat → Exec ε α} {r r' : Exec ε α} (h : Evals f r) (h' : Evals f r') :
    r = r' := by
  obtain ⟨N, hN⟩ := h
  obtain ⟨M, hM⟩ := h'
  rw [← hN (max N M) (Nat.le_max_left _ _), hM (max N M) (Nat.le_max_right _ _)]

/-- Programs that agree for all fuel have the same result. -/
theorem Evals.congr {f g : Nat → Exec ε α} {r : Exec ε α} (h : Evals f r) (hfg : ∀ n, g n = f n) :
    Evals g r := by
  obtain ⟨N, hN⟩ := h
  exact ⟨N, fun n hn => by rw [hfg n, hN n hn]⟩

/-- One more level of budget makes no difference to a result that large budgets share. -/
theorem Evals.of_succ {f : Nat → Exec ε α} {r : Exec ε α} (h : Evals (fun n => f (n + 1)) r) :
    Evals f r := by
  obtain ⟨N, hN⟩ := h
  refine ⟨N + 1, fun n hn => ?_⟩
  obtain ⟨m, rfl⟩ : ∃ m, n = m + 1 := ⟨n - 1, by omega⟩
  exact hN m (by omega)

/-- Two families that end share a budget, so a sequence of two calls ends. -/
theorem Evals.bind {f : Nat → Exec ε α} {g : Nat → α → Exec ε β} {a : α} {r : Exec ε β}
    (hf : Evals f (ok a)) (hg : Evals (fun n => g n a) r) : Evals (fun n => f n >>= g n) r := by
  obtain ⟨N, hN⟩ := hf
  obtain ⟨M, hM⟩ := hg
  refine ⟨max N M, fun n hn => ?_⟩
  have h1 : f n = ok a := hN n (Nat.le_trans (Nat.le_max_left _ _) hn)
  have h2 : g n a = r := hM n (Nat.le_trans (Nat.le_max_right _ _) hn)
  show (f n >>= g n) = r
  rw [h1, ok_bind, h2]

/-- A sequence of two calls, whatever the outcome of the first. -/
theorem Evals.andThen {f : Nat → Exec ε α} {g : Nat → α → Exec ε β} {x : Exec ε α}
    {h : α → Exec ε β} (hf : Evals f x) (hg : ∀ a, Evals (fun n => g n a) (h a)) :
    Evals (fun n => f n >>= g n) (x >>= h) := by
  obtain ⟨N, hN⟩ := hf
  cases x with
  | ok a => exact Evals.bind ⟨N, hN⟩ (hg a)
  | err e => exact ⟨N, fun n hn => congrArg (· >>= g n) (hN n hn)⟩
  | panic => exact ⟨N, fun n hn => congrArg (· >>= g n) (hN n hn)⟩
  | timeout => exact ⟨N, fun n hn => congrArg (· >>= g n) (hN n hn)⟩

/-- A panic ends a sequence. -/
theorem Evals.bind_panic {f : Nat → Exec ε α} {g : Nat → α → Exec ε β}
    (hf : Evals f panic) : Evals (fun n => f n >>= g n) panic := by
  obtain ⟨N, hN⟩ := hf
  refine ⟨N, fun n hn => ?_⟩
  show (f n >>= g n) = panic
  rw [hN n hn, panic_bind]

/-- A loop over the elements of lists is a loop over the lists. -/
theorem foldlM_flatMap {g : α → List β} {step : σ → β → Exec ε σ} {body : σ → α → Exec ε σ} :
    ∀ {xs : List α}, (∀ x ∈ xs, ∀ s, body s x = (g x).foldlM step s) →
      ∀ s, xs.foldlM body s = (xs.flatMap g).foldlM step s := by
  intro xs
  induction xs with
  | nil => exact fun _ _ => rfl
  | cons x xs ih =>
    intro h s
    rw [List.foldlM_cons, List.flatMap_cons, List.foldlM_append, h x List.mem_cons_self]
    exact congrArg _ (funext fun t => ih (fun y hy => h y (List.mem_cons_of_mem x hy)) t)

/-- **A fold over calls is the pure fold.**  The list `ys` of the pure fold is related to the list
    `xs` of the calls, and each call ends with the value of the pure step. -/
theorem Evals.foldlM {step : Nat → σ → α → Exec ε σ} {next : σ → β → σ} {R : α → β → Prop}
    {xs : List α} {ys : List β} (hxy : List.Forall₂ R xs ys)
    (h : ∀ x y, R x y → ∀ t, Evals (fun n => step n t x) (ok (next t y))) :
    ∀ s, Evals (fun n => xs.foldlM (step n) s) (ok (ys.foldl next s)) := by
  induction hxy with
  | nil => exact fun s => Evals.const _
  | cons hx _ ih =>
    intro s
    exact Evals.bind (g := fun n t => List.foldlM (step n) t _) (h _ _ hx s) (ih (next s _))

/-- `f` and `g` agree wherever `f` has finished: `g` is `f` with at least as much budget. -/
def Refines (x y : Exec ε α) : Prop := x = timeout ∨ x = y

/-- A program refines itself. -/
theorem Refines.refl (x : Exec ε α) : Refines x x := Or.inr rfl

/-- Refinement goes through sequences: where the first part has run out of fuel so has the whole. -/
theorem Refines.bind {x y : Exec ε α} {f g : α → Exec ε β} (h : Refines x y)
    (hfg : ∀ a, Refines (f a) (g a)) : Refines (x >>= f) (y >>= g) := by
  rcases h with rfl | rfl
  · exact Or.inl rfl
  · cases x with
    | ok a => exact hfg a
    | err e => exact Or.inr rfl
    | panic => exact Or.inr rfl
    | timeout => exact Or.inl rfl

/-- And through folds, by induction on the list. -/
theorem Refines.foldlM {f g : σ → α → Exec ε σ} (h : ∀ s a, Refines (f s a) (g s a)) :
    ∀ (xs : List α) (s : σ), Refines (xs.foldlM f s) (xs.foldlM g s)
  | [], s => Refines.refl _
  | x :: xs, s => by
    rw [List.foldlM_cons, List.foldlM_cons]
    exact Refines.bind (h s x) (fun t => Refines.foldlM h xs t)

/-- More budget only ever turns `timeout` into a result. -/
def Grows (f : Nat → Exec ε α) : Prop := ∀ n, Refines (f n) (f (n + 1))

/-- Once there is a result it stays. -/
theorem Grows.stable {f : Nat → Exec ε α} (h : Grows f) {n : Nat} (hn : f n ≠ timeout) :
    ∀ m, n ≤ m → f m = f n := by
  intro m hm
  induction hm with
  | refl => rfl
  | step _ ih =>
    rename_i m _
    rcases h m with ht | he
    · rw [ih] at ht
      exact absurd ht hn
    · rw [← he, ih]

/-- A family that grows has a result as soon as one budget gives one. -/
theorem Grows.evals {f : Nat → Exec ε α} (h : Grows f) {n : Nat} (hn : f n ≠ timeout) :
    Evals f (f n) :=
  ⟨n, fun m hm => h.stable hn m hm⟩

/-- A sequence of two calls ends when the first ends and, if it gives a value, the second does. -/
theorem ends_bind_iff {f : Nat → Exec ε α} {g : Nat → α → Exec ε β} (hf : Grows f)
    (hg : ∀ a, Grows fun n => g n a) :
    (Ends fun n => f n >>= g n) ↔ Ends f ∧ ∀ a, Evals f (ok a) → Ends fun n => g n a := by
  constructor
  · rintro ⟨n, hn⟩
    have hfn : f n ≠ timeout := fun h => hn (bind_eq_timeout.mpr (Or.inl h))
    refine ⟨⟨n, hfn⟩, fun a ha => ⟨n, fun hga => hn ?_⟩⟩
    exact bind_eq_timeout.mpr (Or.inr ⟨a, (hf.evals hfn).unique ha, hga⟩)
  · rintro ⟨⟨n, hn⟩, h⟩
    cases hr : f n with
    | ok a =>
      have ha : Evals f (ok a) := hr ▸ hf.evals hn
      obtain ⟨m, hm⟩ := h a ha
      obtain ⟨k, hk⟩ := Evals.bind ha ((hg a).evals hm)
      exact ⟨k, by rw [hk k (Nat.le_refl k)]; exact hm⟩
    | err e => exact ⟨n, by dsimp only; rw [hr]; simp⟩
    | panic => exact ⟨n, by dsimp only; rw [hr]; simp⟩
    | timeout => exact absurd hr hn

/-- A sequence of two calls ends when the first ends and the second ends on each value of it. -/
theorem Ends.bind {f : Nat → Exec ε α} {g : Nat → α → Exec ε β} (hf : Grows f)
    (hg : ∀ a, Grows fun n => g n a) (h : Ends f)
    (hnext : ∀ n a, f n = ok a → Ends fun n => g n a) : Ends fun n => f n >>= g n :=
  (ends_bind_iff hf hg).mpr ⟨h, fun a ⟨n, hn⟩ => hnext n a (hn n (Nat.le_refl n))⟩

/-- Turning errors into results keeps the end. -/
theorem Ends.attempt {f : Nat → Exec ε α} (h : Ends f) : Ends fun n => (f n).attempt := by
  obtain ⟨n, hn⟩ := h
  exact ⟨n, by cases hf : f n <;> simp_all⟩

/-- It is enough to end with one more unit. -/
theorem Ends.of_succ {f : Nat → Exec ε α} (h : Ends fun n => f (n + 1)) : Ends f := by
  obtain ⟨n, hn⟩ := h
  exact ⟨n + 1, hn⟩

/-- A fold whose steps end wherever they start ends. -/
theorem ends_foldlM {step : Nat → σ → α → Exec ε σ} (hg : ∀ s x, Grows fun n => step n s x) :
    ∀ (xs : List α), (∀ x ∈ xs, ∀ s, Ends fun n => step n s x) →
      ∀ s, Ends fun n => xs.foldlM (step n) s
  | [], _, s => (Evals.const (ok s)).ends (by simp)
  | x :: xs, h, s => by
    simp only [List.foldlM_cons]
    refine (ends_bind_iff (hg s x) fun t n => Refines.foldlM (fun s x => hg s x n) xs t).mpr
      ⟨h x List.mem_cons_self s, fun t _ => ?_⟩
    exact ends_foldlM hg xs (fun y hy => h y (List.mem_cons_of_mem x hy)) t

/-- A call that needs no budget ends unless it is the `timeout` itself. -/
theorem ends_const_iff {x : Exec ε α} : (Ends fun _ : Nat => x) ↔ x ≠ timeout :=
  ⟨fun ⟨_, h⟩ => h, fun h => ⟨0, h⟩⟩

/-- A program that needs no fuel. -/
theorem grows_const (x : Exec ε α) : Grows fun _ : Nat => x := fun _ => Refines.refl x

/-- A call that comes back does so with the outcome that `attempt` hands on as a value. -/
theorem Evals.attempt {f : Nat → Exec ε α} {r : Exec ε α} (h : Evals f r) :
    Evals (fun n => (f n).attempt) r.attempt := by
  obtain ⟨N, hN⟩ := h
  exact ⟨N, fun n hn => congrArg Exec.attempt (hN n hn)⟩

/-- Where an attempt is a success the program was one. -/
theorem attempt_eq_ok {x : Exec ε α} {a : α} (h : x.attempt = ok (.ok a)) : x = ok a := by
  cases x <;> simp_all [Exec.attempt]

/-- Where it is an error, so was the program. -/
theorem attempt_eq_error {x : Exec ε α} {e : ε} (h : x.attempt = ok (.error e)) : x = err e := by
  cases x with
  | ok a => cases h
  | err e' => cases h; rfl
  | panic => cases h
  | timeout => cases h

/-- Refinement goes through attempts. -/
theorem Refines.attempt {x y : Exec ε α} (h : Refines x y) : Refines x.attempt y.attempt := by
  rcases h with rfl | rfl
  · exact Or.inl rfl
  · exact Or.inr rfl

/-! ## Loops -/

/-- One pass of a `while`: go round again from a new state, or leave with a result. -/
inductive Pass (σ ρ : Type) where
  | again (s : σ)
  | leave (r : ρ)
deriving DecidableEq, Repr

/-- `while`: passes of `body` from `s` until one leaves, at most `n` of them. -/
def loop (body : σ → Exec ε (Pass σ ρ)) : Nat → σ → Exec ε ρ
  | 0, _ => timeout
  | n + 1, s => body s >>= fun
    | .again t => loop body n t
    | .leave r => ok r

/-- A pass that goes on costs one unit of fuel. -/
theorem loop_again {body : σ → Exec ε (Pass σ ρ)} {s t : σ} (h : body s = ok (.again t))
    (n : Nat) : loop body (n + 1) s = loop body n t := by
  rw [loop, h, ok_bind]

/-- A pass that leaves ends the loop with its result. -/
theorem loop_leave {body : σ → Exec ε (Pass σ ρ)} {s : σ} {r : ρ} (h : body s = ok (.leave r))
    (n : Nat) : loop body (n + 1) s = ok r := by
  rw [loop, h, ok_bind]

/-- **Total correctness of a loop.**  An invariant that every pass restores while a measure drops,
    and that gives `Q` on leaving: with budget above the measure the loop ends in `Q`. -/
theorem loop_total {body : σ → Exec ε (Pass σ ρ)} (I : σ → Prop) (μ : σ → Nat) (Q : ρ → Prop)
    (hbody : ∀ s, I s →
      (∃ t, body s = ok (.again t) ∧ I t ∧ μ t < μ s) ∨ ∃ r, body s = ok (.leave r) ∧ Q r) :
    ∀ (n : Nat) (s : σ), I s → μ s < n → ∃ r, loop body n s = ok r ∧ Q r := by
  intro n
  induction n with
  | zero => intro s _ hn; exact absurd hn (Nat.not_lt_zero _)
  | succ n ih =>
    intro s hs hn
    rcases hbody s hs with ⟨t, ht, hIt, hμ⟩ | ⟨r, hr, hQ⟩
    · obtain ⟨r, hr, hQ⟩ := ih t hIt (by omega)
      exact ⟨r, by rw [loop_again ht, hr], hQ⟩
    · exact ⟨r, loop_leave hr n, hQ⟩

/-- **Partial correctness of a loop.**  Whatever result comes out, the invariant led to it. -/
theorem loop_inv {body : σ → Exec ε (Pass σ ρ)} (I : σ → Prop) (Q : ρ → Prop)
    (hagain : ∀ s t, I s → body s = ok (.again t) → I t)
    (hleave : ∀ s r, I s → body s = ok (.leave r) → Q r) :
    ∀ (n : Nat) (s : σ) (r : ρ), I s → loop body n s = ok r → Q r := by
  intro n
  induction n with
  | zero => intro s r _ h; cases h
  | succ n ih =>
    intro s r hs h
    obtain ⟨p, hp, hr⟩ := bind_eq_ok.mp h
    cases p with
    | again t => exact ih t r (hagain s t hs hp) hr
    | leave r' =>
      have hrr : r' = r := by simpa using hr
      exact hrr ▸ hleave s r' hs hp

/-- A loop under an invariant with a decreasing measure ends, if only by an error or an abort. -/
theorem loop_ne_timeout {body : σ → Exec ε (Pass σ ρ)} (I : σ → Prop) (μ : σ → Nat)
    (hbody : ∀ s, I s → body s ≠ timeout)
    (hagain : ∀ s t, I s → body s = ok (.again t) → I t ∧ μ t < μ s) :
    ∀ (n : Nat) (s : σ), I s → μ s < n → loop body n s ≠ timeout := by
  intro n
  induction n with
  | zero => intro s _ hn; exact absurd hn (Nat.not_lt_zero _)
  | succ n ih =>
    intro s hs hn h
    rcases bind_eq_timeout.mp h with h' | ⟨p, hp, h'⟩
    · exact hbody s hs h'
    · cases p with
      | again t =>
        obtain ⟨hIt, hμ⟩ := hagain s t hs hp
        exact ih t hIt (by omega) h'
      | leave r => cases h'

/-- An error or an abort of a loop is one of a pass. -/
theorem loop_fails {body : σ → Exec ε (Pass σ ρ)} (I : σ → Prop)
    (hagain : ∀ s t, I s → body s = ok (.again t) → I t) :
    ∀ (n : Nat) (s : σ), I s →
      (∀ e, loop body n s = err e → ∃ t, I t ∧ body t = err e) ∧
      (loop body n s = panic → ∃ t, I t ∧ body t = panic) := by
  intro n
  induction n with
  | zero => intro s _; exact ⟨fun e h => (by cases h), fun h => (by cases h)⟩
  | succ n ih =>
    intro s hs
    refine ⟨fun e h => ?_, fun h => ?_⟩
    · rcases bind_eq_err.mp h with h' | ⟨p, hp, h'⟩
      · exact ⟨s, hs, h'⟩
      · cases p with
        | again t => exact (ih t (hagain s t hs hp)).1 e h'
        | leave r => cases h'
    · rcases bind_eq_panic.mp h with h' | ⟨p, hp, h'⟩
      · exact ⟨s, hs, h'⟩
      · cases p with
        | again t => exact (ih t (hagain s t hs hp)).2 h'
        | leave r => cases h'

/-- Two bodies that agree on the states of an invariant give the same loop. -/
theorem loop_congr {body body' : σ → Exec ε (Pass σ ρ)} (I : σ → Prop)
    (hbody : ∀ s, I s → body s = body' s)
    (hagain : ∀ s t, I s → body s = ok (.again t) → I t) :
    ∀ (n : Nat) (s : σ), I s → loop body n s = loop body' n s := by
  intro n
  induction n with
  | zero => intro s _; rfl
  | succ n ih =>
    intro s hs
    rw [loop, loop, ← hbody s hs]
    cases hpass : body s with
    | ok p =>
      cases p with
      | again t => exact ih t (hagain s t hs hpass)
      | leave r => rfl
    | err e => rfl
    | panic => rfl
    | timeout => rfl

/-- **A loop that never ends**: a set of states in which no pass leaves. -/
theorem loop_timeout_of_stays {body : σ → Exec ε (Pass σ ρ)} (I : σ → Prop)
    (hstay : ∀ s, I s → body s = timeout ∨ ∃ t, body s = ok (.again t) ∧ I t) :
    ∀ (n : Nat) (s : σ), I s → loop body n s = timeout := by
  intro n
  induction n with
  | zero => intro s _; rfl
  | succ n ih =>
    intro s hs
    rcases hstay s hs with ht | ⟨t, ht, hIt⟩
    · rw [loop, ht, timeout_bind]
    · rw [loop_again ht, ih t hIt]

/-- **A loop whose states descend.**  The body has a budget of its own; with enough of it every
    pass comes to an end, and a pass that goes round again moves down an accessible relation. -/
theorem loop_evals_of_acc {body : Nat → σ → Exec ε (Pass σ ρ)} (P : σ → Prop)
    {below : σ → σ → Prop}
    (hstep : ∀ s, P s → ∃ x, x ≠ timeout ∧ Evals (fun m => body m s) x ∧
      ∀ t, x = ok (.again t) → P t ∧ below t s) :
    ∀ s, Acc below s → P s →
      ∃ r, r ≠ timeout ∧ ∃ N, ∀ m n, N ≤ m → N ≤ n → loop (body m) n s = r := by
  intro s hs
  induction hs with
  | intro s _ ih =>
    intro hP
    obtain ⟨x, hx, ⟨M, hev⟩, hdown⟩ := hstep s hP
    have hM : ∀ m, M ≤ m → body m s = x := hev
    -- one pass more than the rest of the run needs
    have hsucc : ∀ {r : Exec ε ρ} (N : Nat),
        (∀ m n, N ≤ m → N ≤ n → loop (body m) (n + 1) s = r) →
        ∃ N, ∀ m n, N ≤ m → N ≤ n → loop (body m) n s = r := by
      intro r N h
      refine ⟨N + 1, fun m n hm hn => ?_⟩
      obtain ⟨k, rfl⟩ : ∃ k, n = k + 1 := ⟨n - 1, by omega⟩
      exact h m k (by omega) (by omega)
    cases x with
    | timeout => exact absurd rfl hx
    | panic =>
      exact ⟨panic, by simp, hsucc M fun m n hm _ => by rw [loop, hM m hm, panic_bind]⟩
    | err e =>
      exact ⟨err e, by simp, hsucc M fun m n hm _ => by rw [loop, hM m hm, err_bind]⟩
    | ok p =>
      cases p with
      | leave r => exact ⟨ok r, by simp, hsucc M fun m n hm _ => loop_leave (hM m hm) n⟩
      | again t =>
        obtain ⟨hPt, hlt⟩ := hdown t rfl
        obtain ⟨r, hr, N, hN⟩ := ih t hlt hPt
        refine ⟨r, hr, hsucc (max M N) fun m n hm hn => ?_⟩
        rw [loop_again (hM m (Nat.le_trans (Nat.le_max_left _ _) hm))]
        exact hN m n (Nat.le_trans (Nat.le_max_right _ _) hm)
          (Nat.le_trans (Nat.le_max_right _ _) hn)

/-- A loop with a better body and more fuel refines the loop, by induction on the fuel. -/
theorem loop_refines {body body' : σ → Exec ε (Pass σ ρ)} (h : ∀ s, Refines (body s) (body' s)) :
    ∀ (n : Nat) (s : σ), Refines (loop body n s) (loop body' (n + 1) s) := by
  intro n
  induction n with
  | zero => intro s; exact Or.inl rfl
  | succ n ih =>
    intro s
    rw [loop, loop]
    refine Refines.bind (h s) (fun p => ?_)
    cases p with
    | again t => exact ih t
    | leave r => exact Refines.refl _

/-- `for i in i..i + k` with `break`: the passes `i`, `i + 1`, ... until one leaves, at most `k`. -/
def forRange (body : Nat → σ → Exec ε (Pass σ σ)) : Nat → Nat → σ → Exec ε σ
  | 0, _, s => ok s
  | k + 1, i, s => body i s >>= fun
    | .again t => forRange body k (i + 1) t
    | .leave t => ok t

/-- A pass that goes on moves to the next index. -/
theorem forRange_again {body : Nat → σ → Exec ε (Pass σ σ)} {i : Nat} {s t : σ}
    (h : body i s = ok (.again t)) (k : Nat) :
    forRange body (k + 1) i s = forRange body k (i + 1) t := by
  rw [forRange, h, ok_bind]

/-- A pass that leaves ends the range, as `break` does. -/
theorem forRange_leave {body : Nat → σ → Exec ε (Pass σ σ)} {i : Nat} {s t : σ}
    (h : body i s = ok (.leave t)) (k : Nat) : forRange body (k + 1) i s = ok t := by
  rw [forRange, h, ok_bind]

/-- A `for` whose passes all go on, through the states `state i`, `state (i + 1)`, .... -/
theorem forRange_states {body : Nat → σ → Exec ε (Pass σ σ)} {state : Nat → σ} :
    ∀ (k i : Nat), (∀ j, i ≤ j → j < i + k → body j (state j) = ok (.again (state (j + 1)))) →
      forRange body k i (state i) = ok (state (i + k))
  | 0, _, _ => rfl
  | k + 1, i, h => by
    rw [forRange_again (h i (Nat.le_refl i) (by omega)),
      forRange_states k (i + 1) (fun j hlo hhi => h j (by omega) (by omega))]
    congr 2; omega

/-- **An invariant of a `for`** holds of its result. -/
theorem forRange_inv {body : Nat → σ → Exec ε (Pass σ σ)} (I : σ → Prop)
    (hagain : ∀ i s t, I s → body i s = ok (.again t) → I t)
    (hleave : ∀ i s t, I s → body i s = ok (.leave t) → I t) :
    ∀ (k i : Nat) (s r : σ), I s → forRange body k i s = ok r → I r
  | 0, _, s, r, hs, h => by
    obtain rfl : s = r := by simpa [forRange] using h
    exact hs
  | k + 1, i, s, r, hs, h => by
    obtain ⟨p, hp, hr⟩ := bind_eq_ok.mp h
    cases p with
    | again t => exact forRange_inv I hagain hleave k (i + 1) t r (hagain i s t hs hp) hr
    | leave t =>
      obtain rfl : t = r := by simpa using hr
      exact hleave i s t hs hp

/-- **A measure** that every pass raises by at most one. -/
theorem forRange_le {body : Nat → σ → Exec ε (Pass σ σ)} (μ : σ → Nat)
    (hagain : ∀ i s t, body i s = ok (.again t) → μ t ≤ μ s + 1)
    (hleave : ∀ i s t, body i s = ok (.leave t) → μ t ≤ μ s + 1) :
    ∀ (k i : Nat) (s r : σ), forRange body k i s = ok r → μ r ≤ μ s + k
  | 0, _, s, r, h => by
    obtain rfl : s = r := by simpa [forRange] using h
    exact Nat.le_refl _
  | k + 1, i, s, r, h => by
    obtain ⟨p, hp, hr⟩ := bind_eq_ok.mp h
    cases p with
    | again t =>
      have hrest := forRange_le μ hagain hleave k (i + 1) t r hr
      have hpass := hagain i s t hp
      omega
    | leave t =>
      obtain rfl : t = r := by simpa using hr
      have hpass := hleave i s t hp
      omega

/-- A `for` avoids a fault that its passes avoid. -/
theorem forRange_avoids {body : Nat → σ → Exec ε (Pass σ σ)} {fault : Fault}
    (h : ∀ i s, (body i s).Avoids fault) :
    ∀ (k i : Nat) (s : σ), (forRange body k i s).Avoids fault
  | 0, _, s => Avoids.ok s
  | k + 1, i, s => Avoids.bind (h i s) fun p _ => by
    cases p with
    | again t => exact forRange_avoids h k (i + 1) t
    | leave t => exact Avoids.ok t

/-- A loop with a fixed body grows with its budget. -/
theorem loop_grows (body : σ → Exec ε (Pass σ ρ)) (s : σ) : Grows (fun n => loop body n s) :=
  fun n => loop_refines (fun t => Refines.refl (body t)) n s

end Exec
end Rust
