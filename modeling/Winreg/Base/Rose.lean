/-
  ROSE TREES: finite trees with ordered children, and the two orders in which to list them.

  1. **Pre-order** — a node, then its subtrees from left to right.
  2. **Level order** — the nodes of depth 0, of depth 1, and so on, each level from left to right;
     from the height of the tree on all levels are empty.
  3. Both list every node once, so they are permutations of each other
     (`levelOrder_perm_preorder`).
  4. **Relabelling** — the level order of a tree with other values (`levelOrder_map`), and of a tree
     of the same shape with related values (`Rel.levelOrder`).
-/
import Mathlib.Data.List.MinMax
import Mathlib.Data.List.Perm.Basic
import Mathlib.Data.List.Forall2

namespace Rust

/-- A value with ordered subtrees. -/
inductive Rose (α : Type) where
  | node (value : α) (children : List (Rose α))

namespace Rose

variable {α : Type}

def value : Rose α → α
  | node a _ => a

def children : Rose α → List (Rose α)
  | node _ cs => cs

/-- A node, then its subtrees from left to right. -/
def preorder : Rose α → List α
  | node a cs => a :: cs.flatMap preorder

/-- The number of levels. -/
def height : Rose α → Nat
  | node _ cs => (cs.map height).foldr max 0 + 1

/-- The nodes of one depth, from left to right. -/
def level : Nat → Rose α → List α
  | 0, t => [t.value]
  | d + 1, t => t.children.flatMap (level d)

/-- The levels from depth 0 on. -/
def levelOrder (t : Rose α) : List α := (List.range t.height).flatMap fun d => level d t

/-- Induction: what holds of a node when it holds of its subtrees. -/
theorem induct {P : Rose α → Prop} (node : ∀ a cs, (∀ c ∈ cs, P c) → P (.node a cs)) : ∀ t, P t
  | .node a cs => node a cs fun c _ => induct node c

/-- A subtree is lower. -/
theorem height_lt {a : α} {cs : List (Rose α)} {c : Rose α} (hc : c ∈ cs) :
    c.height < (node a cs).height := by
  rw [height]
  exact Nat.lt_succ_of_le (List.le_max_of_le' 0 (List.mem_map_of_mem hc) (Nat.le_refl _))

/-- A tree has at least its root. -/
theorem height_pos (t : Rose α) : 0 < t.height := by
  cases t with
  | node a cs => rw [height]; exact Nat.succ_pos _

/-- The first levels of a forest: the roots, then the first levels of the subtrees. -/
theorem levels_succ (ts : List (Rose α)) (h : Nat) :
    ((List.range (h + 1)).flatMap fun d => ts.flatMap (level d)) =
      ts.map value ++ (List.range h).flatMap fun d => (ts.flatMap children).flatMap (level d) := by
  rw [List.range_succ_eq_map, List.flatMap_cons, List.flatMap_map]
  refine congrArg₂ (· ++ ·) (List.map_eq_flatMap.symm) (List.flatMap_congr fun d _ => ?_)
  rw [List.flatMap_assoc]
  rfl

/-- The first levels of a forest are, up to order, the first levels of each of its trees. -/
theorem levels_perm (h : Nat) : ∀ ts : List (Rose α),
    ((List.range h).flatMap fun d => ts.flatMap (level d)).Perm
      (ts.flatMap fun t => (List.range h).flatMap fun d => level d t)
  | [] => by simp
  | t :: ts => by
    have hsplit := List.flatMap_append_perm (List.range h) (fun d => level d t)
      fun d => ts.flatMap (level d)
    rw [List.flatMap_cons]
    simp only [List.flatMap_cons]
    exact hsplit.symm.trans ((levels_perm h ts).append_left _)

/-- Enough levels are, up to order, the pre-order. -/
theorem levels_perm_preorder (t : Rose α) : ∀ h, t.height ≤ h →
    ((List.range h).flatMap fun d => level d t).Perm t.preorder := by
  induction t using induct with
  | node a cs ih =>
    intro h hle
    obtain ⟨k, rfl⟩ : ∃ k, h = k + 1 := ⟨h - 1, by have := height_pos (node a cs); omega⟩
    have hone := levels_succ [node a cs] k
    simp only [List.flatMap_singleton, List.map_cons, List.map_nil] at hone
    rw [hone, preorder]
    refine List.Perm.cons a ((levels_perm k cs).trans (List.Perm.flatMap_left cs fun c hc => ?_))
    have hlow := height_lt (a := a) hc
    exact ih c hc k (by omega)

/-- **Both orders list the same nodes.** -/
theorem levelOrder_perm_preorder (t : Rose α) : t.levelOrder.Perm t.preorder :=
  levels_perm_preorder t t.height (Nat.le_refl _)

/-! ## Relabelling -/

section Map

variable {β : Type} (f : α → β)

/-- The same tree with other values. -/
def map (f : α → β) : Rose α → Rose β
  | node a cs => node (f a) (cs.map (map f))

theorem value_map (t : Rose α) : (t.map f).value = f t.value := by
  cases t with
  | node a cs => rw [map]; rfl

theorem children_map (t : Rose α) : (t.map f).children = t.children.map (map f) := by
  cases t with
  | node a cs => rw [map]; rfl

/-- Mapping keeps the shape. -/
theorem height_map (t : Rose α) : (t.map f).height = t.height := by
  induction t using induct with
  | node a cs ih =>
    rw [map, height, height, List.map_map]
    exact congrArg (fun hs => hs.foldr max 0 + 1) (List.map_congr_left ih)

/-- And the levels.  By induction on the depth. -/
theorem level_map : ∀ (d : Nat) (t : Rose α), level d (t.map f) = (level d t).map f
  | 0, t => by rw [level, level, value_map, List.map_singleton]
  | d + 1, t => by
    rw [level, level, children_map, List.flatMap_map, List.map_flatMap]
    exact List.flatMap_congr fun c _ => level_map d c

/-- The level order of a relabelled tree. -/
theorem levelOrder_map (t : Rose α) : (t.map f).levelOrder = t.levelOrder.map f := by
  unfold levelOrder
  rw [height_map, List.map_flatMap]
  exact List.flatMap_congr fun d _ => level_map f d t

end Map

section Rel

variable {β : Type} {R : α → β → Prop}

/-- Trees of the same shape with related values. -/
inductive Rel (R : α → β → Prop) : Rose α → Rose β → Prop where
  | node {a : α} {b : β} {as : List (Rose α)} {bs : List (Rose β)} (hvalue : R a b)
      (hlength : as.length = bs.length) (hchildren : ∀ p ∈ as.zip bs, Rel R p.1 p.2) :
      Rel R (.node a as) (.node b bs)

/-- Related trees have related roots. -/
theorem Rel.value {t : Rose α} {t' : Rose β} (h : Rel R t t') : R t.value t'.value := by
  cases h with
  | node hvalue _ _ => exact hvalue

/-- Their children are related in order. -/
theorem Rel.children {t : Rose α} {t' : Rose β} (h : Rel R t t') :
    List.Forall₂ (Rel R) t.children t'.children := by
  cases h with
  | node _ hlength hchildren =>
    exact List.forall₂_iff_zip.mpr ⟨hlength, fun hp => hchildren _ hp⟩

/-- They have the same shape. -/
theorem Rel.height {t : Rose α} {t' : Rose β} (h : Rel R t t') : t.height = t'.height := by
  induction h with
  | @node a b as bs _ hlength _ ih =>
    have hsame : as.map Rose.height = bs.map Rose.height := by
      rw [← List.forall₂_eq_eq_eq, List.forall₂_map_left_iff, List.forall₂_map_right_iff]
      exact List.forall₂_iff_zip.mpr ⟨hlength, fun hp => ih _ hp⟩
    rw [Rose.height, Rose.height, hsame]

/-- On each level their values are related in order. -/
theorem Rel.level : ∀ (d : Nat) {t : Rose α} {t' : Rose β}, Rel R t t' →
    List.Forall₂ R (Rose.level d t) (Rose.level d t')
  | 0, _, _, h => .cons h.value .nil
  | d + 1, _, _, h => List.rel_flatMap h.children fun _ _ hc => Rel.level d hc

/-- Their level orders are related. -/
theorem Rel.levelOrder {t : Rose α} {t' : Rose β} (h : Rel R t t') :
    List.Forall₂ R t.levelOrder t'.levelOrder := by
  rw [Rose.levelOrder, Rose.levelOrder, h.height]
  exact List.rel_flatMap (List.forall₂_same.mpr fun _ _ => rfl) fun d _ hd => hd ▸ h.level d

end Rel

end Rose
end Rust
