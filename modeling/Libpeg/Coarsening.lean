import Mathlib.Algebra.BigOperators.Group.List.Basic
import Mathlib.Algebra.Order.Ring.Int

namespace Libpeg.Coarsening

variable {α : Type}

section Groups

variable [Semigroup α]

/-- The product of a list that starts with `x`. -/
def fuse (x : α) (xs : List α) : α :=
  xs.foldl (· * ·) x

theorem mul_fuse (x y : α) (ys : List α) : x * fuse y ys = fuse (x * y) ys := by
  unfold fuse
  induction ys generalizing y with
  | nil => rfl
  | cons z ys ih =>
      rw [List.foldl_cons, List.foldl_cons, ih, mul_assoc]

theorem fuse_append (x y : α) (xs ys : List α) : fuse x (xs ++ y :: ys) = fuse x xs * fuse y ys := by
  rw [mul_fuse]
  unfold fuse
  rw [List.foldl_append, List.foldl_cons]

/-- `Coarser o r`: every element of `r` is the product of a group of `o`. -/
inductive Coarser : List α → List α → Prop
  | nil : Coarser [] []
  | cons {o r : List α} (x : α) (xs : List α) (h : Coarser o r) :
      Coarser (x :: xs ++ o) (fuse x xs :: r)

theorem Coarser.refl (o : List α) : Coarser o o := by
  induction o with
  | nil => exact .nil
  | cons x o ih => exact .cons x [] ih

theorem Coarser.split {o r : List α} {x : α} {xs : List α} (h : Coarser o (x :: xs ++ r)) :
    ∃ y ys o', o = y :: ys ++ o' ∧ fuse x xs = fuse y ys ∧ Coarser o' r := by
  induction xs generalizing o x with
  | nil =>
      cases h with
      | cons y ys h => exact ⟨y, ys, _, rfl, rfl, h⟩
  | cons z xs ih =>
      cases h with
      | cons y ys h =>
          obtain ⟨y', ys', o', rfl, heq, hrest⟩ := ih h
          refine ⟨y, ys ++ y' :: ys', o', by simp, ?_, hrest⟩
          rw [fuse_append, ← heq, mul_fuse]
          rfl

theorem eq_nil_of_coarser {o : List α} (h : Coarser o []) : o = [] := by
  cases h
  rfl

theorem Coarser.group {o r : List α} (h : Coarser o r) {z : α} (hz : z ∈ r) :
    ∃ x xs, z = fuse x xs ∧ x :: xs ⊆ o := by
  induction h with
  | nil => cases hz
  | @cons o r x xs _ ih =>
      rcases List.mem_cons.mp hz with rfl | hz
      · exact ⟨x, xs, rfl, List.subset_append_left _ _⟩
      · obtain ⟨y, ys, rfl, hsub⟩ := ih hz
        exact ⟨y, ys, rfl, fun b hb => List.mem_append_right _ (hsub hb)⟩

theorem Coarser.trans {o r r' : List α} (h : Coarser o r) (h' : Coarser r r') : Coarser o r' := by
  induction h' generalizing o with
  | nil => exact h
  | cons x xs _ ih =>
      obtain ⟨y, ys, o', rfl, heq, hrest⟩ := h.split
      rw [heq]
      exact .cons y ys (ih hrest)

theorem Coarser.fuse_eq {x y : α} {xs ys : List α} (h : Coarser (x :: xs) (y :: ys)) :
    fuse x xs = fuse y ys := by
  have h' : Coarser (x :: xs) (y :: ys ++ []) := by
    rw [List.append_nil]
    exact h
  obtain ⟨z, zs, o', heq, hfuse, hrest⟩ := h'.split
  cases hrest
  rw [List.append_nil] at heq
  cases heq
  exact hfuse.symm

theorem weight_fuse {w : α → Int} (hw : ∀ x y, w (x * y) = w x + w y) (x : α) (xs : List α) :
    w (fuse x xs) = ((x :: xs).map w).sum := by
  unfold fuse
  induction xs generalizing x with
  | nil => simp
  | cons y xs ih =>
      rw [List.foldl_cons, ih, List.map_cons, hw]
      simp only [List.map_cons, List.sum_cons]
      omega

end Groups

/-- Every element outweighs those in front of it. -/
def Dominating (w : α → Int) (xs : List α) : Prop :=
  ∀ above x below, xs = above ++ x :: below → above ≠ [] → (above.map w).sum < w x

theorem dominating_short (w : α → Int) {xs : List α} (h : xs.length ≤ 1) : Dominating w xs := by
  rintro above x below rfl hne
  have := List.length_pos_iff.mpr hne
  simp at h
  omega

theorem Dominating.snoc {w : α → Int} {xs : List α} {y : α} (h : Dominating w xs)
    (hy : (xs.map w).sum < w y) : Dominating w (xs ++ [y]) := by
  intro above x below heq hne
  rcases List.eq_nil_or_concat below with rfl | ⟨below', z, rfl⟩
  · obtain ⟨rfl, hxy⟩ := List.append_inj' heq rfl
    cases hxy
    exact hy
  · have heq' : xs ++ [y] = (above ++ x :: below') ++ [z] := by
      rw [heq]
      simp
    obtain ⟨rfl, -⟩ := List.append_inj' heq' rfl
    exact h above x below' rfl hne

end Libpeg.Coarsening
