import Mathlib.Algebra.Order.BigOperators.Group.List
import Mathlib.Algebra.Order.Ring.Nat
import Mathlib.Logic.Relation

namespace Libpeg.RankedGraph

open Relation

variable {α : Type} {edge new : α → α → Prop} {r : α → Nat} {a b : α} {s : List α}

def Ranked (edge : α → α → Prop) (r : α → Nat) : Prop :=
  ∀ a b, edge a b → r b < r a

theorem Ranked.mono (h : Ranked edge r) (hnew : ∀ a b, new a b → edge a b) : Ranked new r :=
  fun a b hab => h a b (hnew a b hab)

theorem Ranked.transGen (h : Ranked edge r) (hab : TransGen edge a b) : r b < r a := by
  induction hab with
  | single hab => exact h _ _ hab
  | tail _ hbc ih => exact lt_trans (h _ _ hbc) ih

theorem Ranked.acyclic (h : Ranked edge r) (a : α) : ¬TransGen edge a a :=
  fun hcycle => lt_irrefl _ (h.transGen hcycle)

/-- What can be reached from the nodes of a list. -/
def Reached (edge : α → α → Prop) (s : List α) (b : α) : Prop :=
  ∃ a ∈ s, ReflTransGen edge a b

theorem Reached.tail (h : Reached edge s a) (hab : edge a b) : Reached edge s b := by
  obtain ⟨c, hc, hca⟩ := h
  exact ⟨c, hc, hca.tail hab⟩

theorem exists_bound (r : α → Nat) (s : List α) : ∃ m, ∀ a ∈ s, r a < m := by
  refine ⟨(s.map r).sum + 1, fun a ha => ?_⟩
  exact Nat.lt_succ_of_le (List.single_le_sum (fun _ _ => Nat.zero_le _) _ (List.mem_map_of_mem ha))

/-- What can be reached from the targets of the new edges keeps its rank, and all
other nodes are lifted above the targets. -/
theorem Ranked.add (h : Ranked edge r) (s : List α) (htarget : ∀ a b, new a b → b ∈ s)
    (hsource : ∀ a b, new a b → ¬Reached edge s a) :
    ∃ r', Ranked (fun a b => edge a b ∨ new a b) r' := by
  classical
  obtain ⟨m, hm⟩ := exists_bound r s
  refine ⟨fun a => if Reached edge s a then r a else r a + m, ?_⟩
  rintro a b (hab | hab) <;> dsimp only
  · have hdown := h a b hab
    by_cases ha : Reached edge s a
    · rw [if_pos ha, if_pos (ha.tail hab)]
      exact hdown
    · rw [if_neg ha]
      split
      · omega
      · omega
  · have hb := hm b (htarget a b hab)
    rw [if_neg (hsource a b hab), if_pos ⟨b, htarget a b hab, .refl⟩]
    omega

end Libpeg.RankedGraph
