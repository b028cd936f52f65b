import Mathlib.Data.List.Basic

namespace Libpeg.SwapRemove

variable {β : Type}

/-- What follows a freed slot once the last element has been moved into it. -/
def moveLast (l : List β) : List β :=
  match l.getLast? with
  | none => []
  | some x => x :: l.dropLast

@[simp] theorem moveLast_nil : moveLast ([] : List β) = [] :=
  rfl

@[simp] theorem moveLast_concat (l : List β) (x : β) : moveLast (l ++ [x]) = x :: l := by
  simp [moveLast]

/-- The remaining array; the number bounds the loop. -/
def sweep (drop : β → Bool) : Nat → List β → List β
  | 0, l => l
  | _ + 1, [] => []
  | fuel + 1, x :: l =>
      if drop x then sweep drop fuel (moveLast l) else x :: sweep drop fuel l

/-- Fewer elements are dropped before the first element of the kind `q` than are
kept from any later element of that kind on. -/
def KeepsFirst (drop q : β → Bool) (l : List β) : Prop :=
  ∀ j < l.length, l.findIdx q < j → l[j]?.any q →
    (l.take (l.findIdx q)).countP drop < (l.drop j).countP fun x => !drop x

instance (drop q : β → Bool) (l : List β) : Decidable (KeepsFirst drop q l) :=
  inferInstanceAs (Decidable (∀ j < l.length, l.findIdx q < j → l[j]?.any q →
    (l.take (l.findIdx q)).countP drop < (l.drop j).countP fun x => !drop x))

variable {drop q : β → Bool} {x y : β} {l : List β}

theorem KeepsFirst.tail (h : KeepsFirst drop q (x :: l)) (hx : drop x = false)
    (hq : q x = false) : KeepsFirst drop q l := by
  intro j hj hlt hany
  have hidx : (x :: l).findIdx q = l.findIdx q + 1 := by
    simp [List.findIdx_cons, hq]
  have hcount := h (j + 1) (by simpa using hj) (by omega) (by simpa using hany)
  rw [hidx, List.take_succ_cons, List.drop_succ_cons, List.countP_cons_of_neg (by simp [hx])]
    at hcount
  exact hcount

theorem KeepsFirst.none_before (h : KeepsFirst drop q (x :: (l ++ [y]))) (hx : drop x = true)
    (hq : q x = false) (hy : q y = true) : ∀ z ∈ l, q z = false := by
  intro z hz
  by_contra hqz
  have hfind : (l ++ [y]).findIdx q < l.length := by
    rw [List.findIdx_append, if_pos (List.findIdx_lt_length_of_exists ⟨z, hz, by simpa using hqz⟩)]
    exact List.findIdx_lt_length_of_exists ⟨z, hz, by simpa using hqz⟩
  have hidx : (x :: (l ++ [y])).findIdx q = (l ++ [y]).findIdx q + 1 := by
    simp [List.findIdx_cons, hq]
  have hcount := h (l.length + 1) (by simp) (by omega) (by simp [hy])
  rw [hidx, List.take_succ_cons, List.drop_succ_cons, List.drop_left,
    List.countP_cons_of_pos hx] at hcount
  have hlast : [y].countP (fun x => !drop x) ≤ 1 := List.countP_le_length
  omega

theorem keepsFirst_of_none (drop : β → Bool) (x : β) (h : ∀ z ∈ l, q z = false) :
    KeepsFirst drop q (x :: l) := by
  intro j hj hlt hany
  obtain ⟨j, rfl⟩ : ∃ k, j = k + 1 := ⟨j - 1, by omega⟩
  rw [List.getElem?_cons_succ, Option.any_eq_true] at hany
  obtain ⟨z, hz, hqz⟩ := hany
  rw [h z (List.mem_of_getElem? hz)] at hqz
  exact absurd hqz Bool.false_ne_true

theorem KeepsFirst.moved (h : KeepsFirst drop q (x :: (l ++ [y]))) (hx : drop x = true)
    (hq : q x = false) (hy : q y = false) : KeepsFirst drop q (y :: l) := by
  intro j hj hlt hany
  have hidx : ∀ z : β, q z = false → ∀ l, (z :: l).findIdx q = l.findIdx q + 1 := by
    intro z hz l
    simp [List.findIdx_cons, hz]
  rw [hidx y hy] at hlt ⊢
  obtain ⟨j, rfl⟩ : ∃ k, j = k + 1 := ⟨j - 1, by omega⟩
  simp only [List.length_cons] at hj
  have hfind : (l ++ [y]).findIdx q = l.findIdx q := by
    rw [List.findIdx_append, if_pos (by omega)]
  have hget : (l ++ [y])[j]? = l[j]? := List.getElem?_append_left (by omega)
  have hcount := h (j + 1) (by simp; omega) (by rw [hidx x hq, hfind]; omega)
    (by rw [List.getElem?_cons_succ, hget]; simpa using hany)
  rw [hidx x hq, hfind, List.take_succ_cons, List.drop_succ_cons, List.countP_cons_of_pos hx,
    List.take_append_of_le_length (by omega), List.drop_append_of_le_length (by omega),
    List.countP_append] at hcount
  rw [List.take_succ_cons, List.drop_succ_cons, List.countP_cons]
  by_cases hdrop : drop y
  · simp only [hdrop, List.countP_cons, List.countP_nil] at hcount ⊢
    simpa using hcount
  · simp only [hdrop, List.countP_cons, List.countP_nil] at hcount ⊢
    simp at hcount ⊢
    omega

theorem find?_sweep (hq : ∀ x ∈ l, q x → drop x = false) {fuel : Nat} (hfuel : l.length ≤ fuel)
    (h : KeepsFirst drop q l) : (sweep drop fuel l).find? q = l.find? q := by
  induction fuel generalizing l with
  | zero => rfl
  | succ fuel ih =>
      cases l with
      | nil => rfl
      | cons x l =>
          rw [List.length_cons] at hfuel
          rw [sweep]
          by_cases hqx : q x
          · rw [if_neg (by simp [hq x List.mem_cons_self hqx]), List.find?_cons_of_pos hqx,
              List.find?_cons_of_pos hqx]
          · have hqx : q x = false := by simpa using hqx
            rw [List.find?_cons_of_neg (l := l) (by simp [hqx])]
            split
            · next hdrop =>
                rcases List.eq_nil_or_concat' l with rfl | ⟨init, y, rfl⟩
                · rw [moveLast_nil]
                  exact ih (fun z hz => absurd hz List.not_mem_nil) (by omega)
                    (fun j hj => absurd hj (Nat.not_lt_zero j))
                · have hq' : ∀ z ∈ y :: init, q z → drop z = false := by
                    intro z hz
                    rcases List.mem_cons.mp hz with rfl | hz
                    · exact hq z (by simp)
                    · exact hq z (by simp [hz])
                  rw [List.length_append] at hfuel
                  rw [moveLast_concat]
                  by_cases hqy : q y
                  · -- the moved element is the only one of its kind
                    have hnone := h.none_before hdrop hqx hqy
                    rw [ih hq' (by simpa using hfuel) (keepsFirst_of_none drop y hnone),
                      List.find?_cons_of_pos hqy, List.find?_append,
                      List.find?_eq_none.mpr fun z hz => by simp [hnone z hz]]
                    simp [hqy]
                  · have hqy : q y = false := by simpa using hqy
                    rw [ih hq' (by simpa using hfuel) (h.moved hdrop hqx hqy), List.find?_append,
                      List.find?_cons_of_neg (by simp [hqy])]
                    simp [hqy]
            · next hdrop =>
                have hdrop : drop x = false := by simpa using hdrop
                rw [List.find?_cons_of_neg (by simp [hqx])]
                exact ih (fun z hz => hq z (List.mem_cons_of_mem _ hz)) (by omega)
                  (h.tail hdrop hqx)

end Libpeg.SwapRemove
