import Mathlib.Data.List.Basic

namespace Libpeg.Bytes

variable {β : Type} {m m' xs : List β} {i n : Nat}

/-- The cells from `i` on, `n` of them. -/
def load (m : List β) (i n : Nat) : Option (List β) :=
  if i + n ≤ m.length then some ((m.drop i).take n) else none

/-- Overwrite the cells from `i` on. -/
def store (m : List β) (i : Nat) (xs : List β) : Option (List β) :=
  if i + xs.length ≤ m.length then some (m.take i ++ xs ++ m.drop (i + xs.length)) else none

/-- Copy cells inside one block. The source is read before anything is written. -/
def move (m : List β) (dst src n : Nat) : Option (List β) :=
  (load m src n).bind (store m dst)

theorem load_eq (h : i + n ≤ m.length) : load m i n = some ((m.drop i).take n) :=
  if_pos h

theorem store_fits (h : i + xs.length ≤ m.length) : ∃ m', store m i xs = some m' :=
  ⟨_, if_pos h⟩

theorem store_nil (h : i ≤ m.length) : store m i [] = some m := by
  rw [store, List.length_nil, Nat.add_zero, if_pos h, List.append_nil, List.take_append_drop]

theorem move_none {dst : Nat} (src : Nat) (h : m.length < dst + n) : move m dst src n = none := by
  rw [move, load]
  split
  · next hle =>
      have hlen : ((m.drop src).take n).length = n := by
        rw [List.length_take, List.length_drop]
        omega
      rw [Option.bind_some, store, if_neg (by omega)]
  · rfl

theorem length_store (h : store m i xs = some m') : m'.length = m.length := by
  rw [store] at h
  split at h
  · next hle =>
      cases h
      simp only [List.length_append, List.length_take, List.length_drop]
      omega
  · cases h

theorem take_store (h : store m i xs = some m') :
    m'.take (i + xs.length) = m.take i ++ xs := by
  rw [store] at h
  split at h
  · next hle =>
      cases h
      refine List.take_left' ?_
      rw [List.length_append, List.length_take]
      omega
  · cases h

theorem drop_store (h : store m i xs = some m') :
    m'.drop (i + xs.length) = m.drop (i + xs.length) := by
  rw [store] at h
  split at h
  · next hle =>
      cases h
      refine List.drop_left' ?_
      rw [List.length_append, List.length_take]
      omega
  · cases h

theorem take_store_of_le {k : Nat} (h : store m i xs = some m') (hk : k ≤ i) :
    m'.take k = m.take k := by
  have htake := congrArg (List.take k) (take_store h)
  rw [List.take_take, List.take_append, List.take_take] at htake
  rw [store] at h
  split at h
  · next hle =>
      rw [Nat.min_eq_left (by omega), Nat.min_eq_left hk, List.length_take,
        Nat.sub_eq_zero_of_le (by omega), List.take_zero, List.append_nil] at htake
      exact htake
  · cases h

end Libpeg.Bytes
