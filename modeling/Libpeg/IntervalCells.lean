import Libpeg.IntervalTree
import Mathlib.Data.List.TakeWhile
import Mathlib.Tactic.Linarith

/-!
The intervals a lazy tree stands for. A node is read in the current
coordinates, with the shifts it has not absorbed yet, and a tree as the in-order
list of what its nodes hold; rotations and rebalancing do not change that list.
-/

namespace Libpeg.IntervalCells

open Libpeg.IntervalTree

variable {α : Type}

/-- Where a position ends up after a list of shifts. -/
def shiftPos (ss : List IvShift) (p : Int) : Int :=
  ss.foldl (fun p s => if p ≥ s.idx then p + s.amt else p) p

def curPos (shifts : List IvShift) (n : IvNode α) : Int :=
  shiftPos (pendingShifts shifts n.tstamp) n.key.pos

/-- The content of a node in current coordinates. -/
structure Cell (α : Type) where
  key : IvKey
  loc : Nat
  ins : List (IvIns α)

def cell (shifts : List IvShift) (n : IvNode α) : Cell α where
  key := { n.key with pos := curPos shifts n }
  loc := n.iv.loc
  ins := (ivGroupShift n.iv (curPos shifts n - n.key.pos)).ins

def cells (shifts : List IvShift) : IvTree α → List (Cell α)
  | .nil => []
  | .node n l r => cells shifts l ++ cell shifts n :: cells shifts r

/-- The addresses of the nodes, each with the back pointer of its group. -/
def links : IvTree α → List (Nat × Nat)
  | .nil => []
  | .node n l r => links l ++ (n.addr, n.iv.node) :: links r

/-- Every interval of some cells ends at or before `m`. -/
def Below (cs : List (Cell α)) (m : Int) : Prop :=
  ∀ c ∈ cs, ∀ i ∈ c.ins, i.high ≤ m

/-- What the maxima of a tree are for: a node that absorbs its pending shifts
skips none that its key is in range of, and has an upper bound of its subtree
afterwards. -/
def MaxBounds (shifts : List IvShift) : IvTree α → Prop
  | .nil => True
  | .node n l r =>
      (ivReplay shifts n).key.pos = curPos shifts n ∧
        Below (cells shifts (.node n l r)) (ivApplyShifts shifts n l r).max ∧
        MaxBounds shifts l ∧ MaxBounds shifts r

instance decidableBelow (cs : List (Cell α)) (m : Int) : Decidable (Below cs m) :=
  inferInstanceAs (Decidable (∀ c ∈ cs, ∀ i ∈ c.ins, i.high ≤ m))

instance decidableMaxBounds (shifts : List IvShift) :
    (t : IvTree α) → Decidable (MaxBounds shifts t)
  | .nil => isTrue trivial
  | .node n l r =>
      have := decidableMaxBounds shifts l
      have := decidableMaxBounds shifts r
      inferInstanceAs (Decidable ((ivReplay shifts n).key.pos = curPos shifts n ∧
        Below (cells shifts (.node n l r)) (ivApplyShifts shifts n l r).max ∧
        MaxBounds shifts l ∧ MaxBounds shifts r))

/-- The log is in timestamp order and not newer than the tree. -/
structure LogOk (shifts : List IvShift) (now : Nat) : Prop where
  sorted : shifts.Pairwise (fun a b => a.tstamp < b.tstamp)
  le_now : ∀ s ∈ shifts, s.tstamp ≤ now

/-- Stored heights are positive and no node is newer than the tree. -/
def Regular (now : Nat) : IvTree α → Prop
  | .nil => True
  | .node n l r => (1 ≤ n.height ∧ n.tstamp ≤ now) ∧ Regular now l ∧ Regular now r

def Current (shifts : List IvShift) (n : IvNode α) : Prop :=
  pendingShifts shifts n.tstamp = []

/-- The root has been visited: it is current and its maximum is a bound. -/
def Settled (shifts : List IvShift) : IvTree α → Prop
  | .nil => True
  | .node n l r => Current shifts n ∧ Below (cells shifts (.node n l r)) n.max

/-- The maxima are bounds when the pending shifts are absorbed, even before they
are compared with the children. -/
def Firm (shifts : List IvShift) : IvTree α → Prop
  | .nil => True
  | .node n l r =>
      Below (cells shifts (.node n l r)) (ivReplay shifts n).max ∧ Firm shifts l ∧ Firm shifts r

/-- What the operations keep; they also keep the stronger bounds, which count
when `F` holds. -/
structure Sound (F : Prop) (shifts : List IvShift) (now : Nat) (t : IvTree α) : Prop where
  bounds : MaxBounds shifts t
  firm : F → Firm shifts t
  regular : Regular now t

variable {F : Prop} {shifts : List IvShift} {now : Nat}

theorem pendingShifts_eq_filter
    (hlog : shifts.Pairwise (fun a b => a.tstamp < b.tstamp)) (ts : Nat) :
    pendingShifts shifts ts = shifts.filter (fun s => s.tstamp > ts) := by
  induction shifts with
  | nil => rfl
  | cons s shifts ih =>
      rw [List.pairwise_cons] at hlog
      have htail := ih hlog.2
      simp only [pendingShifts, List.reverse_cons] at htail ⊢
      rw [List.takeWhile_append]
      by_cases hs : s.tstamp > ts
      · have hall : ∀ x ∈ shifts.reverse, decide (x.tstamp > ts) = true := by
          intro x hx
          have := hlog.1 x (List.mem_reverse.mp hx)
          simp only [decide_eq_true_eq]
          omega
        have htake : shifts.reverse.takeWhile (fun s => decide (s.tstamp > ts)) =
            shifts.reverse := List.takeWhile_eq_self_iff.mpr hall
        rw [htake] at htail ⊢
        simp [hs, ← htail]
      · rw [List.filter_cons_of_neg (by simpa using hs), ← htail]
        split
        · next hlen =>
            simp only [List.takeWhile_cons, hs, decide_false, Bool.false_eq_true,
              if_false, List.append_nil, List.takeWhile_nil]
            rw [List.IsPrefix.eq_of_length (List.takeWhile_prefix _) hlen]
        · rfl

theorem current_iff (hlog : LogOk shifts now) (n : IvNode α) :
    Current shifts n ↔ ∀ s ∈ shifts, s.tstamp ≤ n.tstamp := by
  simp [Current, pendingShifts_eq_filter hlog.sorted]

theorem curPos_of_current {n : IvNode α}
    (h : Current shifts n) : curPos shifts n = n.key.pos := by
  rw [curPos, show pendingShifts shifts n.tstamp = [] from h]
  rfl

theorem ivGroupShift_zero (iv : IvGroup α) : ivGroupShift iv 0 = iv := by
  simp [ivGroupShift]

theorem ivGroupShift_add (iv : IvGroup α) (a b : Int) :
    ivGroupShift (ivGroupShift iv a) b = ivGroupShift iv (a + b) := by
  simp [ivGroupShift, Function.comp_def, Int.add_assoc]

theorem cell_of_current {n : IvNode α}
    (h : Current shifts n) : cell shifts n = ⟨n.key, n.iv.loc, n.iv.ins⟩ := by
  simp [cell, curPos_of_current h, ivGroupShift_zero]

theorem ivReplay_of_current {n : IvNode α}
    (h : Current shifts n) : ivReplay shifts n = n := by
  rw [ivReplay, show pendingShifts shifts n.tstamp = [] from h]
  rfl

/-- What replaying shifts can change in a node. -/
structure Replayed (n m : IvNode α) : Prop where
  addr : m.addr = n.addr
  id : m.key.id = n.key.id
  height : m.height = n.height
  group : m.iv = ivGroupShift n.iv (m.key.pos - n.key.pos)
  newer : n.tstamp ≤ m.tstamp

theorem ivApplyShift_replayed (n : IvNode α) (s : IvShift) :
    Replayed n (ivApplyShift n s) ∧ s.tstamp ≤ (ivApplyShift n s).tstamp := by
  unfold ivApplyShift
  split
  · exact ⟨⟨rfl, rfl, rfl, by simp [ivGroupShift_zero], le_rfl⟩, by assumption⟩
  · split
    · split
      · refine ⟨⟨rfl, rfl, rfl, ?_, by dsimp only; omega⟩, le_rfl⟩
        simp
      · exact ⟨⟨rfl, rfl, rfl, by simp [ivGroupShift_zero], by dsimp only; omega⟩, le_rfl⟩
    · exact ⟨⟨rfl, rfl, rfl, by simp [ivGroupShift_zero], by dsimp only; omega⟩, le_rfl⟩

theorem Replayed.trans {a b c : IvNode α} (hab : Replayed a b) (hbc : Replayed b c) :
    Replayed a c where
  addr := hbc.addr.trans hab.addr
  id := hbc.id.trans hab.id
  height := hbc.height.trans hab.height
  group := by
    rw [hbc.group, hab.group, ivGroupShift_add]
    congr 1
    omega
  newer := hab.newer.trans hbc.newer

theorem foldl_ivApplyShift_replayed (ss : List IvShift) (n : IvNode α) :
    Replayed n (ss.foldl ivApplyShift n) ∧
      ∀ s ∈ ss, s.tstamp ≤ (ss.foldl ivApplyShift n).tstamp := by
  induction ss generalizing n with
  | nil => exact ⟨⟨rfl, rfl, rfl, by simp [ivGroupShift_zero], le_rfl⟩, by simp⟩
  | cons s ss ih =>
      obtain ⟨hstep, hs⟩ := ivApplyShift_replayed n s
      obtain ⟨hrest, hss⟩ := ih (ivApplyShift n s)
      refine ⟨hstep.trans hrest, ?_⟩
      rintro x (_ | ⟨_, hx⟩)
      · exact hs.trans hrest.newer
      · exact hss x hx

theorem ivReplay_replayed (shifts : List IvShift) (n : IvNode α) :
    Replayed n (ivReplay shifts n) :=
  (foldl_ivApplyShift_replayed _ n).1

theorem ivReplay_current (hlog : LogOk shifts now) (n : IvNode α) :
    Current shifts (ivReplay shifts n) := by
  rw [current_iff hlog]
  intro s hs
  have hfold := foldl_ivApplyShift_replayed (pendingShifts shifts n.tstamp) n
  by_cases hpend : s.tstamp > n.tstamp
  · apply hfold.2 s
    rw [pendingShifts_eq_filter hlog.sorted]
    simp [hs, hpend]
  · exact (Nat.le_of_not_lt hpend).trans hfold.1.newer

theorem ivReplay_tstamp_le (hlog : LogOk shifts now) {n : IvNode α} (hn : n.tstamp ≤ now) :
    (ivReplay shifts n).tstamp ≤ now := by
  have hpend : ∀ s ∈ pendingShifts shifts n.tstamp, s.tstamp ≤ now := by
    intro s hs
    rw [pendingShifts_eq_filter hlog.sorted] at hs
    exact hlog.le_now s (List.mem_of_mem_filter hs)
  rw [ivReplay]
  generalize pendingShifts shifts n.tstamp = ss at hpend
  induction ss generalizing n with
  | nil => exact hn
  | cons s ss ih =>
      apply ih
      · have := hpend s (by simp)
        unfold ivApplyShift
        split
        · exact hn
        · split
          · split <;> exact this
          · exact this
      · exact fun x hx => hpend x (by simp [hx])

/-- Nothing but the maximum differs. -/
structure SameButMax (n m : IvNode α) : Prop where
  addr : m.addr = n.addr
  key : m.key = n.key
  iv : m.iv = n.iv
  tstamp : m.tstamp = n.tstamp
  height : m.height = n.height
  max : n.max ≤ m.max

theorem ivUpdateMax_same (n : IvNode α) (l r : IvTree α) :
    SameButMax n (ivUpdateMax n l r) := by
  unfold ivUpdateMax
  simp only
  split
  · exact ⟨rfl, rfl, rfl, rfl, rfl, by dsimp only; omega⟩
  · exact ⟨rfl, rfl, rfl, rfl, rfl, le_rfl⟩

theorem ivApplyShifts_same (shifts : List IvShift) (n : IvNode α) (l r : IvTree α) :
    SameButMax (ivReplay shifts n) (ivApplyShifts shifts n l r) := by
  unfold ivApplyShifts
  split
  · next h =>
      have : ivReplay shifts n = n := by simp [h, ivReplay, pendingShifts]
      rw [this]
      exact ⟨rfl, rfl, rfl, rfl, rfl, le_rfl⟩
  · exact ivUpdateMax_same _ l r

theorem SameButMax.current {n m : IvNode α}
    (h : SameButMax n m) (hn : Current shifts n) : Current shifts m := by
  rw [Current, h.tstamp]
  exact hn

theorem SameButMax.cell {n m : IvNode α} (h : SameButMax n m) :
    cell shifts m = cell shifts n := by
  simp [IntervalCells.cell, curPos, h.tstamp, h.key, h.iv]

theorem ivApplyShifts_current (hlog : LogOk shifts now)
    (n : IvNode α) (l r : IvTree α) : Current shifts (ivApplyShifts shifts n l r) :=
  (ivApplyShifts_same shifts n l r).current (ivReplay_current hlog n)

theorem ivApplyShifts_cell (hlog : LogOk shifts now)
    {n : IvNode α} (l r : IvTree α)
    (hpos : (ivReplay shifts n).key.pos = curPos shifts n) :
    cell shifts (ivApplyShifts shifts n l r) = cell shifts n := by
  have hrep := ivReplay_replayed shifts n
  rw [(ivApplyShifts_same shifts n l r).cell, cell_of_current (ivReplay_current hlog n),
    hrep.group]
  simp only [cell, ← hpos, ← hrep.id]
  rfl

theorem below_append {cs ds : List (Cell α)} {m : Int} :
    Below (cs ++ ds) m ↔ Below cs m ∧ Below ds m := by
  constructor
  · intro h
    exact ⟨fun c hc => h c (by simp [hc]), fun c hc => h c (by simp [hc])⟩
  · rintro ⟨h₁, h₂⟩ c hc
    rcases List.mem_append.mp hc with hc | hc
    · exact h₁ c hc
    · exact h₂ c hc

theorem below_cons {c : Cell α} {cs : List (Cell α)} {m : Int} :
    Below (c :: cs) m ↔ (∀ i ∈ c.ins, i.high ≤ m) ∧ Below cs m := by
  simp [Below]

theorem Below.mono {cs : List (Cell α)} {m m' : Int} (h : Below cs m) (hm : m ≤ m') :
    Below cs m' :=
  fun c hc i hi => (h c hc i hi).trans hm

theorem ivApplyShifts_max_of_current {n : IvNode α}
    (h : Current shifts n) (l r : IvTree α) :
    n.max ≤ (ivApplyShifts shifts n l r).max := by
  have := (ivApplyShifts_same shifts n l r).max
  rwa [ivReplay_of_current h] at this

theorem sound_node {n : IvNode α} {l r : IvTree α}
    (hcur : Current shifts n) (hn : 1 ≤ n.height ∧ n.tstamp ≤ now)
    (hmax : Below (cells shifts (.node n l r)) n.max)
    (hl : Sound F shifts now l) (hr : Sound F shifts now r) :
    Sound F shifts now (.node n l r) ∧ Settled shifts (.node n l r) := by
  refine ⟨⟨⟨?_, ?_, hl.bounds, hr.bounds⟩, fun hF => ⟨?_, hl.firm hF, hr.firm hF⟩, hn,
    hl.regular, hr.regular⟩, hcur, hmax⟩
  · rw [ivReplay_of_current hcur, curPos_of_current hcur]
  · exact hmax.mono (ivApplyShifts_max_of_current hcur l r)
  · rwa [ivReplay_of_current hcur]

theorem Sound.left {n : IvNode α} {l r : IvTree α}
    (h : Sound F shifts now (.node n l r)) : Sound F shifts now l :=
  ⟨h.bounds.2.2.1, fun hF => (h.firm hF).2.1, h.regular.2.1⟩

theorem Sound.right {n : IvNode α} {l r : IvTree α}
    (h : Sound F shifts now (.node n l r)) : Sound F shifts now r :=
  ⟨h.bounds.2.2.2, fun hF => (h.firm hF).2.2, h.regular.2.2⟩

theorem Sound.nil : Sound F shifts now (.nil : IvTree α) :=
  ⟨trivial, fun _ => trivial, trivial⟩

/-- `t'` is `t` after visits that change none of its contents, with a visited
root. -/
structure Visited (F : Prop) (shifts : List IvShift) (now : Nat) (t t' : IvTree α) : Prop where
  sound : Sound F shifts now t'
  settled : Settled shifts t'
  cells : cells shifts t' = cells shifts t
  links : links t' = links t

theorem Visited.trans {a b c : IvTree α}
    (hab : Visited F shifts now a b) (hbc : Visited F shifts now b c) : Visited F shifts now a c :=
  ⟨hbc.sound, hbc.settled, hbc.cells.trans hab.cells, hbc.links.trans hab.links⟩

theorem ivApplyShifts_visited (hlog : LogOk shifts now)
    {n : IvNode α} {l r : IvTree α} (h : Sound F shifts now (.node n l r)) :
    Visited F shifts now (.node n l r) (.node (ivApplyShifts shifts n l r) l r) := by
  have hcell := ivApplyShifts_cell hlog l r h.bounds.1
  have hsame := ivApplyShifts_same shifts n l r
  have hrep := ivReplay_replayed shifts n
  have hcells : cells shifts (.node (ivApplyShifts shifts n l r) l r) =
      cells shifts (.node n l r) := by
    simp only [cells, hcell]
  have hregular : 1 ≤ (ivApplyShifts shifts n l r).height ∧
      (ivApplyShifts shifts n l r).tstamp ≤ now := by
    rw [hsame.height, hrep.height, hsame.tstamp]
    exact ⟨h.regular.1.1, ivReplay_tstamp_le hlog h.regular.1.2⟩
  obtain ⟨hsound, hsettled⟩ := sound_node (ivApplyShifts_current hlog n l r) hregular
    (by rw [hcells]; exact h.bounds.2.1) h.left h.right
  refine ⟨hsound, hsettled, hcells, ?_⟩
  simp only [links, hsame.addr, hrep.addr, hsame.iv, hrep.group]
  rfl

theorem ivHeight_nonneg {t : IvTree α} (h : Regular now t) : 0 ≤ ivHeight t := by
  cases t with
  | nil => exact le_rfl
  | node n l r =>
      have := h.1
      simp only [ivHeight]
      omega

theorem ivUpdate_same (n : IvNode α) (l r : IvTree α) :
    SameButMax (ivUpdateHeight n l r) (ivUpdate n l r) :=
  ivUpdateMax_same _ l r

theorem ivUpdate_current {n : IvNode α} (h : Current shifts n)
    (l r : IvTree α) : Current shifts (ivUpdate n l r) :=
  (ivUpdate_same n l r).current h

theorem ivUpdate_cell (n : IvNode α) (l r : IvTree α) :
    cell shifts (ivUpdate n l r) = cell shifts n :=
  (ivUpdate_same n l r).cell

theorem ivUpdate_max (n : IvNode α) (l r : IvTree α) : n.max ≤ (ivUpdate n l r).max :=
  (ivUpdate_same n l r).max

theorem ivUpdate_regular {n : IvNode α} {l : IvTree α} (r : IvTree α)
    (hn : n.tstamp ≤ now) (hl : Regular now l) :
    1 ≤ (ivUpdate n l r).height ∧ (ivUpdate n l r).tstamp ≤ now := by
  rw [(ivUpdate_same n l r).height, (ivUpdate_same n l r).tstamp]
  have := ivHeight_nonneg hl
  simp only [ivUpdateHeight]
  exact ⟨by omega, hn⟩

theorem ivUpdate_link (n : IvNode α) (l r : IvTree α) :
    (ivUpdate n l r).addr = n.addr ∧ (ivUpdate n l r).iv = n.iv :=
  ⟨(ivUpdate_same n l r).addr, (ivUpdate_same n l r).iv⟩

theorem maxWith_le_ivUpdate_max (n : IvNode α) (l r : IvTree α) :
    maxWith (maxWith (ivGroupHigh n.iv) l) r ≤ (ivUpdate n l r).max := by
  unfold ivUpdate ivUpdateMax
  simp only
  split
  · exact le_rfl
  · next h => simpa [ivUpdateHeight] using h

theorem le_maxWith (m : Int) (t : IvTree α) : m ≤ maxWith m t := by
  cases t with
  | nil => exact le_rfl
  | node n l r => exact le_max_left _ _

theorem left_max_le_ivUpdate_max (n m : IvNode α) (ml mr r : IvTree α) :
    m.max ≤ (ivUpdate n (.node m ml mr) r).max := by
  have h := maxWith_le_ivUpdate_max n (.node m ml mr) r
  have h' : maxWith (ivGroupHigh n.iv) (.node m ml mr) ≤
      maxWith (maxWith (ivGroupHigh n.iv) (.node m ml mr)) r := le_maxWith _ r
  have h'' : m.max ≤ maxWith (ivGroupHigh n.iv) (.node m ml mr) := le_max_right _ _
  omega

theorem right_max_le_ivUpdate_max (n m : IvNode α) (l ml mr : IvTree α) :
    m.max ≤ (ivUpdate n l (.node m ml mr)).max :=
  (le_max_right _ _).trans (maxWith_le_ivUpdate_max n l (.node m ml mr))

/-- Recomputing a current node over sound children, when that makes its maximum
a bound. -/
theorem ivUpdate_visited {n : IvNode α} {l r : IvTree α} (hcur : Current shifts n)
    (hn : n.tstamp ≤ now) (hmax : Below (cells shifts (.node n l r)) (ivUpdate n l r).max)
    (hl : Sound F shifts now l) (hr : Sound F shifts now r) :
    Visited F shifts now (.node n l r) (.node (ivUpdate n l r) l r) := by
  have hcells : cells shifts (.node (ivUpdate n l r) l r) = cells shifts (.node n l r) := by
    simp only [cells, ivUpdate_cell]
  obtain ⟨hsound, hsettled⟩ := sound_node (ivUpdate_current hcur l r)
    (ivUpdate_regular r hn hl.regular) (by rw [hcells]; exact hmax) hl hr
  refine ⟨hsound, hsettled, hcells, ?_⟩
  simp only [links, ivUpdate_link]

theorem ivRotateLeft_visited (hlog : LogOk shifts now)
    {n m : IvNode α} {l rl rr : IvTree α}
    (h : Sound F shifts now (.node n l (.node m rl rr))) :
    ∃ k kl kr, ivRotateLeft shifts (.node n l (.node m rl rr)) = .node k kl kr ∧
      Visited F shifts now (.node n l (.node m rl rr)) (.node k kl kr) ∧ Settled shifts kl := by
  have hn := ivApplyShifts_visited hlog h
  have hm := ivApplyShifts_visited hlog h.right
  simp only [ivRotateLeft]
  generalize ivApplyShifts shifts n l (.node m rl rr) = n' at hn ⊢
  generalize ivApplyShifts shifts m rl rr = m' at hm ⊢
  have hall := hn.settled.2
  have hcm := hm.cells
  have hlm := hm.links
  simp only [cells, List.append_cancel_left_eq, List.cons.injEq, and_true]
    at hall hcm
  simp only [links, List.append_cancel_left_eq, List.cons.injEq, and_true] at hlm
  have hlow : Settled shifts (.node n' l rl) := by
    refine ⟨hn.settled.1, ?_⟩
    simp only [cells, below_append, below_cons] at hall ⊢
    exact ⟨hall.1, hall.2.1, hall.2.2.1⟩
  have ht := ivUpdate_visited hlow.1 hn.sound.regular.1.2
    (hlow.2.mono (ivUpdate_max _ _ _)) h.left h.right.left
  have hroot : Below (cells shifts (.node (ivUpdate m' (.node (ivUpdate n' l rl) l rl) rr)
      (.node (ivUpdate n' l rl) l rl) rr))
      (ivUpdate m' (.node (ivUpdate n' l rl) l rl) rr).max := by
    have hle : n'.max ≤ (ivUpdate m' (.node (ivUpdate n' l rl) l rl) rr).max :=
      (ivUpdate_max n' l rl).trans (left_max_le_ivUpdate_max m' _ l rl rr)
    refine Below.mono ?_ hle
    simp only [cells, ivUpdate_cell, hcm, below_append, below_cons] at hall ⊢
    tauto
  obtain ⟨hsound, hsettled⟩ := sound_node (ivUpdate_current hm.settled.1 _ rr)
    (ivUpdate_regular rr hm.sound.regular.1.2 ht.sound.regular) hroot ht.sound h.right.right
  refine ⟨_, _, _, rfl, ⟨hsound, hsettled, ?_, ?_⟩, ht.settled⟩
  · have hcn := hn.cells
    simp only [cells, List.append_cancel_left_eq, List.cons.injEq, and_true] at hcn
    simp [cells, ivUpdate_cell, hcm, hcn]
  · have hln := hn.links
    simp only [links, List.append_cancel_left_eq, List.cons.injEq, and_true] at hln
    simp [links, ivUpdate_link, hlm, hln]

theorem ivRotateRight_visited (hlog : LogOk shifts now)
    {n m : IvNode α} {ll lr r : IvTree α}
    (h : Sound F shifts now (.node n (.node m ll lr) r)) :
    ∃ k kl kr, ivRotateRight shifts (.node n (.node m ll lr) r) = .node k kl kr ∧
      Visited F shifts now (.node n (.node m ll lr) r) (.node k kl kr) ∧ Settled shifts kr := by
  have hn := ivApplyShifts_visited hlog h
  have hm := ivApplyShifts_visited hlog h.left
  simp only [ivRotateRight]
  generalize ivApplyShifts shifts n (.node m ll lr) r = n' at hn ⊢
  generalize ivApplyShifts shifts m ll lr = m' at hm ⊢
  have hall := hn.settled.2
  have hcm := hm.cells
  have hlm := hm.links
  simp only [cells, List.append_cancel_left_eq, List.cons.injEq, and_true] at hall hcm
  simp only [links, List.append_cancel_left_eq, List.cons.injEq, and_true] at hlm
  have hlow : Settled shifts (.node n' lr r) := by
    refine ⟨hn.settled.1, ?_⟩
    simp only [cells, below_append, below_cons] at hall ⊢
    exact ⟨hall.1.2.2, hall.2⟩
  have ht := ivUpdate_visited hlow.1 hn.sound.regular.1.2
    (hlow.2.mono (ivUpdate_max _ _ _)) h.left.right h.right
  have hroot : Below (cells shifts (.node (ivUpdate m' ll (.node (ivUpdate n' lr r) lr r))
      ll (.node (ivUpdate n' lr r) lr r)))
      (ivUpdate m' ll (.node (ivUpdate n' lr r) lr r)).max := by
    have hle : n'.max ≤ (ivUpdate m' ll (.node (ivUpdate n' lr r) lr r)).max :=
      (ivUpdate_max n' lr r).trans (right_max_le_ivUpdate_max m' _ ll lr r)
    refine Below.mono ?_ hle
    simp only [cells, ivUpdate_cell, hcm, below_append, below_cons] at hall ⊢
    tauto
  obtain ⟨hsound, hsettled⟩ := sound_node (ivUpdate_current hm.settled.1 ll _)
    (ivUpdate_regular _ hm.sound.regular.1.2 h.left.left.regular) hroot h.left.left ht.sound
  refine ⟨_, _, _, rfl, ⟨hsound, hsettled, ?_, ?_⟩, ht.settled⟩
  · have hcn := hn.cells
    simp only [cells, List.append_cancel_left_eq, List.cons.injEq, and_true] at hcn
    simp [cells, ivUpdate_cell, hcm, hcn]
  · have hln := hn.links
    simp only [links, List.append_cancel_left_eq, List.cons.injEq, and_true] at hln
    simp [links, ivUpdate_link, hlm, hln]

/-- Replacing the left subtree of a visited node by one with the same contents. -/
theorem visited_left {n : IvNode α} {l l' r : IvTree α}
    (hset : Settled shifts (.node n l r)) (hn : 1 ≤ n.height ∧ n.tstamp ≤ now)
    (hl : Sound F shifts now l') (hcells : cells shifts l' = cells shifts l)
    (hlinks : links l' = links l) (hr : Sound F shifts now r) :
    Visited F shifts now (.node n l r) (.node n l' r) := by
  have hall : cells shifts (.node n l' r) = cells shifts (.node n l r) := by
    simp only [cells, hcells]
  obtain ⟨hsound, hsettled⟩ := sound_node hset.1 hn (by rw [hall]; exact hset.2) hl hr
  exact ⟨hsound, hsettled, hall, by simp only [links, hlinks]⟩

theorem visited_right {n : IvNode α} {l r r' : IvTree α}
    (hset : Settled shifts (.node n l r)) (hn : 1 ≤ n.height ∧ n.tstamp ≤ now)
    (hl : Sound F shifts now l) (hr : Sound F shifts now r')
    (hcells : cells shifts r' = cells shifts r) (hlinks : links r' = links r) :
    Visited F shifts now (.node n l r) (.node n l r') := by
  have hall : cells shifts (.node n l r') = cells shifts (.node n l r) := by
    simp only [cells, hcells]
  obtain ⟨hsound, hsettled⟩ := sound_node hset.1 hn (by rw [hall]; exact hset.2) hl hr
  exact ⟨hsound, hsettled, hall, by simp only [links, hlinks]⟩

theorem Visited.refl {t : IvTree α} (h : Sound F shifts now t)
    (hset : Settled shifts t) : Visited F shifts now t t :=
  ⟨h, hset, rfl, rfl⟩

theorem ne_nil_of_ivHeight_pos {t : IvTree α} (h : 0 < ivHeight t) :
    ∃ m ml mr, t = .node m ml mr := by
  cases t with
  | nil => simp [ivHeight] at h
  | node m ml mr => exact ⟨m, ml, mr, rfl⟩

theorem prerotateLeft_visited (hlog : LogOk shifts now) {t : IvTree α}
    (h : Sound F shifts now t) (hpos : 0 < ivHeight t) :
    ∃ k kl kr, (if ivBalance t < 0 then ivRotateLeft shifts t else t) = .node k kl kr ∧
      Sound F shifts now (.node k kl kr) ∧ cells shifts (.node k kl kr) = cells shifts t ∧
        links (.node k kl kr) = links t := by
  obtain ⟨n, l, r, rfl⟩ := ne_nil_of_ivHeight_pos hpos
  split
  · next hlean =>
      cases r with
      | nil =>
          have := ivHeight_nonneg h.left.regular
          simp only [ivBalance, ivHeight] at hlean this
          omega
      | node m rl rr =>
          obtain ⟨k, kl, kr, hk, hv, -⟩ := ivRotateLeft_visited hlog h
          exact ⟨k, kl, kr, hk, hv.sound, hv.cells, hv.links⟩
  · exact ⟨n, l, r, rfl, h, rfl, rfl⟩

theorem prerotateRight_visited (hlog : LogOk shifts now) {t : IvTree α}
    (h : Sound F shifts now t) (hpos : 0 < ivHeight t) :
    ∃ k kl kr, (if ivBalance t > 0 then ivRotateRight shifts t else t) = .node k kl kr ∧
      Sound F shifts now (.node k kl kr) ∧ cells shifts (.node k kl kr) = cells shifts t ∧
        links (.node k kl kr) = links t := by
  obtain ⟨n, l, r, rfl⟩ := ne_nil_of_ivHeight_pos hpos
  split
  · next hlean =>
      cases l with
      | nil =>
          have := ivHeight_nonneg h.right.regular
          simp only [ivBalance, ivHeight] at hlean this
          omega
      | node m ll lr =>
          obtain ⟨k, kl, kr, hk, hv, -⟩ := ivRotateRight_visited hlog h
          exact ⟨k, kl, kr, hk, hv.sound, hv.cells, hv.links⟩
  · exact ⟨n, l, r, rfl, h, rfl, rfl⟩

theorem ivUpdate_idem (n : IvNode α) (l r : IvTree α) :
    ivUpdate (ivUpdate n l r) l r = ivUpdate n l r := by
  have hsame := ivUpdate_same n l r
  have hmax := maxWith_le_ivUpdate_max n l r
  generalize hm : ivUpdate n l r = m at hsame hmax
  have hheight : ivUpdateHeight m l r = m := by
    have : m.height = 1 + max (ivHeight l) (ivHeight r) := hsame.height
    cases m
    simp_all [ivUpdateHeight]
  rw [ivUpdate, hheight, ivUpdateMax, hsame.iv]
  exact if_neg (not_lt.mpr hmax)

theorem ivRebalanceLoop_visited (hlog : LogOk shifts now) (fuel : Nat) {t : IvTree α}
    (h : Sound F shifts now t) (hset : Settled shifts t) :
    Visited F shifts now t (ivRebalanceLoop shifts fuel t) := by
  induction fuel generalizing t with
  | zero => exact .refl h hset
  | succ fuel ih =>
      cases t with
      | nil => exact .refl h hset
      | node n l r =>
          have hup := ivUpdate_visited hset.1 h.regular.1.2
            (hset.2.mono (ivUpdate_max n l r)) h.left h.right
          have hn := hup.sound.regular.1
          have hlh := ivHeight_nonneg h.left.regular
          have hrh := ivHeight_nonneg h.right.regular
          simp only [ivRebalanceLoop]
          split
          · obtain ⟨k, kl, kr, hk, hsound, hcells, hlinks⟩ :=
              prerotateLeft_visited hlog h.left (by omega)
            have hfirst := visited_left hup.settled hn hsound hcells hlinks h.right
            obtain ⟨m, ml, mr, hm, hrot, hdemoted⟩ := ivRotateRight_visited hlog hfirst.sound
            have hmr := ih hrot.sound.right hdemoted
            have hroot := visited_right hrot.settled hrot.sound.regular.1 hrot.sound.left
              hmr.sound hmr.cells hmr.links
            rw [hk, hm]
            exact ((hup.trans hfirst).trans (hrot.trans hroot)).trans
              (ih hroot.sound hroot.settled)
          · split
            · obtain ⟨k, kl, kr, hk, hsound, hcells, hlinks⟩ :=
                prerotateRight_visited hlog h.right (by omega)
              have hfirst := visited_right hup.settled hn h.left hsound hcells hlinks
              obtain ⟨m, ml, mr, hm, hrot, hdemoted⟩ := ivRotateLeft_visited hlog hfirst.sound
              have hml := ih hrot.sound.left hdemoted
              have hroot := visited_left hrot.settled hrot.sound.regular.1 hml.sound
                hml.cells hml.links hrot.sound.right
              rw [hk, hm]
              exact ((hup.trans hfirst).trans (hrot.trans hroot)).trans
                (ih hroot.sound hroot.settled)
            · exact hup

theorem ivRebalance_visited (hlog : LogOk shifts now) {t : IvTree α}
    (h : Sound F shifts now t) (hset : Settled shifts t) :
    Visited F shifts now t (ivRebalance shifts t) :=
  ivRebalanceLoop_visited hlog _ h hset

/-- Rebalancing first recomputes the node, so its maximum need not be a bound
before. -/
theorem ivRebalance_node_visited (hlog : LogOk shifts now) {n : IvNode α} {l r : IvTree α}
    (hcur : Current shifts n) (hn : n.tstamp ≤ now)
    (hmax : Below (cells shifts (.node n l r)) (ivUpdate n l r).max)
    (hl : Sound F shifts now l) (hr : Sound F shifts now r) :
    Visited F shifts now (.node n l r) (ivRebalance shifts (.node n l r)) := by
  have hup := ivUpdate_visited hcur hn hmax hl hr
  have heq : ivRebalance shifts (.node n l r) =
      ivRebalanceLoop shifts (ivDepth (.node n l r) + 3) (.node (ivUpdate n l r) l r) := by
    simp only [ivRebalance, ivRebalanceLoop, ivUpdate_idem]
  rw [heq]
  exact hup.trans (ivRebalanceLoop_visited hlog _ hup.sound hup.settled)

end Libpeg.IntervalCells
