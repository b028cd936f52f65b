import Libpeg.IntervalMaxima
import Libpeg.SwapRemove

namespace Libpeg.IntervalTies

open Libpeg.IntervalTree Libpeg.IntervalCells Libpeg.IntervalOps Libpeg.IntervalRefinement
open Libpeg.IntervalBalance Libpeg.IntervalMaxima Libpeg.SwapRemove

variable {α : Type}

def Unshifted : Op α → Prop
  | .removeAndShift _ _ amt => amt = 0
  | _ => True

instance decidableUnshifted : (op : Op α) → Decidable (Unshifted op)
  | .removeAndShift _ _ amt => inferInstanceAs (Decidable (amt = 0))
  | .add _ _ _ _ | .findLargest _ _ | .size | .each | .locPos _ | .applyAllShifts => isTrue trivial

/-- In every group, before the first of some equally long intervals that stay, fewer
intervals are evicted than stay from any later one of them on. -/
def KeepsTies (t : Itree α) : Op α → Prop
  | .removeAndShift low high _ =>
      ∀ c ∈ cells t.shifts t.root, ∀ i ∈ c.ins, ivOverlaps i low high = false →
        KeepsFirst (fun j => ivOverlaps j low high) (fun j => decide (j.high = i.high)) c.ins
  | _ => True

instance decidableKeepsTies (t : Itree α) : (op : Op α) → Decidable (KeepsTies t op)
  | .removeAndShift low high _ => inferInstanceAs (Decidable
      (∀ c ∈ cells t.shifts t.root, ∀ i ∈ c.ins, ivOverlaps i low high = false →
        KeepsFirst (fun j => ivOverlaps j low high) (fun j => decide (j.high = i.high)) c.ins))
  | .add _ _ _ _ | .findLargest _ _ | .size | .each | .locPos _ | .applyAllShifts => isTrue trivial

/-- Every removal of a run keeps the first of equally long intervals first. -/
def TiesKept : Itree α → List (Op α) → Prop
  | _, [] => True
  | t, op :: ops => KeepsTies t op ∧ TiesKept (step t op).1 ops

instance decidableTiesKept : (t : Itree α) → (ops : List (Op α)) → Decidable (TiesKept t ops)
  | _, [] => isTrue trivial
  | t, op :: ops =>
      have := decidableTiesKept (step t op).1 ops
      inferInstanceAs (Decidable (KeepsTies t op ∧ TiesKept (step t op).1 ops))

section Groups

variable {low high : Int}

theorem ivMoveLast_eq (rest : List (IvIns α)) : ivMoveLast rest = moveLast rest := by
  simp only [ivMoveLast, moveLast]
  cases rest.getLast? <;> rfl

theorem ivDropOverlaps_sweep (fuel : Nat) (kept rest evicted : List (IvIns α)) :
    (ivDropOverlaps low high fuel kept rest evicted).1 =
      kept ++ sweep (fun i => ivOverlaps i low high) fuel rest := by
  induction fuel generalizing kept rest evicted with
  | zero => rfl
  | succ fuel ih =>
      cases rest with
      | nil => exact (List.append_nil kept).symm
      | cons i rest =>
          rw [ivDropOverlaps, sweep]
          split
          · rw [ivMoveLast_eq]
            exact ih _ _ _
          · rw [ih, List.append_assoc]
            rfl

theorem swept_eq_sweep (ins : List (IvIns α)) :
    swept low high ins = sweep (fun i => ivOverlaps i low high) ins.length ins :=
  ivDropOverlaps_sweep _ _ _ _

theorem mem_swept {ins : List (IvIns α)} {i : IvIns α} :
    i ∈ swept low high ins ↔ i ∈ ins ∧ ivOverlaps i low high = false := by
  have h := (ivDropOverlaps_spec low high ins.length [] ins [] le_rfl).1
  rw [swept, h.mem_iff]
  simp

theorem foldl_longest_first {pos : Int} (m : Int) (is : List (IvIns α)) (best : IvIns α)
    (hlow : ∀ i ∈ best :: is, i.low = pos) (hmax : ∀ i ∈ best :: is, i.high ≤ m)
    (hm : ∃ i ∈ best :: is, i.high = m) :
    some (is.foldl (fun best j => if j.high - j.low > best.high - best.low then j else best) best) =
      (best :: is).find? fun i => decide (i.high = m) := by
  induction is generalizing best with
  | nil =>
      obtain ⟨i, hi, him⟩ := hm
      obtain rfl := List.mem_singleton.mp hi
      simp [him]
  | cons j is ih =>
      have hb := hlow best (by simp)
      have hj := hlow j (by simp)
      have hbm := hmax best (by simp)
      rw [List.foldl_cons]
      by_cases hlt : j.high - j.low > best.high - best.low
      · have hjm := hmax j (by simp)
        rw [if_pos hlt, List.find?_cons_of_neg (by simp only [decide_eq_true_eq]; omega)]
        apply ih j (fun i hi => hlow i (List.mem_cons_of_mem _ hi))
          (fun i hi => hmax i (List.mem_cons_of_mem _ hi))
        obtain ⟨i, hi, him⟩ := hm
        rcases List.mem_cons.mp hi with rfl | hi
        · have := hmax j (by simp)
          omega
        · exact ⟨i, hi, him⟩
      · have hsub : ∀ i ∈ best :: is, i ∈ best :: j :: is := by
          intro i hi
          rcases List.mem_cons.mp hi with rfl | hi
          · exact List.mem_cons_self
          · exact List.mem_cons_of_mem _ (List.mem_cons_of_mem _ hi)
        have hm' : ∃ i ∈ best :: is, i.high = m := by
          obtain ⟨i, hi, him⟩ := hm
          rcases List.mem_cons.mp hi with rfl | hi
          · exact ⟨i, List.mem_cons_self, him⟩
          · rcases List.mem_cons.mp hi with rfl | hi
            · exact ⟨best, List.mem_cons_self, by omega⟩
            · exact ⟨i, List.mem_cons_of_mem _ hi, him⟩
        rw [if_neg hlt, ih best (fun i hi => hlow i (hsub i hi)) (fun i hi => hmax i (hsub i hi)) hm']
        by_cases hbest : best.high = m
        · rw [List.find?_cons_of_pos (by simpa using hbest),
            List.find?_cons_of_pos (by simpa using hbest)]
        · rw [List.find?_cons_of_neg (by simpa using hbest),
            List.find?_cons_of_neg (by simpa using hbest),
            List.find?_cons_of_neg (by simp only [decide_eq_true_eq]; omega)]

/-- The longest interval of a group is the first one of its length in the array. -/
theorem ivLargest_first {pos m : Int} {ins : List (IvIns α)} (hlow : ∀ i ∈ ins, i.low = pos)
    (hmax : ∀ i ∈ ins, i.high ≤ m) (hm : ∃ i ∈ ins, i.high = m) :
    ivLargest ins = ins.find? fun i => decide (i.high = m) := by
  cases ins with
  | nil => rfl
  | cons i is => exact foldl_longest_first m is i hlow hmax hm

end Groups

/-- An interval of the reference list is of a key and an end. -/
def isTie (key : IvKey) (m : Int) (r : RefIv α) : Bool :=
  decide (r.id = key.id ∧ r.low = key.pos ∧ r.high = m)

/-- The first one of equally long intervals in an array is the first one inserted. -/
structure TieInv (t : Itree α) (refs : List (RefIv α)) : Prop extends FirmInv t refs where
  first : ∀ c ∈ cells t.shifts t.root, ∀ m,
    (c.ins.find? fun i => decide (i.high = m)).map IvIns.value =
      (refs.find? (isTie c.key m)).map RefIv.value

theorem tieInv_new : TieInv (itreeNew : Itree α) [] :=
  ⟨firmInv_new, fun _ hc => absurd hc List.not_mem_nil⟩

variable {s s' : Itree α} {ref : List (RefIv α)}

theorem TieInv.same_cells (h : TieInv s ref) (hfirm : FirmInv s' ref)
    (hcells : cells s'.shifts s'.root = cells s.shifts s.root) : TieInv s' ref := by
  refine ⟨hfirm, ?_⟩
  rw [hcells]
  exact h.first

theorem refIv_shift_zero (low : Int) : RefIv.shift low 0 = (id : RefIv α → RefIv α) := by
  funext r
  simp [RefIv.shift]

theorem added_cases {key : IvKey} {i : IvIns α} {next loc : Nat} {cs cs' : List (Cell α)}
    {ls ls' : List (Nat × Nat)} (hwf : Wf next cs ls)
    (h : Added key i next cs ls cs' ls' loc) {c : Cell α} (hc : c ∈ cs') :
    (c ∈ cs ∧ c.key ≠ key) ∨ c.key = key ∧
      ((∃ d ∈ cs, d.key = key ∧ c.ins = d.ins ++ [i]) ∨ c.ins = [i] ∧ ∀ d ∈ cs, d.key ≠ key) := by
  cases h with
  | fresh pre post lpre lpost hcs hls hpre hpost =>
      have hother : ∀ d ∈ cs, d.key ≠ key := by
        intro d hd
        rw [hcs] at hd
        rcases List.mem_append.mp hd with hd | hd
        · exact ne_of_ivKeyCmp_lt (hpre d hd)
        · exact (ne_of_ivKeyCmp_lt (hpost d hd)).symm
      rcases List.mem_append.mp hc with hc | hc
      · have hmem : c ∈ cs := by simp [hcs, hc]
        exact .inl ⟨hmem, hother c hmem⟩
      · rcases List.mem_cons.mp hc with rfl | hc
        · exact .inr ⟨rfl, .inr ⟨rfl, hother⟩⟩
        · have hmem : c ∈ cs := by simp [hcs, hc]
          exact .inl ⟨hmem, hother c hmem⟩
  | joined pre d post hcs hkey =>
      have hd : d ∈ cs := by simp [hcs]
      have hsorted := hwf.sorted
      rw [hcs, KeysSorted, List.pairwise_append, List.pairwise_cons] at hsorted
      obtain ⟨-, ⟨hpost, -⟩, hpre⟩ := hsorted
      rcases List.mem_append.mp hc with hc | hc
      · refine .inl ⟨by simp [hcs, hc], ?_⟩
        rw [← hkey]
        exact ne_of_ivKeyCmp_lt (hpre c hc d List.mem_cons_self)
      · rcases List.mem_cons.mp hc with rfl | hc
        · exact .inr ⟨hkey, .inl ⟨d, hd, hkey, rfl⟩⟩
        · refine .inl ⟨by simp [hcs, hc], ?_⟩
          rw [← hkey]
          exact (ne_of_ivKeyCmp_lt (hpost c hc)).symm

theorem isTie_none (h : Inv s ref) {key : IvKey} (hkey : ∀ c ∈ cells s.shifts s.root, c.key ≠ key)
    (m : Int) : ref.find? (isTie key m) = none := by
  rw [List.find?_eq_none]
  intro r hr htie
  obtain ⟨c, hc, i, -, rfl⟩ := h.mem_ref.mp hr
  simp only [isTie, decide_eq_true_eq] at htie
  apply hkey c hc
  cases hk : c.key
  simp_all

theorem TieInv.add (h : TieInv s ref) {id low high : Int} (value : α) (hlt : low < high) :
    TieInv (step s (.add id low high value)).1
      (refStep ref (.add id low high value) (step s (.add id low high value)).2) := by
  refine ⟨h.toFirmInv.step hlt trivial, ?_⟩
  obtain ⟨root, loc, heq, -, -, hadded⟩ := ivAdd_spec h.log s.next ⟨low, id⟩ high value
    h.sound h.wf.sorted
  simp only [step, stepWithin, Option.getD_some, itreeAdd, heq, refStep]
  intro c hc m
  rw [List.find?_append]
  have hnew : ∀ key : IvKey, key ≠ ⟨low, id⟩ →
      [(⟨loc, id, low, high, value⟩ : RefIv α)].find? (isTie key m) = none := by
    intro key hkey
    rw [List.find?_eq_none]
    intro r hr htie
    obtain rfl := List.mem_singleton.mp hr
    simp only [isTie, decide_eq_true_eq] at htie
    apply hkey
    cases key
    simp_all
  have hsame : (([⟨low, high, value⟩] : List (IvIns α)).find? fun i =>
      decide (i.high = m)).map IvIns.value =
        ([(⟨loc, id, low, high, value⟩ : RefIv α)].find? (isTie ⟨low, id⟩ m)).map
          RefIv.value := by
    by_cases hm : high = m
    · simp [isTie, hm]
    · simp [isTie, hm]
  rcases added_cases h.wf hadded hc with ⟨hold, hne⟩ | ⟨hkey, ⟨d, hd, hdkey, hins⟩ | ⟨hins, hno⟩⟩
  · rw [hnew _ hne, Option.or_none]
    exact h.first c hold m
  · rw [hins, List.find?_append, Option.map_or, Option.map_or, h.first d hd m, hdkey, hkey, hsame]
  · rw [hins, hkey, isTie_none h.toInv hno, Option.none_or]
    exact hsame

theorem unlowered_zero (shifts : List IvShift) (low : Int) (t : IvTree α) :
    Unlowered shifts low 0 t := by
  induction t with
  | nil => trivial
  | node n l r ihl ihr => exact ⟨fun h => absurd h (lt_irrefl 0), ihl, ihr⟩

/-- The first of equally long intervals, in a group and in the reference list, after
a removal. -/
theorem swept_first (h : TieInv s ref) {low high : Int} {c : Cell α}
    (hc : c ∈ cells s.shifts s.root) (hkeep : ∀ i ∈ c.ins, ivOverlaps i low high = false →
      KeepsFirst (fun j => ivOverlaps j low high) (fun j => decide (j.high = i.high)) c.ins)
    (m : Int) :
    ((swept low high c.ins).find? fun i => decide (i.high = m)).map IvIns.value =
      ((ref.filter fun r => !ivOverlaps r.ins low high).find? (isTie c.key m)).map
        RefIv.value := by
  have hov : ∀ i ∈ c.ins, i.high = m →
      ivOverlaps i low high = (decide (c.key.pos < high) && decide (low < m)) := by
    intro i hi him
    rw [ivOverlaps, (cells_fits h.wf c hc i hi).1, him]
  have hovr : ∀ r : RefIv α, isTie c.key m r = true →
      ivOverlaps r.ins low high = (decide (c.key.pos < high) && decide (low < m)) := by
    intro r hr
    simp only [isTie, decide_eq_true_eq] at hr
    rw [ivOverlaps, RefIv.ins, hr.2.1, hr.2.2]
  rw [List.find?_filter]
  by_cases hstay : (decide (c.key.pos < high) && decide (low < m)) = true
  · -- all intervals of this length are evicted
    rw [List.find?_eq_none.mpr, List.find?_eq_none.mpr]
    · rfl
    · intro r _ hr
      simp only [decide_eq_true_eq] at hr
      rw [hovr r hr.2, hstay] at hr
      exact absurd hr.1 (by simp)
    · intro i hi him
      obtain ⟨hi, hno⟩ := mem_swept.mp hi
      rw [hov i hi (by simpa using him), hstay] at hno
      exact absurd hno (by simp)
  · have hstay : (decide (c.key.pos < high) && decide (low < m)) = false := by simpa using hstay
    have href : (fun r : RefIv α => decide ((!ivOverlaps r.ins low high) = true ∧
        isTie c.key m r = true)) = isTie c.key m := by
      funext r
      by_cases hr : isTie c.key m r = true
      · simp [hr, hovr r hr, hstay]
      · simp [hr]
    rw [href, ← h.first c hc m]
    congr 1
    by_cases hex : ∃ i ∈ c.ins, i.high = m
    · obtain ⟨i, hi, rfl⟩ := hex
      have hkept : ∀ j ∈ c.ins, decide (j.high = i.high) = true →
          ivOverlaps j low high = false := by
        intro j hj hji
        rw [hov j hj (by simpa using hji), hstay]
      rw [swept_eq_sweep]
      exact find?_sweep hkept le_rfl (hkeep i hi (hkept i hi (by simp)))
    · rw [List.find?_eq_none.mpr, List.find?_eq_none.mpr]
      · intro i hi him
        exact hex ⟨i, hi, by simpa using him⟩
      · intro i hi him
        exact hex ⟨i, (mem_swept.mp hi).1, by simpa using him⟩

theorem TieInv.removeAndShift (h : TieInv s ref) {low high : Int} (hle : low ≤ high)
    (hkeep : KeepsTies s (.removeAndShift low high 0)) :
    TieInv (step s (.removeAndShift low high 0)).1
      (refStep ref (.removeAndShift low high 0) (step s (.removeAndShift low high 0)).2) := by
  obtain ⟨root, evicted, heq, hc⟩ := ivRemoveOverlaps_spec h.log low high h.sound
    h.wf.sorted (fun x hx => (h.wf.fits x hx).1)
  refine ⟨h.toFirmInv.step ⟨hle, by omega⟩ (fun _ _ => unlowered_zero _ _ _), ?_⟩
  rw [step_removeAndShift_eq heq]
  simp only [ivRecordShift, if_true, refStep, refIv_shift_zero, List.map_id]
  intro c' hc' m
  obtain ⟨c, hmem, hkey, hins⟩ := hc.groups c' hc'
  rw [hins, ← hkey]
  exact swept_first h hmem (hkeep c hmem) m

theorem TieInv.step (h : TieInv s ref) {op : Op α} (hop : Admits ref op) (hflat : Unshifted op)
    (hkeep : KeepsTies s op) :
    TieInv (step s op).1 (refStep ref op (step s op).2) := by
  cases op with
  | add id low high value => exact h.add value hop
  | removeAndShift low high amt =>
      obtain rfl : amt = 0 := hflat
      exact h.removeAndShift hop.1 hkeep
  | findLargest id pos =>
      obtain ⟨root, found, heq, hv, -⟩ := ivSearch_spec h.log ⟨pos, id⟩ h.sound h.wf.sorted
      apply h.same_cells (h.toFirmInv.step hop trivial)
      simp only [IntervalRefinement.step, stepWithin, Option.getD_some, itreeFindLargest, heq]
      exact hv.cells
  | size => exact h
  | each =>
      apply h.same_cells (h.toFirmInv.step hop trivial)
      exact ((ivEach_touched s.root).firm h.log h.reach h.firm).1
  | locPos loc =>
      apply h.same_cells (h.toFirmInv.step hop trivial)
      obtain hroot | ⟨addr, hroot⟩ := itreeLocPos_root s loc
      · simp only [IntervalRefinement.step, stepWithin, Option.getD_some, hroot]
      · simp only [IntervalRefinement.step, stepWithin, Option.getD_some, hroot]
        exact ((ivApplyAt_touched addr s.root).firm h.log h.reach h.firm).1
  | applyAllShifts =>
      apply h.same_cells (h.toFirmInv.step hop trivial)
      obtain ⟨hs, hcur⟩ := ivApplyAll_spec h.log h.reach h.regular
      exact hcur.cells_nil.trans hs.cells

theorem TieInv.run (h : TieInv s ref) {ops : List (Op α)} (hadm : Admissible s ref ops)
    (hflat : ∀ op ∈ ops, Unshifted op) (hkept : TiesKept s ops) :
    TieInv (ops.foldl (fun t op => (IntervalRefinement.step t op).1) s) (refRun s ref ops) := by
  induction ops generalizing s ref with
  | nil => exact h
  | cons op ops ih =>
      exact ih (h.step hadm.1 (hflat op (by simp)) hkept.1) hadm.2
        (fun o ho => hflat o (by simp [ho])) hkept.2

/-- In every run without shifts whose removals keep the first of equally long
intervals first, a lookup returns the first inserted of the longest live intervals. -/
theorem largest_is_first (ops : List (Op α)) (hadm : Admissible itreeNew [] ops)
    (hflat : ∀ op ∈ ops, Unshifted op) (hkept : TiesKept itreeNew ops)
    (pre post : List (RefIv α)) (r : RefIv α) (hlive : refRun itreeNew [] ops = pre ++ r :: post)
    (hlongest : ∀ q ∈ refRun itreeNew [] ops, q.id = r.id → q.low = r.low →
      q.high - q.low ≤ r.high - r.low)
    (hfirst : ∀ q ∈ pre, q.id = r.id → q.low = r.low → q.high - q.low < r.high - r.low) :
    (itreeFindLargest (run ops) r.id r.low).2 = some r.value := by
  have h := tieInv_new.run hadm hflat hkept
  obtain ⟨root, found, heq, -, hfound⟩ := ivSearch_spec h.log ⟨r.low, r.id⟩ h.sound h.wf.sorted
  have hr : r ∈ refRun itreeNew [] ops := by simp [hlive]
  obtain ⟨c, hc, i, hi, hri⟩ := h.mem_ref.mp hr
  have hkey : c.key = ⟨r.low, r.id⟩ := by rw [hri]
  simp only [itreeFindLargest, run, heq]
  cases found with
  | none => exact absurd hkey (hfound c hc)
  | some n =>
      obtain rfl := h.wf.cell_ext hc hfound (.inl hkey)
      have hlow : ∀ j ∈ n.iv.ins, j.low = r.low := fun j hj => (cells_fits h.wf _ hc j hj).1
      have hmax : ∀ j ∈ n.iv.ins, j.high ≤ r.high := by
        intro j hj
        have := hlongest _ (h.mem_ref.mpr ⟨_, hc, j, hj, rfl⟩) rfl rfl
        simp only at this
        omega
      have hex : ∃ j ∈ n.iv.ins, j.high = r.high := ⟨i, hi, by rw [hri]⟩
      have hpre : pre.find? (isTie ⟨r.low, r.id⟩ r.high) = none := by
        rw [List.find?_eq_none]
        intro q hq htie
        simp only [isTie, decide_eq_true_eq] at htie
        have := hfirst q hq htie.1 htie.2.1
        omega
      have hval := h.first _ hc r.high
      rw [hlive, List.find?_append, hpre, Option.none_or,
        List.find?_cons_of_pos (by simp [isTie])] at hval
      rw [Option.bind_some, ivLargest_first hlow hmax hex]
      exact hval

/-- The shortest interval takes the slot of the evicted one. -/
def tiedRun : List (Op Nat) :=
  [.add 1 5 30 0, .add 1 5 10 1, .add 1 5 10 2, .add 1 5 7 3, .removeAndShift 15 16 0]

theorem largest_is_first_tiedRun : (itreeFindLargest (run tiedRun) 1 5).2 = some 1 :=
  largest_is_first tiedRun (by decide) (by decide) (by decide)
    [] [⟨0, 1, 5, 10, 2⟩, ⟨0, 1, 5, 7, 3⟩] ⟨0, 1, 5, 10, 1⟩ (by decide) (by decide) (by decide)

/-- The second of two equally long intervals takes the slot of the evicted one. -/
def untiedRun : List (Op Nat) :=
  [.add 1 5 30 0, .add 1 5 10 1, .add 1 5 10 2, .removeAndShift 15 16 0]

theorem largest_not_first : ¬∀ ops : List (Op Nat), Admissible itreeNew [] ops →
    (∀ op ∈ ops, Unshifted op) → ∀ (pre post : List (RefIv Nat)) (r : RefIv Nat),
      refRun itreeNew [] ops = pre ++ r :: post →
      (∀ q ∈ refRun itreeNew [] ops, q.id = r.id → q.low = r.low →
        q.high - q.low ≤ r.high - r.low) →
      (∀ q ∈ pre, q.id = r.id → q.low = r.low → q.high - q.low < r.high - r.low) →
      (itreeFindLargest (run ops) r.id r.low).2 = some r.value := by
  intro h
  have hrun := h untiedRun (by decide) (by decide) [] [⟨0, 1, 5, 10, 2⟩] ⟨0, 1, 5, 10, 1⟩
    (by decide) (by decide) (by decide)
  revert hrun
  decide

end Libpeg.IntervalTies
