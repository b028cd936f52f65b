import Libpeg.IntervalBalance

namespace Libpeg.IntervalMaxima

open Libpeg.IntervalTree Libpeg.IntervalCells Libpeg.IntervalOps Libpeg.IntervalRefinement
open Libpeg.IntervalBalance

variable {α : Type}

/-- The nodes at which `iv_remove_overlaps` compares `low` with a maximum, with
their subtrees at that moment, down to some depth of calls. -/
def overlapChecks (shifts : List IvShift) (low high : Int) :
    Nat → IvTree α → List (IvNode α × IvTree α × IvTree α)
  | 0, _ => []
  | _ + 1, .nil => []
  | fuel + 1, .node n l r =>
      let n := ivApplyShifts shifts n l r
      if low > n.max then [(n, l, r)]
      else
        let before := overlapChecks shifts low high fuel l
        match ivRemoveOverlaps shifts low high fuel l with
        | none => (n, l, r) :: before
        | some (l', _) =>
            let (ins, _) := ivDropOverlaps low high n.iv.ins.length [] n.iv.ins []
            let n' := { n with iv := { n.iv with ins := ins } }
            if ins.isEmpty then
              let t := ivRemove shifts n'.key (.node n' l' r)
              if high ≥ n'.key.pos then
                (n, l, r) :: before ++ overlapChecks shifts low high fuel t
              else (n, l, r) :: before
            else if high < n'.key.pos then (n, l, r) :: before
            else (n, l, r) :: before ++ overlapChecks shifts low high fuel r

/-- A negative shift lowers no maximum below the end of an interval that it leaves
in place. -/
def Unlowered (shifts : List IvShift) (low amt : Int) : IvTree α → Prop
  | .nil => True
  | .node n l r =>
      (amt < 0 → low ≤ (ivReplay shifts n).max → ∀ c ∈ cells shifts (.node n l r),
        c.key.pos < low → ∀ i ∈ c.ins, i.high ≤ (ivReplay shifts n).max + amt) ∧
        Unlowered shifts low amt l ∧ Unlowered shifts low amt r

instance decidableUnlowered (shifts : List IvShift) (low amt : Int) :
    (t : IvTree α) → Decidable (Unlowered shifts low amt t)
  | .nil => isTrue trivial
  | .node n l r =>
      have := decidableUnlowered shifts low amt l
      have := decidableUnlowered shifts low amt r
      inferInstanceAs (Decidable ((amt < 0 → low ≤ (ivReplay shifts n).max →
        ∀ c ∈ cells shifts (.node n l r), c.key.pos < low →
          ∀ i ∈ c.ins, i.high ≤ (ivReplay shifts n).max + amt) ∧
        Unlowered shifts low amt l ∧ Unlowered shifts low amt r))

/-- The shift that an operation records lowers no maximum too far. -/
def KeepsMaxima (t : Itree α) : Op α → Prop
  | .removeAndShift low high amt =>
      ∀ x ∈ ivRemoveOverlaps t.shifts low high (removalDepth t) t.root,
        Unlowered t.shifts low amt x.1
  | _ => True

instance decidableKeepsMaxima (t : Itree α) : (op : Op α) → Decidable (KeepsMaxima t op)
  | .removeAndShift low high amt => inferInstanceAs (Decidable
      (∀ x ∈ ivRemoveOverlaps t.shifts low high (removalDepth t) t.root,
        Unlowered t.shifts low amt x.1))
  | .add _ _ _ _ | .findLargest _ _ | .size | .each | .locPos _ | .applyAllShifts => isTrue trivial

def MaximaKept : Itree α → List (Op α) → Prop
  | _, [] => True
  | t, op :: ops => KeepsMaxima t op ∧ MaximaKept (step t op).1 ops

instance decidableMaximaKept : (t : Itree α) → (ops : List (Op α)) → Decidable (MaximaKept t ops)
  | _, [] => isTrue trivial
  | t, op :: ops =>
      have := decidableMaximaKept (step t op).1 ops
      inferInstanceAs (Decidable (KeepsMaxima t op ∧ MaximaKept (step t op).1 ops))

variable {shifts : List IvShift} {now : Nat} {t t' : IvTree α}

theorem maxBounds_of_firm (h : Firm shifts t) (hreach : Reach shifts t) : MaxBounds shifts t := by
  induction t with
  | nil => trivial
  | node n l r ihl ihr =>
      exact ⟨hreach.1, h.1.mono (ivApplyShifts_same shifts n l r).max, ihl h.2.1 hreach.2.1,
        ihr h.2.2 hreach.2.2⟩

section Visits

def Touched (shifts : List IvShift) : IvTree α → IvTree α → Prop
  | .nil, .nil => True
  | .node n l r, .node n' l' r' =>
      (n' = n ∨ ∃ a b, n' = ivApplyShifts shifts n a b) ∧ Touched shifts l l' ∧ Touched shifts r r'
  | _, _ => False

theorem Touched.refl (t : IvTree α) : Touched shifts t t := by
  induction t with
  | nil => trivial
  | node n l r ihl ihr => exact ⟨.inl rfl, ihl, ihr⟩

theorem ivEach_touched (t : IvTree α) : Touched shifts t (ivEach shifts t).1 := by
  induction t with
  | nil => trivial
  | node n l r ihl ihr => exact ⟨.inr ⟨_, _, rfl⟩, ihl, ihr⟩

theorem ivApplyAll_touched (t : IvTree α) : Touched shifts t (ivApplyAll shifts t) := by
  induction t with
  | nil => trivial
  | node n l r ihl ihr => exact ⟨.inr ⟨_, _, rfl⟩, ihl, ihr⟩

theorem ivApplyAt_touched (addr : Nat) (t : IvTree α) :
    Touched shifts t (ivApplyAt shifts addr t).1 := by
  induction t with
  | nil => trivial
  | node n l r ihl ihr =>
      rw [ivApplyAt]
      split
      · exact ⟨.inr ⟨_, _, rfl⟩, .refl l, .refl r⟩
      · split
        · next l' found heq =>
            rw [heq] at ihl
            exact ⟨.inl rfl, ihl, .refl r⟩
        · next l' heq =>
            rw [heq] at ihl
            exact ⟨.inl rfl, ihl, ihr⟩

theorem Touched.firm (hlog : LogOk shifts now) (h : Touched shifts t t') (hreach : Reach shifts t)
    (hfirm : Firm shifts t) :
    cells shifts t' = cells shifts t ∧ Reach shifts t' ∧ Firm shifts t' := by
  induction t generalizing t' with
  | nil =>
      cases t' with
      | nil => exact ⟨rfl, trivial, trivial⟩
      | node => exact absurd h id
  | node n l r ihl ihr =>
      cases t' with
      | nil => exact absurd h id
      | node n' l' r' =>
          obtain ⟨hn, hl, hr⟩ := h
          obtain ⟨hcl, hrl, hfl⟩ := ihl hl hreach.2.1 hfirm.2.1
          obtain ⟨hcr, hrr, hfr⟩ := ihr hr hreach.2.2 hfirm.2.2
          have hnode : cell shifts n' = cell shifts n ∧
              (ivReplay shifts n').key.pos = curPos shifts n' ∧
              (ivReplay shifts n).max ≤ (ivReplay shifts n').max := by
            rcases hn with rfl | ⟨a, b, rfl⟩
            · exact ⟨rfl, hreach.1, le_rfl⟩
            · have hcur := ivApplyShifts_current hlog n a b
              refine ⟨ivApplyShifts_cell hlog a b hreach.1, ?_, ?_⟩
              · rw [ivReplay_of_current hcur, curPos_of_current hcur]
              · rw [ivReplay_of_current hcur]
                exact (ivApplyShifts_same shifts n a b).max
          have hcells : cells shifts (.node n' l' r') = cells shifts (.node n l r) := by
            rw [cells, cells, hcl, hcr, hnode.1]
          refine ⟨hcells, ⟨hnode.2.1, hrl, hrr⟩, ?_, hfl, hfr⟩
          rw [hcells]
          exact hfirm.1.mono hnode.2.2

end Visits

/-- A tree whose maxima are firm bounds, and its intervals. -/
structure FirmInv (t : Itree α) (ref : List (RefIv α)) : Prop extends Inv t ref where
  reach : Reach t.shifts t.root
  firm : Firm t.shifts t.root

theorem firmInv_new : FirmInv (itreeNew : Itree α) [] :=
  ⟨inv_new, trivial, trivial⟩

variable {s : Itree α} {ref : List (RefIv α)}

theorem FirmInv.bounds (h : FirmInv s ref) : MaxBounds s.shifts s.root :=
  maxBounds_of_firm h.firm h.reach

theorem FirmInv.sound (h : FirmInv s ref) : Sound True s.shifts s.tstamp s.root :=
  ⟨h.bounds, fun _ => h.firm, h.regular⟩

section Record

theorem ivReplay_append {s : IvShift} {n : IvNode α} (hts : n.tstamp < s.tstamp) :
    ivReplay (shifts ++ [s]) n = ivApplyShift (ivReplay shifts n) s := by
  rw [ivReplay, pendingShifts_append hts, List.foldl_append]
  rfl

theorem ivApplyShift_newer {s : IvShift} {n : IvNode α} (hts : n.tstamp < s.tstamp) :
    (ivApplyShift n s).max = (if n.max ≥ s.idx then n.max + s.amt else n.max) ∧
      (ivApplyShift n s).key.pos =
        if n.max ≥ s.idx ∧ n.key.pos ≥ s.idx then n.key.pos + s.amt else n.key.pos := by
  unfold ivApplyShift
  rw [if_neg (by omega)]
  by_cases hmax : n.max ≥ s.idx
  · by_cases hkey : n.key.pos ≥ s.idx
    · simp [hmax, hkey]
    · simp [hmax, hkey]
  · simp [hmax]

/-- The end of an interval after a shift, against a maximum that was a bound. -/
theorem shifted_le {i : IvIns α} {pos m low : Int} (amt : Int) (hi : i.low = pos) (hlt : i.low < i.high)
    (hm : i.high ≤ m) (hkeep : amt < 0 → low ≤ m → pos < low → i.high ≤ m + amt) :
    (if pos ≥ low then i.high + amt else i.high) ≤ if m ≥ low then m + amt else m := by
  by_cases hpos : pos ≥ low
  · rw [if_pos hpos, if_pos (by omega)]
    omega
  · rw [if_neg hpos]
    by_cases hge : m ≥ low
    · rw [if_pos hge]
      by_cases hneg : amt < 0
      · exact hkeep hneg hge (by omega)
      · omega
    · rw [if_neg hge]
      exact hm

theorem firm_record (hlog : LogOk shifts now) (hreg : Regular now t) (hreach : Reach shifts t)
    (hfirm : Firm shifts t) (hne : ∀ c ∈ cells shifts t, c.ins ≠ [])
    (hfits : ∀ c ∈ cells shifts t, ∀ i ∈ c.ins, i.low = c.key.pos ∧ i.low < i.high)
    {low amt : Int} (hlow : Unlowered shifts low amt t) :
    Reach (shifts ++ [⟨low, amt, now + 1⟩]) t ∧ Firm (shifts ++ [⟨low, amt, now + 1⟩]) t := by
  induction t with
  | nil => exact ⟨trivial, trivial⟩
  | node n l r ihl ihr =>
      have hts : n.tstamp < now + 1 := Nat.lt_succ_of_le hreg.1.2
      have hts' : (ivReplay shifts n).tstamp < now + 1 :=
        Nat.lt_succ_of_le (ivReplay_tstamp_le hlog hreg.1.2)
      obtain ⟨hmax, hkey⟩ := ivApplyShift_newer (s := ⟨low, amt, now + 1⟩) hts'
      have hcells : cells (shifts ++ [⟨low, amt, now + 1⟩]) (.node n l r) = _ :=
        cells_append_shift hreg (Nat.lt_succ_self now)
      have hmem : cell shifts n ∈ cells shifts (.node n l r) := by simp [cells]
      obtain ⟨hrl, hfl⟩ := ihl hreg.2.1 hreach.2.1 hfirm.2.1
        (fun c hc => hne c (by simp [cells, hc])) (fun c hc => hfits c (by simp [cells, hc]))
        hlow.2.1
      obtain ⟨hrr, hfr⟩ := ihr hreg.2.2 hreach.2.2 hfirm.2.2
        (fun c hc => hne c (by simp [cells, hc])) (fun c hc => hfits c (by simp [cells, hc]))
        hlow.2.2
      refine ⟨⟨?_, hrl, hrr⟩, ?_, hfl, hfr⟩
      · -- the own group is not empty, so the maximum is above the key
        obtain ⟨i, hi⟩ := List.exists_mem_of_ne_nil _ (hne _ hmem)
        have hbelow := hfirm.1 _ hmem i hi
        obtain ⟨hpos, hlt⟩ := hfits _ hmem i hi
        have hcur : (cell shifts n).key.pos = curPos shifts n := rfl
        rw [ivReplay_append hts, hkey, curPos_append _ hts, hreach.1]
        by_cases hge : curPos shifts n ≥ low
        · rw [if_pos ⟨by dsimp only; omega, hge⟩, if_pos hge]
        · rw [if_neg fun h => hge h.2, if_neg hge]
      · rw [hcells, ivReplay_append hts, hmax]
        intro c hc i hi
        obtain ⟨d, hd, rfl⟩ := List.mem_map.mp hc
        have hkeep := fun hneg hle => hlow.1 hneg hle d hd
        rw [shiftCell] at hi
        by_cases hpos : d.key.pos ≥ low
        · rw [if_pos hpos] at hi
          obtain ⟨j, hj, rfl⟩ := List.mem_map.mp hi
          obtain ⟨hjlow, hjlt⟩ := hfits d hd j hj
          have h := shifted_le amt hjlow hjlt (hfirm.1 d hd j hj)
            fun hneg hle hlt => hkeep hneg hle hlt j hj
          rwa [if_pos hpos] at h
        · rw [if_neg hpos] at hi
          obtain ⟨hilow, hilt⟩ := hfits d hd i hi
          have h := shifted_le amt hilow hilt (hfirm.1 d hd i hi)
            fun hneg hle hlt => hkeep hneg hle hlt i hi
          rwa [if_neg hpos] at h

end Record

theorem cells_fits {next : Nat} {cs : List (Cell α)} {ls : List (Nat × Nat)} (h : Wf next cs ls) :
    ∀ c ∈ cs, ∀ i ∈ c.ins, i.low = c.key.pos ∧ i.low < i.high := by
  intro c hc i hi
  exact h.fits ⟨c.loc, c.key, i⟩ (mem_live.mpr ⟨c, hc, rfl, rfl, hi⟩)

theorem FirmInv.removeAndShift (h : FirmInv s ref) {low high amt : Int} (hle : low ≤ high)
    (hamt : -(high - low) ≤ amt) (hkeep : KeepsMaxima s (.removeAndShift low high amt)) :
    FirmInv (step s (.removeAndShift low high amt)).1
      (refStep ref (.removeAndShift low high amt) (step s (.removeAndShift low high amt)).2) := by
  have hinv := (step_removeAndShift h.toInv h.bounds hle hamt).2
  obtain ⟨root, evicted, heq, hc⟩ := ivRemoveOverlaps_spec h.log low high h.sound
    h.wf.sorted (fun x hx => (h.wf.fits x hx).1)
  have hwf := h.wf.cleared hc
  replace hkeep := hkeep (root, evicted) (heq _ (ivNodes_lt_removalDepth s))
  obtain ⟨hreach, hfirm⟩ := firm_record h.log hc.sound.regular (MaxBounds.reach hc.sound.bounds)
    (hc.sound.firm trivial) hwf.nonempty (cells_fits hwf) hkeep
  rw [step_removeAndShift_eq heq] at hinv ⊢
  refine ⟨hinv, ?_, ?_⟩
  · simp only [ivRecordShift]
    split
    · exact (MaxBounds.reach hc.sound.bounds)
    · exact hreach
  · simp only [ivRecordShift]
    split
    · exact hc.sound.firm trivial
    · exact hfirm

theorem itreeLocPos_root (s : Itree α) (loc : Nat) :
    (itreeLocPos s loc).1 = s ∨
      ∃ addr, (itreeLocPos s loc).1 = { s with root := (ivApplyAt s.shifts addr s.root).1 } := by
  rw [itreeLocPos]
  split
  · exact .inl rfl
  · exact .inr ⟨_, rfl⟩

theorem reach_nil_of_allCurrent (h : AllCurrent shifts t) : Reach [] t := by
  induction t with
  | nil => trivial
  | node n l r ihl ihr => exact ⟨rfl, ihl h.2.1, ihr h.2.2⟩

theorem firm_nil_of_allCurrent (h : AllCurrent shifts t) (hfirm : Firm shifts t) : Firm [] t := by
  induction t with
  | nil => trivial
  | node n l r ihl ihr =>
      refine ⟨?_, ihl h.2.1 hfirm.2.1, ihr h.2.2 hfirm.2.2⟩
      have hbelow := hfirm.1
      rwa [ivReplay_of_current h.1, ← h.cells_nil] at hbelow

theorem FirmInv.step (h : FirmInv s ref) {op : Op α} (hop : Admits ref op)
    (hkeep : KeepsMaxima s op) :
    FirmInv (step s op).1 (refStep ref op (step s op).2) := by
  have hinv := (step_agrees h.toInv h.bounds hop).2
  cases op with
  | add id low high value =>
      obtain ⟨root, loc, heq, hsound, -, -⟩ := ivAdd_spec h.log s.next ⟨low, id⟩ high value
        h.sound h.wf.sorted
      refine ⟨hinv, ?_, ?_⟩
      · simp only [IntervalRefinement.step, stepWithin, Option.getD_some, itreeAdd, heq]
        exact MaxBounds.reach hsound.bounds
      · simp only [IntervalRefinement.step, stepWithin, Option.getD_some, itreeAdd, heq]
        exact hsound.firm trivial
  | removeAndShift low high amt => exact h.removeAndShift hop.1 hop.2 hkeep
  | findLargest id pos =>
      obtain ⟨root, found, heq, hv, -⟩ := ivSearch_spec h.log ⟨pos, id⟩ h.sound h.wf.sorted
      refine ⟨hinv, ?_, ?_⟩
      · simp only [IntervalRefinement.step, stepWithin, Option.getD_some, itreeFindLargest, heq]
        exact MaxBounds.reach hv.sound.bounds
      · simp only [IntervalRefinement.step, stepWithin, Option.getD_some, itreeFindLargest, heq]
        exact hv.sound.firm trivial
  | size => exact h
  | each =>
      obtain ⟨-, hreach, hfirm⟩ := (ivEach_touched s.root).firm h.log h.reach h.firm
      exact ⟨hinv, hreach, hfirm⟩
  | locPos loc =>
      obtain hroot | ⟨addr, hroot⟩ := itreeLocPos_root s loc
      · refine ⟨hinv, ?_, ?_⟩
        · simp only [IntervalRefinement.step, stepWithin, Option.getD_some, hroot]
          exact h.reach
        · simp only [IntervalRefinement.step, stepWithin, Option.getD_some, hroot]
          exact h.firm
      · obtain ⟨-, hreach, hfirm⟩ := (ivApplyAt_touched addr s.root).firm h.log h.reach h.firm
        refine ⟨hinv, ?_, ?_⟩
        · simp only [IntervalRefinement.step, stepWithin, Option.getD_some, hroot]
          exact hreach
        · simp only [IntervalRefinement.step, stepWithin, Option.getD_some, hroot]
          exact hfirm
  | applyAllShifts =>
      obtain ⟨-, hreach, hfirm⟩ := (ivApplyAll_touched s.root).firm h.log h.reach h.firm
      have hcur := (ivApplyAll_spec h.log h.reach h.regular).2
      exact ⟨hinv, reach_nil_of_allCurrent hcur, firm_nil_of_allCurrent hcur hfirm⟩

def refRun (t : Itree α) (ref : List (RefIv α)) : List (Op α) → List (RefIv α)
  | [] => ref
  | op :: ops =>
      refRun (IntervalRefinement.step t op).1 (refStep ref op (IntervalRefinement.step t op).2) ops

/-- In every run whose shifts lower no maximum too far, the maxima stay bounds. -/
theorem FirmInv.run (h : FirmInv s ref) {ops : List (Op α)} (hadm : Admissible s ref ops)
    (hkept : MaximaKept s ops) :
    FirmInv (ops.foldl (fun t op => (IntervalRefinement.step t op).1) s) (refRun s ref ops) := by
  induction ops generalizing s ref with
  | nil => exact h
  | cons op ops ih => exact ih (h.step hadm.1 hkept.1) hadm.2 hkept.2

section Checks

/-- The maximum at a comparison is a bound, and the subtree holds intervals of `t`. -/
structure BoundIn (shifts : List IvShift) (t : IvTree α) (x : IvNode α × IvTree α × IvTree α) :
    Prop where
  below : Below (cells shifts (.node x.1 x.2.1 x.2.2)) x.1.max
  subset : live (cells shifts (.node x.1 x.2.1 x.2.2)) ⊆ live (cells shifts t)

theorem BoundIn.mono {x : IvNode α × IvTree α × IvTree α} (h : BoundIn shifts t x)
    (hsub : live (cells shifts t) ⊆ live (cells shifts t')) : BoundIn shifts t' x :=
  ⟨h.below, fun _ hs => hsub (h.subset hs)⟩

theorem overlapChecks_bound (hlog : LogOk shifts now) (low high : Int) {fuel : Nat}
    {t : IvTree α} (h : Sound True shifts now t) (hsorted : KeysSorted (cells shifts t))
    (hlow : ∀ x ∈ live (cells shifts t), x.ins.low = x.key.pos) :
    ∀ x ∈ overlapChecks shifts low high fuel t, BoundIn shifts t x := by
  induction fuel generalizing t with
  | zero => exact fun x hx => absurd hx List.not_mem_nil
  | succ fuel ih =>
      cases t with
      | nil => exact fun x hx => absurd hx List.not_mem_nil
      | node n l r =>
          have hv := ivApplyShifts_visited hlog h
          suffices hnode : ∀ x ∈ overlapChecks shifts low high (fuel + 1) (.node n l r),
              BoundIn shifts (.node (ivApplyShifts shifts n l r) l r) x from
            fun x hx => (hnode x hx).mono (by rw [hv.cells]; exact List.Subset.refl _)
          rw [← hv.cells] at hsorted hlow
          simp only [overlapChecks]
          generalize ivApplyShifts shifts n l r = n at hv hsorted hlow ⊢
          have hcells : cells shifts (.node n l r) =
              cells shifts l ++ ⟨n.key, n.iv.loc, n.iv.ins⟩ :: cells shifts r := by
            rw [cells, cell_of_current hv.settled.1]
          have hhere : ∀ x ∈ [(n, l, r)], BoundIn shifts (.node n l r) x := by
            intro x hx
            obtain rfl := List.mem_singleton.mp hx
            exact ⟨hv.settled.2, List.Subset.refl _⟩
          have hsubl : live (cells shifts l) ⊆ live (cells shifts (.node n l r)) := by
            rw [hcells, live_append]
            exact List.subset_append_left _ _
          have hsubr : live (cells shifts r) ⊆ live (cells shifts (.node n l r)) := by
            rw [hcells, live_append, live_cons, ← List.append_assoc]
            exact List.subset_append_right _ _
          obtain ⟨hsl, hsr, -, -⟩ := keysSorted_node.mp hsorted
          have hlowl := fun x hx => hlow x (hsubl hx)
          have hlowr := fun x hx => hlow x (hsubr hx)
          have hbefore : ∀ x ∈ overlapChecks shifts low high fuel l,
              BoundIn shifts (.node n l r) x :=
            fun x hx => (ih h.left hsl hlowl x hx).mono hsubl
          have hfront := List.forall_mem_append.mpr ⟨hhere, hbefore⟩
          obtain ⟨ins, e', hdrop, -⟩ := dropOverlaps_live low high n
          rw [hdrop]
          split
          · exact hhere
          split
          · exact hfront
          · next l' e hleft =>
              have hl := ivRemoveOverlaps_cleared hlog h.left hsl hlowl hleft
              dsimp only
              split
              · next hempty =>
                  obtain rfl : ins = [] := List.isEmpty_iff.mp hempty
                  obtain ⟨t, rfl, hrem, hc₁, hst⟩ := ivRemove_emptied hlog hv.settled
                    hv.sound.regular.1 hl h.right hsorted
                  -- the tree that is searched again holds what the two subtrees hold
                  have hsub : live (cells shifts l' ++ cells shifts r) ⊆
                      live (cells shifts (.node n l r)) := by
                    rw [live_append]
                    refine List.append_subset.mpr ⟨fun x hx => ?_, hsubr⟩
                    exact hsubl (List.mem_of_mem_filter (hl.live.mem_iff.mp hx))
                  rw [← hc₁] at hst hsub
                  split
                  · have hafter := ih hrem.sound hst (fun x hx => hlow x (hsub hx))
                    exact List.forall_mem_append.mpr
                      ⟨hfront, fun x hx => (hafter x hx).mono hsub⟩
                  · exact hfront
              · split
                · exact hfront
                · have hafter := ih h.right hsr hlowr
                  exact List.forall_mem_append.mpr
                    ⟨hfront, fun x hx => (hafter x hx).mono hsubr⟩

end Checks

/-- In every run whose shifts lower no maximum too far, each maximum that the next
removal compares with its lower end bounds the current intervals of its subtree, so
that what is pruned does not overlap. -/
theorem maxima_bound_subtrees (ops : List (Op α)) (hadm : Admissible itreeNew [] ops)
    (hkept : MaximaKept itreeNew ops) (low high : Int) (fuel : Nat) :
    ∀ x ∈ overlapChecks (run ops).shifts low high fuel (run ops).root,
      ∀ c ∈ cells (run ops).shifts (.node x.1 x.2.1 x.2.2), ∀ i ∈ c.ins,
        ⟨c.loc, c.key.id, i.low, i.high, i.value⟩ ∈ refRun itreeNew [] ops ∧ i.high ≤ x.1.max ∧
          (low > x.1.max → ivOverlaps i low high = false) := by
  intro x hx c hc i hi
  have h := firmInv_new.run hadm hkept
  have hbound := overlapChecks_bound h.log low high h.sound h.wf.sorted
    (fun x hx => (h.wf.fits x hx).1) x hx
  have hlive := hbound.subset
    (mem_live.mpr ⟨c, hc, rfl, rfl, hi⟩ : (⟨c.loc, c.key, i⟩ : Stored α) ∈ _)
  have hhigh := hbound.below c hc i hi
  refine ⟨h.ref.mem_iff.mp (List.mem_map.mpr ⟨_, hlive, rfl⟩), hhigh, fun hprune => ?_⟩
  simp only [ivOverlaps, Bool.and_eq_false_imp, decide_eq_true_eq, decide_eq_false_iff_not]
  omega

/-- Both shifts of the run meet maxima that stand for what they move. -/
def loweredRun : List (Op Nat) :=
  [.add 1 5 6 0, .add 1 1 2 1, .add 1 6 7 2, .add 1 16 31 3,
    .removeAndShift 10 14 (-4), .removeAndShift 3 3 100]

theorem maxima_bound_subtrees_loweredRun :
    ∃ x ∈ overlapChecks (run loweredRun).shifts 112 113 8
        (run loweredRun).root,
      ∃ c ∈ cells (run loweredRun).shifts (.node x.1 x.2.1 x.2.2), ∃ i ∈ c.ins,
        ⟨c.loc, c.key.id, i.low, i.high, i.value⟩ ∈ refRun itreeNew [] loweredRun ∧
          i.high ≤ x.1.max ∧ (112 > x.1.max → ivOverlaps i 112 113 = false) := by
  have hsome : ∃ x ∈ overlapChecks (run loweredRun).shifts 112 113 8
      (run loweredRun).root,
      ∃ c ∈ cells (run loweredRun).shifts (.node x.1 x.2.1 x.2.2), ∃ i ∈ c.ins, i.value = i.value := by
    decide
  obtain ⟨x, hx, c, hc, i, hi, -⟩ := hsome
  have hbound := maxima_bound_subtrees loweredRun (by decide) (by decide) 112 113 8 x hx c hc i hi
  exact ⟨x, hx, c, hc, i, hi, hbound⟩

/-- The maximum 11 of the node at 6 stands for an interval that is gone when the node
absorbs the shift by -10; the node then skips the shift by 100, which moves `[7,10)`
below it. -/
def loweredTooFar : List (Op Nat) :=
  [.add 1 5 6 0, .add 1 1 2 1, .add 1 6 7 2, .add 1 6 11 3, .add 1 7 10 4,
    .removeAndShift 10 20 (-10), .removeAndShift 3 3 100]

theorem maxima_not_bound : ¬∀ ops : List (Op Nat), Admissible itreeNew [] ops →
    ∀ (low high : Int) (fuel : Nat), low ≤ high →
      ∀ x ∈ overlapChecks (run ops).shifts low high fuel (run ops).root,
        ∀ c ∈ cells (run ops).shifts (.node x.1 x.2.1 x.2.2), ∀ i ∈ c.ins,
          ⟨c.loc, c.key.id, i.low, i.high, i.value⟩ ∈ refRun itreeNew [] ops →
            i.high ≤ x.1.max := by
  intro h
  have hrun := h loweredTooFar (by decide) 106 107 8 (by decide)
  revert hrun
  decide

end Libpeg.IntervalMaxima
