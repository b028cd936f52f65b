import Libpeg.IntervalMaxima

namespace Libpeg.IntervalVerify

open Libpeg.IntervalTree Libpeg.IntervalCells Libpeg.IntervalOps Libpeg.IntervalRefinement
open Libpeg.IntervalBalance Libpeg.IntervalMaxima

variable {α : Type}

section Checker

/-- The loop of `iv_verify_node` over a group: its first complaint. -/
def ivVerifyGroup (pos : Int) : List (IvIns α) → Option String
  | [] => none
  | i :: rest =>
      if i.low ≠ pos then some "itree_verify: interval low != key position"
      else if i.high < i.low then some "itree_verify: inverted interval"
      else ivVerifyGroup pos rest

/-- `iv_verify_node`: the height of the subtree or the complaint that is printed. -/
def ivVerifyNode : IvTree α → Option IvKey → Option IvKey → Except String Int
  | .nil, _, _ => .ok 0
  | .node n l r, lo, hi =>
      if lo.any fun k => ivKeyCmp n.key k ≠ .gt then .error "itree_verify: key order violated"
      else if hi.any fun k => ivKeyCmp n.key k ≠ .lt then .error "itree_verify: key order violated"
      else if n.iv.ins = [] then .error "itree_verify: empty interval group"
      else
        match ivVerifyGroup n.key.pos n.iv.ins with
        | some msg => .error msg
        | none =>
            match ivVerifyNode l lo (some n.key) with
            | .error msg => .error msg
            | .ok lh =>
                match ivVerifyNode r (some n.key) hi with
                | .error msg => .error msg
                | .ok rh =>
                    let exact_ := maxWith (maxWith (ivGroupHigh n.iv) l) r
                    if n.height ≠ 1 + max lh rh then .error "itree_verify: stale height"
                    else if lh - rh > 1 ∨ rh - lh > 1 then
                      .error "itree_verify: AVL balance violated"
                    else if n.max < exact_ then
                      .error ("itree_verify: subtree max under-estimates (" ++ toString n.max ++
                        " < " ++ toString exact_ ++ ")")
                    else .ok n.height

/-- `itree_verify`. -/
def itreeVerify (t : Itree α) : Itree α × Except String Unit :=
  let t := itreeApplyAllShifts t
  if t.shifts ≠ [] then (t, .error "itree_verify: shift log not drained")
  else (t, (ivVerifyNode t.root none none).map fun _ => ())

end Checker

variable {n : IvNode α} {l r t : IvTree α} {lo hi : Option IvKey} {h : Int}

section Decides

/-- The stored maxima cover the group of the node and the maxima of its children. -/
def MaximaCover : IvTree α → Prop
  | .nil => True
  | .node n l r =>
      maxWith (maxWith (ivGroupHigh n.iv) l) r ≤ n.max ∧ MaximaCover l ∧ MaximaCover r

/-- The intervals of a group start at the position of their node and are not inverted. -/
def Fits (pos : Int) (ins : List (IvIns α)) : Prop :=
  ∀ i ∈ ins, i.low = pos ∧ i.low ≤ i.high

/-- The invariant that the checker is for. -/
structure Checked (t : IvTree α) : Prop where
  sorted : KeysSorted (cells [] t)
  groups : ∀ c ∈ cells [] t, c.ins ≠ [] ∧ Fits c.key.pos c.ins
  avl : Avl t
  maxima : MaximaCover t

def Between (lo hi : Option IvKey) (cs : List (Cell α)) : Prop :=
  ∀ c ∈ cs, (∀ k ∈ lo, ivKeyCmp c.key k = .gt) ∧ ∀ k ∈ hi, ivKeyCmp c.key k = .lt

theorem ivVerifyGroup_none (pos : Int) (ins : List (IvIns α)) :
    ivVerifyGroup pos ins = none ↔ Fits pos ins := by
  induction ins with
  | nil => simp [ivVerifyGroup, Fits]
  | cons i ins ih =>
      rw [ivVerifyGroup, Fits, List.forall_mem_cons]
      split
      · next hlow => exact ⟨by simp, fun hfits => absurd hfits.1.1 hlow⟩
      · next hlow =>
          split
          · next hhigh => exact ⟨by simp, fun hfits => absurd hfits.1.2 (Int.not_le.mpr hhigh)⟩
          · next hhigh =>
              rw [ih, Fits, and_iff_right]
              exact ⟨not_not.mp hlow, Int.not_lt.mp hhigh⟩

theorem any_ne {b : Option IvKey} {k : IvKey} {c : Ordering} :
    ¬(b.any fun x => decide (ivKeyCmp k x ≠ c)) = true ↔ ∀ x ∈ b, ivKeyCmp k x = c := by
  cases b <;> simp

theorem ivVerifyNode_node : ivVerifyNode (.node n l r) lo hi = .ok h ↔
    ((∀ k ∈ lo, ivKeyCmp n.key k = .gt) ∧ ∀ k ∈ hi, ivKeyCmp n.key k = .lt) ∧
      (n.iv.ins ≠ [] ∧ Fits n.key.pos n.iv.ins) ∧ ∃ lh rh, ivVerifyNode l lo (some n.key) = .ok lh ∧
        ivVerifyNode r (some n.key) hi = .ok rh ∧ n.height = 1 + max lh rh ∧ lh - rh ≤ 1 ∧
        rh - lh ≤ 1 ∧ maxWith (maxWith (ivGroupHigh n.iv) l) r ≤ n.max ∧ h = n.height := by
  rw [ivVerifyNode, ← ivVerifyGroup_none, ← any_ne, ← any_ne]
  split
  · next hlo => exact ⟨nofun, fun h => absurd hlo h.1.1⟩
  · next hlo =>
      split
      · next hhi => exact ⟨nofun, fun h => absurd hhi h.1.2⟩
      · next hhi =>
          split
          · next hins => exact ⟨nofun, fun h => absurd hins h.2.1.1⟩
          · next hins =>
              cases hgroup : ivVerifyGroup n.key.pos n.iv.ins with
              | some msg => exact ⟨nofun, fun h => nomatch h.2.1.2⟩
              | none =>
                  cases hl : ivVerifyNode l lo (some n.key) with
                  | error msg => simp
                  | ok lh =>
                      cases hr : ivVerifyNode r (some n.key) hi with
                      | error msg => simp
                      | ok rh =>
                          simp only [hlo, hhi, hins, ne_eq, not_false_eq_true, and_self,
                            Bool.false_eq_true, true_and, Except.ok.injEq]
                          split
                          · next hheight => simp [hheight]
                          · split
                            · simp
                              omega
                            · split
                              · simp
                                omega
                              · simp
                                omega

theorem between_node : Between lo hi (cells [] (.node n l r)) ↔
    Between lo hi (cells [] l) ∧ Between lo hi [⟨n.key, n.iv.loc, n.iv.ins⟩] ∧
      Between lo hi (cells [] r) := by
  have hcell : cell [] n = ⟨n.key, n.iv.loc, n.iv.ins⟩ := cell_of_current rfl
  rw [cells, hcell]
  simp only [Between, List.forall_mem_append, List.forall_mem_cons, List.not_mem_nil,
    false_imp_iff, implies_true, and_true]

theorem checked_node : Checked (.node n l r) ↔ Checked l ∧ Checked r ∧
    Between none (some n.key) (cells [] l) ∧ Between (some n.key) none (cells [] r) ∧
      (n.iv.ins ≠ [] ∧ Fits n.key.pos n.iv.ins) ∧ n.height = 1 + max (ivHeight l) (ivHeight r) ∧
        ivHeight l - ivHeight r ≤ 1 ∧ ivHeight r - ivHeight l ≤ 1 ∧
          maxWith (maxWith (ivGroupHigh n.iv) l) r ≤ n.max := by
  have hcell : cell [] n = ⟨n.key, n.iv.loc, n.iv.ins⟩ := cell_of_current rfl
  constructor
  · rintro ⟨hsorted, hgroups, ⟨hheight, hlr, hrl, hl, hr⟩, hmax, hml, hmr⟩
    rw [keysSorted_node, hcell] at hsorted
    obtain ⟨hsl, hsr, hln, hnr⟩ := hsorted
    rw [cells, hcell, List.forall_mem_append, List.forall_mem_cons] at hgroups
    have hhl := hl.height_eq
    have hhr := hr.height_eq
    refine ⟨⟨hsl, hgroups.1, hl, hml⟩, ⟨hsr, hgroups.2.2, hr, hmr⟩, fun c hc => ?_, fun c hc => ?_,
      hgroups.2.1, by rw [hheight, hhl, hhr], by omega, by omega, hmax⟩
    · simpa using hln c hc
    · simpa [ivKeyCmp_gt] using hnr c hc
  · rintro ⟨hl, hr, hlo, hhi, hgroup, hheight, hlr, hrl, hmax⟩
    have hhl := hl.avl.height_eq
    have hhr := hr.avl.height_eq
    refine ⟨?_, ?_, avl_node hheight hl.avl hr.avl (by omega) (by omega), hmax, hl.maxima, hr.maxima⟩
    · rw [keysSorted_node, hcell]
      refine ⟨hl.sorted, hr.sorted, fun c hc => (hlo c hc).2 _ rfl, fun c hc => ?_⟩
      exact ivKeyCmp_gt.mp ((hhi c hc).1 _ rfl)
    · rw [cells, hcell, List.forall_mem_append, List.forall_mem_cons]
      exact ⟨hl.groups, hgroup, hr.groups⟩

theorem Between.tighten {cs : List (Cell α)} (hlo : Between lo none cs) (hhi : Between none hi cs) :
    Between lo hi cs :=
  fun c hc => ⟨(hlo c hc).1, (hhi c hc).2⟩

theorem Between.split {cs : List (Cell α)} (h : Between lo hi cs) :
    Between lo none cs ∧ Between none hi cs :=
  ⟨fun c hc => ⟨(h c hc).1, by simp⟩, fun c hc => ⟨by simp, (h c hc).2⟩⟩

/-- The checker accepts a subtree exactly if it is as it should be, and says how high it is. -/
theorem ivVerifyNode_ok : ivVerifyNode t lo hi = .ok h ↔
    Checked t ∧ Between lo hi (cells [] t) ∧ h = ivHeight t := by
  induction t generalizing lo hi h with
  | nil =>
      have hnil : Checked (.nil : IvTree α) :=
        ⟨List.Pairwise.nil, by simp [cells], trivial, trivial⟩
      simp [ivVerifyNode, hnil, Between, cells, ivHeight, eq_comm]
  | node n l r ihl ihr =>
      rw [ivVerifyNode_node, between_node, checked_node]
      constructor
      · rintro ⟨⟨hlo, hhi⟩, hgroup, lh, rh, hl, hr, hheight, hlr, hrl, hmax, rfl⟩
        obtain ⟨hcl, hbl, rfl⟩ := ihl.mp hl
        obtain ⟨hcr, hbr, rfl⟩ := ihr.mp hr
        refine ⟨⟨hcl, hcr, hbl.split.2, hbr.split.1, hgroup, hheight, hlr, hrl, hmax⟩,
          ⟨?_, ?_, ?_⟩, rfl⟩
        · refine hbl.split.1.tighten fun c hc => ⟨by simp, fun k hk => ?_⟩
          exact ivKeyCmp_lt_trans ((hbl c hc).2 _ rfl) (hhi k hk)
        · simpa [Between] using ⟨hlo, hhi⟩
        · refine Between.tighten (fun c hc => ⟨fun k hk => ?_, by simp⟩) hbr.split.2
          exact ivKeyCmp_gt.mpr (ivKeyCmp_lt_trans (ivKeyCmp_gt.mp (hlo k hk))
            (ivKeyCmp_gt.mp ((hbr c hc).1 _ rfl)))
      · rintro ⟨⟨hcl, hcr, hll, hrr, hgroup, hheight, hlr, hrl, hmax⟩, ⟨hbl, hbn, hbr⟩, rfl⟩
        exact ⟨hbn _ (List.mem_singleton_self _), hgroup, _, _,
          ihl.mpr ⟨hcl, hbl.split.1.tighten hll, rfl⟩, ihr.mpr ⟨hcr, hrr.tighten hbr.split.2, rfl⟩,
          hheight, hlr, hrl, hmax, rfl⟩

theorem itreeVerify_eq (t : Itree α) :
    (itreeVerify t).2 = (ivVerifyNode (itreeApplyAllShifts t).root none none).map fun _ => () := by
  have hlog : ¬(itreeApplyAllShifts t).shifts ≠ [] := not_not_intro rfl
  rw [itreeVerify, if_neg hlog]

theorem itreeVerify_ok {t : Itree α} (hchecked : Checked (itreeApplyAllShifts t).root) :
    (itreeVerify t).2 = .ok () := by
  have hbetween : Between none none (cells [] (itreeApplyAllShifts t).root) := by
    simp [Between]
  rw [itreeVerify_eq, ivVerifyNode_ok.mpr ⟨hchecked, hbetween, rfl⟩]
  rfl

/-- `itree_verify` decides the invariant of the tree with all its shifts applied. -/
theorem itreeVerify_iff (t : Itree α) :
    (itreeVerify t).2 = .ok () ↔ Checked (itreeApplyAllShifts t).root := by
  refine ⟨fun hok => ?_, itreeVerify_ok⟩
  rw [itreeVerify_eq] at hok
  cases hnode : ivVerifyNode (itreeApplyAllShifts t).root none none with
  | error msg =>
      rw [hnode] at hok
      cases hok
  | ok h => exact (ivVerifyNode_ok.mp hnode).1

end Decides

section Maxima

variable {shifts : List IvShift}

theorem ivUpdateMax_cover (n : IvNode α) (l r : IvTree α) :
    maxWith (maxWith (ivGroupHigh (ivUpdateMax n l r).iv) l) r ≤ (ivUpdateMax n l r).max := by
  unfold ivUpdateMax
  dsimp only
  split
  · exact le_rfl
  · next h => exact not_lt.mp h

theorem ivUpdate_cover (n : IvNode α) (hl : MaximaCover l) (hr : MaximaCover r) :
    MaximaCover (.node (ivUpdate n l r) l r) :=
  ⟨ivUpdateMax_cover _ l r, hl, hr⟩

theorem ivRotateRight_cover (hl : MaximaCover l) (hr : MaximaCover r)
    (h : l = .nil → MaximaCover (.node n l r)) : MaximaCover (ivRotateRight shifts (.node n l r)) := by
  cases l with
  | nil => exact h rfl
  | node m ll lr => exact ivUpdate_cover _ hl.2.1 (ivUpdate_cover _ hl.2.2 hr)

theorem ivRotateLeft_cover (hl : MaximaCover l) (hr : MaximaCover r)
    (h : r = .nil → MaximaCover (.node n l r)) : MaximaCover (ivRotateLeft shifts (.node n l r)) := by
  cases r with
  | nil => exact h rfl
  | node m rl rr => exact ivUpdate_cover _ (ivUpdate_cover _ hl hr.2.1) hr.2.2

theorem alignLeft_cover (shifts : List IvShift) (hl : MaximaCover l) (b : Int) :
    MaximaCover (if b < 0 then ivRotateLeft shifts l else l) ∧
      ((if b < 0 then ivRotateLeft shifts l else l) = .nil → l = .nil) := by
  split
  · cases l with
    | nil => exact ⟨trivial, fun _ => rfl⟩
    | node m ll lr =>
        refine ⟨ivRotateLeft_cover hl.2.1 hl.2.2 fun _ => hl, fun hnil => ?_⟩
        cases lr <;> cases hnil
  · exact ⟨hl, id⟩

theorem alignRight_cover (shifts : List IvShift) (hr : MaximaCover r) (b : Int) :
    MaximaCover (if b > 0 then ivRotateRight shifts r else r) ∧
      ((if b > 0 then ivRotateRight shifts r else r) = .nil → r = .nil) := by
  split
  · cases r with
    | nil => exact ⟨trivial, fun _ => rfl⟩
    | node m rl rr =>
        refine ⟨ivRotateRight_cover hr.2.1 hr.2.2 fun _ => hr, fun hnil => ?_⟩
        cases rl <;> cases hnil
  · exact ⟨hr, id⟩

/-- One call of `iv_rebalance`, when the calls behind its rotation are right. -/
theorem ivRebalanceLoop_cover_node {fuel : Nat} (n : IvNode α) (hl : MaximaCover l)
    (hr : MaximaCover r) (ih : ∀ (m : IvNode α) ml mr, MaximaCover (.node m ml mr) →
      MaximaCover (ivRebalanceLoop shifts fuel (.node m ml (ivRebalanceLoop shifts fuel mr))) ∧
        MaximaCover (ivRebalanceLoop shifts fuel (.node m (ivRebalanceLoop shifts fuel ml) mr))) :
    MaximaCover (ivRebalanceLoop shifts (fuel + 1) (.node n l r)) := by
  have hnode := ivUpdate_cover n hl hr
  rw [ivRebalanceLoop]
  dsimp only
  split
  · obtain ⟨hl', hnil⟩ := alignLeft_cover shifts hl (ivBalance l)
    have hrotated : MaximaCover (ivRotateRight shifts (.node (ivUpdate n l r)
        (if ivBalance l < 0 then ivRotateLeft shifts l else l) r)) := by
      refine ivRotateRight_cover hl' hr fun h => ?_
      rwa [h, ← hnil h]
    split
    · trivial
    · next m ml mr heq =>
        rw [heq] at hrotated
        exact (ih m ml mr hrotated).1
  · split
    · obtain ⟨hr', hnil⟩ := alignRight_cover shifts hr (ivBalance r)
      have hrotated : MaximaCover (ivRotateLeft shifts (.node (ivUpdate n l r) l
          (if ivBalance r > 0 then ivRotateRight shifts r else r))) := by
        refine ivRotateLeft_cover hl hr' fun h => ?_
        rwa [h, ← hnil h]
      split
      · trivial
      · next m ml mr heq =>
          rw [heq] at hrotated
          exact (ih m ml mr hrotated).2
    · exact hnode

theorem ivRebalanceLoop_cover (fuel : Nat) : (∀ t : IvTree α, MaximaCover t →
    MaximaCover (ivRebalanceLoop shifts fuel t)) ∧ ∀ (n : IvNode α) (l r : IvTree α),
      MaximaCover l → MaximaCover r →
        MaximaCover (ivRebalanceLoop shifts (fuel + 1) (.node n l r)) := by
  induction fuel with
  | zero =>
      exact ⟨fun t h => h, fun n l r hl hr =>
        ivRebalanceLoop_cover_node n hl hr fun m ml mr h => ⟨h, h⟩⟩
  | succ fuel ih =>
      have hwhole : ∀ t : IvTree α, MaximaCover t →
          MaximaCover (ivRebalanceLoop shifts (fuel + 1) t) := by
        intro t h
        cases t with
        | nil => trivial
        | node n l r => exact ih.2 n l r h.2.1 h.2.2
      refine ⟨hwhole, fun n l r hl hr => ivRebalanceLoop_cover_node n hl hr fun m ml mr h => ?_⟩
      exact ⟨ih.2 m ml _ h.2.1 (hwhole mr h.2.2), ih.2 m _ mr (hwhole ml h.2.1) h.2.2⟩

theorem ivRebalance_cover (n : IvNode α) (hl : MaximaCover l) (hr : MaximaCover r) :
    MaximaCover (ivRebalance shifts (.node n l r)) :=
  (ivRebalanceLoop_cover _).2 n l r hl hr

theorem ivRebalance_cover_of (h : MaximaCover t) : MaximaCover (ivRebalance shifts t) :=
  (ivRebalanceLoop_cover _).1 t h

theorem ivApplyAll_cover (hshifts : shifts ≠ []) (t : IvTree α) :
    MaximaCover (ivApplyAll shifts t) := by
  induction t with
  | nil => trivial
  | node n l r ihl ihr =>
      refine ⟨?_, ihl, ihr⟩
      rw [ivApplyShifts, if_neg hshifts]
      exact ivUpdateMax_cover _ _ _

end Maxima

section EmptyLog

variable {now : Nat}

theorem ivApplyShifts_nil (n : IvNode α) (l r : IvTree α) : ivApplyShifts [] n l r = n :=
  if_pos rfl

theorem ivAbsorb_nil (t : IvTree α) : ivAbsorb [] t = t := by
  cases t with
  | nil => rfl
  | node n l r => rw [ivAbsorb, ivApplyShifts_nil]

theorem ivFindSmallest_nil (t : IvTree α) : ivFindSmallest [] t = t := by
  have hleft : ∀ t : IvTree α, ivAbsorbLeft [] t = t := by
    intro t
    induction t with
    | nil => rfl
    | node n l r ihl _ => rw [ivAbsorbLeft, ivApplyShifts_nil, ihl]
  cases t with
  | nil => rfl
  | node n l r => rw [ivFindSmallest, hleft]

theorem ivSearch_nil (key : IvKey) (t : IvTree α) : (ivSearch [] key t).1 = t := by
  induction t with
  | nil => rfl
  | node n l r ihl ihr =>
      rw [ivSearch]
      simp only [ivApplyShifts_nil]
      split
      · simp only [ihl]
      · simp only [ihr]
      · rfl

theorem ivEach_nil (t : IvTree α) : (ivEach [] t).1 = t := by
  induction t with
  | nil => rfl
  | node n l r ihl ihr => simp only [ivEach, ihl, ihr, ivApplyShifts_nil]

theorem ivApplyAt_nil (addr : Nat) (t : IvTree α) : (ivApplyAt [] addr t).1 = t := by
  induction t with
  | nil => rfl
  | node n l r ihl ihr =>
      rw [ivApplyAt]
      simp only [ivApplyShifts_nil]
      split
      · rfl
      · split
        · next l' found heq =>
            rw [heq] at ihl
            exact congrArg (IvTree.node n · r) ihl
        · next l' heq =>
            rw [heq] at ihl
            exact congrArg₂ (IvTree.node n) ihl ihr

theorem ivApplyAll_nil (t : IvTree α) : ivApplyAll [] t = t := by
  induction t with
  | nil => rfl
  | node n l r ihl ihr => simp only [ivApplyAll, ihl, ihr, ivApplyShifts_nil]

theorem ivGroupHigh_nonneg (iv : IvGroup α) : 0 ≤ ivGroupHigh iv :=
  (le_foldl_max iv.ins 0).1

theorem below_of_cover (h : MaximaCover (.node n l r)) :
    Below (cells [] (.node n l r)) n.max := by
  have hsub : ∀ t : IvTree α, MaximaCover t → ∀ m, maxWith 0 t ≤ m → Below (cells [] t) m := by
    intro t
    induction t with
    | nil => exact fun _ m _ => by simp [cells, Below]
    | node n l r ihl ihr =>
        rintro ⟨hmax, hl, hr⟩ m hm
        have hn : n.max ≤ m := (le_max_right _ _).trans hm
        have hgroup : ivGroupHigh n.iv ≤ n.max :=
          (le_maxWith _ l).trans ((le_maxWith _ r).trans hmax)
        have hzero := ivGroupHigh_nonneg n.iv
        have hleft : maxWith 0 l ≤ n.max :=
          (maxWith_mono hzero l).trans ((le_maxWith _ r).trans hmax)
        have hright : maxWith 0 r ≤ n.max :=
          (maxWith_mono (hzero.trans (le_maxWith _ l)) r).trans hmax
        have hcell : cell [] n = ⟨n.key, n.iv.loc, n.iv.ins⟩ := cell_of_current rfl
        rw [cells, hcell, below_append, below_cons]
        refine ⟨ihl hl m (hleft.trans hn), fun i hi => ?_, ihr hr m (hright.trans hn)⟩
        exact ((le_foldl_max n.iv.ins 0).2 i hi).trans (hgroup.trans hn)
  refine hsub _ h _ (max_le ?_ le_rfl)
  exact (ivGroupHigh_nonneg n.iv).trans ((le_maxWith _ l).trans ((le_maxWith _ r).trans h.1))

theorem sound_of_cover (h : MaximaCover t) (hreg : Regular now t) : Sound False [] now t := by
  induction t with
  | nil => exact .nil
  | node n l r ihl ihr =>
      have hcur : Current [] n := rfl
      exact (sound_node hcur hreg.1 (below_of_cover h) (ihl h.2.1 hreg.2.1) (ihr h.2.2 hreg.2.2)).1

theorem ivAdd_cover (tstamp fresh : Nat) (key : IvKey) {high : Int} (hhigh : 0 ≤ high) (value : α)
    (h : MaximaCover t) : MaximaCover (ivAdd [] tstamp fresh key high value t).1 := by
  induction t with
  | nil =>
      refine ⟨?_, trivial, trivial⟩
      simp [ivGroupHigh, maxWith, hhigh]
  | node n l r ihl ihr =>
      rw [ivAdd]
      simp only [ivApplyShifts_nil]
      split
      · exact ivRebalance_cover _ (ihl h.2.1) h.2.2
      · exact ivRebalance_cover _ h.2.1 (ihr h.2.2)
      · exact ivRebalance_cover _ h.2.1 h.2.2

theorem ivLeftmost_mem {succ : IvNode α} (h : ivLeftmost t = some succ) :
    (⟨succ.key, succ.iv.loc, succ.iv.ins⟩ : Cell α) ∈ cells [] t := by
  induction t with
  | nil => cases h
  | node n l r ihl _ =>
      have hcell : cell [] n = ⟨n.key, n.iv.loc, n.iv.ins⟩ := cell_of_current rfl
      rw [cells, hcell, List.mem_append, List.mem_cons]
      rw [ivLeftmost] at h
      cases hl : ivLeftmost l with
      | none =>
          rw [hl] at h
          cases h
          exact .inr (.inl rfl)
      | some s =>
          rw [hl] at h
          cases h
          exact .inl (ihl hl)

def emptyLeftmost (g : IvGroup α) : IvTree α → IvTree α :=
  ivSetLeftmost fun s => { s with iv := { g with node := s.addr } }

theorem emptyLeftmost_cover {g : IvGroup α} (hg : g.ins = []) (h : MaximaCover t) :
    MaximaCover (emptyLeftmost g t) ∧ ∀ m, maxWith m (emptyLeftmost g t) = maxWith m t := by
  induction t with
  | nil => exact ⟨trivial, fun m => rfl⟩
  | node n l r ihl _ =>
      obtain ⟨hmax, hl, hr⟩ := h
      cases l with
      | nil =>
          refine ⟨⟨?_, trivial, hr⟩, fun m => rfl⟩
          have hzero : ivGroupHigh { g with node := n.addr } = 0 := by rw [ivGroupHigh, hg]; rfl
          rw [hzero]
          exact (maxWith_mono (ivGroupHigh_nonneg n.iv) r).trans hmax
      | node m ll lr =>
          obtain ⟨hcover, hsame⟩ := ihl hl
          refine ⟨⟨?_, hcover, hr⟩, fun m => rfl⟩
          exact (congrArg (maxWith · r) (hsame _)).le.trans hmax

theorem removeLeftmost_cover {succ : IvNode α} {g : IvGroup α} (hg : g.ins = [])
    (h : MaximaCover t) (hsorted : KeysSorted (cells [] t)) (hsucc : ivLeftmost t = some succ)
    (fuel : Nat) : MaximaCover (ivRemoveLoop [] fuel succ.key (emptyLeftmost g t)) := by
  induction t generalizing fuel with
  | nil => cases hsucc
  | node n l r ihl _ =>
      cases fuel with
      | zero => exact (emptyLeftmost_cover hg h).1
      | succ fuel =>
          obtain ⟨-, hl, hr⟩ := h
          cases l with
          | nil =>
              obtain rfl : n = succ := Option.some.inj hsucc
              rw [emptyLeftmost, ivSetLeftmost]
              simp only [ivRemoveLoop, ivApplyShifts_nil, ivKeyCmp_eq.mpr]
              cases r with
              | nil => trivial
              | node k rl rr =>
                  simp only [ivAbsorb_nil]
                  exact ivRebalance_cover_of hr
          | node m ll lr =>
              have hleft : ivLeftmost (.node m ll lr) = some succ := by
                rw [ivLeftmost] at hsucc
                cases hm : ivLeftmost (.node m ll lr) with
                | none =>
                    rw [ivLeftmost] at hm
                    cases hll : ivLeftmost ll <;> simp [hll] at hm
                | some s => rwa [hm] at hsucc
              have hcell : cell [] n = ⟨n.key, n.iv.loc, n.iv.ins⟩ := cell_of_current rfl
              rw [keysSorted_node, hcell] at hsorted
              have hlt : ivKeyCmp succ.key n.key = .lt := hsorted.2.2.1 _ (ivLeftmost_mem hleft)
              have hset : emptyLeftmost g (.node n (.node m ll lr) r) =
                  .node n (emptyLeftmost g (.node m ll lr)) r := rfl
              rw [hset]
              simp only [ivRemoveLoop, ivApplyShifts_nil, hlt]
              exact ivRebalance_cover n (ihl hl hsorted.1 hleft fuel) hr

theorem ivRemove_cover (hempty : n.iv.ins = []) (hl : MaximaCover l) (hr : MaximaCover r)
    (hsorted : KeysSorted (cells [] r)) : MaximaCover (ivRemove [] n.key (.node n l r)) := by
  rw [ivRemove, ivDepth, Nat.add_comm]
  simp only [ivRemoveLoop, ivApplyShifts_nil, ivKeyCmp_eq.mpr]
  cases l with
  | nil =>
      cases r with
      | nil => trivial
      | node k rl rr =>
          simp only [ivAbsorb_nil]
          exact ivRebalance_cover_of hr
  | node m ll lr =>
      cases r with
      | nil =>
          simp only [ivAbsorb_nil]
          exact ivRebalance_cover_of hl
      | node k rl rr =>
          simp only [ivAbsorb_nil, ivFindSmallest_nil]
          split
          · next hnone =>
              rw [ivLeftmost] at hnone
              cases hrl : ivLeftmost rl <;> simp [hrl] at hnone
          · next succ hsucc =>
              exact ivRebalance_cover _ hl (removeLeftmost_cover hempty hr hsorted hsucc _)

/-- A tree as the operations find it when no shift is pending. -/
structure Tidy (now : Nat) (t : IvTree α) : Prop where
  cover : MaximaCover t
  regular : Regular now t
  sorted : KeysSorted (cells [] t)
  lows : ∀ x ∈ live (cells [] t), x.ins.low = x.key.pos

theorem tidy_node (h : Tidy now (.node n l r)) : Tidy now l ∧ Tidy now r := by
  have hcell : cell [] n = ⟨n.key, n.iv.loc, n.iv.ins⟩ := cell_of_current rfl
  obtain ⟨⟨-, hcl, hcr⟩, ⟨-, hrl, hrr⟩, hsorted, hlows⟩ := h
  rw [keysSorted_node] at hsorted
  rw [cells, hcell, live_append, live_cons] at hlows
  exact ⟨⟨hcl, hrl, hsorted.1, fun x hx => hlows x (by simp [hx])⟩,
    ⟨hcr, hrr, hsorted.2.1, fun x hx => hlows x (by simp [hx])⟩⟩

theorem ivRemoveOverlaps_cover {low high : Int} {fuel : Nat} (h : Tidy now t) {t' : IvTree α}
    {evicted : List (IvIns α)} (hrun : ivRemoveOverlaps [] low high fuel t = some (t', evicted)) :
    MaximaCover t' := by
  have hlog : LogOk [] now := ⟨List.Pairwise.nil, by simp⟩
  induction fuel generalizing t t' evicted with
  | zero => simp [ivRemoveOverlaps] at hrun
  | succ fuel ih =>
      cases t with
      | nil =>
          cases hrun
          trivial
      | node n l r =>
          obtain ⟨hl, hr⟩ := tidy_node h
          have hsound := sound_of_cover h.cover h.regular
          simp only [ivRemoveOverlaps, ivApplyShifts_nil, Option.bind_eq_bind] at hrun
          split at hrun
          · cases hrun
            exact h.cover
          · obtain ⟨⟨l', e⟩, hleft, hrun⟩ := Option.bind_eq_some_iff.mp hrun
            have hcleared := ivRemoveOverlaps_cleared hlog hsound.left hl.sorted hl.lows hleft
            have hcoverl := ih hl hleft
            dsimp only at hrun
            split at hrun
            · next hempty =>
                have hins := List.isEmpty_iff.mp hempty
                have hset : Settled [] (.node n l r) := ⟨rfl, below_of_cover h.cover⟩
                obtain ⟨u, hu, hrem, hcells, hsorted⟩ := ivRemove_emptied hlog hset h.regular.1
                  hcleared hsound.right h.sorted
                have hremoved : MaximaCover (ivRemove [] n.key u) := by
                  rw [hu]
                  exact ivRemove_cover (n := { n with iv := { n.iv with ins := [] } }) rfl hcoverl
                    hr.cover hr.sorted
                rw [hins, ← hu] at hrun
                split at hrun
                · obtain ⟨⟨t₂, e₂⟩, hrest, hrun⟩ := Option.bind_eq_some_iff.mp hrun
                  cases hrun
                  refine ivRebalance_cover_of (ih ⟨hremoved, hrem.sound.regular, ?_, ?_⟩ hrest)
                  · rwa [hcells]
                  · rw [hcells, live_append]
                    intro x hx
                    rcases List.mem_append.mp hx with hx | hx
                    · exact hl.lows x (List.mem_of_mem_filter (hcleared.live.mem_iff.mp hx))
                    · exact hr.lows x hx
                · cases hrun
                  exact ivRebalance_cover_of hremoved
            · split at hrun
              · cases hrun
                exact ivRebalance_cover _ hcoverl hr.cover
              · obtain ⟨⟨r', e₂⟩, hright, hrun⟩ := Option.bind_eq_some_iff.mp hrun
                cases hrun
                exact ivRebalance_cover _ hcoverl (ih hr hright)

end EmptyLog

section Runs

/-- The maxima are stored as they should be, whenever no shift is pending. -/
def Covered (t : Itree α) : Prop :=
  t.shifts = [] → MaximaCover t.root

def EndsInside : Op α → Prop
  | .add _ _ high _ => 0 ≤ high
  | _ => True

instance decidableEndsInside : (op : Op α) → Decidable (EndsInside op)
  | .add _ _ high _ => inferInstanceAs (Decidable (0 ≤ high))
  | .removeAndShift _ _ _ => isTrue trivial
  | .findLargest _ _ => isTrue trivial
  | .size => isTrue trivial
  | .each => isTrue trivial
  | .locPos _ => isTrue trivial
  | .applyAllShifts => isTrue trivial

variable {s : Itree α} {ref : List (RefIv α)}

theorem itreeApplyAllShifts_cover (h : Covered s) : MaximaCover (itreeApplyAllShifts s).root := by
  by_cases hshifts : s.shifts = []
  · rw [itreeApplyAllShifts, hshifts]
    exact (ivApplyAll_nil s.root).symm ▸ h hshifts
  · exact ivApplyAll_cover hshifts s.root

theorem step_covered (h : Covered s) (hinv : Inv s ref) {op : Op α} (hop : EndsInside op) :
    Covered (step s op).1 := by
  cases op with
  | add id low high value =>
      intro hshifts
      change s.shifts = [] at hshifts
      simp only [step, stepWithin, Option.getD_some, itreeAdd, hshifts]
      exact ivAdd_cover _ _ _ hop value (h hshifts)
  | removeAndShift low high amt =>
      simp only [step, stepWithin, itreeRemoveAndShift, Option.bind_eq_bind]
      cases hrun : ivRemoveOverlaps s.shifts low high (removalDepth s) s.root with
      | none => exact h
      | some x =>
          intro hshifts
          simp only [Option.bind_some, Option.pure_def, Option.getD_some, ivRecordShift]
            at hshifts ⊢
          split at hshifts
          · next hzero =>
              rw [if_pos hzero]
              change s.shifts = [] at hshifts
              have htidy : Tidy s.tstamp s.root := by
                have hsorted := hinv.wf.sorted
                have hfits := hinv.wf.fits
                rw [hshifts] at hsorted hfits
                exact ⟨h hshifts, hinv.regular, hsorted, fun x hx => (hfits x hx).1⟩
              rw [hshifts] at hrun
              exact ivRemoveOverlaps_cover htidy hrun
          · simp at hshifts
  | findLargest id pos =>
      intro hshifts
      change s.shifts = [] at hshifts
      simp only [step, stepWithin, Option.getD_some, itreeFindLargest, hshifts, ivSearch_nil]
      exact h hshifts
  | size => exact h
  | each =>
      intro hshifts
      change s.shifts = [] at hshifts
      simp only [step, stepWithin, Option.getD_some, itreeEach, hshifts, ivEach_nil]
      exact h hshifts
  | locPos loc =>
      intro hshifts
      have hsame : (step s (.locPos loc)).1.shifts = s.shifts := by
        simp only [step, stepWithin, Option.getD_some, itreeLocPos]
        split <;> rfl
      rw [hsame] at hshifts
      simp only [step, stepWithin, Option.getD_some, itreeLocPos, hshifts]
      split
      · exact h hshifts
      · exact (ivApplyAt_nil _ s.root).symm ▸ h hshifts
  | applyAllShifts => exact fun _ => itreeApplyAllShifts_cover h

theorem run_covered {ops : List (Op α)} (h : Covered s) (hinv : Inv s ref)
    (hadm : Admissible s ref ops) (hmax : MaximaHold s ops) (hends : ∀ op ∈ ops, EndsInside op) :
    Covered (ops.foldl (fun t op => (step t op).1) s) ∧
      Inv (ops.foldl (fun t op => (step t op).1) s) (refRun s ref ops) := by
  induction ops generalizing s ref with
  | nil => exact ⟨h, hinv⟩
  | cons op ops ih =>
      rw [List.forall_mem_cons] at hends
      have hstep := (step_agrees hinv hmax.1 hadm.1).2
      exact ih (step_covered h hinv hends.1) hstep hadm.2 hmax.2 hends.2

theorem maximaHold_append {ops ops' : List (Op α)} (h : MaximaHold s (ops ++ ops')) :
    MaximaHold s ops ∧ MaximaHold (ops.foldl (fun t op => (step t op).1) s) ops' := by
  induction ops generalizing s with
  | nil => exact ⟨trivial, h⟩
  | cons op ops ih => exact ⟨⟨h.1, (ih h.2).1⟩, (ih h.2).2⟩

/-- `itree_verify` accepts the tree that any admitted operations leave, as long as the maxima
were bounds on the way and no interval ended in front of the subject. -/
theorem itreeVerify_accepts (ops : List (Op α)) (hadm : Admissible itreeNew [] ops)
    (hmax : MaximaHold itreeNew (ops ++ [.applyAllShifts])) (hends : ∀ op ∈ ops, EndsInside op) :
    (itreeVerify (run ops)).2 = .ok () := by
  obtain ⟨hrun, hlast⟩ := maximaHold_append hmax
  have hnew : Covered (itreeNew : Itree α) := fun _ => trivial
  obtain ⟨hcovered, hinv⟩ := run_covered hnew inv_new hadm hrun hends
  have happlied := step_applyAllShifts hinv hlast.1
  refine itreeVerify_ok ⟨happlied.wf.sorted, fun c hc => ⟨happlied.wf.nonempty c hc,
    fun i hi => ?_⟩, (ivApplyAll_shape _).avl (run_avl ops),
    itreeApplyAllShifts_cover hcovered⟩
  obtain ⟨hlow, hlt⟩ := happlied.wf.fits ⟨c.loc, c.key, i⟩ (mem_live.mpr ⟨c, hc, rfl, rfl, hi⟩)
  exact ⟨hlow, hlt.le⟩

theorem itreeVerify_accepts_shiftedRun : (itreeVerify (run shiftedRun)).2 = .ok () :=
  itreeVerify_accepts shiftedRun (by decide) (by decide) (by decide)

end Runs

end Libpeg.IntervalVerify
