import Libpeg.IntervalRefinement

namespace Libpeg.IntervalHandles

open Libpeg.IntervalTree Libpeg.IntervalCells Libpeg.IntervalOps Libpeg.IntervalRefinement

variable {α : Type} {F : Prop} {shifts : List IvShift} {now : Nat}

/-- The nodes that own the group of a handle have absorbed the log. -/
def CurrentAt (shifts : List IvShift) (loc : Nat) (t : IvTree α) : Prop :=
  ∀ n ∈ nodes t, n.iv.loc = loc → Current shifts n

theorem currentAt_node {loc : Nat} {n : IvNode α} {l r : IvTree α} :
    CurrentAt shifts loc (.node n l r) ↔
      CurrentAt shifts loc l ∧ (n.iv.loc = loc → Current shifts n) ∧
        CurrentAt shifts loc r := by
  simp only [CurrentAt, nodes, List.mem_append, List.mem_cons]
  constructor
  · intro h
    exact ⟨fun m hm => h m (.inl hm), h n (.inr (.inl rfl)), fun m hm => h m (.inr (.inr hm))⟩
  · rintro ⟨hl, hn, hr⟩ m (hm | rfl | hm)
    · exact hl m hm
    · exact hn
    · exact hr m hm

theorem ivApplyShifts_loc (n : IvNode α) (l r : IvTree α) :
    (ivApplyShifts shifts n l r).iv.loc = n.iv.loc := by
  rw [(ivApplyShifts_same shifts n l r).iv, (ivReplay_replayed shifts n).group]
  rfl

theorem ivUpdate_loc (n : IvNode α) (l r : IvTree α) : (ivUpdate n l r).iv = n.iv :=
  (ivUpdateMax_same (ivUpdateHeight n l r) l r).iv

theorem currentAt_ivUpdate {loc : Nat} {n : IvNode α} (h : n.iv.loc = loc → Current shifts n)
    (l r : IvTree α) : (ivUpdate n l r).iv.loc = loc → Current shifts (ivUpdate n l r) := by
  rw [ivUpdate_loc]
  exact fun hloc => ivUpdate_current (h hloc) l r

theorem ivRotateLeft_currentAt (hlog : LogOk shifts now) {loc : Nat} {t : IvTree α}
    (h : CurrentAt shifts loc t) : CurrentAt shifts loc (ivRotateLeft shifts t) := by
  unfold ivRotateLeft
  split
  · next n l m rl rr =>
      obtain ⟨hl, -, hr⟩ := currentAt_node.mp h
      obtain ⟨hrl, -, hrr⟩ := currentAt_node.mp hr
      refine currentAt_node.mpr ⟨currentAt_node.mpr ⟨hl, ?_, hrl⟩, ?_, hrr⟩
      · exact currentAt_ivUpdate (fun _ => ivApplyShifts_current hlog _ _ _) _ _
      · exact currentAt_ivUpdate (fun _ => ivApplyShifts_current hlog _ _ _) _ _
  · exact h

theorem ivRotateRight_currentAt (hlog : LogOk shifts now) {loc : Nat} {t : IvTree α}
    (h : CurrentAt shifts loc t) : CurrentAt shifts loc (ivRotateRight shifts t) := by
  unfold ivRotateRight
  split
  · next n m ll lr r =>
      obtain ⟨hl, -, hr⟩ := currentAt_node.mp h
      obtain ⟨hll, -, hlr⟩ := currentAt_node.mp hl
      refine currentAt_node.mpr ⟨hll, ?_, currentAt_node.mpr ⟨hlr, ?_, hr⟩⟩
      · exact currentAt_ivUpdate (fun _ => ivApplyShifts_current hlog _ _ _) _ _
      · exact currentAt_ivUpdate (fun _ => ivApplyShifts_current hlog _ _ _) _ _
  · exact h

theorem ivRebalanceLoop_currentAt (hlog : LogOk shifts now) {loc : Nat} (fuel : Nat)
    {t : IvTree α} (h : CurrentAt shifts loc t) :
    CurrentAt shifts loc (ivRebalanceLoop shifts fuel t) := by
  induction fuel generalizing t with
  | zero => exact h
  | succ fuel ih =>
      cases t with
      | nil => exact h
      | node n l r =>
          obtain ⟨hl, hn, hr⟩ := currentAt_node.mp h
          have hn' := currentAt_ivUpdate hn l r
          simp only [ivRebalanceLoop]
          split
          · have hl' : CurrentAt shifts loc
                (if ivBalance l < 0 then ivRotateLeft shifts l else l) := by
              split
              · exact ivRotateLeft_currentAt hlog hl
              · exact hl
            have hrot := ivRotateRight_currentAt hlog
              (currentAt_node.mpr ⟨hl', hn', hr⟩)
            split
            · exact fun m hm => absurd hm (by simp [nodes])
            · next m ml mr heq =>
                rw [heq] at hrot
                obtain ⟨hml, hm, hmr⟩ := currentAt_node.mp hrot
                exact ih (currentAt_node.mpr ⟨hml, hm, ih hmr⟩)
          · split
            · have hr' : CurrentAt shifts loc
                  (if ivBalance r > 0 then ivRotateRight shifts r else r) := by
                split
                · exact ivRotateRight_currentAt hlog hr
                · exact hr
              have hrot := ivRotateLeft_currentAt hlog
                (currentAt_node.mpr ⟨hl, hn', hr'⟩)
              split
              · exact fun m hm => absurd hm (by simp [nodes])
              · next m ml mr heq =>
                  rw [heq] at hrot
                  obtain ⟨hml, hm, hmr⟩ := currentAt_node.mp hrot
                  exact ih (currentAt_node.mpr ⟨ih hml, hm, hmr⟩)
            · exact currentAt_node.mpr ⟨hl, hn', hr⟩

theorem currentAt_of_notMem {loc : Nat} {t : IvTree α}
    (h : loc ∉ (nodes t).map fun n => n.iv.loc) : CurrentAt shifts loc t := by
  intro n hn hloc
  exact absurd (List.mem_map.mpr ⟨n, hn, hloc⟩) h

/-- The node of a handle is current right after the insertion that gave the
handle out. -/
theorem ivAdd_currentAt (hlog : LogOk shifts now) (fresh : Nat) (key : IvKey) (high : Int)
    (value : α) {t : IvTree α} (hlocs : ((nodes t).map fun n => n.iv.loc).Nodup)
    (hfresh : fresh ∉ (nodes t).map fun n => n.iv.loc) :
    CurrentAt shifts (ivAdd shifts now fresh key high value t).2
        (ivAdd shifts now fresh key high value t).1 ∧
      ((ivAdd shifts now fresh key high value t).2 = fresh ∨
        (ivAdd shifts now fresh key high value t).2 ∈ (nodes t).map fun n => n.iv.loc) := by
  have hnew : ∀ n : IvNode α, n.tstamp = now → Current shifts n := by
    intro n hn
    rw [current_iff hlog, hn]
    exact hlog.le_now
  induction t with
  | nil =>
      refine ⟨currentAt_node.mpr ⟨?_, fun _ => hnew _ rfl, ?_⟩, .inl rfl⟩ <;>
      exact fun m hm => absurd hm (by simp [nodes])
  | node n l r ihl ihr =>
      simp only [nodes, List.map_append, List.map_cons] at hlocs hfresh ⊢
      simp only [List.mem_append, List.mem_cons, not_or] at hfresh
      obtain ⟨hfl, -, hfr⟩ := hfresh
      obtain ⟨hnl, hnr, hdis⟩ := List.nodup_append.mp hlocs
      obtain ⟨hnot, hnr⟩ := List.nodup_cons.mp hnr
      obtain ⟨hcurl, hlocl⟩ := ihl hnl hfl
      obtain ⟨hcurr, hlocr⟩ := ihr hnr hfr
      have hself := ivApplyShifts_current hlog n l r
      simp only [ivAdd]
      split
      · refine ⟨ivRebalanceLoop_currentAt hlog _
          (currentAt_node.mpr ⟨hcurl, fun _ => hself, currentAt_of_notMem ?_⟩), ?_⟩
        · rcases hlocl with heq | hmem
          · rwa [heq]
          · exact fun hr => hdis _ hmem _ (.tail _ hr) rfl
        · rcases hlocl with heq | hmem
          · exact .inl heq
          · exact .inr (List.mem_append_left _ hmem)
      · refine ⟨ivRebalanceLoop_currentAt hlog _
          (currentAt_node.mpr ⟨currentAt_of_notMem ?_, fun _ => hself, hcurr⟩), ?_⟩
        · rcases hlocr with heq | hmem
          · rwa [heq]
          · exact fun hl => hdis _ hl _ (.tail _ hmem) rfl
        · rcases hlocr with heq | hmem
          · exact .inl heq
          · exact .inr (List.mem_append_right _ (.tail _ hmem))
      · have hloc : (ivGroupPush (ivApplyShifts shifts n l r).iv key.pos high value).loc =
            n.iv.loc := ivApplyShifts_loc n l r
        refine ⟨ivRebalanceLoop_currentAt hlog _
          (currentAt_node.mpr ⟨currentAt_of_notMem ?_, fun _ => hnew _ rfl,
            currentAt_of_notMem ?_⟩), ?_⟩
        · rw [hloc]
          exact fun hl => hdis _ hl _ (.head _) rfl
        · rwa [hloc]
        · rw [hloc]
          simp

theorem ivApplyShifts_max_mono {n : IvNode α} {l l' r r' : IvTree α}
    (hl : ∀ m, maxWith m l ≤ maxWith m l') (hr : ∀ m, maxWith m r ≤ maxWith m r') :
    (ivApplyShifts shifts n l r).max ≤ (ivApplyShifts shifts n l' r').max := by
  have hle : ∀ g, maxWith (maxWith g l) r ≤ maxWith (maxWith g l') r' := fun g =>
    (maxWith_mono (hl g) r).trans (hr _)
  have hmax : ∀ (n : IvNode α) (l r : IvTree α), (ivUpdateMax n l r).max =
      max n.max (maxWith (maxWith (ivGroupHigh n.iv) l) r) := by
    intro n l r
    unfold ivUpdateMax
    simp only
    split
    · next hgt => exact (max_eq_right hgt.le).symm
    · next hle => exact (max_eq_left (not_lt.mp hle)).symm
  unfold ivApplyShifts
  split
  · exact le_rfl
  · rw [hmax, hmax]
    exact max_le_max le_rfl (hle _)

theorem ivApplyAt_bounds (hlog : LogOk shifts now) {addr : Nat} {t : IvTree α}
    (h : Sound F shifts now t) (hcur : ∀ n ∈ nodes t, n.addr = addr → Current shifts n) :
    MaxBounds shifts (ivApplyAt shifts addr t).1 ∧
      ∀ m, maxWith m t ≤ maxWith m (ivApplyAt shifts addr t).1 := by
  induction t with
  | nil => exact ⟨trivial, fun _ => le_rfl⟩
  | node n l r ihl ihr =>
      obtain ⟨hl, hlmax⟩ := ihl h.left fun m hm => hcur m (by simp [nodes, hm])
      obtain ⟨hr, hrmax⟩ := ihr h.right fun m hm => hcur m (by simp [nodes, hm])
      have hcl := (ivApplyAt_spec hlog addr (MaxBounds.reach h.left.bounds) h.left.regular).1.cells
      have hcr := (ivApplyAt_spec hlog addr (MaxBounds.reach h.right.bounds)
        h.right.regular).1.cells
      simp only [ivApplyAt]
      split
      · next haddr =>
          refine ⟨(ivApplyShifts_visited hlog h).sound.bounds, fun m => ?_⟩
          exact max_le_max le_rfl (ivApplyShifts_max_of_current
            (hcur n (by simp [nodes]) haddr) l r)
      · generalize ivApplyAt shifts addr l = res at hl hlmax hcl
        obtain ⟨l', found⟩ := res
        cases found with
        | some m =>
            refine ⟨⟨h.bounds.1, ?_, hl, h.right.bounds⟩, fun _ => le_rfl⟩
            simp only [cells, hcl]
            exact h.bounds.2.1.mono (ivApplyShifts_max_mono hlmax fun _ => le_rfl)
        | none =>
            refine ⟨⟨h.bounds.1, ?_, hl, hr⟩, fun _ => le_rfl⟩
            simp only [cells, hcl, hcr]
            exact h.bounds.2.1.mono (ivApplyShifts_max_mono hlmax hrmax)

theorem ivApplyAt_currentAt (hlog : LogOk shifts now) {addr loc : Nat} {t : IvTree α}
    (h : CurrentAt shifts loc t) : CurrentAt shifts loc (ivApplyAt shifts addr t).1 := by
  induction t with
  | nil => exact h
  | node n l r ihl ihr =>
      obtain ⟨hl, hn, hr⟩ := currentAt_node.mp h
      have hl' := ihl hl
      have hr' := ihr hr
      simp only [ivApplyAt]
      split
      · exact currentAt_node.mpr ⟨hl, fun _ => ivApplyShifts_current hlog n l r, hr⟩
      · generalize ivApplyAt shifts addr l = res at hl'
        obtain ⟨l', found⟩ := res
        cases found with
        | some m => exact currentAt_node.mpr ⟨hl', hn, hr⟩
        | none => exact currentAt_node.mpr ⟨hl', hn, hr'⟩

/-- A tree with bounds and its intervals. -/
structure BoundedInv (t : Itree α) (ref : List (RefIv α)) : Prop extends Inv t ref where
  bounds : MaxBounds t.shifts t.root

theorem boundedInv_new : BoundedInv (itreeNew : Itree α) [] :=
  ⟨inv_new, trivial⟩

theorem BoundedInv.findLargest {t : Itree α} {ref : List (RefIv α)} (h : BoundedInv t ref)
    (id pos : Int) :
    BoundedInv (itreeFindLargest t id pos).1 ref ∧
      Agrees ref (.findLargest id pos) (.found (itreeFindLargest t id pos).2) := by
  obtain ⟨hagree, hinv⟩ := step_findLargest h.toInv h.bounds id pos
  obtain ⟨root, found, heq, hv, -⟩ := ivSearch_spec h.log ⟨pos, id⟩ (h.toInv.sound h.bounds)
    h.wf.sorted
  refine ⟨⟨hinv, ?_⟩, hagree⟩
  simp only [itreeFindLargest, heq]
  exact hv.sound.bounds

theorem nodes_locs (t : Itree α) :
    ((nodes t.root).map fun n => n.iv.loc) = (cells t.shifts t.root).map Cell.loc := by
  rw [cells_eq_map, List.map_map]
  rfl

theorem BoundedInv.add {t : Itree α} {ref : List (RefIv α)} (h : BoundedInv t ref)
    {id low high : Int} (value : α) (hlt : low < high) :
    BoundedInv (itreeAdd t id low high value).1
        (ref ++ [⟨(itreeAdd t id low high value).2, id, low, high, value⟩]) ∧
      CurrentAt t.shifts (itreeAdd t id low high value).2 (itreeAdd t id low high value).1.root := by
  obtain ⟨-, hinv⟩ := @step_add α t ref h.toInv h.bounds id low high value hlt
  obtain ⟨root, loc, heq, hsound, -, -⟩ := ivAdd_spec h.log t.next ⟨low, id⟩ high value
    (h.toInv.sound h.bounds) h.wf.sorted
  have hlocs := nodes_locs t
  have hcur := ivAdd_currentAt h.log t.next ⟨low, id⟩ high value (hlocs ▸ h.wf.locs) (by
    rw [hlocs]
    intro hmem
    obtain ⟨c, hc, hloc⟩ := List.mem_map.mp hmem
    exact absurd (h.wf.locs_lt c hc) (by omega))
  refine ⟨⟨hinv, ?_⟩, hcur.1⟩
  simp only [itreeAdd, heq]
  exact hsound.bounds

theorem BoundedInv.remove {t : Itree α} {ref : List (RefIv α)} (h : BoundedInv t ref)
    {low high : Int} (hle : low ≤ high) :
    ∃ s evicted, (∀ fuel, ivNodes t.root < fuel →
        itreeRemoveAndShift fuel t low high 0 = some (s, evicted)) ∧
      BoundedInv s (ref.filter fun r => !ivOverlaps r.ins low high) ∧
      evicted.Perm ((ref.filter fun r => ivOverlaps r.ins low high).map RefIv.ins) := by
  obtain ⟨hagree, hinv⟩ := step_removeAndShift h.toInv h.bounds hle
    (show -(high - low) ≤ 0 by omega)
  obtain ⟨root, evicted, heq, hc⟩ := ivRemoveOverlaps_spec h.log low high
    (h.toInv.sound h.bounds) h.wf.sorted (fun x hx => (h.wf.fits x hx).1)
  have hid : (RefIv.shift low 0 : RefIv α → RefIv α) = id := by
    funext r
    simp [RefIv.shift]
  rw [step_removeAndShift_eq heq] at hagree hinv
  refine ⟨{ t with root := root }, evicted, fun fuel hfuel => ?_, ⟨?_, hc.sound.bounds⟩, hagree⟩
  · simp only [itreeRemoveAndShift, heq fuel hfuel, Option.bind_eq_bind, Option.bind_some]
    rfl
  · rw [refStep, hid, List.map_id] at hinv
    exact hinv

theorem BoundedInv.locPos {t : Itree α} {ref : List (RefIv α)} (h : BoundedInv t ref)
    {r : RefIv α} (hr : r ∈ ref) (hcur : CurrentAt t.shifts r.loc t.root) :
    BoundedInv (itreeLocPos t r.loc).1 ref ∧ (itreeLocPos t r.loc).2 = some r.low ∧
      (itreeLocPos t r.loc).1.shifts = t.shifts ∧
      CurrentAt t.shifts r.loc (itreeLocPos t r.loc).1.root := by
  obtain ⟨hagree, hinv⟩ := step_locPos h.toInv h.bounds ⟨r, hr, rfl⟩
  have hnode : ∃ n ∈ nodes t.root, n.iv.loc = r.loc := by
    obtain ⟨c, hc, i, -, rfl⟩ := h.toInv.mem_ref.mp hr
    rw [cells_eq_map] at hc
    obtain ⟨n, hn, rfl⟩ := List.mem_map.mp hc
    exact ⟨n, hn, rfl⟩
  obtain ⟨n, hn, hnloc, hgroup⟩ := ivGroupNode_spec hnode
  have hlinks := h.wf.linked
  have haddrs := h.wf.addrs
  rw [links_eq_map] at hlinks haddrs
  rw [List.map_map] at haddrs
  have hself : n.iv.node = n.addr := hlinks _ (List.mem_map_of_mem hn)
  have hcurAddr : ∀ m ∈ nodes t.root, m.addr = n.iv.node → Current t.shifts m := by
    intro m hm haddr
    rw [List.inj_on_of_nodup_map haddrs hm hn (haddr.trans hself)]
    exact hcur n hn hnloc
  have hstep : itreeLocPos t r.loc = ({ t with root := (ivApplyAt t.shifts n.iv.node t.root).1 },
      (ivApplyAt t.shifts n.iv.node t.root).2.map fun m => m.key.pos) := by
    simp only [itreeLocPos, hgroup]
  refine ⟨⟨hinv, ?_⟩, hagree r hr rfl, ?_, ?_⟩
  · rw [hstep]
    exact (ivApplyAt_bounds h.log (h.toInv.sound h.bounds) hcurAddr).1
  · rw [hstep]
  · rw [hstep]
    exact ivApplyAt_currentAt h.log hcur

end Libpeg.IntervalHandles
