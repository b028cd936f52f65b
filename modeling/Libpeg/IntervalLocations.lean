import Libpeg.IntervalRefinement

namespace Libpeg.IntervalLocations

open Libpeg.IntervalTree Libpeg.IntervalCells Libpeg.IntervalOps Libpeg.IntervalRefinement

variable {α : Type}

/-- The operation with a number on the interval it adds. -/
def numbered (k : Nat) : Op α → Op (Nat × α)
  | .add id low high value => .add id low high (k, value)
  | .removeAndShift low high amt => .removeAndShift low high amt
  | .findLargest id pos => .findLargest id pos
  | .size => .size
  | .each => .each
  | .locPos loc => .locPos loc
  | .applyAllShifts => .applyAllShifts

def numberedFrom : Nat → List (Op α) → List (Op (Nat × α))
  | _, [] => []
  | k, op :: ops => numbered k op :: numberedFrom (k + 1) ops

/-- The intervals that have not been reported to `on_evict`, each with the handle
that its `itree_add` returned. -/
def heldAfter (k : Nat) (held : List (Nat × Nat)) : Obs (Nat × α) → List (Nat × Nat)
  | .loc l => held ++ [(k, l)]
  | .evicted is => held.filter fun x => is.all fun i => i.value.1 ≠ x.1
  | _ => held

/-- The tree and the held intervals after some operations. -/
def runHeld : Nat → Itree (Nat × α) → List (Nat × Nat) → List (Op α) →
    Itree (Nat × α) × List (Nat × Nat)
  | _, t, held, [] => (t, held)
  | k, t, held, op :: ops =>
      let r := step t (numbered k op)
      runHeld (k + 1) r.1 (heldAfter k held r.2) ops

def Holds (iv : IvGroup (Nat × α)) (k : Nat) : Prop :=
  ∃ i ∈ iv.ins, i.value.1 = k

/-- The links between nodes and groups, and the handles of the held intervals. -/
structure Attached (t : Itree (Nat × α)) (held : List (Nat × Nat)) : Prop where
  linked : ∀ n ∈ nodes t.root, n.iv.node = n.addr
  lows : ∀ n ∈ nodes t.root, ∀ i ∈ n.iv.ins, i.low = n.key.pos
  handle : ∀ x ∈ held, (∃ n ∈ nodes t.root, n.iv.loc = x.2 ∧ Holds n.iv x.1) ∧
    ∀ n ∈ nodes t.root, Holds n.iv x.1 → n.iv.loc = x.2
  position : ∀ x ∈ held, (∃ y ∈ (itreeEach t).2, y.2.value.1 = x.1) ∧
    ∀ y ∈ (itreeEach t).2, y.2.value.1 = x.1 → (itreeLocPos t x.2).2 = some y.2.low

/-- What is held is what the reference list has. -/
structure Tracked (k : Nat) (ref : List (RefIv (Nat × α))) (held : List (Nat × Nat)) : Prop where
  held : held = ref.map fun r => (r.value.1, r.loc)
  nodup : (ref.map fun r => r.value.1).Nodup
  old : ∀ r ∈ ref, r.value.1 < k

variable {t : Itree (Nat × α)} {ref : List (RefIv (Nat × α))} {held : List (Nat × Nat)} {k : Nat}

theorem shift_value (low amt : Int) (r : RefIv α) :
    (RefIv.shift low amt r).value = r.value ∧ (RefIv.shift low amt r).loc = r.loc := by
  unfold RefIv.shift
  split <;> exact ⟨rfl, rfl⟩

theorem Tracked.add (h : Tracked k ref held) (id low high : Int) (value : α) (l : Nat) :
    Tracked (k + 1) (ref ++ [⟨l, id, low, high, (k, value)⟩]) (held ++ [(k, l)]) where
  held := by rw [h.held, List.map_append, List.map_singleton]
  nodup := by
    rw [List.map_append, List.map_singleton, List.nodup_append]
    refine ⟨h.nodup, List.nodup_singleton _, ?_⟩
    intro a ha b hb
    obtain ⟨r, hr, rfl⟩ := List.mem_map.mp ha
    rw [List.mem_singleton] at hb
    subst hb
    exact Nat.ne_of_lt (h.old r hr)
  old := by
    intro r hr
    rcases List.mem_append.mp hr with hr | hr
    · exact Nat.lt_succ_of_lt (h.old r hr)
    · rw [List.mem_singleton] at hr
      subst hr
      exact Nat.lt_succ_self k

theorem Tracked.reported (h : Tracked k ref held) {low high : Int} {is : List (IvIns (Nat × α))}
    (his : is.Perm ((ref.filter fun r => ivOverlaps r.ins low high).map RefIv.ins))
    {r : RefIv (Nat × α)} (hr : r ∈ ref) :
    (is.all fun i => i.value.1 ≠ r.value.1) = !ivOverlaps r.ins low high := by
  rw [Bool.eq_iff_iff, List.all_eq_true]
  simp only [decide_eq_true_eq, Bool.not_eq_true']
  constructor
  · intro hall
    cases hover : ivOverlaps r.ins low high with
    | false => rfl
    | true =>
        refine absurd rfl (hall r.ins ?_)
        exact his.mem_iff.mpr (List.mem_map_of_mem (List.mem_filter.mpr ⟨hr, hover⟩))
  · intro hover i hi heq
    obtain ⟨q, hq, rfl⟩ := List.mem_map.mp (his.mem_iff.mp hi)
    obtain ⟨hq, hqover⟩ := List.mem_filter.mp hq
    obtain rfl := List.inj_on_of_nodup_map h.nodup hq hr heq
    rw [hqover] at hover
    cases hover

theorem Tracked.remove (h : Tracked k ref held) {low high : Int} (amt : Int)
    {is : List (IvIns (Nat × α))}
    (his : is.Perm ((ref.filter fun r => ivOverlaps r.ins low high).map RefIv.ins)) :
    Tracked (k + 1) ((ref.filter fun r => !ivOverlaps r.ins low high).map (RefIv.shift low amt))
      (held.filter fun x => is.all fun i => i.value.1 ≠ x.1) where
  held := by
    rw [h.held, List.filter_map, List.map_map]
    have hfilter : (ref.filter fun r => is.all fun i => i.value.1 ≠ r.value.1) =
        ref.filter fun r => !ivOverlaps r.ins low high :=
      List.filter_congr fun r hr => h.reported his hr
    refine (congrArg (List.map fun r => (r.value.1, r.loc)) hfilter).trans ?_
    refine List.map_congr_left fun r _ => ?_
    obtain ⟨hvalue, hloc⟩ := shift_value low amt r
    rw [Function.comp_apply, hvalue, hloc]
  nodup := by
    rw [List.map_map]
    refine List.Nodup.sublist ?_ h.nodup
    have hmap : (fun r : RefIv (Nat × α) => r.value.1) ∘ RefIv.shift low amt =
        fun r => r.value.1 := by
      funext r
      rw [Function.comp_apply, (shift_value low amt r).1]
    rw [hmap]
    exact List.filter_sublist.map _
  old := by
    intro r hr
    obtain ⟨q, hq, rfl⟩ := List.mem_map.mp hr
    rw [(shift_value low amt q).1]
    exact Nat.lt_succ_of_lt (h.old q (List.mem_filter.mp hq).1)

theorem Tracked.later (h : Tracked k ref held) : Tracked (k + 1) ref held :=
  ⟨h.held, h.nodup, fun r hr => Nat.lt_succ_of_lt (h.old r hr)⟩

/-- What is held follows the reference list through an admitted operation. -/
theorem Tracked.step (h : Tracked k ref held) {op : Op α} {o : Obs (Nat × α)}
    (hagree : Agrees ref (numbered k op) o) :
    Tracked (k + 1) (refStep ref (numbered k op) o) (heldAfter k held o) := by
  cases op with
  | add id low high value =>
      cases o with
      | loc l => exact h.add id low high value l
      | _ => exact False.elim hagree
  | removeAndShift low high amt =>
      cases o with
      | evicted is => exact h.remove amt hagree
      | _ => exact False.elim hagree
  | findLargest id pos =>
      cases o with
      | found v => exact h.later
      | _ => exact False.elim hagree
  | size =>
      cases o with
      | size n => exact h.later
      | _ => exact False.elim hagree
  | each =>
      cases o with
      | each out => exact h.later
      | _ => exact False.elim hagree
  | locPos loc =>
      cases o with
      | pos p => exact h.later
      | _ => exact False.elim hagree
  | applyAllShifts =>
      cases o with
      | done => exact h.later
      | _ => exact False.elim hagree

section Nodes

variable {shifts : List IvShift} {now : Nat}

/-- The intervals that a node reports to a traversal. -/
def reports (shifts : List IvShift) (n : IvNode α) : List (IvKey × IvIns α) :=
  (ivReplay shifts n).iv.ins.map fun i => ((ivReplay shifts n).key, i)

theorem ivApplyShifts_reports (n : IvNode α) (l r : IvTree α) :
    (ivApplyShifts shifts n l r).iv.ins.map (fun i => ((ivApplyShifts shifts n l r).key, i)) =
      reports shifts n := by
  have h := ivApplyShifts_same shifts n l r
  rw [h.iv, h.key, reports]

theorem ivEach_reports (t : IvTree α) :
    (ivEach shifts t).2 = (nodes t).flatMap (reports shifts) := by
  induction t with
  | nil => rfl
  | node n l r ihl ihr =>
      simp only [ivEach, nodes, List.flatMap_append, List.flatMap_cons, ← ihl, ← ihr,
        ivApplyShifts_reports, List.append_assoc]

theorem ivApplyAt_replay (shifts : List IvShift) (addr : Nat) (t : IvTree α) :
    ((ivApplyAt shifts addr t).2 = none → ∀ n ∈ nodes t, n.addr ≠ addr) ∧
      ∀ m, (ivApplyAt shifts addr t).2 = some m →
        ∃ n ∈ nodes t, n.addr = addr ∧ m.key = (ivReplay shifts n).key := by
  induction t with
  | nil => exact ⟨by simp [nodes], by simp [ivApplyAt]⟩
  | node n l r ihl ihr =>
      simp only [ivApplyAt]
      split
      · next haddr =>
          refine ⟨by simp, ?_⟩
          rintro m ⟨⟩
          exact ⟨n, by simp [nodes], haddr, (ivApplyShifts_same shifts n l r).key⟩
      · next haddr =>
          obtain ⟨hlnone, hlsome⟩ := ihl
          obtain ⟨hrnone, hrsome⟩ := ihr
          generalize ivApplyAt shifts addr l = res at hlnone hlsome
          obtain ⟨l', found⟩ := res
          cases found with
          | some m =>
              refine ⟨by simp, ?_⟩
              rintro m' ⟨⟩
              obtain ⟨k, hk, hka, hkey⟩ := hlsome m rfl
              exact ⟨k, by simp [nodes, hk], hka, hkey⟩
          | none =>
              refine ⟨fun hnone k hk => ?_, fun m hm => ?_⟩
              · simp only [nodes, List.mem_append, List.mem_cons] at hk
                rcases hk with hk | rfl | hk
                · exact hlnone rfl k hk
                · exact haddr
                · exact hrnone hnone k hk
              · obtain ⟨k, hk, hka, hkey⟩ := hrsome m hm
                exact ⟨k, by simp [nodes, hk], hka, hkey⟩

theorem replay_lows {n : IvNode α} (h : ∀ i ∈ n.iv.ins, i.low = n.key.pos) :
    ∀ i ∈ (ivReplay shifts n).iv.ins, i.low = (ivReplay shifts n).key.pos := by
  have hrep := ivReplay_replayed shifts n
  intro i hi
  rw [hrep.group] at hi
  obtain ⟨j, hj, rfl⟩ := List.mem_map.mp hi
  have := h j hj
  dsimp only
  omega

theorem replay_values (n : IvNode α) :
    (ivReplay shifts n).iv.ins.map IvIns.value = n.iv.ins.map IvIns.value := by
  rw [(ivReplay_replayed shifts n).group]
  simp [ivGroupShift]

end Nodes

theorem lows_of_inv {t : Itree α} {ref : List (RefIv α)} (h : Inv t ref) :
    ∀ n ∈ nodes t.root, ∀ i ∈ n.iv.ins, i.low = n.key.pos := by
  intro n hn i hi
  have hcell : cell t.shifts n ∈ cells t.shifts t.root := by
    rw [cells_eq_map]
    exact List.mem_map_of_mem hn
  have hlive : (⟨n.iv.loc, (cell t.shifts n).key, { i with
      low := i.low + (curPos t.shifts n - n.key.pos)
      high := i.high + (curPos t.shifts n - n.key.pos) }⟩ : Stored α) ∈
        live (cells t.shifts t.root) :=
    mem_live.mpr ⟨_, hcell, rfl, rfl, List.mem_map_of_mem hi⟩
  have hlow : i.low + (curPos t.shifts n - n.key.pos) = curPos t.shifts n :=
    (h.wf.fits _ hlive).1
  omega

theorem linked_of_inv {t : Itree α} {ref : List (RefIv α)} (h : Inv t ref) :
    ∀ n ∈ nodes t.root, n.iv.node = n.addr := by
  intro n hn
  have hlinked := h.wf.linked
  rw [links_eq_map] at hlinked
  exact hlinked _ (List.mem_map_of_mem hn)

theorem stored_iff {t : Itree α} {ref : List (RefIv α)} (h : Inv t ref) (loc : Nat) (v : α) :
    (∃ r ∈ ref, r.loc = loc ∧ r.value = v) ↔
      ∃ n ∈ nodes t.root, n.iv.loc = loc ∧ ∃ i ∈ n.iv.ins, i.value = v := by
  constructor
  · rintro ⟨r, hr, rfl, rfl⟩
    obtain ⟨c, hc, i, hi, rfl⟩ := h.mem_ref.mp hr
    rw [cells_eq_map] at hc
    obtain ⟨n, hn, rfl⟩ := List.mem_map.mp hc
    obtain ⟨j, hj, rfl⟩ := List.mem_map.mp hi
    exact ⟨n, hn, rfl, j, hj, rfl⟩
  · rintro ⟨n, hn, rfl, i, hi, rfl⟩
    have hcell : cell t.shifts n ∈ cells t.shifts t.root := by
      rw [cells_eq_map]
      exact List.mem_map_of_mem hn
    exact ⟨_, h.mem_ref.mpr ⟨_, hcell, _, List.mem_map_of_mem hi, rfl⟩, rfl, rfl⟩

theorem locPos_of_inv {t : Itree α} {ref : List (RefIv α)} (h : Inv t ref) {n : IvNode α}
    (hn : n ∈ nodes t.root) :
    (itreeLocPos t n.iv.loc).2 = some (ivReplay t.shifts n).key.pos := by
  have haddrs := h.wf.addrs
  have hlocs := h.wf.locs
  rw [links_eq_map, List.map_map] at haddrs
  rw [cells_eq_map, List.map_map] at hlocs
  obtain ⟨m, hm, hmloc, hgroup⟩ := ivGroupNode_spec ⟨n, hn, rfl⟩
  obtain rfl : m = n := List.inj_on_of_nodup_map hlocs hm hn hmloc
  obtain ⟨hnone, hsome⟩ := ivApplyAt_replay t.shifts m.iv.node t.root
  have hself := linked_of_inv h m hm
  simp only [itreeLocPos, hgroup]
  cases hfound : (ivApplyAt t.shifts m.iv.node t.root).2 with
  | none => exact absurd hself.symm (hnone hfound m hm)
  | some m' =>
      obtain ⟨k, hk, hka, hkey⟩ := hsome m' hfound
      obtain rfl : k = m := List.inj_on_of_nodup_map haddrs hk hm (hka.trans hself)
      rw [Option.map_some, hkey]

theorem Tracked.handle (htracked : Tracked k ref held) (h : Inv t ref) {x : Nat × Nat}
    (hx : x ∈ held) : (∃ n ∈ nodes t.root, n.iv.loc = x.2 ∧ Holds n.iv x.1) ∧
      ∀ n ∈ nodes t.root, Holds n.iv x.1 → n.iv.loc = x.2 := by
  rw [htracked.held] at hx
  obtain ⟨r, hr, rfl⟩ := List.mem_map.mp hx
  obtain ⟨n, hn, hloc, i, hi, hvalue⟩ := (stored_iff h r.loc r.value).mp ⟨r, hr, rfl, rfl⟩
  refine ⟨⟨n, hn, hloc, i, hi, congrArg Prod.fst hvalue⟩, ?_⟩
  rintro m hm ⟨j, hj, hnum⟩
  obtain ⟨q, hq, hqloc, hqvalue⟩ := (stored_iff h m.iv.loc j.value).mpr ⟨m, hm, rfl, j, hj, rfl⟩
  have hsame : q.value.1 = r.value.1 := by rw [hqvalue, hnum]
  obtain rfl := List.inj_on_of_nodup_map htracked.nodup hq hr hsame
  exact hqloc.symm

theorem mem_each_iff {y : IvKey × IvIns α} {t : Itree α} :
    y ∈ (itreeEach t).2 ↔ ∃ n ∈ nodes t.root, y ∈ reports t.shifts n := by
  have h : (itreeEach t).2 = (ivEach t.shifts t.root).2 := rfl
  rw [h, ivEach_reports, List.mem_flatMap]

theorem holds_replay (shifts : List IvShift) {n : IvNode (Nat × α)} {k : Nat} :
    Holds (ivReplay shifts n).iv k ↔ Holds n.iv k := by
  have hmem : ∀ iv : IvGroup (Nat × α), Holds iv k ↔ ∃ v ∈ iv.ins.map IvIns.value, v.1 = k := by
    intro iv
    simp [Holds]
  rw [hmem, hmem, replay_values]

theorem attached_of_inv (h : Inv t ref) (htracked : Tracked k ref held) : Attached t held where
  linked := linked_of_inv h
  lows := lows_of_inv h
  handle := fun x hx => htracked.handle h hx
  position := by
    intro x hx
    obtain ⟨⟨n, hn, -, hholds⟩, honly⟩ := htracked.handle h hx
    constructor
    · obtain ⟨i, hi, hnum⟩ := (holds_replay t.shifts).mpr hholds
      exact ⟨_, mem_each_iff.mpr ⟨n, hn, List.mem_map_of_mem hi⟩, hnum⟩
    · intro y hy hnum
      obtain ⟨m, hm, hy⟩ := mem_each_iff.mp hy
      obtain ⟨i, hi, rfl⟩ := List.mem_map.mp hy
      rw [← honly m hm ((holds_replay _).mp ⟨i, hi, hnum⟩), locPos_of_inv h hm]
      exact congrArg some (replay_lows (lows_of_inv h m hm) i hi).symm

/-- In every run of admitted operations whose maxima are bounds before each
operation, nodes and groups stay linked, and the handle of every interval that has
not been reported is the group that holds it. -/
theorem handles_stay_attached (ops : List (Op α))
    (hadm : Admissible itreeNew [] (numberedFrom 0 ops))
    (hmax : MaximaHold itreeNew (numberedFrom 0 ops)) :
    Attached (runHeld 0 itreeNew [] ops).1 (runHeld 0 itreeNew [] ops).2 := by
  suffices h : ∀ (k : Nat) (t : Itree (Nat × α)) (ref : List (RefIv (Nat × α)))
      (held : List (Nat × Nat)), Inv t ref → Tracked k ref held →
      Admissible t ref (numberedFrom k ops) → MaximaHold t (numberedFrom k ops) →
      Attached (runHeld k t held ops).1 (runHeld k t held ops).2 from
    h 0 itreeNew [] [] inv_new ⟨rfl, List.nodup_nil, by simp⟩ hadm hmax
  clear hadm hmax
  induction ops with
  | nil => exact fun k t ref held hinv htracked _ _ => attached_of_inv hinv htracked
  | cons op ops ih =>
      intro k t ref held hinv htracked hadm hmax
      obtain ⟨hagree, hinv'⟩ := step_agrees hinv hmax.1 hadm.1
      exact ih (k + 1) _ _ _ hinv' (htracked.step hagree) hadm.2 hmax.2

/-- A run whose shifts leave no maximum too small. -/
def keptRun : List (Op Nat) :=
  [.add 2 10 12 0, .add 2 0 2 1, .add 1 10 30 2, .add 1 20 22 3, .add 3 35 51 4,
    .removeAndShift 12 15 2, .removeAndShift 5 5 10]

theorem handles_stay_attached_keptRun :
    Admissible itreeNew [] (numberedFrom 0 keptRun) ∧
      MaximaHold itreeNew (numberedFrom 0 keptRun) ∧
      Attached (runHeld 0 itreeNew [] keptRun).1 (runHeld 0 itreeNew [] keptRun).2 :=
  ⟨by decide, by decide, handles_stay_attached keptRun (by decide) (by decide)⟩

/-- The second shift is skipped at the node of the interval `[30,32)`, which then
has the key of the successor that the node of `[10,12)` adopts, and is deleted in
the place of that successor. -/
def lostRun : List (Op Nat) :=
  [.add 2 10 12 0, .add 2 0 2 1, .add 1 30 32 2, .add 1 20 22 3, .add 3 35 51 4,
    .removeAndShift 40 87 (-47), .removeAndShift 5 5 10, .removeAndShift 20 21 0]

theorem handle_lost : ¬∀ ops : List (Op Nat), Admissible itreeNew [] (numberedFrom 0 ops) →
    Attached (runHeld 0 itreeNew [] ops).1 (runHeld 0 itreeNew [] ops).2 := by
  intro h
  have hheld : (2, 2) ∈ (runHeld 0 itreeNew [] lostRun).2 := by decide
  obtain ⟨⟨n, hn, -, i, hi, hnum⟩, -⟩ := (h lostRun (by decide)).handle (2, 2) hheld
  have hnone : ∀ n ∈ nodes (runHeld 0 itreeNew [] lostRun).1.root,
      ∀ i ∈ n.iv.ins, i.value.1 ≠ 2 := by decide
  exact hnone n hn i hi hnum

end Libpeg.IntervalLocations
