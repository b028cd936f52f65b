import Libpeg.Positions

namespace Libpeg.RunSimulation

open Libpeg.Opcode Libpeg.Code Libpeg.IntervalTree Libpeg.Memo Libpeg.Input Libpeg.Vm
open Libpeg.IntervalRefinement Libpeg.MemoView Libpeg.Forest Libpeg.AbstractVm
open Libpeg.Simulation Libpeg.StepSimulation Libpeg.Positions

variable {a : VmArgs} {ref : List (RefIv Nat)} {p : Nat → Int} {s : VmState}

theorem pushedBefore_of_placed (h : Placed (absState ref p s)) :
    PushedBefore (vmInputPos s.src) s.stack := by
  intro e he x hx
  refine (List.pairwise_cons.mp h).1 x (List.mem_filterMap.mpr ?_)
  exact ⟨absFrame (view s.mem p) e, List.mem_map_of_mem he, hx⟩

theorem vmInsn_step_sim (h : Ok a.input ref p s) (hplaced : Placed (absState ref p s)) (i : VmInsn) :
    ∃ hit, (∀ id, lookupId i = some id → IsHit (absState ref p s).tbl id (absState ref p s).pos hit ∧
        hit = (lookup s id).2.map (foundEntry p s id)) ∧
      NextPlaced (aInsn a hit (absState ref p s) i) ∧
      NextTable s.tbl.isSome (aInsn a hit (absState ref p s) i) ∧
      NextSim a.input ref p s.mem (vmInsn a s i) (aInsn a hit (absState ref p s) i) := by
  obtain ⟨hit, hhit, hsim⟩ := vmInsn_sim h (pushedBefore_of_placed hplaced) i
  have htbl : (absState ref p s).tbl.isSome = s.tbl.isSome := by simp [absState]
  exact ⟨hit, hhit, aInsn_placed hplaced hit i, htbl ▸ aInsn_table hit i, hsim⟩

theorem vmStep_sim (h : Ok a.input ref p s) (hplaced : Placed (absState ref p s)) :
    ∃ ρ, AStep a (absState ref p s) ρ ∧ NextPlaced ρ ∧ NextTable s.tbl.isSome ρ ∧
      NextSim a.input ref p s.mem (vmStep a s) ρ := by
  cases hi : a.code.prog[s.ip]? with
  | none =>
      simp only [vmStep, hi]
      exact ⟨_, .out hi, by rintro s' ⟨⟩, trivial, nextSim_aborted _⟩
  | some i =>
      simp only [vmStep, hi]
      obtain ⟨hit, hhit, hnext, htbl, hsim⟩ := vmInsn_step_sim h hplaced i
      exact ⟨_, .insn hi fun id hid => (hhit id hid).1, hnext, htbl, hsim⟩

theorem NextSim.trans {m : Mem} {input : List UInt8} {s' : VmState} {ref' : List (RefIv Nat)}
    {p' : Nat → Int} {r : VmNext} {ρ : ANext} (hgrown : Grown m p s'.mem p' ref ref')
    (h : NextSim input ref' p' s'.mem r ρ) : NextSim input ref p m r ρ := by
  obtain ⟨ref'', p'', habs, hok⟩ := h
  refine ⟨ref'', p'', habs, fun t ht => ?_⟩
  obtain ⟨hok, hgrown'⟩ := hok t ht
  exact ⟨hok, hgrown.trans hgrown'⟩

theorem vmLoop_sim (fuel : Nat) (h : Ok a.input ref p s) (hplaced : Placed (absState ref p s))
    {r : VmNext} (hr : vmLoop a fuel s = some r) :
    ∃ n ρ, ARun a n (absState ref p s) ρ ∧ NextSim a.input ref p s.mem r ρ := by
  induction fuel generalizing s ref p with
  | zero => cases hr
  | succ fuel ih =>
      obtain ⟨ρ, hstep, hpl, -, hsim⟩ := vmStep_sim h hplaced
      rw [vmLoop] at hr
      obtain ⟨ref', p', habs, hok⟩ := id hsim
      cases hnext : vmStep a s with
      | running s' =>
          rw [hnext] at hr habs hok
          obtain ⟨hok, hgrown⟩ := hok s' rfl
          subst habs
          obtain ⟨n, ρ', hrun, hsim'⟩ := ih hok (hpl _ rfl) hr
          exact ⟨n + 1, ρ', .step hstep hrun, NextSim.trans hgrown hsim'⟩
      | _ =>
          rw [hnext] at hr habs hsim
          cases hr
          subst habs
          exact ⟨1, _, .stop hstep (by simp [absNext]), hsim⟩

def startRef (a : VmArgs) (ref : List (RefIv Nat)) : List (RefIv Nat) :=
  if a.windowed ∧ a.windowHigh > a.windowLow then
    ref.filter fun r => !ivOverlaps r.ins a.windowLow a.windowHigh
  else ref

def aStart (tbl : Option ATable) (nchecks : Nat) : AState :=
  ⟨0, 0, 0, [], .nil, tbl, [], nchecks⟩

theorem aStart_placed (tbl : Option ATable) (nchecks : Nat) : Placed (aStart tbl nchecks) := by
  simp [Placed, aStart, positions]

/-- The edit for the window returns, and takes away the entries that overlap it. -/
theorem vmClear_ok {m : Mem} {tbl : Option MemoTable} (h : MemoOk m tbl ref p) (a : VmArgs) :
    ∃ m' tbl', (∃ depth, ∀ fuel, depth < fuel → vmClear fuel a m tbl = some (m', tbl')) ∧
      MemoOk m' tbl' (startRef a ref) p ∧
      tbl'.map (absTable m' (startRef a ref) p) = tbl.map (absTable m (startRef a ref) p) ∧
      Grown m p m' p (startRef a ref) (startRef a ref) := by
  cases tbl with
  | none =>
      obtain rfl : ref = [] := h.none rfl
      have hnil : startRef a [] = [] := by simp [startRef]
      rw [hnil]
      exact ⟨m, none, ⟨0, fun _ _ => rfl⟩, h, rfl, Extends.grown (.refl _) p⟩
  | some t =>
      by_cases hw : a.windowed ∧ a.windowHigh > a.windowLow
      · obtain ⟨m', t', hedit, hth, hok, hview, hents, hlen⟩ := h.window hw.2
        have hentry : absEntry m' p = absEntry m p := by
          funext r
          unfold absEntry
          rw [hents, hview]
        refine ⟨m', some t', ⟨ivNodes t.tree.root, fun fuel hfuel => ?_⟩, ?_, ?_,
          ⟨[], by simp, rfl, by simp [hents]⟩,
          hents ▸ List.prefix_refl _, hview ▸ List.prefix_refl _⟩
        · rw [vmClear, if_pos hw, hedit fuel hfuel]
          rfl
        · rw [startRef, if_pos hw]
          exact hok
        · simp only [absTable, hth, hentry, Option.map_some]
      · refine ⟨m, some t, ⟨0, fun fuel _ => ?_⟩, ?_, rfl, Extends.grown (.refl _) p⟩
        · rw [vmClear, if_neg hw]
        · rw [startRef, if_neg hw]
          exact h

theorem vmStart_ok {m : Mem} {tbl : Option MemoTable} (h : MemoOk m tbl ref p) (nchecks : Nat) :
    Ok a.input ref p (vmStart a m tbl nchecks) ∧
      absState ref p (vmStart a m tbl nchecks) =
        aStart (tbl.map (absTable m ref p)) nchecks :=
  ⟨⟨h, by simp [vmStart], by simp [vmStart], rfl⟩, rfl⟩

end Libpeg.RunSimulation
