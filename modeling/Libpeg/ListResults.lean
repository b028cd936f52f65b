import Libpeg.Grammars
import Libpeg.Session

namespace Libpeg.ListResults

open Libpeg.Opcode Libpeg.Code Libpeg.Memo Libpeg.Input Libpeg.Vm Libpeg.IntervalRefinement
open Libpeg.MemoView Libpeg.Forest Libpeg.AbstractVm Libpeg.Simulation Libpeg.StepSimulation
open Libpeg.Positions Libpeg.RunSimulation Libpeg.Session Libpeg.Control Libpeg.Pattern
open Libpeg.Compile Libpeg.Optimize Libpeg.CodeShape Libpeg.Semantics Libpeg.ListMachine
open Libpeg.Denotation Libpeg.Fragments Libpeg.TailCalls

variable {a : VmArgs} {code : List Pir} {ref : List (RefIv Nat)} {p : Nat → Int} {s : VmState}

section Dead

/-- An instruction that was not cut off, or none. -/
def Live (code : List Pir) (k : Nat) : Prop :=
  code[k]? ≠ some (.insn .nop)

theorem guarded_live {jumped : Bool} (h : Guarded jumped code) :
    (jumped = false → Live code 0) ∧
      ∀ k, (∀ l, code[k]? ≠ some (.insn (.jump l))) → Live code (k + 1) := by
  induction code generalizing jumped with
  | nil => exact ⟨fun _ => by simp [Live], fun k _ => by simp [Live]⟩
  | cons c code ih =>
      have hnext : ∀ b, Guarded b code → (b = true → ∃ l, c = .insn (.jump l)) →
          ∀ k, (∀ l, (c :: code)[k]? ≠ some (.insn (.jump l))) → Live (c :: code) (k + 1) := by
        intro b hb hjump k hk
        cases k with
        | zero =>
            refine (ih hb).1 (Bool.eq_false_iff.mpr fun hb => ?_)
            obtain ⟨l, rfl⟩ := hjump hb
            exact hk l rfl
        | succ k => exact (ih hb).2 k hk
      cases c with
      | label l => exact ⟨fun _ => by simp [Live], hnext false h (by simp)⟩
      | openCall name => exact ⟨fun _ => by simp [Live], hnext false h (by simp)⟩
      | insn i =>
          cases i with
          | nop =>
              rw [guarded_nop] at h
              exact ⟨fun hj => by simp [hj] at h, hnext false h.2 (by simp)⟩
          | jump l => exact ⟨fun _ => by simp [Live], hnext true h fun _ => ⟨l, rfl⟩⟩
          | _ => exact ⟨fun _ => by simp [Live], hnext false h (by simp)⟩

theorem live_label (h : Guarded false code) (l : Nat) : Live code (labelIdx code l) := by
  rcases labelIdx_spec code l with hzero | hlabel
  · rw [hzero]
    exact (guarded_live h).1 rfl
  · rw [Live, hlabel]
    simp

theorem marks_revive (l : Nat) (c : Pir) : marks l (revive c) = marks l c := by
  cases c with
  | insn i => cases i <;> rfl
  | _ => rfl

theorem labelIdx_revive : labelIdx (code.map revive) = labelIdx code := by
  funext l
  unfold labelIdx
  rw [List.length_map]
  congr 2
  funext i
  rw [List.getElem?_map]
  cases code[i]? with
  | none => rfl
  | some c => exact marks_revive l c

theorem aListStep_revive {σ : AState} (h : Live code σ.ip) :
    aListStep a (code.map revive) σ = aListStep a code σ := by
  have hlink : ∀ k i, linkAt (code.map revive) k i = linkAt code k i := by
    intro k i
    rw [linkAt, linkAt, labelIdx_revive]
  have hget : (code.map revive)[σ.ip]? = code[σ.ip]? := by
    rw [List.getElem?_map]
    rcases hk : code[σ.ip]? with _ | (l | name | i)
    · rfl
    · rfl
    · rfl
    · cases i with
      | nop => exact absurd hk h
      | _ => rfl
  rw [aListStep, aListStep, hget]
  simp only [hlink]

end Dead

section Steps

theorem listStep_sim (h : Ok a.input ref p s) (hplaced : Placed (absState ref p s))
    (htbl : s.tbl = none) : NextPlaced (aListStep a code (absState ref p s)) ∧
      NextTable false (aListStep a code (absState ref p s)) ∧
      NextSim a.input ref p s.mem (listStep a code s) (aListStep a code (absState ref p s)) := by
  have hinsn : ∀ i, NextPlaced (aInsn a none (absState ref p s) i) ∧
      NextTable false (aInsn a none (absState ref p s) i) ∧
      NextSim a.input ref p s.mem (vmInsn a s i) (aInsn a none (absState ref p s) i) := by
    intro i
    obtain ⟨hit, htie, hpl, hnext, hsim⟩ := vmInsn_step_sim h hplaced i
    have hnone : aInsn a hit (absState ref p s) i = aInsn a none (absState ref p s) i := by
      cases hid : lookupId i with
      | none => cases i <;> first | rfl | cases hid
      | some id =>
          have hlookup : (lookup s id).2 = none := by rw [lookup, htbl]
          rw [(htie id hid).2, hlookup, Option.map_none]
    rw [hnone, htbl] at hnext
    rw [hnone] at hpl hsim
    exact ⟨hpl, hnext, hsim⟩
  have hskip : NextPlaced (aNextIp (absState ref p s)) ∧
      NextTable false (aNextIp (absState ref p s)) ∧
      NextSim a.input ref p s.mem (nextIp s) (aNextIp (absState ref p s)) := by
    have hnext : (absState ref p s).tbl.isSome = false := by
      rw [absState, htbl]
      rfl
    exact ⟨hplaced.nextIp, hnext, (h.sim (.refl _)).nextIp⟩
  unfold listStep aListStep
  change NextPlaced _ ∧ NextTable false _ ∧ NextSim _ _ _ _ _ _
  have hip : (absState ref p s).ip = s.ip := rfl
  rw [hip]
  rcases code[s.ip]? with _ | (l | name | i)
  · exact hinsn _
  · exact hskip
  · exact ⟨by rintro s' ⟨⟩, trivial, nextSim_aborted name⟩
  · cases i with
    | nop => exact hskip
    | _ => exact hinsn _

theorem listStep_confined (hguard : Guarded false code) (hs : Confined (Live code) s) :
    NextConfined (Live code) (listStep a code s) := by
  have hfollow := (guarded_live hguard).2 s.ip
  unfold listStep
  split
  · rintro s' ⟨⟩
  · next l hl => exact nextConfined_next (hfollow (by simp [hl])) hs.stack
  · rintro s' ⟨⟩
  · next hnop => exact absurd hnop hs.ip
  · next i hnop hi =>
      by_cases hjump : ∃ l, i = .jump l
      · obtain ⟨l, rfl⟩ := hjump
        exact nextConfined_jump (live_label hguard l) hs.stack
      · refine vmInsn_confined hs.stack _ (hfollow fun l hl => ?_) fun l hl => ?_
        · rw [hi] at hl
          cases hl
          exact hjump ⟨l, rfl⟩
        · rw [linkAt_target] at hl
          obtain ⟨l', -, rfl⟩ := Option.map_eq_some_iff.mp hl
          exact live_label hguard l'

/-- What the end of a run shows. -/
inductive Ended : ANext → Outcome → Prop
  | failed {s : AState} : Ended (.failed s) .fail
  | done {s : AState} : Ended (.done s true) (.ok s.pos s.capt)
  | stopped {s : AState} : Ended (.done s false) .stop

theorem ended_of_final {ρ : ANext} {o : Outcome} (h : Final a code ρ o) (hρ : ∀ σ, ρ ≠ .running σ) :
    Ended ρ o := by
  cases h with
  | failed => exact .failed
  | done => exact .done
  | stopped => exact .stopped
  | step => exact absurd rfl (hρ _)

/-- A run of the abstract machine over the list with its returns is a run of the
machine over the list without them. -/
theorem listLoop_of_final (hguard : Guarded false code) {σ : ANext} {o : Outcome}
    (h : Final a (code.map revive) σ o) (hσ : σ = .running (absState ref p s))
    (hok : Ok a.input ref p s) (hplaced : Placed (absState ref p s)) (htbl : s.tbl = none)
    (hs : Confined (Live code) s) : ∃ fuel r ref' p', listLoop a code fuel s = some r ∧
      Ended (absNext ref' p' r) o ∧
        ∀ t, nextState r = some t → Ok a.input ref' p' t ∧ t.tbl = none := by
  induction h generalizing s ref p with
  | failed | done | stopped => cases hσ
  | @step σ o hfinal ih =>
      cases hσ
      obtain ⟨hpl, hnext, ref', p', habs, hok'⟩ := @listStep_sim a code _ _ _ hok hplaced htbl
      have hconf := listStep_confined (a := a) hguard hs
      rw [aListStep_revive hs.ip, ← habs] at hfinal ih
      rw [← habs] at hpl hnext
      have hstate : ∀ t, nextState (listStep a code s) = some t →
          Ok a.input ref' p' t ∧ t.tbl = none := by
        intro t ht
        have hsome := nextTable_absNext hnext ht
        exact ⟨(hok' t ht).1, Option.isNone_iff_eq_none.mp (Option.isSome_eq_false_iff.mp hsome)⟩
      cases hstep : listStep a code s with
      | running t =>
          rw [hstep] at hpl hconf hstate ih
          obtain ⟨hokt, htblt⟩ := hstate t rfl
          obtain ⟨fuel, r, hrest⟩ := ih rfl hokt (hpl _ rfl) htblt (hconf t rfl)
          exact ⟨fuel + 1, r, by simpa only [listLoop, hstep] using hrest⟩
      | _ =>
          rw [hstep] at hfinal hstate
          have hended := ended_of_final hfinal (by simp [absNext])
          exact ⟨1, _, ref', p', by rw [listLoop, hstep], hended, hstate⟩

end Steps

section Whole

variable {ρ : Bindings} {b : Behaviour} {o : Outcome}

theorem labelsOf_revive (code : List Pir) : labelsOf (code.map revive) = labelsOf code := by
  rw [labelsOf, List.filterMap_map]
  refine congrArg (fun f => code.filterMap f) (funext fun c => ?_)
  cases c with
  | insn i => cases i <;> rfl
  | _ => rfl

theorem holds_revive {code : List Pir} (hopen : ∀ name, Pir.openCall name ∉ code) (pre : List Pir) :
    Holds a (pre ++ code.map revive) ρ pre.length code := by
  induction code generalizing pre with
  | nil => trivial
  | cons c code ih =>
      have hget : (pre ++ (c :: code).map revive)[pre.length]? = some (revive c) := by
        rw [List.map_cons, List.getElem?_append_right le_rfl, Nat.sub_self]
        rfl
      have hrest := ih (fun name h => hopen name (List.mem_cons_of_mem _ h)) (pre ++ [revive c])
      rw [List.append_assoc, List.length_append] at hrest
      refine ⟨?_, hrest⟩
      cases c with
      | openCall name => exact absurd List.mem_cons_self (hopen name)
      | label l => exact hget
      | insn i => exact hget

theorem leaves_end (nchecks : Nat) {e : Nat} (he : code[e]? = none) :
    Leaves a code (aStart none nchecks) e o o := by
  cases o with
  | ok j c =>
      intro f
      refine Final.step ?_
      rw [aListStep, goto_ip, he]
      exact Final.done
  | fail => exact fun i q f c => Final.failed
  | stop => rfl

theorem final_of_fragment (h : Fragment a ρ b code) (hnodup : (labelsOf code).Nodup)
    (hopen : ∀ name, Pir.openCall name ∉ code) (nchecks : Nat) (ho : b 0 o) :
    Final a (code.map revive) (.running (aStart none nchecks)) o := by
  have hcarries : Carries a (code.map revive) 0 (0 + code.length) b :=
    h.whole (by rwa [labelsOf_revive]) (holds_revive hopen [])
  refine hcarries (aStart none nchecks) 0 0 o o ho (leaves_end nchecks ?_)
  simp

def Reports (m : Mem) (r : VmResult) : Outcome → Prop
  | .ok j c => r.success = true ∧ r.pos = j ∧
      ∀ t, captureForest m t m.caps.length r.captures.toList = c
  | _ => r.success = false

theorem vmFinish_reports {ref' : List (RefIv Nat)} {p' : Nat → Int} {r : VmNext}
    (h : Ended (absNext ref' p' r) o)
    (hok : ∀ t, nextState r = some t → Ok a.input ref' p' t ∧ t.tbl = none) :
    ∃ res after, vmFinish a r = .ok (res, after) ∧ Reports after.mem res o := by
  cases r with
  | running s => cases h
  | aborted msg => cases h
  | failed s =>
      cases h
      exact ⟨_, _, rfl, rfl⟩
  | done s success =>
      cases h with
      | stopped => exact ⟨_, _, rfl, rfl⟩
      | done =>
          obtain ⟨hok, htbl⟩ := hok s rfl
          obtain ⟨res, after, hfin⟩ : ∃ res after, vmFinish a (.done s true) = .ok (res, after) :=
            ⟨_, _, rfl⟩
          obtain ⟨hmemo, -⟩ := vmFinish_ok hok rfl hfin
          obtain ⟨hforest, hcs⟩ := vmFinish_forest hok hfin
          rw [htbl] at hmemo
          obtain ⟨-, -, -, -, -, -, -, rfl⟩ := vmFinish_done hfin
          refine ⟨_, after, hfin, rfl, rfl, fun t => ?_⟩
          rw [captureForest_none hmemo t hcs, hforest]
          rfl

theorem listExec_reports {input : List UInt8} {low high : Int} (hlow : low < 0)
    (hguard : Guarded false code) {m : Mem} (hm : MemoOk m none [] p) (nchecks : Nat)
    (h : Final (listArgs code input low high) (code.map revive) (.running (aStart none nchecks)) o) :
    ∃ fuel res after, listExec fuel code input low high m none nchecks = some (.ok (res, after)) ∧
      Reports after.mem res o := by
  obtain ⟨hok, habs⟩ := vmStart_ok (a := listArgs code input low high) hm nchecks
  have hs : Confined (Live code) (vmStart (listArgs code input low high) m none nchecks) :=
    ⟨(guarded_live hguard).1 rfl, by simp [vmStart, addresses]⟩
  obtain ⟨fuel, r, ref', p', hrun, hended, hend⟩ :=
    listLoop_of_final hguard h (by rw [habs, Option.map_none]) hok
      (habs ▸ aStart_placed none nchecks) rfl hs
  obtain ⟨res, after, hfin, hreports⟩ := vmFinish_reports hended hend
  refine ⟨fuel, res, after, ?_, hreports⟩
  have hwindow : ¬((listArgs code input low high).windowed = true ∧
      (none : Option MemoTable).isNone = true) := by
    simp [VmArgs.windowed, listArgs, hlow]
  simp only [listExec, if_neg hwindow, vmClear, Option.bind_eq_bind, Option.bind_some, hrun,
    Option.map_some, hfin]

end Whole

end Libpeg.ListResults
