import Libpeg.Anchoring
import Libpeg.ControlSimulation

namespace Libpeg.Window

open Libpeg.Charset Libpeg.Opcode Libpeg.Code Libpeg.IntervalRefinement Libpeg.Memo Libpeg.Input
open Libpeg.Vm Libpeg.Peg Libpeg.MemoView Libpeg.Forest Libpeg.AbstractVm Libpeg.Simulation
open Libpeg.Positions Libpeg.RunSimulation Libpeg.Relocation Libpeg.Session
open Libpeg.ControlSimulation Libpeg.Anchoring

/-- Every capture, at any depth, overlaps the window. -/
def AllOverlap (low high : Int) : CapForest → Prop
  | .nil => True
  | .cons _ start length children rest =>
      (start < high ∧ start + length > low) ∧ AllOverlap low high children ∧
        AllOverlap low high rest

instance decidableAllOverlap (low high : Int) : ∀ f : CapForest, Decidable (AllOverlap low high f)
  | .nil => isTrue trivial
  | .cons _ start length children rest =>
      have := decidableAllOverlap low high children
      have := decidableAllOverlap low high rest
      inferInstanceAs (Decidable ((start < high ∧ start + length > low) ∧ _ ∧ _))

theorem AllOverlap.append {low high : Int} {f g : CapForest} (hf : AllOverlap low high f)
    (hg : AllOverlap low high g) : AllOverlap low high (f.append g) := by
  induction f with
  | nil => exact hg
  | cons id start length children rest _ ih => exact ⟨hf.1, hf.2.1, ih hf.2.2⟩

/-- All captures that the machine holds overlap the window. -/
structure Framed (a : VmArgs) (s : AState) : Prop where
  stack : ∀ e ∈ s.stack, AllOverlap a.windowLow a.windowHigh e.capt
  capt : AllOverlap a.windowLow a.windowHigh s.capt

def NextFramed (a : VmArgs) : ANext → Prop
  | .running s | .done s _ | .failed s => Framed a s
  | .aborted _ => True

section Machine

variable {a : VmArgs} {s : AState}

theorem Framed.tail {e : AFrame} {rest : List AFrame} (h : Framed a s)
    (hs : s.stack = e :: rest) : Framed a { s with stack := rest } :=
  ⟨fun e' he' => h.stack e' (hs ▸ List.mem_cons_of_mem e he'), h.capt⟩

theorem Framed.addCapt (h : Framed a s) {f : CapForest}
    (hf : AllOverlap a.windowLow a.windowHigh f) : Framed a (aAddCapt s f) := by
  unfold aAddCapt
  split
  · exact ⟨h.stack, h.capt.append hf⟩
  · next e rest hs =>
      refine ⟨fun e' he' => ?_, h.capt⟩
      rcases List.mem_cons.mp he' with rfl | hrest
      · exact (h.stack e (by rw [hs]; exact List.mem_cons_self)).append hf
      · exact h.stack e' (by rw [hs]; exact List.mem_cons_of_mem e hrest)

theorem Framed.pop {e : AFrame} {rest : List AFrame} (h : Framed a s)
    (hs : s.stack = e :: rest) (e' : StEntry) : Framed a (aPop s ⟨e', e.capt⟩ rest) :=
  (h.tail hs).addCapt (h.stack e (hs ▸ List.mem_cons_self))

theorem Framed.push (h : Framed a s) (e : StEntry) : Framed a (aPush s e) := by
  refine ⟨fun e' he' => ?_, h.capt⟩
  rcases List.mem_cons.mp he' with rfl | hrest
  · trivial
  · exact h.stack e' hrest

theorem Framed.setTop {e : AFrame} {rest : List AFrame} (h : Framed a s)
    (hs : s.stack = e :: rest) (e' : StEntry) :
    Framed a { s with stack := ⟨e', e.capt⟩ :: rest } := by
  refine ⟨fun d hd => ?_, h.capt⟩
  rcases List.mem_cons.mp hd with rfl | hrest
  · exact h.stack e (hs ▸ List.mem_cons_self)
  · exact h.stack d (hs ▸ List.mem_cons_of_mem e hrest)

theorem aMemoize_windowed (hw : a.windowed = true) (id : Int) (pos : Nat) (mlen count : Int)
    (f : CapForest) : aMemoize a s id pos mlen count f = s := by
  unfold aMemoize
  cases s.tbl with
  | none => rfl
  | some t => simp [hw]

theorem Framed.nextIp (h : Framed a s) : NextFramed a (aNextIp s) :=
  ⟨h.stack, h.capt⟩

theorem Framed.jumpTo (h : Framed a s) (l : Nat) : NextFramed a (aJumpTo s l) :=
  ⟨h.stack, h.capt⟩

theorem aFail_framed (hw : a.windowed = true) (stack : List AFrame)
    (hstack : ∀ e ∈ stack, AllOverlap a.windowLow a.windowHigh e.capt)
    (hcapt : AllOverlap a.windowLow a.windowHigh s.capt) : NextFramed a (aFail a stack s) := by
  induction stack with
  | nil => exact ⟨by simp, hcapt⟩
  | cons e rest ih =>
      have hrest : ∀ e ∈ rest, AllOverlap a.windowLow a.windowHigh e.capt :=
        fun d hd => hstack d (List.mem_cons_of_mem e hd)
      rw [aFail]
      split
      · exact ⟨hrest, hcapt⟩
      · rw [aMemoize_windowed hw]
        exact ih hrest
      · exact ih hrest

theorem Framed.goFail (hw : a.windowed = true) (h : Framed a s) : NextFramed a (aGoFail a s) :=
  aFail_framed hw s.stack h.stack h.capt

theorem Framed.treeClose (h : Framed a s) (id : Int) (fuel : Nat) :
    Framed a (aTreeClose id fuel s) := by
  induction fuel generalizing s with
  | zero => exact h
  | succ fuel ih =>
      rw [aTreeClose]
      split
      · next e rest hs =>
          split
          · split
            · exact ih (h.pop hs _)
            · exact h
          · exact h
      · exact h

theorem Framed.popMany (h : Framed a s) (n : Nat) : Framed a (aPopMany n s) := by
  induction n generalizing s with
  | zero => exact h
  | succ n ih =>
      rw [aPopMany]
      split
      · next e rest hs => exact ih (h.pop hs _)
      · exact h

theorem Framed.treeMerge (hw : a.windowed = true) (h : Framed a s) (seen : Nat) (accum : Int) :
    Framed a (aTreeMerge a seen accum s) := by
  have hmany := h.popMany (seen - 1)
  rw [aTreeMerge]
  generalize aPopMany (seen - 1) s = t at hmany
  dsimp only
  split
  · next id pos count capt rest ht =>
      have hpop := hmany.pop ht (.memoTree id pos count)
      generalize aPop t ⟨.memoTree id pos count, capt⟩ rest = u at hpop
      split
      · next id pos count capt rest hu =>
          rw [aMemoize_windowed hw]
          exact hpop.setTop hu _
      · exact hpop
  · exact hmany

theorem Framed.treeLoop (hw : a.windowed = true) (h : Framed a s) (fuel seen : Nat)
    (accum : Int) : Framed a (aTreeLoop a fuel seen accum s) := by
  induction fuel generalizing seen accum s with
  | zero => exact h
  | succ fuel ih =>
      rw [aTreeLoop]
      split
      · split
        · exact ih h _ _
        · exact ih (h.treeMerge hw _ _) _ _
      · exact h

theorem overlap_of_inWindow (hw : a.windowed = true) {low high : Int}
    (h : inWindow a low high = true) : low < a.windowHigh ∧ high > a.windowLow := by
  simp only [inWindow, hw, Bool.not_true, Bool.false_or, overlaps, Bool.and_eq_true,
    decide_eq_true_eq] at h
  omega

theorem Framed.match (hw : a.windowed = true) (h : Framed a s) (p : UInt8 → Bool) :
    NextFramed a (aMatch a s p) := by
  rw [aMatch]
  split
  · exact ⟨h.stack, h.capt⟩
  · exact Framed.goFail (s := aPeek s) hw ⟨h.stack, h.capt⟩

theorem Framed.test (h : Framed a s) (p : UInt8 → Bool) (choice : Bool) (l : Nat) :
    NextFramed a (aTestInsn a s p choice l) := by
  rw [aTestInsn]
  split
  · cases choice with
    | true =>
        have hpush := Framed.push (s := aPeek s) ⟨h.stack, h.capt⟩ (.btrack l s.pos)
        exact ⟨hpush.stack, hpush.capt⟩
    | false => exact ⟨h.stack, h.capt⟩
  · exact ⟨h.stack, h.capt⟩

theorem Framed.captureEnd (hw : a.windowed = true) (h : Framed a s) (hit : Option AEntry) :
    NextFramed a (aInsn a hit s .captureEnd) := by
  simp only [aInsn]
  split
  · next id pos capt rest hs =>
      split
      · next hin =>
          have hover := overlap_of_inWindow hw hin
          have hcapt := h.stack ⟨.capt id pos, capt⟩ (hs ▸ List.mem_cons_self)
          have hnew : AllOverlap a.windowLow a.windowHigh
              (.cons id pos ((s.pos : Int) - pos) capt .nil) := ⟨by omega, hcapt, trivial⟩
          exact ((h.tail hs).addCapt hnew).nextIp
      · exact (h.tail hs).nextIp
  · trivial

theorem Framed.checkEnd (hw : a.windowed = true) (h : Framed a s) (hit : Option AEntry) (k : Nat) :
    NextFramed a (aInsn a hit s (.checkEnd k)) := by
  simp only [aInsn]
  split
  · next id pos flag capt rest hs =>
      have hpop := h.pop hs (.check id pos flag)
      split
      · exact hpop.nextIp
      · split
        · exact Framed.goFail (s := { aPop s _ rest with nchecks := _ }) hw
            ⟨hpop.stack, hpop.capt⟩
        · split
          · exact Framed.goFail (s := { aPop s _ rest with nchecks := _ }) hw
              ⟨hpop.stack, hpop.capt⟩
          · exact ⟨hpop.stack, hpop.capt⟩
  · trivial

/-- One instruction of a windowed run; the captures of a hit are inside by assumption. -/
theorem aInsn_framed (hw : a.windowed = true) (h : Framed a s) {hit : Option AEntry}
    (hhit : ∀ e, hit = some e → e.length ≠ -1 → AllOverlap a.windowLow a.windowHigh e.capt)
    (i : VmInsn) : NextFramed a (aInsn a hit s i) := by
  cases i with
  | char b => exact h.match hw _
  | set set => exact h.match hw _
  | jump l => exact h.jumpTo l
  | choice l => exact (h.push _).nextIp
  | call l => exact (h.push _).jumpTo l
  | commit l =>
      simp only [aInsn]
      split
      · trivial
      · next e rest hs => exact (h.pop hs _).jumpTo l
  | ret =>
      simp only [aInsn]
      split
      · next ip capt rest hs => exact (h.pop hs _).jumpTo ip
      · trivial
  | fail => exact h.goFail hw
  | any n =>
      simp only [aInsn]
      split
      · exact ⟨h.stack, h.capt⟩
      · exact Framed.goFail (s := aAdvance s n.toNat) hw ⟨h.stack, h.capt⟩
  | partialCommit l =>
      simp only [aInsn]
      split
      · next ip off capt rest hs =>
          have hpop := h.pop hs (.btrack ip s.pos)
          have hpush := hpop.push (.btrack ip s.pos)
          exact ⟨hpush.stack, hpush.capt⟩
      · trivial
  | span set => exact ⟨h.stack, h.capt⟩
  | backCommit l =>
      simp only [aInsn]
      split
      · next ip off capt rest hs =>
          have hpop := h.pop hs (.btrack ip off)
          exact ⟨hpop.stack, hpop.capt⟩
      · trivial
  | failTwice =>
      simp only [aInsn]
      split
      · exact h.goFail hw
      · next e rest hs => exact (h.tail hs).goFail hw
  | empty mask =>
      simp only [aInsn]
      generalize emptyOpContext _ _ &&& mask.toNat = context
      split
      · exact h.nextIp
      · exact h.goFail hw
  | testChar b l => exact h.test _ true l
  | testCharNoChoice b l => exact h.test _ false l
  | testSet set l => exact h.test _ true l
  | testSetNoChoice set l => exact h.test _ false l
  | testAny n l =>
      simp only [aInsn]
      split
      · have hpush := h.push (.btrack l s.pos)
        exact ⟨hpush.stack, hpush.capt⟩
      · exact h.jumpTo l
  | endOp b => exact h
  | nop => trivial
  | captureBegin id => exact (h.push _).nextIp
  | captureLate back id => exact (h.push _).nextIp
  | captureEnd => exact h.captureEnd hw hit
  | captureFull back id =>
      simp only [aInsn]
      split
      · next hin =>
          have hover := overlap_of_inWindow hw hin
          have hnew : AllOverlap a.windowLow a.windowHigh
              (.cons id ((s.pos : Int) - back) back .nil .nil) := ⟨by omega, trivial, trivial⟩
          exact (h.addCapt hnew).nextIp
      · exact h.nextIp
  | checkBegin id flag => exact (h.push _).nextIp
  | checkEnd k => exact h.checkEnd hw hit k
  | memoOpen l id =>
      simp only [aInsn]
      split
      · next e =>
          split
          · exact h.goFail hw
          · next hlen =>
              have hadd := h.addCapt (hhit e rfl hlen)
              exact ⟨hadd.stack, hadd.capt⟩
      · exact (h.push _).nextIp
  | memoClose =>
      simp only [aInsn]
      split
      · next id pos capt rest hs =>
          rw [aMemoize_windowed hw]
          exact (h.pop hs _).nextIp
      · trivial
  | memoTreeOpen l id =>
      simp only [aInsn]
      split
      · next e =>
          split
          · exact h.goFail hw
          · next hlen =>
              have hadd := (h.push (.memoTree id s.pos e.count)).addCapt (hhit e rfl hlen)
              exact ⟨hadd.stack, hadd.capt⟩
      · exact (h.push _).nextIp
  | memoTreeInsert =>
      simp only [aInsn]
      split
      · next id pos count capt rest hs =>
          rw [aMemoize_windowed hw]
          exact (h.setTop hs _).nextIp
      · trivial
  | memoTree => exact (h.treeLoop hw _ 0 0).nextIp
  | memoTreeClose id => exact (h.treeClose id _).nextIp
  | error k => exact ⟨h.stack, h.capt⟩

end Machine

/-- If the next instruction takes a hit, the captures of the entry overlap the window. -/
def HitInside (a : VmArgs) (s : VmState) : Prop :=
  ∀ t ∈ s.tbl, ∀ e ∈ lookupNow a s, e.length ≠ -1 →
    AllOverlap a.windowLow a.windowHigh (captureForest s.mem t s.mem.caps.length e.captures)

instance (a : VmArgs) (s : VmState) : Decidable (HitInside a s) :=
  inferInstanceAs (Decidable (∀ t ∈ s.tbl, ∀ e ∈ lookupNow a s, e.length ≠ -1 → _))

section Run

variable {a : VmArgs} {ref : List (RefIv Nat)} {p : Nat → Int} {s : VmState}

theorem HitInside.found (h : HitInside a s) (hok : Ok a.input ref p s) {i : VmInsn} {id : Int}
    (hi : a.code.prog[s.ip]? = some i) (hid : lookupId i = some id) {e : AEntry}
    (he : (lookup s id).2.map (foundEntry p s id) = some e) (hlen : e.length ≠ -1) :
    AllOverlap a.windowLow a.windowHigh e.capt := by
  obtain ⟨entry, hentry, rfl⟩ := Option.map_eq_some_iff.mp he
  obtain ⟨t, ht⟩ : ∃ t, s.tbl = some t := by
    cases ht : s.tbl with
    | none => simp [lookup, ht] at hentry
    | some t => exact ⟨t, rfl⟩
  have hnow : lookupNow a s = some entry := by
    rw [lookupNow, hi, Option.bind_some]
    cases i with
    | memoOpen | memoTreeOpen =>
        cases hid
        exact hentry
    | _ => cases hid
  obtain ⟨-, -, -, -, -, -, -, hcs⟩ := lookup_spec hok id
  have hmemo := hok.memo
  rw [ht] at hmemo
  have hforest := h t ht entry hnow hlen
  rwa [captureForest_eq hmemo (hcs entry hentry)] at hforest

theorem vmStep_framed (hw : a.windowed = true) (h : Ok a.input ref p s)
    (hplaced : Placed (absState ref p s)) (hframed : Framed a (absState ref p s))
    (hhit : HitInside a s) {s' : VmState} (hs' : nextState (vmStep a s) = some s') :
    ∃ ref' p', Ok a.input ref' p' s' ∧ Framed a (absState ref' p' s') ∧
      (vmStep a s = .running s' → Placed (absState ref' p' s')) ∧
      s'.tbl.isSome = s.tbl.isSome := by
  unfold vmStep at hs' ⊢
  cases hi : a.code.prog[s.ip]? with
  | none =>
      rw [hi] at hs'
      cases hs'
  | some i =>
      rw [hi] at hs'
      dsimp only at hs' ⊢
      obtain ⟨hit, htie, hpl, htbl, ref', p', habs, hok⟩ := vmInsn_step_sim h hplaced i
      have hnext : NextFramed a (aInsn a hit (absState ref p s) i) := by
        cases hid : lookupId i with
        | none =>
            have heq : aInsn a hit (absState ref p s) i = aInsn a none (absState ref p s) i := by
              cases i with
              | memoOpen | memoTreeOpen => cases hid
              | _ => rfl
            rw [heq]
            exact aInsn_framed hw hframed (by simp) i
        | some id =>
            refine aInsn_framed hw hframed (fun e he hlen => ?_) i
            exact hhit.found h hi hid ((htie id hid).2 ▸ he) hlen
      rw [← habs] at hnext hpl htbl
      refine ⟨ref', p', (hok s' hs').1, ?_, ?_, nextTable_absNext htbl hs'⟩
      · cases hr : vmInsn a s i with
        | aborted msg =>
            rw [hr] at hs'
            cases hs'
        | _ =>
            rw [hr] at hs' hnext
            cases hs'
            exact hnext
      · intro hrun
        rw [hrun] at hpl
        exact hpl _ rfl

theorem boundary_framed (hw : a.windowed = true) (h : Ok a.input ref p s)
    (hplaced : Placed (absState ref p s)) (hframed : Framed a (absState ref p s))
    (hhits : ∀ st, Boundary a s st → HitInside a st) {s' : VmState} (hb : Boundary a s s') :
    ∃ ref' p', Ok a.input ref' p' s' ∧ Placed (absState ref' p' s') ∧
      Framed a (absState ref' p' s') ∧ s'.tbl.isSome = s.tbl.isSome := by
  induction hb with
  | start => exact ⟨ref, p, h, hplaced, hframed, rfl⟩
  | @step s₁ s₂ hb hstep ih =>
      obtain ⟨ref₁, p₁, hok₁, hplaced₁, hframed₁, htbl₁⟩ := ih
      obtain ⟨ref₂, p₂, hok₂, hframed₂, hplaced₂, htbl₂⟩ :=
        vmStep_framed hw hok₁ hplaced₁ hframed₁ (hhits s₁ hb) (by rw [hstep]; rfl)
      exact ⟨ref₂, p₂, hok₂, hplaced₂ hstep, hframed₂, htbl₂.trans htbl₁⟩

end Run

/-- Calls that leave the subject as it is, or replace it as a whole. -/
def NoEdit (_ : Peg) : PegOp → Prop
  | .edit _ _ _ => False
  | _ => True

theorem session_memoOk {code : VmCode} {threshold : Int} {s : PegSession}
    (h : SessionRun NoEdit code threshold s) : ∃ ref p, MemoOk s.peg.mem (some s.peg.tbl) ref p := by
  induction h with
  | new => exact ⟨_, _, memoOk_new (p := fun _ => 0) threshold⟩
  | exec h hP hop hrun ih =>
      obtain ⟨ref, p, hok⟩ := ih
      obtain ⟨ref', hok', -⟩ := execArgs_ok hok hop
      obtain ⟨-, ref'', p'', hok'', -⟩ := pegExec_ok hok' hrun
      exact ⟨ref'', p'', hok''⟩
  | edit h hP hedit ih => exact absurd hP not_false
  | @free s i r h hr ih =>
      obtain ⟨ref, p, hok⟩ := ih
      exact ⟨ref, p, hok.congr (foldl_memoCaptureFree _ _).1 (foldl_memoCaptureFree _ _).2⟩

/-- A window extraction whose hits are all inside the window returns nothing outside of
it, after any calls without edits. -/
theorem window_extraction_inside {code : VmCode} {threshold : Int} {s : PegSession}
    (h : SessionRun NoEdit code threshold s) {low high : Int} (hlow : 0 ≤ low)
    {fuel : Nat} {r : VmResult} {g' : Peg}
    (hrun : pegCaptureInterval fuel s.peg low high = some (.ok (r, g')))
    (hhits : ∀ start, pegStart fuel s.peg low high = some start →
      ∀ st, Boundary (s.peg.args low high) start st → HitInside (s.peg.args low high) st) :
    AllOverlap low high (captureForest g'.mem g'.tbl g'.mem.caps.length r.captures.toList) := by
  obtain ⟨ref, p, hok⟩ := session_memoOk h
  have hw : (s.peg.args low high).windowed = true := by
    simpa [VmArgs.windowed, Peg.args] using hlow
  obtain ⟨after, rfl, ⟨-, hmem, -, hroot⟩ | ⟨start, n, hs, hn, hfin⟩⟩ := pegExec_cases hrun
  · have hroot' : after.mem.cap s.peg.mem.caps.length = ⟨0, true, 0, 0, none, []⟩ := by
      simp [hmem, memoCaptureDummy, Mem.cap]
    have hempty : ∀ fuel, captureForest after.mem (after.tbl.getD s.peg.tbl) fuel [] = .nil := by
      intro fuel
      cases fuel <;> rfl
    have hlen : after.mem.caps.length = s.peg.mem.caps.length + 1 := by
      simp [hmem, memoCaptureDummy]
    dsimp only
    rw [hroot, hlen]
    simp only [captureForest, Option.toList_some, List.foldr_cons, List.foldr_nil, hroot', if_true,
      hempty]
    trivial
  · obtain ⟨hstart, habs, -⟩ := pegStart_started hok hs
    obtain ⟨hplaced, hsome⟩ := started_placed habs
    have hframed : Framed (s.peg.args low high) (absState
        (startRef (s.peg.args low high) ref) p start) := by
      rw [habs]
      exact ⟨by simp [aStart], trivial⟩
    obtain ⟨st, hb, rfl⟩ := vmLoop_boundary hn
    obtain ⟨ref₁, p₁, hok₁, hplaced₁, hframed₁, htbl₁⟩ :=
      boundary_framed hw hstart hplaced hframed (hhits start hs) hb
    obtain ⟨s', hs'⟩ : ∃ s', nextState (vmStep (s.peg.args low high) st) = some s' := by
      cases hstep : vmStep (s.peg.args low high) st with
      | aborted msg =>
          rw [hstep] at hfin
          cases hfin
      | _ => exact ⟨_, rfl⟩
    obtain ⟨ref₂, p₂, hok₂, hframed₂, -, htbl₂⟩ :=
      vmStep_framed hw hok₁ hplaced₁ hframed₁ (hhits start hs st hb) hs'
    obtain ⟨t, ht⟩ : ∃ t, s'.tbl = some t :=
      Option.isSome_iff_exists.mp ((htbl₂.trans htbl₁).trans hsome)
    obtain ⟨hmemo, -, htbl⟩ := vmFinish_ok hok₂ hs' hfin
    rw [ht] at hmemo htbl
    rw [htbl]
    generalize vmStep (s.peg.args low high) st = n at hs' hfin
    cases n with
    | running | aborted => cases hfin
    | failed =>
        cases hs'
        cases hfin
        cases hlen : (freeAll s'.mem s'.capt).caps.length <;> exact trivial
    | done =>
        cases hs'
        obtain ⟨hforest, hcs⟩ := vmFinish_forest hok₂ hfin
        change AllOverlap low high (captureForest after.mem t after.mem.caps.length _)
        rw [captureForest_eq hmemo hcs, hforest]
        exact hframed₂.capt

/-- `P` holds in every state of a run that ends within a number of instructions. -/
def holdsInRun (a : VmArgs) (P : VmState → Prop) [DecidablePred P] : Nat → VmState → Bool
  | 0, _ => false
  | n + 1, s =>
      decide (P s) &&
        match vmStep a s with
        | .running s' => holdsInRun a P n s'
        | _ => true

theorem boundary_cases {a : VmArgs} {s st : VmState} (h : Boundary a s st) :
    st = s ∨ ∃ s', vmStep a s = .running s' ∧ Boundary a s' st := by
  induction h with
  | start => exact .inl rfl
  | step h hstep ih =>
      rcases ih with rfl | ⟨s', hfirst, hrest⟩
      · exact .inr ⟨_, hstep, .start⟩
      · exact .inr ⟨s', hfirst, .step hrest hstep⟩

theorem holdsInRun_boundary {a : VmArgs} {P : VmState → Prop} [DecidablePred P] {n : Nat}
    {s : VmState} (h : holdsInRun a P n s = true) {st : VmState} (hb : Boundary a s st) : P st := by
  induction n generalizing s with
  | zero => cases h
  | succ n ih =>
      rw [holdsInRun, Bool.and_eq_true] at h
      rcases boundary_cases hb with rfl | ⟨s', hstep, hrest⟩
      · exact of_decide_eq_true h.1
      · rw [hstep] at h
        exact ih h.2 hrest

/-- A memoized pattern in front of a letter and a captured one. -/
def before (p : Pattern.Pat) : Pattern.Pat :=
  .seq (.memo p 1) (.seq (.literal [98]) (.cap (.literal [99]) 8))

/-- The extraction of a window from a parser, if it returns. -/
def extracted (s : PegSession) (low high : Int) : Option (VmResult × Peg) :=
  (pegCaptureInterval 40 s.peg low high).bind Except.toOption

theorem pegCaptureInterval_of_extracted {s : PegSession} {low high : Int} {r : VmResult} {g' : Peg}
    (h : extracted s low high = some (r, g')) :
    pegCaptureInterval 40 s.peg low high = some (.ok (r, g')) := by
  unfold extracted at h
  rcases hrun : pegCaptureInterval 40 s.peg low high with _ | (msg | res)
  · simp [hrun] at h
  · simp [hrun, Except.toOption] at h
  · simp [hrun, Except.toOption] at h
    rw [h]

instance (g : Peg) (op : PegOp) : Decidable (NoEdit g op) :=
  match op with
  | .edit _ _ _ => isFalse not_false
  | .parse _ | .reparse | .captureInterval _ _ => isTrue trivial

/-- A hit without captures. -/
theorem window_extraction_inside_letter : ∃ (s : PegSession) (r : VmResult) (g' : Peg),
    SessionRun NoEdit (compiledCode 20 (before (.literal [97]))) 0 s ∧
      pegCaptureInterval 40 s.peg 2 3 = some (.ok (r, g')) ∧
      AllOverlap 2 3 (captureForest g'.mem g'.tbl g'.mem.caps.length r.captures.toList) := by
  have hplay : (play NoEdit [(40, .parse [97, 98, 99])]
      ⟨pegNew (compiledCode 20 (before (.literal [97]))) 0, [], []⟩).any (fun s =>
        (pegStart 40 s.peg 2 3).all
            (holdsInRun (s.peg.args 2 3) (HitInside (s.peg.args 2 3)) 40) &&
          (extracted s 2 3).isSome) = true := by
    decide +kernel
  obtain ⟨s, hs, hfacts⟩ := (Option.any_eq_true _ _).mp hplay
  obtain ⟨hhits, hsome⟩ := (Bool.and_eq_true _ _).mp hfacts
  obtain ⟨⟨r, g'⟩, hr⟩ := Option.isSome_iff_exists.mp hsome
  have hrun := play_run .new hs
  have hcall := pegCaptureInterval_of_extracted hr
  exact ⟨s, r, g', hrun, hcall, window_extraction_inside hrun (by decide) hcall
    fun start hstart st hst =>
      holdsInRun_boundary ((Option.all_eq_true _ _).mp hhits start hstart) hst⟩

/-- The capture of the memoized letter comes out of a window behind it. -/
theorem window_extraction_outside :
    ¬∀ (fuel : Nat) (memoCounter : Int) (pat : Pattern.Pat) (code : VmCode),
      Compile.patCompile fuel memoCounter pat = some (.ok code) →
      ∀ (threshold : Int) (s : PegSession), SessionRun NoEdit code threshold s →
      ∀ low high : Int, 0 ≤ low → low < high → ∀ (fuel : Nat) (r : VmResult) (g' : Peg),
      pegCaptureInterval fuel s.peg low high = some (.ok (r, g')) → r.success = true →
      AllOverlap low high (captureForest g'.mem g'.tbl g'.mem.caps.length r.captures.toList) := by
  intro h
  have hcode := @patCompile_compiledCode 20 (before (.cap (.literal [97]) 7)) (by decide +kernel)
  have hplay : (play NoEdit [(40, .parse [97, 98, 99])]
      ⟨pegNew (compiledCode 20 (before (.cap (.literal [97]) 7))) 0, [], []⟩).any (fun s =>
        (extracted s 2 3).any fun r => r.1.success && !decide (AllOverlap 2 3
          (captureForest r.2.mem r.2.tbl r.2.mem.caps.length r.1.captures.toList))) = true := by
    decide +kernel
  obtain ⟨s, hs, hfacts⟩ := (Option.any_eq_true _ _).mp hplay
  obtain ⟨⟨r, g'⟩, hr, hout⟩ := (Option.any_eq_true _ _).mp hfacts
  obtain ⟨hsuccess, hout⟩ := (Bool.and_eq_true _ _).mp hout
  have hin := h _ _ _ _ hcode 0 s (play_run .new hs) 2 3 (by decide) (by decide) 40 r g'
    (pegCaptureInterval_of_extracted hr) hsuccess
  simp [hin] at hout

end Libpeg.Window
