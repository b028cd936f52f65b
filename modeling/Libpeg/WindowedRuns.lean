import Libpeg.Transparency

namespace Libpeg.WindowedRuns

open Libpeg.Opcode Libpeg.Code Libpeg.Memo Libpeg.Vm Libpeg.AbstractVm Libpeg.Positions
open Libpeg.Compile Libpeg.Peg Libpeg.Input Libpeg.MemoView Libpeg.Simulation Libpeg.RunSimulation
open Libpeg.Relocation Libpeg.Session Libpeg.Window Libpeg.ControlMachine
open Libpeg.ControlSimulation Libpeg.StackTyping Libpeg.StackDiscipline Libpeg.ProgramTyping
open Libpeg.Segments Libpeg.PlainMachine Libpeg.PlainSimulation Libpeg.MemoSoundness
open Libpeg.Transparency

variable {a : VmArgs} {σ τ : AState}

/-- The part of a state that decides where a run goes. -/
def course (σ : AState) : AState :=
  ⟨σ.ip, σ.pos, 0, σ.stack.map fun e => ⟨e.entry, .nil⟩, .nil, none, [], σ.nchecks⟩

def nextCourse : ANext → ANext
  | .running σ => .running (course σ)
  | .done σ success => .done (course σ) success
  | .failed σ => .failed (course σ)
  | .aborted msg => .aborted msg

def whole (a : VmArgs) : VmArgs :=
  { a with windowLow := -1, windowHigh := -1 }

theorem nextCourse_ite {p q : Prop} [Decidable p] [Decidable q] {x y x' y' : ANext} (hpq : p ↔ q)
    (hx : nextCourse x = nextCourse x') (hy : nextCourse y = nextCourse y') :
    nextCourse (if p then x else y) = nextCourse (if q then x' else y') := by
  by_cases hp : p
  · rw [if_pos hp, if_pos (hpq.mp hp)]
    exact hx
  · rw [if_neg hp, if_neg (mt hpq.mpr hp)]
    exact hy

@[simp] theorem course_addCapt (σ : AState) (f : CapForest) :
    course (aAddCapt σ f) = course σ := by
  unfold aAddCapt
  split
  · rfl
  · next e rest h =>
      simp [course, h]

@[simp] theorem course_peek (σ : AState) : course (aPeek σ) = course σ :=
  rfl

@[simp] theorem course_memoize (id : Int) (pos : Nat) (mlen count : Int) (f : CapForest) :
    course (aMemoize a σ id pos mlen count f) = course σ := by
  rw [aMemoize_eq]
  rfl

@[simp] theorem course_pop (σ : AState) (e : AFrame) (rest : List AFrame) :
    course (aPop σ e rest) = course { σ with stack := rest } :=
  course_addCapt _ _

theorem course_fail (stack : List AFrame) (σ : AState) :
    nextCourse (aFail a stack σ) =
      nextCourse (aFail (whole a) (stack.map fun e => ⟨e.entry, .nil⟩) (course σ)) := by
  induction stack generalizing σ with
  | nil => simp [aFail, nextCourse, course]
  | cons e rest ih =>
      obtain ⟨e, capt⟩ := e
      cases e with
      | btrack ip off => simp [aFail, nextCourse, course, Function.comp_def]
      | memo id pos =>
          simp only [aFail, List.map_cons]
          rw [ih, course_memoize]
          rfl
      | _ => exact ih σ

theorem course_goFail (h : course σ = course τ) :
    nextCourse (aGoFail a σ) = nextCourse (aGoFail (whole a) τ) := by
  have hτ : nextCourse (aGoFail (whole a) τ) =
      nextCourse (aGoFail (whole a) (course τ)) := course_fail τ.stack τ
  rw [hτ, ← h]
  exact course_fail σ.stack σ

theorem stack_cases (h : course σ = course τ) : σ.stack = [] ∧ τ.stack = [] ∨
    ∃ e c rest c' rest', σ.stack = ⟨e, c⟩ :: rest ∧ τ.stack = ⟨e, c'⟩ :: rest' ∧
      course { σ with stack := rest } = course { τ with stack := rest' } := by
  obtain ⟨ip, pos, furthest, stack, capt, tbl, errs, nchecks⟩ := σ
  obtain ⟨ip', pos', furthest', stack', capt', tbl', errs', nchecks'⟩ := τ
  simp only [course, AState.mk.injEq] at h
  obtain ⟨rfl, rfl, -, hstack, -, -, -, rfl⟩ := h
  cases stack with
  | nil =>
      cases stack' with
      | nil => exact .inl ⟨rfl, rfl⟩
      | cons e' rest' => cases hstack
  | cons e rest =>
      cases stack' with
      | nil => cases hstack
      | cons e' rest' =>
          simp only [List.map_cons, List.cons.injEq, AFrame.mk.injEq, and_true] at hstack
          obtain ⟨he, hrest⟩ := hstack
          refine .inr ⟨e.entry, e.capt, rest, e'.capt, rest', rfl, by rw [he], ?_⟩
          simp [course, hrest]

theorem course_push (h : course σ = course τ) (e : StEntry) (c c' : CapForest) :
    course { σ with stack := ⟨e, c⟩ :: σ.stack } = course { τ with stack := ⟨e, c'⟩ :: τ.stack } := by
  simp only [course, AState.mk.injEq] at h
  simp [course, h]

theorem course_popMany (n : Nat) (h : course σ = course τ) :
    course (aPopMany n σ) = course (aPopMany n τ) := by
  induction n generalizing σ τ with
  | zero => exact h
  | succ n ih =>
      rcases stack_cases h with ⟨hs, ht⟩ | ⟨e, c, rest, c', rest', hs, ht, hrest⟩
      · simpa only [aPopMany, hs, ht] using h
      · simp only [aPopMany, hs, ht]
        refine ih ?_
        rw [course_pop, course_pop]
        exact hrest

theorem course_close (id : Int) (n : Nat) (h : course σ = course τ) :
    course (aTreeClose id n σ) = course (aTreeClose id n τ) := by
  induction n generalizing σ τ with
  | zero => exact h
  | succ n ih =>
      rcases stack_cases h with ⟨hs, ht⟩ | ⟨e, c, rest, c', rest', hs, ht, hrest⟩
      · simpa only [aTreeClose, hs, ht] using h
      · simp only [aTreeClose, hs, ht]
        cases e with
        | memoTree id' pos count =>
            dsimp only
            split
            · refine ih ?_
              rw [course_pop, course_pop]
              exact hrest
            · exact h
        | _ => exact h

theorem course_merge (seen : Nat) (accum : Int) (h : course σ = course τ) :
    course (aTreeMerge a seen accum σ) = course (aTreeMerge (whole a) seen accum τ) := by
  have hmany := course_popMany (seen - 1) h
  simp only [aTreeMerge]
  generalize aPopMany (seen - 1) σ = σ at hmany
  generalize aPopMany (seen - 1) τ = τ at hmany
  rcases stack_cases hmany with ⟨hs, ht⟩ | ⟨e, c, rest, c', rest', hs, ht, hrest⟩
  · simpa only [hs, ht] using hmany
  · simp only [hs, ht]
    cases e with
    | memoTree id pos count =>
        dsimp only
        rw [← course_pop σ ⟨.memoTree id pos count, c⟩, ← course_pop τ ⟨.memoTree id pos count, c'⟩]
          at hrest
        generalize aPop σ _ _ = σ at hrest
        generalize aPop τ _ _ = τ at hrest
        rcases stack_cases hrest with ⟨hs', ht'⟩ | ⟨e', d, rest₂, d', rest₂', hs', ht', hrest'⟩
        · simpa only [hs', ht'] using hrest
        · simp only [hs', ht']
          cases e' with
          | memoTree id pos count =>
              simp only [course_memoize]
              exact course_push hrest' _ _ _
          | _ => exact hrest
    | _ => exact hmany

theorem entries_course (h : course σ = course τ) : entries σ = entries τ := by
  have hstack := congrArg (fun s : AState => s.stack.map AFrame.entry) h
  simp only [course, List.map_map, Function.comp_def] at hstack
  exact hstack

theorem frame_cases (h : course σ = course τ) (n : Nat) :
    σ.stack[n]? = none ∧ τ.stack[n]? = none ∨
      ∃ e c c', σ.stack[n]? = some ⟨e, c⟩ ∧ τ.stack[n]? = some ⟨e, c'⟩ := by
  have hat : σ.stack[n]?.map AFrame.entry = τ.stack[n]?.map AFrame.entry := by
    rw [← List.getElem?_map, ← List.getElem?_map]
    exact congrArg (·[n]?) (entries_course h)
  cases hs : σ.stack[n]? with
  | none =>
      rw [hs] at hat
      exact .inl ⟨rfl, Option.map_eq_none_iff.mp hat.symm⟩
  | some f =>
      rw [hs] at hat
      obtain ⟨f', ht, he⟩ := Option.map_eq_some_iff.mp hat.symm
      refine .inr ⟨f.entry, f.capt, f'.capt, rfl, ?_⟩
      rw [ht, ← he]

theorem course_loop (fuel seen : Nat) (accum : Int) (h : course σ = course τ) :
    course (aTreeLoop a fuel seen accum σ) =
      course (aTreeLoop (whole a) fuel seen accum τ) := by
  induction fuel generalizing seen accum σ τ with
  | zero => exact h
  | succ fuel ih =>
      simp only [aTreeLoop]
      rcases frame_cases h seen with ⟨hs, ht⟩ | ⟨e, c, c', hs, ht⟩
      · simpa only [hs, ht] using h
      · rcases frame_cases h (seen + 1) with ⟨hs', ht'⟩ | ⟨e', d, d', hs', ht'⟩
        · simp only [hs, ht, hs', ht']
          cases e <;> exact h
        · simp only [hs, ht, hs', ht']
          cases e with
          | memoTree id pos count =>
              cases e' with
              | memoTree id' pos' next =>
                  dsimp only
                  split
                  · exact ih _ _ h
                  · exact ih _ _ (course_merge _ _ h)
              | _ => exact h
          | _ => exact h

theorem course_ip (h : course σ = course τ) : σ.ip = τ.ip := by
  simpa [course] using congrArg AState.ip h

theorem course_pos (h : course σ = course τ) : σ.pos = τ.pos := by
  simpa [course] using congrArg AState.pos h

theorem course_nchecks (h : course σ = course τ) : σ.nchecks = τ.nchecks := by
  simpa [course] using congrArg AState.nchecks h

theorem course_length (h : course σ = course τ) : σ.stack.length = τ.stack.length := by
  simpa [entries] using congrArg List.length (entries_course h)

theorem course_advance (h : course σ = course τ) (n : Nat) :
    course (aAdvance σ n) = course (aAdvance τ n) := by
  simp only [course, AState.mk.injEq] at h
  simp [course, aAdvance, h]

theorem course_next (h : course σ = course τ) :
    nextCourse (aNextIp σ) = nextCourse (aNextIp τ) := by
  simp only [course, AState.mk.injEq] at h
  simp [nextCourse, course, aNextIp, h]

theorem course_jump (h : course σ = course τ) (l : Nat) :
    nextCourse (aJumpTo σ l) = nextCourse (aJumpTo τ l) := by
  simp only [course, AState.mk.injEq] at h
  simp [nextCourse, course, aJumpTo, h]

theorem course_match (h : course σ = course τ) (p : UInt8 → Bool) :
    nextCourse (aMatch a σ p) = nextCourse (aMatch (whole a) τ p) := by
  have hpeek : course (aPeek σ) = course (aPeek τ) := h
  refine nextCourse_ite ?_ (course_next (course_advance hpeek 1)) (course_goFail hpeek)
  rw [aTest, course_pos h]
  rfl

theorem course_test (h : course σ = course τ) (p : UInt8 → Bool) (choice : Bool) (target : Nat) :
    nextCourse (aTestInsn a σ p choice target) =
      nextCourse (aTestInsn (whole a) τ p choice target) := by
  have hpeek : course (aPeek σ) = course (aPeek τ) := h
  refine nextCourse_ite ?_ (course_next (course_advance ?_ 1)) (course_jump hpeek target)
  · rw [aTest, course_pos h]
    rfl
  · cases choice with
    | false => exact hpeek
    | true =>
        rw [course_pos h]
        exact course_push hpeek _ _ _

theorem course_insn (hit : Option AEntry) (i : VmInsn) (h : course σ = course τ) :
    nextCourse (aInsn a hit σ i) = nextCourse (aInsn (whole a) hit τ i) := by
  have hip := course_ip h
  have hpos := course_pos h
  have hpush : ∀ e, course (aPush σ e) = course (aPush τ e) := fun e => course_push h e _ _
  -- the window only decides whether a capture is kept
  have hkeep : ∀ {p : Prop} [Decidable p] {σ τ : AState} (f f' : CapForest), course σ = course τ →
      nextCourse (if p then aNextIp (aAddCapt σ f) else aNextIp σ) =
        nextCourse (aNextIp (aAddCapt τ f')) := by
    intro p _ σ τ f f' h
    split
    · exact course_next (by rw [course_addCapt, course_addCapt, h])
    · exact course_next (by rw [course_addCapt, h])
  have hpops : ∀ {e c rest c' rest'},
      course { σ with stack := rest } = course { τ with stack := rest' } →
      course (aPop σ ⟨e, c⟩ rest) = course (aPop τ ⟨e, c'⟩ rest') := by
    intro e c rest c' rest' hrest
    rw [course_pop, course_pop]
    exact hrest
  cases i with
  | char b => exact course_match h _
  | set set => exact course_match h _
  | testChar b l => exact course_test h _ _ _
  | testCharNoChoice b l => exact course_test h _ _ _
  | testSet set l => exact course_test h _ _ _
  | testSetNoChoice set l => exact course_test h _ _ _
  | jump l => exact course_jump h l
  | choice l =>
      simp only [aInsn, hpos]
      exact course_next (hpush _)
  | call l =>
      simp only [aInsn, hip]
      exact course_jump (hpush _) l
  | fail => exact course_goFail h
  | any n =>
      refine nextCourse_ite ?_ (course_next (course_advance h _)) (course_goFail (course_advance h _))
      rw [hpos]
      rfl
  | span set =>
      simp only [aInsn, hpos]
      refine course_next ?_
      simp only [course, AState.mk.injEq] at h
      simp [course, h, whole]
  | empty mask =>
      refine nextCourse_ite ?_ (course_next h) (course_goFail h)
      rw [hpos]
      rfl
  | testAny n l =>
      refine nextCourse_ite ?_ (course_next ?_) (course_jump h l)
      · rw [hpos]
        rfl
      · rw [hpos]
        exact course_push (course_advance h _) _ _ _
  | endOp b => simp only [aInsn, nextCourse, h]
  | nop => rfl
  | captureBegin id =>
      simp only [aInsn, hpos]
      exact course_next (hpush _)
  | captureLate back id =>
      simp only [aInsn, hpos]
      exact course_next (hpush _)
  | captureFull back id => exact hkeep _ _ h
  | checkBegin id flag =>
      simp only [aInsn, hpos]
      exact course_next (hpush _)
  | memoOpen l id =>
      cases hit with
      | none =>
          simp only [aInsn, hpos]
          exact course_next (hpush _)
      | some d =>
          refine nextCourse_ite Iff.rfl (course_goFail h) (course_jump (course_advance ?_ _) l)
          rw [course_addCapt, course_addCapt, h]
  | memoTreeOpen l id =>
      cases hit with
      | none =>
          simp only [aInsn, hpos]
          exact course_next (hpush _)
      | some d =>
          refine nextCourse_ite Iff.rfl (course_goFail h) (course_jump ?_ l)
          rw [course_peek, course_peek]
          refine course_advance ?_ _
          rw [course_addCapt, course_addCapt, hpos]
          exact hpush _
  | memoTree =>
      simp only [aInsn, aTree, course_length h]
      exact course_next (course_loop _ 0 0 h)
  | memoTreeClose id =>
      simp only [aInsn, course_length h]
      exact course_next (course_close id _ h)
  | error k => exact course_next h
  | failTwice =>
      rcases stack_cases h with ⟨hs, ht⟩ | ⟨e, c, rest, c', rest', hs, ht, hrest⟩
      · simp only [aInsn, hs, ht]
        exact course_goFail h
      · simp only [aInsn, hs, ht]
        exact course_goFail hrest
  | commit l =>
      rcases stack_cases h with ⟨hs, ht⟩ | ⟨e, c, rest, c', rest', hs, ht, hrest⟩
      · simp only [aInsn, hs, ht]
      · simp only [aInsn, hs, ht]
        exact course_jump (hpops hrest) l
  | ret =>
      rcases stack_cases h with ⟨hs, ht⟩ | ⟨e, c, rest, c', rest', hs, ht, hrest⟩
      · simp only [aInsn, hs, ht]
      · simp only [aInsn, hs, ht]
        cases e with
        | ret ip => exact course_jump (hpops hrest) ip
        | _ => rfl
  | partialCommit l =>
      rcases stack_cases h with ⟨hs, ht⟩ | ⟨e, c, rest, c', rest', hs, ht, hrest⟩
      · simp only [aInsn, hs, ht]
      · simp only [aInsn, hs, ht, hpos]
        cases e with
        | btrack ip off => exact course_jump (course_push (hpops hrest) _ _ _) l
        | _ => rfl
  | backCommit l =>
      rcases stack_cases h with ⟨hs, ht⟩ | ⟨e, c, rest, c', rest', hs, ht, hrest⟩
      · simp only [aInsn, hs, ht]
      · simp only [aInsn, hs, ht]
        cases e with
        | btrack ip off =>
            have hpop : course (aPop σ ⟨.btrack ip off, c⟩ rest) =
                course (aPop τ ⟨.btrack ip off, c'⟩ rest') := hpops hrest
            simp only [course, AState.mk.injEq] at hpop
            exact course_jump (by simp [course, hpop]) l
        | _ => rfl
  | captureEnd =>
      rcases stack_cases h with ⟨hs, ht⟩ | ⟨e, c, rest, c', rest', hs, ht, hrest⟩
      · simp only [aInsn, hs, ht]
      · simp only [aInsn, hs, ht]
        cases e with
        | capt id pos => exact hkeep _ _ hrest
        | _ => rfl
  | checkEnd k =>
      rcases stack_cases h with ⟨hs, ht⟩ | ⟨e, c, rest, c', rest', hs, ht, hrest⟩
      · simp only [aInsn, hs, ht]
      · simp only [aInsn, hs, ht]
        cases e with
        | check id pos flag =>
            have hpop : course (aPop σ ⟨.check id pos flag, c⟩ rest) =
                course (aPop τ ⟨.check id pos flag, c'⟩ rest') := hpops hrest
            dsimp only
            generalize aPop σ _ _ = σ at hpop
            generalize aPop τ _ _ = τ at hpop
            cases hfn : (a.code.checkers[k]?).join with
            | none =>
                have hfn' : ((whole a).code.checkers[k]?).join = none := hfn
                simp only [hfn']
                exact course_next hpop
            | some fn =>
                have hfn' : ((whole a).code.checkers[k]?).join = some fn := hfn
                simp only [hfn', course_nchecks hpop, course_pos hpop]
                have hcount : course { σ with pos := τ.pos, nchecks := τ.nchecks + 1 } =
                    course { τ with nchecks := τ.nchecks + 1 } := by
                  simp only [course, AState.mk.injEq] at hpop
                  simp [course, hpop]
                exact nextCourse_ite Iff.rfl (course_goFail hcount)
                  (nextCourse_ite Iff.rfl (course_goFail hcount) (course_next (course_advance hcount _)))
        | _ => rfl
  | memoClose =>
      rcases stack_cases h with ⟨hs, ht⟩ | ⟨e, c, rest, c', rest', hs, ht, hrest⟩
      · simp only [aInsn, hs, ht]
      · simp only [aInsn, hs, ht]
        cases e with
        | memo id pos => exact course_next (by simpa only [course_memoize] using hpops hrest)
        | _ => rfl
  | memoTreeInsert =>
      rcases stack_cases h with ⟨hs, ht⟩ | ⟨e, c, rest, c', rest', hs, ht, hrest⟩
      · simp only [aInsn, hs, ht]
      · simp only [aInsn, hs, ht]
        cases e with
        | memoTree id pos count =>
            refine course_next ?_
            rw [course_memoize, course_memoize]
            exact course_push hrest _ _ _
        | _ => rfl

section Shadows

variable {ready : Nat → Shape → Prop} {s : VmState} {x : Plain}

/-- A state of a run on the course of one that is faithful with the same table. -/
def Shadowed (a : VmArgs) (ready : Nat → Shape → Prop) (s : VmState) (x : Plain) : Prop :=
  ∃ ref p thr base t sh τ, Ok a.input ref p s ∧ Placed (absState ref p s) ∧ Tracks a thr base s t ∧
    ready s.ip sh ∧ Fits (Opens a.code.prog) ready sh t.stack ∧
    course (absState ref p s) = course τ ∧ τ.tbl = (absState ref p s).tbl ∧
    Faithful a.code a.input τ ∧ x.ip = s.ip ∧ x.pos = vmInputPos s.src ∧
    (pile τ).Shows Kept none x.stack

theorem placed_course (h : course σ = course τ) (hplaced : Placed σ) : Placed τ := by
  have hpositions : ∀ υ : AState, positions υ.stack = (entries υ).filterMap entryPos := fun υ => by
    simp [positions, entries, List.filterMap_map]
  rw [Placed, hpositions] at hplaced ⊢
  rw [← entries_course h, ← course_pos h]
  exact hplaced

/-- One instruction of a windowed run takes the plain machine forward, or it ends both. -/
theorem vmStep_shadowed (htyped : ProgTyped a.code.prog ready) (hids : DistinctIds a.code.prog)
    (hw : a.windowed = true) (hpure : PureCheckers a.code) (h : Shadowed a ready s x) :
    (∃ s' y, vmStep a s = .running s' ∧ Shadowed a ready s' y ∧ Advances a.code a.input x y) ∨
      (∀ s', vmStep a s ≠ .running s') ∧ Concluded a.code a.input (vmStep a s) := by
  obtain ⟨ref, p, thr, base, t, sh, τ, hok, hplaced, htracks, hready, hfits, hcourse, htbl,
    hfaithful, hip, hpos, hshow⟩ := h
  have hcfits := cStep_fits htyped thr (lookupNow a s) (htracks.ip ▸ hready) hfits
  have hctracks := vmStep_tracks htracks
  obtain ⟨ρ, hρ, hpl, -, ref', p', habs, hok'⟩ := vmStep_sim hok hplaced
  have hkeep := aStep_windowed hw hρ
  have hτip : s.ip = τ.ip := course_ip hcourse
  have hτpos : vmInputPos s.src = τ.pos := course_pos hcourse
  obtain ⟨ρ', hmap, hnext⟩ : ∃ ρ', nextCourse ρ = nextCourse ρ' ∧
      NextFaithful a.code a.input τ ρ' := by
    obtain ⟨i, sh', next, hget, hnop, hsub, hpasses, -⟩ := htyped s.ip sh hready
    cases hρ with
    | out hnone => cases hget.symm.trans hnone
    | @insn i' hit hget' hhit =>
        cases hget.symm.trans hget'
        refine ⟨_, course_insn hit i hcourse, ?_⟩
        refine Faithful.insn (a := whole a) hfaithful hids rfl hpure
          (placed_course hcourse hplaced) (hτip ▸ hget) hnop (hτip ▸ hpasses) ?_ ?_
        · rw [← entries_course hcourse, entries_abs, ← htracks.stack]
          exact hfits.sub hsub
        · rw [htbl, ← hτpos]
          exact hhit
  have hx : x = ⟨τ.ip, τ.pos, x.stack⟩ := by
    rw [← hτip, ← hτpos, ← hip, ← hpos]
  generalize cStep a thr (lookupNow a s) t = next at hcfits hctracks
  cases hstep : vmStep a s with
  | running s' =>
      rw [hstep] at habs hok' hctracks
      obtain ⟨hok', -⟩ := hok' s' rfl
      subst habs
      cases ρ' with
      | running τ' =>
          have hcourse' : course (absState ref' p' s') = course τ' := ANext.running.inj hmap
          obtain ⟨hfaithful', hadv⟩ := hnext
          cases next with
          | running t' =>
              obtain ⟨sh', hready', hfits'⟩ := hcfits
              obtain ⟨U', hU'⟩ := exists_shows Kept (pile τ')
              have hip' : s'.ip = τ'.ip := course_ip hcourse'
              have hpos' : vmInputPos s'.src = τ'.pos := course_pos hcourse'
              refine .inl ⟨s', ⟨τ'.ip, τ'.pos, U'⟩, rfl, ?_, ?_⟩
              · refine ⟨ref', p', thr, base, t', sh', { τ' with tbl := (absState ref' p' s').tbl },
                  hok', hpl _ rfl, hctracks, hctracks.ip ▸ hready', hfits', hcourse', rfl,
                  ⟨hfaithful'.shown, ?_⟩, hip'.symm, hpos'.symm, hU'⟩
                have hsame : (absState ref' p' s').tbl = τ.tbl := hkeep.trans htbl.symm
                change AllEntries _ (absState ref' p' s').tbl
                rw [hsame]
                exact hfaithful.table
              · rw [hx]
                exact hadv _ _ hshow hU'
          | _ => exact hctracks.elim
      | _ => cases hmap
  | done s' success =>
      rw [hstep] at habs
      subst habs
      cases ρ' with
      | done τ' success' =>
          obtain ⟨hcourse', rfl⟩ := ANext.done.inj hmap
          obtain ⟨-, y, hreach, hdone, hy, -⟩ := hnext
          exact .inr ⟨fun _ => by simp, y, hreach, hdone, hy.trans (course_pos hcourse').symm⟩
      | _ => cases hmap
  | failed s' =>
      rw [hstep] at habs
      subst habs
      cases ρ' with
      | failed τ' => exact .inr ⟨fun _ => by simp, hnext.2⟩
      | _ => cases hmap
  | aborted msg =>
      rw [hstep] at habs
      subst habs
      cases ρ' with
      | aborted msg' => exact hnext.elim
      | _ => cases hmap

/-- Two runs that come to an end of the plain machine end in the same way. -/
theorem concluded_same {code : VmCode} {input : List UInt8} {r₁ r₂ : VmNext}
    (h₁ : Concluded code input r₁) (h₂ : Concluded code input r₂) :
    (∃ s₁ s₂, r₁ = .failed s₁ ∧ r₂ = .failed s₂) ∨
      ∃ s₁ s₂ success, r₁ = .done s₁ success ∧ r₂ = .done s₂ success ∧
        vmInputPos s₁.src = vmInputPos s₂.src := by
  cases r₁ with
  | failed s₁ =>
      obtain ⟨x, hx, hfx⟩ := h₁
      cases r₂ with
      | failed s₂ => exact .inl ⟨s₁, s₂, rfl, rfl⟩
      | done s₂ success =>
          obtain ⟨y, hy, hfy, -⟩ := h₂
          obtain ⟨-, heq⟩ := last_unique hx hfx (fun _ => by simp) hy hfy fun _ => by simp
          cases heq
      | _ => exact h₂.elim
  | done s₁ success =>
      obtain ⟨x, hx, hfx, hpos₁⟩ := h₁
      cases r₂ with
      | failed s₂ =>
          obtain ⟨y, hy, hfy⟩ := h₂
          obtain ⟨-, heq⟩ := last_unique hx hfx (fun _ => by simp) hy hfy fun _ => by simp
          cases heq
      | done s₂ success₂ =>
          obtain ⟨y, hy, hfy, hpos₂⟩ := h₂
          obtain ⟨rfl, heq⟩ := last_unique hx hfx (fun _ => by simp) hy hfy fun _ => by simp
          cases heq
          exact .inr ⟨s₁, s₂, success, rfl, rfl, hpos₁.symm.trans hpos₂⟩
      | _ => exact h₂.elim
  | _ => exact h₁.elim

end Shadows

section Intervals

variable {ready : Nat → Shape → Prop} {s : VmState} {x : Plain}

theorem mirrors_shadowed (htyped : ProgTyped a.code.prog ready) (hids : DistinctIds a.code.prog)
    (hw : a.windowed = true) (hpure : PureCheckers a.code) :
    Mirrors a (Shadowed a ready) (Concluded a.code a.input) :=
  fun _ _ hs => vmStep_shadowed htyped hids hw hpure hs

theorem shadowed_of_sane (h : Sane a ready s x) : Shadowed a ready s x := by
  obtain ⟨ref, p, thr, base, t, sh, hok, hplaced, htracks, hready, hfits, hfaithful, hip, hpos,
    hshow⟩ := h
  exact ⟨ref, p, thr, base, t, sh, _, hok, hplaced, htracks, hready, hfits, rfl, rfl, hfaithful,
    hip, hpos, hshow⟩

theorem vmLoop_concluded (htyped : ProgTyped a.code.prog ready) (hids : DistinctIds a.code.prog)
    (hpure : PureCheckers a.code) (hs : Sane a ready s x) {n : Nat} {r : VmNext}
    (hrun : vmLoop a n s = some r) : Concluded a.code a.input r := by
  cases hw : a.windowed with
  | false => exact concluded_of_ended ((mirrors_sane htyped hids hw hpure).ended hs hrun)
  | true => exact (mirrors_shadowed htyped hids hw hpure).ended (shadowed_of_sane hs) hrun

theorem vmLoop_returns (htyped : ProgTyped a.code.prog ready) (hids : DistinctIds a.code.prog)
    (hpure : PureCheckers a.code) (hs : Sane a ready s x)
    (hacc : Acc (fun y x => Advances a.code a.input x y) x) : ∃ n r, vmLoop a n s = some r := by
  cases hw : a.windowed with
  | false => exact (mirrors_sane htyped hids hw hpure).ends hacc hs
  | true => exact (mirrors_shadowed htyped hids hw hpure).ends hacc (shadowed_of_sane hs)

theorem finish_concluded {code : VmCode} {input : List UInt8} {r : VmNext}
    (h : Concluded code input r) : ∃ res after, vmFinish a r = .ok (res, after) := by
  cases r with
  | done s success => exact ⟨_, _, rfl⟩
  | failed s => exact ⟨_, _, rfl⟩
  | _ => exact h.elim

theorem pegExec_returns {g : Peg} (htyped : ProgTyped g.code.prog ready) (hready : ready 0 .main)
    (hids : DistinctIds g.code.prog) (hpure : PureCheckers g.code) (hsound : SoundPeg g)
    {r₀ : VmNext} (h : Concluded g.code g.buf r₀) (low high : Int) :
    ∃ k r res after g', Concluded g.code g.buf r ∧
      vmFinish (g.args low high) r = .ok (res, after) ∧
      pegExec k g low high = some (.ok (res, g')) := by
  have ⟨ref, p, hmemo, _⟩ := hsound
  obtain ⟨start, ⟨depth, hstart⟩, -⟩ := pegStart_ok hmemo low high
  have hs := hstart _ (Nat.lt_succ_self _)
  have hsane := sane_peg hready hsound hs
  obtain ⟨k, r, hloop⟩ := vmLoop_returns (a := g.args low high) htyped hids hpure hsane
    (acc_of_concluded h)
  have hconcluded := vmLoop_concluded (a := g.args low high) htyped hids hpure hsane hloop
  obtain ⟨res, after, hfin⟩ := finish_concluded (a := g.args low high) hconcluded
  exact ⟨max (depth + 1) k, r, res, after, _, hconcluded, hfin,
    pegExec_loop (prog_ne_nil htyped hready) hs hloop hfin⟩

/-- After any calls without edits, `peg_capture_interval` returns for every window when the run
without a table does, and it matches when that run does and as far. -/
theorem captureInterval_matches {fuel : Nat} {counter threshold : Int} {pat : Pattern.Pat}
    {c : VmCode} (hcompile : patCompile fuel counter pat = some (.ok c))
    (hids : (c.prog.filterMap lookupId).Nodup) (hpure : PureCheckers c) {s : PegSession}
    (h : SessionRun NoEdit c threshold s) {n nchecks : Nat} {r : VmResult} {after : VmAfter}
    (hplain : vmExec n ⟨c, s.peg.buf, -1, -1⟩ Mem.empty none nchecks = some (.ok (r, after)))
    (low high : Int) :
    ∃ k r' g', pegCaptureInterval k s.peg low high = some (.ok (r', g')) ∧
      r'.success = r.success ∧ (r.success = true → r'.pos = r.pos) := by
  obtain ⟨ready, htyped, hready⟩ := program_typed hcompile
  have hdistinct := distinctIds hids
  obtain ⟨rfl, hsound⟩ := session_sound htyped hready hdistinct hpure h
  obtain ⟨r₀, -, hfin₀, hended⟩ := exec_ended htyped hready hdistinct hpure hplain
  have hconcluded₀ := concluded_of_ended hended
  obtain ⟨k, r₁, r', after', g', hconcluded, hfin, hexec⟩ :=
    pegExec_returns htyped hready hdistinct hpure hsound hconcluded₀ low high
  refine ⟨k, r', g', hexec, ?_⟩
  rcases concluded_same hconcluded₀ hconcluded with
    ⟨s₀, s₁, rfl, rfl⟩ | ⟨s₀, s₁, success, rfl, rfl, hpos⟩
  · cases hfin₀
    cases hfin
    exact ⟨rfl, fun hsuccess => by cases hsuccess⟩
  · obtain ⟨-, -, -, -, -, -, -, rfl⟩ := vmFinish_done hfin₀
    obtain ⟨-, -, -, -, -, -, -, rfl⟩ := vmFinish_done hfin
    exact ⟨rfl, fun _ => hpos.symm⟩

/-- The window of the second letter. -/
theorem captureInterval_matches_letters :
    ∃ (s : PegSession) (r : VmResult) (after : VmAfter),
      s.peg.buf = [97, 97, 98] ∧ r.success = true ∧
        vmExec 60 ⟨compiledCode 20 letters, s.peg.buf, -1, -1⟩ Mem.empty none 0 =
          some (.ok (r, after)) ∧
        ∃ k r' g', pegCaptureInterval k s.peg 1 2 = some (.ok (r', g')) ∧
          r'.success = r.success ∧ (r.success = true → r'.pos = r.pos) := by
  obtain ⟨s, r, after, hrun, hbuf, hsuccess, hexec⟩ := letters_session
  exact ⟨s, r, after, hbuf, hsuccess, hexec,
    captureInterval_matches (@patCompile_compiledCode 20 letters (by decide +kernel))
      (by decide +kernel) letters_pure hrun hexec 1 2⟩

/-- After any calls without edits, `peg_capture_interval` returns exactly when the run without a
table does. -/
theorem captureInterval_returns_iff {fuel : Nat} {counter threshold : Int} {pat : Pattern.Pat}
    {c : VmCode} (hcompile : patCompile fuel counter pat = some (.ok c))
    (hids : (c.prog.filterMap lookupId).Nodup) (hpure : PureCheckers c) {s : PegSession}
    (h : SessionRun NoEdit c threshold s) (low high : Int) (nchecks : Nat) :
    (∃ k r g', pegCaptureInterval k s.peg low high = some (.ok (r, g'))) ↔
      ∃ n r after, vmExec n ⟨c, s.peg.buf, -1, -1⟩ Mem.empty none nchecks =
        some (.ok (r, after)) := by
  obtain ⟨ready, htyped, hready⟩ := program_typed hcompile
  have hdistinct := distinctIds hids
  obtain ⟨rfl, hsound⟩ := session_sound htyped hready hdistinct hpure h
  have hprog := prog_ne_nil htyped hready
  constructor
  · rintro ⟨k, r, g', hrun⟩
    obtain ⟨-, -, ⟨hnil, -⟩ | ⟨start, r₁, hs, hloop, -⟩⟩ := pegExec_cases hrun
    · exact absurd hnil hprog
    · have hconcluded := vmLoop_concluded (a := s.peg.args low high) htyped hdistinct hpure
        (sane_peg hready hsound hs) hloop
      have hmirrors := mirrors_sane (a := ⟨s.peg.code, s.peg.buf, -1, -1⟩) htyped hdistinct rfl hpure
      have hstart := sane_exec (c := s.peg.code) hready s.peg.buf nchecks
      obtain ⟨n, r₀, hloop₀⟩ := hmirrors.ends (acc_of_concluded hconcluded) hstart
      obtain ⟨res, after, hfin⟩ := finish_concluded (a := ⟨s.peg.code, s.peg.buf, -1, -1⟩)
        (concluded_of_ended (hmirrors.ended hstart hloop₀))
      refine ⟨n, res, after, ?_⟩
      rw [exec_eq hprog, hloop₀, Option.map_some, hfin]
  · rintro ⟨n, r, after, hplain⟩
    obtain ⟨r₀, -, -, hended⟩ := exec_ended htyped hready hdistinct hpure hplain
    obtain ⟨k, -, r', -, g', -, -, hexec⟩ :=
      pegExec_returns htyped hready hdistinct hpure hsound (concluded_of_ended hended) low high
    exact ⟨k, r', g', hexec⟩

/-- An inverted window. -/
theorem captureInterval_returns_iff_letters : ∃ s : PegSession, s.peg.buf = [97, 97, 98] ∧
    ∃ k r g', pegCaptureInterval k s.peg 2 1 = some (.ok (r, g')) := by
  obtain ⟨s, r, after, hrun, hbuf, -, hexec⟩ := letters_session
  exact ⟨s, hbuf,
    (captureInterval_returns_iff (@patCompile_compiledCode 20 letters (by decide +kernel))
      (by decide +kernel) letters_pure hrun 2 1 0).mpr ⟨60, r, after, hexec⟩⟩

end Intervals

end Libpeg.WindowedRuns
