import Libpeg.StepSimulation

namespace Libpeg.Positions

open Libpeg.Charset Libpeg.Opcode Libpeg.Code Libpeg.Memo Libpeg.Input Libpeg.Vm
open Libpeg.AbstractVm Libpeg.Simulation Libpeg.StepSimulation

def positions (stack : List AFrame) : List Nat :=
  stack.filterMap fun e => entryPos e.entry

/-- Positions do not grow from the current one down the stack. -/
def Placed (s : AState) : Prop :=
  (s.pos :: positions s.stack).Pairwise (· ≥ ·)

variable {a : VmArgs} {s s' : AState}

section Frames

@[simp] theorem aAddCapt_pos (f : CapForest) : (aAddCapt s f).pos = s.pos := by
  unfold aAddCapt
  split <;> rfl

@[simp] theorem aAddCapt_ip (f : CapForest) : (aAddCapt s f).ip = s.ip := by
  unfold aAddCapt
  split <;> rfl

@[simp] theorem aAddCapt_tbl (f : CapForest) : (aAddCapt s f).tbl = s.tbl := by
  unfold aAddCapt
  split <;> rfl

@[simp] theorem aAddCapt_furthest (f : CapForest) : (aAddCapt s f).furthest = s.furthest := by
  unfold aAddCapt
  split <;> rfl

@[simp] theorem aAddCapt_errs (f : CapForest) : (aAddCapt s f).errs = s.errs := by
  unfold aAddCapt
  split <;> rfl

@[simp] theorem aAddCapt_nchecks (f : CapForest) : (aAddCapt s f).nchecks = s.nchecks := by
  unfold aAddCapt
  split <;> rfl

@[simp] theorem aAddCapt_positions (f : CapForest) :
    positions (aAddCapt s f).stack = positions s.stack := by
  unfold aAddCapt
  split
  · rfl
  · next h => simp [h, positions, List.filterMap_cons]

theorem aMemoize_eq (id : Int) (pos : Nat) (mlen count : Int) (f : CapForest) :
    aMemoize a s id pos mlen count f =
      { s with tbl := (aMemoize a s id pos mlen count f).tbl } := by
  unfold aMemoize
  cases s.tbl with
  | none => rfl
  | some t =>
      cases a.windowed with
      | true => rfl
      | false =>
          simp only [Bool.false_eq_true, if_false]
          generalize ((if s.furthest > s.pos then s.furthest else s.pos : Nat) : Int) - pos + 1 = x
          split <;> rfl

@[simp] theorem aMemoize_pos (id : Int) (pos : Nat) (mlen count : Int) (f : CapForest) :
    (aMemoize a s id pos mlen count f).pos = s.pos := by
  rw [aMemoize_eq]

@[simp] theorem aMemoize_stack (id : Int) (pos : Nat) (mlen count : Int) (f : CapForest) :
    (aMemoize a s id pos mlen count f).stack = s.stack := by
  rw [aMemoize_eq]

end Frames

theorem Placed.of_sublist (h : Placed s) (hpos : s.pos ≤ s'.pos)
    (hsub : (positions s'.stack).Sublist (positions s.stack)) : Placed s' := by
  obtain ⟨hle, hpair⟩ := List.pairwise_cons.mp h
  refine List.pairwise_cons.mpr ⟨fun x hx => ?_, hpair.sublist hsub⟩
  exact (hle x (hsub.subset hx)).trans hpos

theorem Placed.push (h : Placed s) (e : StEntry) (he : ∀ x ∈ entryPos e, x = s.pos) :
    Placed (aPush s e) := by
  cases hx : entryPos e with
  | none =>
      refine h.of_sublist le_rfl ?_
      rw [aPush, positions, List.filterMap_cons_none (by simpa using hx)]
      exact List.Sublist.refl _
  | some x =>
      obtain rfl : x = s.pos := he x (by simp [hx])
      have hpos : positions (aPush s e).stack = s.pos :: positions s.stack :=
        List.filterMap_cons_some (by simpa using hx)
      rw [Placed, hpos]
      exact List.pairwise_cons.mpr ⟨by
        rintro y hy
        rcases List.mem_cons.mp hy with rfl | hy
        · exact le_rfl
        · exact (List.pairwise_cons.mp h).1 y hy, h⟩

theorem Placed.back {e : AFrame} {rest : List AFrame} {off : Nat} (h : Placed s)
    (hs : s.stack = e :: rest) (he : entryPos e.entry = some off) :
    (off :: positions rest).Pairwise (· ≥ ·) := by
  rw [Placed, hs, positions, List.filterMap_cons_some (by simpa using he)] at h
  exact (List.pairwise_cons.mp h).2

theorem positions_tail {e : AFrame} {rest : List AFrame} (hs : s.stack = e :: rest) :
    (positions rest).Sublist (positions s.stack) := by
  rw [hs]
  exact (List.sublist_cons_self e rest).filterMap _

theorem aPop_positions (e : AFrame) (rest : List AFrame) :
    positions (aPop s e rest).stack = positions rest := by
  simp [aPop]

@[simp] theorem aPop_pos (e : AFrame) (rest : List AFrame) : (aPop s e rest).pos = s.pos := by
  simp [aPop]

def NextPlaced (r : ANext) : Prop :=
  ∀ s', r = .running s' → Placed s'

theorem Placed.running (h : Placed s) : NextPlaced (.running s) := by
  rintro s' ⟨⟩
  exact h

theorem Placed.nextIp (h : Placed s) : NextPlaced (aNextIp s) :=
  Placed.running (s := { s with ip := s.ip + 1 }) h

theorem Placed.jumpTo (h : Placed s) (l : Nat) : NextPlaced (aJumpTo s l) :=
  Placed.running (s := { s with ip := l }) h

theorem aFail_placed (stack : List AFrame) (s : AState)
    (h : (positions stack).Pairwise (· ≥ ·)) : NextPlaced (aFail a stack s) := by
  induction stack generalizing s with
  | nil =>
      rintro s' ⟨⟩
  | cons e rest ih =>
      have hrest : (positions rest).Pairwise (· ≥ ·) :=
        h.sublist ((List.sublist_cons_self e rest).filterMap _)
      rw [aFail]
      split
      · next ip off he =>
          rintro s' ⟨⟩
          have hpos : positions (e :: rest) = off :: positions rest :=
            List.filterMap_cons_some (by rw [he]; rfl)
          rw [hpos] at h
          exact h
      · exact ih _ hrest
      · exact ih _ hrest

theorem Placed.goFail (h : Placed s) : NextPlaced (aGoFail a s) :=
  aFail_placed s.stack s (List.pairwise_cons.mp h).2

/-- The position stays and entries are only taken off the stack. -/
def Lowered (s s' : AState) : Prop :=
  s'.pos = s.pos ∧ (positions s'.stack).Sublist (positions s.stack)

theorem Lowered.refl (s : AState) : Lowered s s :=
  ⟨rfl, List.Sublist.refl _⟩

theorem Lowered.trans {s'' : AState} (h : Lowered s s') (h' : Lowered s' s'') : Lowered s s'' :=
  ⟨h'.1.trans h.1, h'.2.trans h.2⟩

theorem Lowered.placed (h : Lowered s s') (hs : Placed s) : Placed s' :=
  hs.of_sublist h.1.ge h.2

theorem lowered_pop {e : AFrame} {rest : List AFrame} (hs : s.stack = e :: rest) :
    Lowered s (aPop s e rest) :=
  ⟨aPop_pos e rest, by rw [aPop_positions]; exact positions_tail hs⟩

theorem aTreeClose_lowered (id : Int) (fuel : Nat) (s : AState) :
    Lowered s (aTreeClose id fuel s) := by
  induction fuel generalizing s with
  | zero => exact .refl s
  | succ fuel ih =>
      rw [aTreeClose]
      split
      · next e rest hs =>
          split
          · split
            · exact (lowered_pop hs).trans (ih _)
            · exact .refl s
          · exact .refl s
      · exact .refl s

theorem aPopMany_lowered (n : Nat) (s : AState) : Lowered s (aPopMany n s) := by
  induction n generalizing s with
  | zero => exact .refl s
  | succ n ih =>
      rw [aPopMany]
      split
      · next e rest hs => exact (lowered_pop hs).trans (ih _)
      · exact .refl s

theorem aTreeMerge_lowered (seen : Nat) (accum : Int) (s : AState) :
    Lowered s (aTreeMerge a seen accum s) := by
  refine (aPopMany_lowered (seen - 1) s).trans ?_
  rw [aTreeMerge]
  generalize aPopMany (seen - 1) s = t
  dsimp only
  split
  · next id pos count capt rest ht =>
      refine (lowered_pop ht).trans ?_
      generalize aPop t ⟨.memoTree id pos count, capt⟩ rest = u
      split
      · next id pos count capt rest hu =>
          refine ⟨by simp, ?_⟩
          simp [positions, hu, entryPos]
      · exact .refl u
  · exact .refl t

theorem aTreeLoop_lowered (fuel seen : Nat) (accum : Int) (s : AState) :
    Lowered s (aTreeLoop a fuel seen accum s) := by
  induction fuel generalizing seen accum s with
  | zero => exact .refl s
  | succ fuel ih =>
      rw [aTreeLoop]
      split
      · split
        · exact ih _ _ s
        · exact (aTreeMerge_lowered _ _ s).trans (ih _ _ _)
      · exact .refl s

theorem Placed.advance (h : Placed s) (n : Nat) : Placed (aAdvance s n) :=
  h.of_sublist (Nat.le_add_right s.pos n) (List.Sublist.refl _)

theorem Placed.match (h : Placed s) (p : UInt8 → Bool) : NextPlaced (aMatch a s p) := by
  rw [aMatch]
  split
  · exact (Placed.advance (s := aPeek s) h 1).nextIp
  · exact Placed.goFail (s := aPeek s) h

theorem Placed.test (h : Placed s) (p : UInt8 → Bool) (choice : Bool) (l : Nat) :
    NextPlaced (aTestInsn a s p choice l) := by
  rw [aTestInsn]
  split
  · cases choice with
    | true =>
        have hpush := Placed.push (s := aPeek s) h (.btrack l s.pos) (by simp [entryPos, aPeek])
        exact (hpush.advance 1).nextIp
    | false => exact (Placed.advance (s := aPeek s) h 1).nextIp
  · exact Placed.jumpTo (s := aPeek s) h l

theorem aInsn_placed (h : Placed s) (hit : Option AEntry) (i : VmInsn) :
    NextPlaced (aInsn a hit s i) := by
  cases i with
  | char b => exact h.match _
  | set set => exact h.match _
  | jump l => exact h.jumpTo l
  | choice l => exact (h.push _ (by simp [entryPos])).nextIp
  | call l => exact (h.push _ (by simp [entryPos])).jumpTo l
  | commit l =>
      simp only [aInsn]
      split
      · rintro s' ⟨⟩
      · next e rest hs => exact ((lowered_pop hs).placed h).jumpTo l
  | ret =>
      simp only [aInsn]
      split
      · next ip capt rest hs => exact ((lowered_pop hs).placed h).jumpTo ip
      · rintro s' ⟨⟩
  | fail => exact h.goFail
  | any n =>
      simp only [aInsn]
      split
      · exact (h.advance _).nextIp
      · exact (h.advance _).goFail
  | partialCommit l =>
      simp only [aInsn]
      split
      · next ip off capt rest hs =>
          have hpop := (lowered_pop hs).placed h
          have hpush : Placed (aPush (aPop s ⟨.btrack ip s.pos, capt⟩ rest) (.btrack ip s.pos)) :=
            Placed.push hpop (.btrack ip s.pos) (by simp [entryPos, aPop])
          exact hpush.jumpTo l
      · rintro s' ⟨⟩
  | span set =>
      exact Placed.nextIp (h.of_sublist (Nat.le_add_right _ _) (List.Sublist.refl _))
  | backCommit l =>
      simp only [aInsn]
      split
      · next ip off capt rest hs =>
          refine Placed.jumpTo (s := { aPop s ⟨.btrack ip off, capt⟩ rest with pos := off }) ?_ l
          rw [Placed]
          simp only [aPop_positions]
          exact h.back hs rfl
      · rintro s' ⟨⟩
  | failTwice =>
      simp only [aInsn]
      split
      · exact h.goFail
      · next rest hs =>
          exact Placed.goFail (s := { s with stack := rest })
            (h.of_sublist le_rfl (positions_tail hs))
  | empty mask =>
      simp only [aInsn]
      generalize emptyOpContext _ _ &&& mask.toNat = n
      split
      · exact h.nextIp
      · exact h.goFail
  | testChar b l => exact h.test _ _ l
  | testCharNoChoice b l => exact h.test _ _ l
  | testSet set l => exact h.test _ _ l
  | testSetNoChoice set l => exact h.test _ _ l
  | testAny n l =>
      simp only [aInsn]
      split
      · exact Placed.nextIp (Placed.of_sublist (h.push (.btrack l s.pos) (by simp [entryPos]))
          (Nat.le_add_right _ _) (List.Sublist.refl _))
      · exact h.jumpTo l
  | endOp b => rintro s' ⟨⟩
  | nop => rintro s' ⟨⟩
  | captureBegin id => exact (h.push _ (by simp [entryPos])).nextIp
  | captureLate back id => exact (h.push _ (by simp [entryPos])).nextIp
  | captureEnd =>
      simp only [aInsn]
      split
      · next id pos capt rest hs =>
          have hrest : Placed { s with stack := rest } := h.of_sublist le_rfl (positions_tail hs)
          split
          · exact Placed.nextIp (hrest.of_sublist (by simp) (by simp))
          · exact hrest.nextIp
      · rintro s' ⟨⟩
  | captureFull back id =>
      simp only [aInsn]
      split
      · exact Placed.nextIp (h.of_sublist (by simp) (by simp))
      · exact h.nextIp
  | checkBegin id flag => exact (h.push _ (by simp [entryPos])).nextIp
  | checkEnd k =>
      simp only [aInsn]
      split
      · next id pos flag capt rest hs =>
          have hpop := (lowered_pop hs).placed h
          split
          · exact hpop.nextIp
          · split
            · exact Placed.goFail (hpop.of_sublist le_rfl (List.Sublist.refl _))
            · split
              · exact Placed.goFail (hpop.of_sublist le_rfl (List.Sublist.refl _))
              · exact Placed.nextIp (hpop.of_sublist (Nat.le_add_right _ _) (List.Sublist.refl _))
      · rintro s' ⟨⟩
  | memoOpen l id =>
      simp only [aInsn]
      split
      · split
        · exact h.goFail
        · exact Placed.jumpTo (Placed.advance (h.of_sublist (by simp) (by simp)) _) l
      · exact (h.push _ (by simp [entryPos])).nextIp
  | memoClose =>
      simp only [aInsn]
      split
      · next id pos capt rest hs =>
          exact Placed.nextIp (((lowered_pop hs).placed h).of_sublist (by simp) (by simp))
      · rintro s' ⟨⟩
  | memoTreeOpen l id =>
      simp only [aInsn]
      split
      · next e =>
          split
          · exact h.goFail
          · have hpush := h.push (.memoTree id s.pos e.count) (by simp [entryPos])
            have hadd : Placed (aAddCapt (aPush s (.memoTree id s.pos e.count)) e.capt) :=
              hpush.of_sublist (by simp) (by simp)
            have hpeek : Placed (aPeek (aAdvance
                (aAddCapt (aPush s (.memoTree id s.pos e.count)) e.capt) e.length.toNat)) :=
              hadd.advance e.length.toNat
            exact hpeek.jumpTo l
      · exact (h.push _ (by simp [entryPos])).nextIp
  | memoTreeInsert =>
      simp only [aInsn]
      split
      · next id pos count capt rest hs =>
          refine Placed.nextIp (h.of_sublist (by simp) ?_)
          simp [positions, hs, entryPos]
      · rintro s' ⟨⟩
  | memoTree => exact Placed.nextIp ((aTreeLoop_lowered _ _ _ s).placed h)
  | memoTreeClose id => exact Placed.nextIp ((aTreeClose_lowered _ _ s).placed h)
  | error k => exact Placed.nextIp (h.of_sublist le_rfl (List.Sublist.refl _))

section Table

/-- The state that the result of an instruction holds has a table as `b` says. -/
def NextTable (b : Bool) : ANext → Prop
  | .running s => s.tbl.isSome = b
  | .done s _ => s.tbl.isSome = b
  | .failed s => s.tbl.isSome = b
  | .aborted _ => True

@[simp] theorem aMemoize_isSome (id : Int) (pos : Nat) (mlen count : Int) (f : CapForest) :
    (aMemoize a s id pos mlen count f).tbl.isSome = s.tbl.isSome := by
  unfold aMemoize
  cases hs : s.tbl with
  | none => simp [hs]
  | some t =>
      cases a.windowed with
      | true => simp [hs]
      | false =>
          simp only [Bool.false_eq_true, if_false]
          generalize ((if s.furthest > s.pos then s.furthest else s.pos : Nat) : Int) - pos + 1 = x
          split <;> simp [hs]

@[simp] theorem aPop_tbl (e : AFrame) (rest : List AFrame) : (aPop s e rest).tbl = s.tbl := by
  simp [aPop]

theorem aFail_table (stack : List AFrame) (s : AState) :
    NextTable s.tbl.isSome (aFail a stack s) := by
  induction stack generalizing s with
  | nil => rfl
  | cons e rest ih =>
      rw [aFail]
      split
      · rfl
      · next id pos _ =>
          have hnext := ih (aMemoize a s id pos (-1) 0 e.capt)
          rwa [aMemoize_isSome] at hnext
      · exact ih s

@[simp] theorem aTreeClose_tbl (id : Int) (fuel : Nat) (s : AState) :
    (aTreeClose id fuel s).tbl = s.tbl := by
  induction fuel generalizing s with
  | zero => rfl
  | succ fuel ih =>
      rw [aTreeClose]
      split
      · split
        · split
          · rw [ih, aPop_tbl]
          · rfl
        · rfl
      · rfl

@[simp] theorem aPopMany_tbl (n : Nat) (s : AState) : (aPopMany n s).tbl = s.tbl := by
  induction n generalizing s with
  | zero => rfl
  | succ n ih =>
      rw [aPopMany]
      split
      · rw [ih, aPop_tbl]
      · rfl

@[simp] theorem aTreeMerge_isSome (seen : Nat) (accum : Int) (s : AState) :
    (aTreeMerge a seen accum s).tbl.isSome = s.tbl.isSome := by
  rw [aTreeMerge, ← aPopMany_tbl (seen - 1) s]
  generalize aPopMany (seen - 1) s = t
  dsimp only
  split
  · next id pos count capt rest _ =>
      rw [← aPop_tbl (s := t) ⟨.memoTree id pos count, capt⟩ rest]
      generalize aPop t ⟨.memoTree id pos count, capt⟩ rest = u
      split
      · exact aMemoize_isSome ..
      · rfl
  · rfl

@[simp] theorem aTreeLoop_isSome (fuel seen : Nat) (accum : Int) (s : AState) :
    (aTreeLoop a fuel seen accum s).tbl.isSome = s.tbl.isSome := by
  induction fuel generalizing seen accum s with
  | zero => rfl
  | succ fuel ih =>
      rw [aTreeLoop]
      split
      · split
        · exact ih _ _ s
        · rw [ih, aTreeMerge_isSome]
      · rfl

theorem aInsn_table (hit : Option AEntry) (i : VmInsn) :
    NextTable s.tbl.isSome (aInsn a hit s i) := by
  have hfail : ∀ t : AState, t.tbl = s.tbl → NextTable s.tbl.isSome (aGoFail a t) := by
    intro t ht
    rw [← ht]
    exact aFail_table t.stack t
  cases i with
  | empty mask =>
      simp only [aInsn]
      generalize emptyOpContext _ _ &&& mask.toNat = n
      split
      · rfl
      · exact hfail s rfl
  | _ =>
      simp only [aInsn, aMatch, aTestInsn]
      repeat' split
      all_goals first
        | exact trivial
        | exact hfail _ rfl
        | exact hfail _ (by simp [aPop])
        | simp [NextTable, aNextIp, aJumpTo, aTree, aPush, aAdvance, aPeek]

end Table

end Libpeg.Positions
