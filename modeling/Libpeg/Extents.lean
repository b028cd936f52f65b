import Libpeg.ControlSimulation
import Libpeg.Session

/-!
The extents of the entries that the machine takes from the table or puts into it,
by the evaluation they belong to. The extent of a new entry ends behind the furthest
byte and the position; a hit moves neither to the end of its own extent, and going
back gives up the bytes that were passed but not looked at.
-/

namespace Libpeg.Extents

open Libpeg.Charset Libpeg.Opcode Libpeg.Code Libpeg.Memo Libpeg.Input Libpeg.Vm
open Libpeg.ControlMachine Libpeg.ControlSimulation

def Within (x y : Extent) : Prop :=
  y.start ≤ x.start ∧ x.stop ≤ y.stop

/-- The extents taken or stored in each open evaluation, the newest first; those of a
closed one belong to the evaluation around it. -/
def addEvent (levels : List (List Extent)) : Event → List (List Extent)
  | .opened => [] :: levels
  | .closed =>
      match levels with
      | top :: next :: rest => (top ++ next) :: rest
      | _ => []
  | .hit x | .stored x =>
      match levels with
      | top :: rest => (x :: top) :: rest
      | [] => []

def levels (trace : List Event) : List (List Extent) :=
  trace.foldl addEvent []

def openExtents (c : Ctl) : List Extent :=
  (levels c.trace).flatten

/-- Whatever was taken or stored in an evaluation before its entry is stored is in
the extent of the entry. -/
def Contained (trace : List Event) : Prop :=
  ∀ before x after, trace = before ++ .stored x :: after →
    ∀ y ∈ (levels before).headD [], Within y x

def reach (c : Ctl) : Int :=
  (max c.furthest c.pos : Nat) + 1

/-- The choice entry that a failure returns to: its position and the stack below. -/
def resume : List StEntry → Option (Nat × List StEntry)
  | .btrack _ off :: rest => some (off, rest)
  | _ :: rest => resume rest
  | [] => none

/-- The plain evaluations that a failure gives up. -/
def abandoned : List StEntry → List Nat
  | .btrack _ _ :: _ => []
  | .memo _ pos :: rest => pos :: abandoned rest
  | _ :: rest => abandoned rest
  | [] => []

/-- The failed evaluation of a position is put into the table. -/
def keepsFailure (a : VmArgs) (thr : Option Int) (c : Ctl) (pos : Nat) : Bool :=
  thr.any fun th => !a.windowed && !(decide (th > 0) && decide (reach c - pos < th))

/-- Going back to a position inside an open evaluation gives up no byte of an
extent. -/
def Returns (c : Ctl) (off : Nat) (rest : List StEntry) : Prop :=
  rest.any isMemo → ∀ x ∈ openExtents c, x.stop ≤ (max c.furthest off : Nat) + 1

/-- The same for a failure, which stores an entry up to the current position for each
plain evaluation that it gives up. -/
def FailReturns (a : VmArgs) (thr : Option Int) (c : Ctl) : Prop :=
  ∀ r ∈ resume c.stack, Returns c r.1 r.2 ∧
    (r.2.any isMemo → ∀ pos ∈ abandoned c.stack, keepsFailure a thr c pos →
      c.pos ≤ max c.furthest r.1)

/-- The state in which the failure handler is entered, if the instruction fails. -/
def failPoint (a : VmArgs) (thr : Option Int) (hit : Option MemoEntry) (c : Ctl) (i : VmInsn) :
    Option Ctl :=
  match cInsn a thr hit .failed c i with
  | .failed c' => some c'
  | _ => none

/-- The extent of a hit ends behind the furthest byte or the position it leads to. -/
def HitReaches (c : Ctl) (e : MemoEntry) : Prop :=
  c.pos + e.examined ≤ (max c.furthest (c.pos + e.length.toNat) : Nat) + 1

/-- A hit is taken in an open evaluation, or in the one that a tree entry opens. -/
def takenInside (c : Ctl) (i : VmInsn) (e : MemoEntry) : Bool :=
  match i with
  | .memoTreeOpen _ _ => c.stack.any isMemo || e.length ≠ -1
  | _ => c.stack.any isMemo

def BackReturns (c : Ctl) (i : VmInsn) : Prop :=
  match i, c.stack with
  | .backCommit _, .btrack _ off :: rest => Returns c off rest
  | _, _ => True

/-- The bytes that the open evaluations depend on stay covered when the next
instruction is executed. -/
def Covers (a : VmArgs) (thr : Option Int) (hit : Option MemoEntry) (c : Ctl) : Prop :=
  ∀ i ∈ a.code.prog[c.ip]?,
    (∀ e ∈ hit, takenInside c i e → HitReaches c e) ∧ BackReturns c i ∧
      ∀ c' ∈ failPoint a thr hit c i, FailReturns a thr c'

instance (c : Ctl) (off : Nat) (rest : List StEntry) : Decidable (Returns c off rest) :=
  inferInstanceAs (Decidable (_ → ∀ x ∈ openExtents c, _))

instance (c : Ctl) (e : MemoEntry) : Decidable (HitReaches c e) :=
  inferInstanceAs (Decidable (_ ≤ _))

instance (a : VmArgs) (thr : Option Int) (c : Ctl) : Decidable (FailReturns a thr c) :=
  inferInstanceAs (Decidable (∀ r ∈ resume c.stack, _ ∧ (_ → ∀ pos ∈ abandoned c.stack, _)))

instance (c : Ctl) (i : VmInsn) : Decidable (BackReturns c i) := by
  unfold BackReturns
  split <;> infer_instance

instance (a : VmArgs) (thr : Option Int) (hit : Option MemoEntry) (c : Ctl) :
    Decidable (Covers a thr hit c) :=
  inferInstanceAs (Decidable (∀ i ∈ a.code.prog[c.ip]?,
    (∀ e ∈ hit, _ → HitReaches c e) ∧ _ ∧ ∀ c' ∈ failPoint a thr hit c i, _))

/-- The position that a choice or an evaluation has kept. -/
def offset : StEntry → Option Nat
  | .btrack _ off => some off
  | .memo _ pos => some pos
  | .memoTree _ pos _ => some pos
  | _ => none

def frame : StEntry → Option Nat
  | .memo _ pos => some pos
  | .memoTree _ pos _ => some pos
  | _ => none

def Bounded (c : Ctl) (start : Nat) (level : List Extent) : Prop :=
  ∀ x ∈ level, (start : Int) ≤ x.start ∧ x.stop ≤ reach c

structure Inv (c : Ctl) : Prop where
  order : (c.pos :: c.stack.filterMap offset).Pairwise (· ≥ ·)
  bounded : List.Forall₂ (Bounded c) (c.stack.filterMap frame) (levels c.trace)
  contained : Contained c.trace

def NextInv : CNext → Prop
  | .running c | .done c _ | .failed c => Inv c
  | .aborted _ => True

section Trace

variable {trace : List Event}

@[simp] theorem levels_concat (trace : List Event) (e : Event) :
    levels (trace ++ [e]) = addEvent (levels trace) e := by
  simp [levels]

theorem Contained.concat (h : Contained trace) {e : Event}
    (he : ∀ x, e = .stored x → ∀ y ∈ (levels trace).headD [], Within y x) :
    Contained (trace ++ [e]) := by
  intro before x after heq
  rcases List.eq_nil_or_concat after with rfl | ⟨after, last, rfl⟩
  · obtain ⟨rfl, hlast⟩ := List.append_inj' heq rfl
    exact he x (List.cons.inj hlast).1
  · rw [List.concat_eq_append, ← List.cons_append, ← List.append_assoc] at heq
    obtain ⟨rfl, -⟩ := List.append_inj' heq rfl
    exact h before x after rfl

end Trace

section Moves

variable {c : Ctl}

theorem Inv.forward (h : Inv c) (ip nchecks : Nat) {pos furthest : Nat} (hpos : c.pos ≤ pos)
    (hfar : c.furthest ≤ furthest) :
    Inv ⟨ip, pos, furthest, c.stack, nchecks, c.trace⟩ := by
  refine ⟨?_, ?_, h.contained⟩
  · obtain ⟨hhead, htail⟩ := List.pairwise_cons.mp h.order
    exact List.pairwise_cons.mpr ⟨fun off hoff => (hhead off hoff).trans hpos, htail⟩
  · refine h.bounded.imp fun start level hlevel x hx => ⟨(hlevel x hx).1, ?_⟩
    have hstop := (hlevel x hx).2
    simp only [reach] at hstop ⊢
    omega

theorem frame_isMemo (e : StEntry) : (frame e).isSome = isMemo e := by
  cases e <;> rfl

theorem offset_of_frame {e : StEntry} {start : Nat} (h : frame e = some start) :
    offset e = some start := by
  cases e with
  | memo | memoTree => exact h
  | ret | btrack | capt | check => cases h

theorem Inv.push (h : Inv c) {e : StEntry} (he : ∀ off, offset e = some off → off = c.pos) :
    Inv (cPush c e) := by
  have horder : (c.pos :: (e :: c.stack).filterMap offset).Pairwise (· ≥ ·) := by
    cases hoff : offset e with
    | none => simpa [List.filterMap_cons, hoff] using h.order
    | some off =>
        obtain rfl := he off hoff
        have hhead := (List.pairwise_cons.mp h.order).1
        rw [List.filterMap_cons_some hoff]
        refine List.pairwise_cons.mpr ⟨fun off' hoff' => ?_, h.order⟩
        rcases List.mem_cons.mp hoff' with rfl | hrest
        · exact le_refl _
        · exact hhead off' hrest
  unfold cPush
  dsimp only
  have hsome := frame_isMemo e
  split
  · next hmemo =>
      rw [hmemo] at hsome
      obtain ⟨start, hstart⟩ := Option.isSome_iff_exists.mp hsome
      refine ⟨horder, ?_, h.contained.concat (by rintro x ⟨⟩)⟩
      simp only [record, levels_concat, addEvent, List.filterMap_cons_some hstart]
      refine .cons (fun x hx => ?_) h.bounded
      cases hx
  · next hmemo =>
      rw [Bool.not_eq_true] at hmemo
      rw [hmemo, Option.isSome_eq_false_iff, Option.isNone_iff_eq_none] at hsome
      refine ⟨horder, ?_, h.contained⟩
      simp only [List.filterMap_cons_none hsome]
      exact h.bounded

theorem bounded_merge {start : Nat} {starts : List Nat} {levels : List (List Extent)}
    (h : List.Forall₂ (Bounded c) (start :: starts) levels) (hle : ∀ p ∈ starts, p ≤ start) :
    List.Forall₂ (Bounded c) starts (addEvent levels .closed) := by
  cases h with
  | cons htop hrest =>
      cases hrest with
      | nil => exact .nil
      | @cons next level starts levels hnext hrest =>
          refine .cons (fun x hx => ?_) hrest
          have hstart := hle next List.mem_cons_self
          rcases List.mem_append.mp hx with hx | hx
          · have := htop x hx
            exact ⟨by omega, this.2⟩
          · exact hnext x hx

theorem Inv.pop (h : Inv c) {e : StEntry} {rest : List StEntry} (hs : c.stack = e :: rest) :
    Inv (cPop c e rest) := by
  have horder := h.order
  have hbounded := h.bounded
  rw [hs] at horder hbounded
  have hrest : (c.pos :: rest.filterMap offset).Pairwise (· ≥ ·) :=
    horder.sublist (((List.sublist_cons_self e rest).filterMap offset).cons_cons c.pos)
  unfold cPop
  dsimp only
  have hsome := frame_isMemo e
  split
  · next hmemo =>
      rw [hmemo] at hsome
      obtain ⟨start, hstart⟩ := Option.isSome_iff_exists.mp hsome
      refine ⟨hrest, ?_, h.contained.concat (by rintro x ⟨⟩)⟩
      simp only [record, levels_concat]
      rw [List.filterMap_cons_some hstart] at hbounded
      refine bounded_merge hbounded fun start' hstart' => ?_
      obtain ⟨e', he', hframe⟩ := List.mem_filterMap.mp hstart'
      rw [List.filterMap_cons_some (offset_of_frame hstart)] at horder
      refine (List.pairwise_cons.mp (List.pairwise_cons.mp horder).2).1 start' ?_
      exact List.mem_filterMap.mpr ⟨e', he', offset_of_frame hframe⟩
  · next hmemo =>
      rw [Bool.not_eq_true] at hmemo
      rw [hmemo, Option.isSome_eq_false_iff, Option.isNone_iff_eq_none] at hsome
      refine ⟨hrest, ?_, h.contained⟩
      rw [List.filterMap_cons_none hsome] at hbounded
      exact hbounded

theorem Inv.setTop (h : Inv c) {e : StEntry} {rest : List StEntry} (hs : c.stack = e :: rest)
    (e' : StEntry) (hoff : offset e' = offset e) (hframe : frame e' = frame e) :
    Inv { c with stack := e' :: rest } := by
  have horder := h.order
  have hbounded := h.bounded
  rw [hs, List.filterMap_cons] at horder hbounded
  refine ⟨?_, ?_, h.contained⟩
  · simp only [List.filterMap_cons, hoff]
    exact horder
  · simp only [List.filterMap_cons, hframe]
    exact hbounded

theorem Inv.memoize (h : Inv c) (a : VmArgs) (thr : Option Int) {e : StEntry}
    {rest : List StEntry} {pos : Nat} (hs : c.stack = e :: rest) (he : frame e = some pos)
    {mlen : Int} (hlen : mlen ≤ (c.pos : Int) - pos ∨ mlen = -1) :
    Inv (cMemoize a thr c pos mlen) := by
  have hpos : pos ≤ c.pos := by
    refine (List.pairwise_cons.mp h.order).1 pos ?_
    rw [hs, List.filterMap_cons_some (offset_of_frame he)]
    exact List.mem_cons_self
  have hstop : (extentNow c pos mlen).stop = reach c := by
    simp only [extentNow, reach]
    split <;> omega
  have hbounded := h.bounded
  rw [hs, List.filterMap_cons_some he] at hbounded
  rcases cMemoize_eq a thr c pos mlen with heq | heq
  · rw [heq]
    exact h
  · rw [heq]
    refine ⟨h.order, ?_, h.contained.concat ?_⟩
    · simp only [record, levels_concat, hs, List.filterMap_cons_some he]
      generalize levels c.trace = L at hbounded
      cases hbounded with
      | cons htop hrest =>
          refine .cons (fun x hx => ?_) hrest
          rcases List.mem_cons.mp hx with rfl | hx
          · exact ⟨le_refl _, hstop.le⟩
          · exact htop x hx
    · rintro x ⟨⟩ y hy
      generalize levels c.trace = L at hbounded hy
      cases hbounded with
      | cons htop hrest => exact ⟨(htop y hy).1, (htop y hy).2.trans hstop.ge⟩

theorem frame_le_pos (h : Inv c) {start : Nat} (hstart : start ∈ c.stack.filterMap frame) :
    start ≤ c.pos := by
  obtain ⟨e, he, hframe⟩ := List.mem_filterMap.mp hstart
  exact (List.pairwise_cons.mp h.order).1 start
    (List.mem_filterMap.mpr ⟨e, he, offset_of_frame hframe⟩)

theorem any_isMemo {stack : List StEntry} (h : stack.filterMap frame ≠ []) :
    stack.any isMemo := by
  obtain ⟨start, hmem⟩ := List.exists_mem_of_ne_nil _ h
  obtain ⟨e, he, hframe⟩ := List.mem_filterMap.mp hmem
  exact List.any_eq_true.mpr ⟨e, he, by rw [← frame_isMemo, hframe]; rfl⟩

theorem Inv.hit (h : Inv c) {x : Extent} (hstart : ∀ p ∈ c.stack.filterMap frame, (p : Int) ≤ x.start)
    (hstop : c.stack.any isMemo → x.stop ≤ reach c) : Inv (record c (.hit x)) := by
  refine ⟨h.order, ?_, h.contained.concat (by rintro x ⟨⟩)⟩
  have hbounded := h.bounded
  have hmemo : c.stack.filterMap frame ≠ [] → c.stack.any isMemo := any_isMemo
  simp only [record, levels_concat]
  generalize c.stack.filterMap frame = starts at hbounded hmemo hstart
  generalize levels c.trace = L at hbounded
  cases hbounded with
  | nil => exact .nil
  | cons htop hrest =>
      refine .cons (fun y hy => ?_) hrest
      rcases List.mem_cons.mp hy with rfl | hy
      · exact ⟨hstart _ List.mem_cons_self, hstop (hmemo (by simp))⟩
      · exact htop y hy

theorem bounded_back {c' : Ctl} {starts : List Nat} {levels : List (List Extent)}
    (h : List.Forall₂ (Bounded c) starts levels)
    (hstop : ∀ x ∈ levels.flatten, x.stop ≤ reach c') :
    List.Forall₂ (Bounded c') starts levels := by
  induction h with
  | nil => exact .nil
  | cons htop _ ih =>
      simp only [List.flatten_cons, List.mem_append] at hstop
      refine .cons (fun x hx => ⟨(htop x hx).1, hstop x (.inl hx)⟩) ?_
      exact ih fun x hx => hstop x (.inr hx)

theorem Inv.back (h : Inv c) {ip : Nat} {off : Nat} {rest : List StEntry}
    (hs : c.stack = .btrack ip off :: rest) (hreturns : Returns c off rest) (ip' : Nat) :
    Inv { c with stack := rest, ip := ip', pos := off } := by
  have horder := h.order
  have hbounded := h.bounded
  rw [hs] at horder hbounded
  refine ⟨(List.pairwise_cons.mp horder).2, ?_, h.contained⟩
  rw [List.filterMap_cons_none (show frame (.btrack ip off) = none from rfl)] at hbounded
  refine bounded_back hbounded ?_
  by_cases hnone : rest.filterMap frame = []
  · rw [hnone] at hbounded
    rw [List.forall₂_nil_left_iff.mp hbounded]
    rintro x ⟨⟩
  · exact hreturns (any_isMemo hnone)

end Moves

section Failure

variable {a : VmArgs} {thr : Option Int} {c : Ctl}

theorem openExtents_pop (c : Ctl) (e : StEntry) (rest : List StEntry) :
    openExtents (cPop c e rest) ⊆ openExtents c := by
  unfold cPop openExtents
  dsimp only
  split
  · simp only [record, levels_concat, addEvent]
    intro x hx
    split at hx
    · next top next rest heq =>
        rw [heq]
        simpa [or_assoc] using hx
    · cases hx
  · exact List.Subset.refl _

/-- Storing the failure of a position adds at most the extent up to the reach. -/
theorem openExtents_memoize {pos : Nat} (hpos : pos ≤ c.pos) {x : Extent}
    (hx : x ∈ openExtents (cMemoize a thr c pos (-1))) :
    x ∈ openExtents c ∨ keepsFailure a thr c pos ∧ x.stop = reach c := by
  unfold cMemoize at hx
  cases thr with
  | none => exact .inl hx
  | some th =>
      dsimp only at hx
      have hexam : ((if c.furthest > c.pos then c.furthest else c.pos : Nat) : Int) - pos + 1 =
          reach c - pos := by
        simp only [reach]
        split <;> omega
      rw [hexam] at hx
      split at hx
      · exact .inl hx
      · next hw =>
          split at hx
          · exact .inl hx
          · next hkeep =>
              simp only [record, openExtents, levels_concat, addEvent] at hx
              split at hx
              · next top rest heq =>
                  simp only [List.flatten_cons, List.cons_append, List.mem_cons] at hx
                  rcases hx with rfl | hx
                  · have hfree : th ≤ 0 ∨ th ≤ reach c - pos := by omega
                    refine .inr ⟨by simpa [keepsFailure, hw] using hfree, ?_⟩
                    simp only [extentNow, reach]
                    split <;> omega
                  · refine .inl ?_
                    rw [openExtents, heq]
                    exact hx
              · cases hx

theorem FailReturns.unwind {c' : Ctl} {e : StEntry} (hret : FailReturns a thr c)
    (hs : c.stack = e :: c'.stack) (hpos : c'.pos = c.pos) (hfar : c'.furthest = c.furthest)
    (hresume : resume (e :: c'.stack) = resume c'.stack)
    (habandoned : abandoned c'.stack ⊆ abandoned (e :: c'.stack))
    (hopen : ∀ x ∈ openExtents c', x ∈ openExtents c ∨
      ∃ pos ∈ abandoned (e :: c'.stack), keepsFailure a thr c pos ∧ x.stop = reach c) :
    FailReturns a thr c' := by
  intro r hres
  rw [← hresume, ← hs] at hres
  rw [← hs] at habandoned hopen
  obtain ⟨hback, hstore⟩ := hret r hres
  refine ⟨fun hmemo x hx => ?_, fun hmemo pos hin hkeep => ?_⟩
  · rw [hfar]
    rcases hopen x hx with hold | ⟨pos, hin, hkeep, hstop⟩
    · exact hback hmemo x hold
    · have hle := hstore hmemo pos hin hkeep
      rw [hstop, reach]
      omega
  · rw [hpos, hfar]
    refine hstore hmemo pos (habandoned hin) ?_
    rwa [keepsFailure, reach, hpos, hfar] at hkeep

theorem cFail_inv (stack : List StEntry) (h : Inv c) (hs : c.stack = stack)
    (hret : FailReturns a thr c) : NextInv (cFail a thr stack c) := by
  induction stack generalizing c with
  | nil =>
      have heq : { c with stack := [] } = c := by
        rw [← hs]
      simp only [cFail, heq]
      exact h
  | cons e rest ih =>
      have hskip (hresume : resume (e :: rest) = resume rest)
          (habandoned : abandoned (e :: rest) = abandoned rest) :
          NextInv (cFail a thr rest (cPop c e rest)) := by
        refine ih (h.pop hs) (by simp) (hret.unwind (e := e) ?_ ?_ ?_ ?_ ?_ ?_)
        · simpa using hs
        · simp
        · simp
        · simpa using hresume
        · simp [habandoned]
        · exact fun x hx => .inl (openExtents_pop c e rest hx)
      cases e with
      | btrack ip off =>
          have hback := (hret (off, rest) (by rw [hs]; rfl)).1
          exact h.back hs hback ip
      | memo id pos =>
          have hpos : pos ≤ c.pos := frame_le_pos h (by rw [hs]; exact List.mem_cons_self)
          have hstored := h.memoize a thr hs rfl (.inr rfl)
          refine ih (hstored.pop (by simpa using hs)) (by simp)
            (hret.unwind (e := .memo id pos) ?_ ?_ ?_ ?_ ?_ ?_)
          · simpa using hs
          · simp
          · simp
          · simp [resume]
          · simp [abandoned]
          · intro x hx
            rcases openExtents_memoize hpos (openExtents_pop _ _ _ hx) with hold | hnew
            · exact .inl hold
            · exact .inr ⟨pos, by simp [abandoned], hnew⟩
      | ret | memoTree | capt | check => exact hskip rfl rfl

end Failure

section Trees

variable {a : VmArgs} {thr : Option Int} {c : Ctl}

theorem Inv.treeClose (h : Inv c) (id : Int) (fuel : Nat) : Inv (cTreeClose id fuel c) := by
  induction fuel generalizing c with
  | zero => exact h
  | succ fuel ih =>
      rw [cTreeClose]
      split
      · next e rest hs =>
          split
          · split
            · exact ih (h.pop hs)
            · exact h
          · exact h
      · exact h

theorem Inv.popMany (h : Inv c) (n : Nat) : Inv (cPopMany n c) := by
  induction n generalizing c with
  | zero => exact h
  | succ n ih =>
      rw [cPopMany]
      split
      · next e rest hs => exact ih (h.pop hs)
      · exact h

theorem Inv.treeMerge (h : Inv c) (seen : Nat) (accum : Int) :
    Inv (cTreeMerge a thr seen accum c) := by
  have hpop := h.popMany (seen - 1)
  unfold cTreeMerge
  generalize cPopMany (seen - 1) c = c₁ at hpop
  dsimp only
  split
  · next id pos count rest hs =>
      have hpop₂ := hpop.pop hs
      generalize cPop c₁ (.memoTree id pos count) rest = c₂ at hpop₂
      split
      · next id' pos' count' rest' hs' =>
          have hset := hpop₂.setTop hs' (.memoTree id' pos' (accum + count')) rfl rfl
          exact hset.memoize a thr rfl rfl (.inl (le_refl _))
      · exact hpop₂
  · exact hpop

theorem Inv.treeLoop (h : Inv c) (fuel seen : Nat) (accum : Int) :
    Inv (cTreeLoop a thr fuel seen accum c) := by
  induction fuel generalizing seen accum c with
  | zero => exact h
  | succ fuel ih =>
      rw [cTreeLoop]
      split
      · split
        · exact ih h _ _
        · exact ih (h.treeMerge _ _) _ _
      · exact h

end Trees

section Step

variable {a : VmArgs} {thr : Option Int} {hit : Option MemoEntry} {c : Ctl}

theorem cInsn_fail (fail : Ctl → CNext) (i : VmInsn) :
    cInsn a thr hit fail c i =
      match cInsn a thr hit .failed c i with
      | .failed c' => fail c'
      | r => r := by
  cases i with
  | char | set =>
      simp only [cInsn, cMatch]
      split <;> rfl
  | jump | choice | call | fail | span | endOp | nop | captureBegin | captureLate | captureFull
  | checkBegin | memoTree | memoTreeClose | error => rfl
  | commit | ret | partialCommit | backCommit | failTwice | captureEnd | memoClose
  | memoTreeInsert =>
      simp only [cInsn]
      split <;> rfl
  | any | testAny =>
      simp only [cInsn]
      split <;> rfl
  | empty mask =>
      simp only [cInsn]
      generalize emptyOpContext _ _ &&& mask.toNat = context
      split <;> rfl
  | testChar | testCharNoChoice | testSet | testSetNoChoice =>
      simp only [cInsn, cTestInsn]
      split <;> rfl
  | checkEnd k =>
      simp only [cInsn]
      split
      · split
        · rfl
        · split
          · rfl
          · split <;> rfl
      · rfl
  | memoOpen | memoTreeOpen =>
      simp only [cInsn]
      split
      · split <;> rfl
      · rfl

theorem Inv.peek (h : Inv c) : Inv (cPeek c) :=
  h.forward c.ip c.nchecks (le_refl _) (le_max_left _ _)

theorem Inv.advance (h : Inv c) (n : Nat) : Inv (cAdvance c n) :=
  h.forward c.ip c.nchecks (Nat.le_add_right _ _) (le_refl _)

theorem Inv.nextIp (h : Inv c) : NextInv (cNextIp c) :=
  h.forward (c.ip + 1) c.nchecks (le_refl _) (le_refl _)

theorem Inv.jumpTo (h : Inv c) (l : Nat) : NextInv (cJumpTo c l) :=
  h.forward l c.nchecks (le_refl _) (le_refl _)

theorem Inv.match (h : Inv c) (p : UInt8 → Bool) : NextInv (cMatch a .failed c p) := by
  unfold cMatch
  split
  · exact (h.peek.advance 1).nextIp
  · exact h.peek

theorem Inv.test (h : Inv c) (p : UInt8 → Bool) (choice : Bool) (l : Nat) :
    NextInv (cTestInsn a c p choice l) := by
  unfold cTestInsn
  split
  · cases choice with
    | false => exact (h.peek.advance 1).nextIp
    | true =>
        have hpush := h.peek.push (e := .btrack l c.pos) (by rintro off ⟨⟩; rfl)
        exact (hpush.advance 1).nextIp
  · exact h.peek.jumpTo l

theorem Inv.checkEnd (h : Inv c) (k : Nat) : NextInv (cInsn a thr hit .failed c (.checkEnd k)) := by
  simp only [cInsn]
  split
  · next id pos flag rest hs =>
      have hpop := h.pop hs
      split
      · exact hpop.nextIp
      · have hcount := hpop.forward (cPop c (.check id pos flag) rest).ip
          ((cPop c (.check id pos flag) rest).nchecks + 1) (le_refl _) (le_refl _)
        split
        · exact hcount
        · split
          · exact hcount
          · exact (hcount.advance _).nextIp
  · trivial

theorem Inv.memoOpen (h : Inv c) {l : Nat} {id : Int}
    (hhit : ∀ e ∈ hit, takenInside c (.memoOpen l id) e → HitReaches c e) : NextInv (cInsn a thr hit .failed c (.memoOpen l id)) := by
  simp only [cInsn]
  split
  · next e =>
      have hstart : ∀ p ∈ c.stack.filterMap frame, (p : Int) ≤ (hitExtent c e).start :=
        fun p hp => Int.ofNat_le.mpr (frame_le_pos h hp)
      split
      · next hlen =>
          refine h.hit hstart fun hmemo => ?_
          have hreach := hhit e rfl hmemo
          simpa [HitReaches, hlen, reach, hitExtent] using hreach
      · exact (Inv.hit (h.advance e.length.toNat) hstart (hhit e rfl)).jumpTo l
  · exact (h.push (by rintro off ⟨⟩; rfl)).nextIp

theorem Inv.memoTreeOpen (h : Inv c) {l : Nat} {id : Int}
    (hhit : ∀ e ∈ hit, takenInside c (.memoTreeOpen l id) e → HitReaches c e) :
    NextInv (cInsn a thr hit .failed c (.memoTreeOpen l id)) := by
  simp only [cInsn]
  split
  · next e =>
      split
      · next hlen =>
          refine h.hit (fun p hp => Int.ofNat_le.mpr (frame_le_pos h hp)) fun hmemo => ?_
          have hreach := hhit e rfl (by simp [takenInside, hmemo])
          simpa [HitReaches, hlen, reach, hitExtent] using hreach
      · next hlen =>
          have hpush := h.push (e := .memoTree id c.pos e.count) (by rintro off ⟨⟩; rfl)
          have hgo := (hpush.advance e.length.toNat).peek
          refine (Inv.hit (x := hitExtent c e) hgo ?_ fun _ => ?_).jumpTo l
          · intro p hp
            have hle := frame_le_pos hpush hp
            rw [cPush_pos] at hle
            exact Int.ofNat_le.mpr hle
          · have hreach := hhit e rfl (by simp [takenInside, hlen])
            simp only [HitReaches] at hreach
            simp only [hitExtent, reach, cPeek, cAdvance, cPush_pos, cPush_furthest]
            omega
  · exact (h.push (by rintro off ⟨⟩; rfl)).nextIp

theorem cInsn_inv (h : Inv c) {i : VmInsn} (hhit : ∀ e ∈ hit, takenInside c i e → HitReaches c e)
    (hback : BackReturns c i) : NextInv (cInsn a thr hit .failed c i) := by
  cases i with
  | char b => exact h.match (isByte b)
  | jump l => exact h.jumpTo l
  | choice l => exact (h.push (by rintro off ⟨⟩; rfl)).nextIp
  | call l => exact (h.push (by rintro off ⟨⟩)).jumpTo l
  | commit l =>
      simp only [cInsn]
      split
      · trivial
      · next e rest hs => exact (h.pop hs).jumpTo l
  | ret =>
      simp only [cInsn]
      split
      · next ip rest hs => exact (h.pop hs).jumpTo ip
      · trivial
  | fail => exact h
  | set cs => exact h.match cs.has
  | any n =>
      simp only [cInsn]
      split
      · exact (h.advance _).nextIp
      · exact h.advance _
  | partialCommit l =>
      simp only [cInsn]
      split
      · next ip off rest hs =>
          have hpush := (h.pop hs).push (e := .btrack ip c.pos)
            (by rintro off ⟨⟩; exact (cPop_pos c _ rest).symm)
          exact hpush.jumpTo l
      · trivial
  | span cs =>
      exact h.forward (c.ip + 1) c.nchecks (Nat.le_add_right _ _) (le_max_left _ _)
  | backCommit l =>
      simp only [cInsn]
      split
      · next ip off rest hs => exact h.back hs (by simpa [BackReturns, hs] using hback) l
      · trivial
  | failTwice =>
      simp only [cInsn]
      split
      · exact h
      · next e rest hs => exact h.pop hs
  | empty mask =>
      simp only [cInsn]
      generalize emptyOpContext _ _ &&& mask.toNat = context
      split
      · exact h.nextIp
      · exact h
  | testChar b l => exact h.test _ true l
  | testCharNoChoice b l => exact h.test _ false l
  | testSet cs l => exact h.test _ true l
  | testSetNoChoice cs l => exact h.test _ false l
  | testAny n l =>
      simp only [cInsn]
      split
      · have hpush := (h.push (e := .btrack l c.pos) (by rintro off ⟨⟩; rfl)).advance n.toNat
        exact hpush.nextIp
      · exact h.jumpTo l
  | endOp b => exact h
  | nop => trivial
  | captureBegin id => exact (h.push (by rintro off ⟨⟩)).nextIp
  | captureLate back id => exact (h.push (by rintro off ⟨⟩)).nextIp
  | captureEnd =>
      simp only [cInsn]
      split
      · next id pos rest hs => exact (h.pop hs).nextIp
      · trivial
  | captureFull back id => exact h.nextIp
  | checkBegin id flag => exact (h.push (by rintro off ⟨⟩)).nextIp
  | checkEnd k => exact h.checkEnd k
  | memoOpen l id => exact h.memoOpen hhit
  | memoClose =>
      simp only [cInsn]
      split
      · next id pos rest hs =>
          have hstore := h.memoize a thr hs rfl (.inl (le_refl ((c.pos : Int) - pos)))
          exact (hstore.pop (by simpa using hs)).nextIp
      · trivial
  | memoTreeOpen l id => exact h.memoTreeOpen hhit
  | memoTreeInsert =>
      simp only [cInsn]
      split
      · next id pos count rest hs =>
          have hset := h.setTop hs (.memoTree id pos (count + 1)) rfl rfl
          exact (hset.memoize a thr rfl rfl (.inl (le_refl _))).nextIp
      · trivial
  | memoTree => exact (h.treeLoop _ 0 0).nextIp
  | memoTreeClose id => exact (h.treeClose id _).nextIp
  | error k => exact h.nextIp

theorem cStep_inv (h : Inv c) (hcov : Covers a thr hit c) : NextInv (cStep a thr hit c) := by
  unfold cStep
  cases hi : a.code.prog[c.ip]? with
  | none => trivial
  | some i =>
      obtain ⟨hhit, hback, hfail⟩ := hcov i hi
      have hinsn : NextInv (cInsn a thr hit .failed c i) := cInsn_inv h hhit hback
      change NextInv (cInsn a thr hit (cGoFail a thr) c i)
      simp only [failPoint] at hfail
      rw [cInsn_fail]
      generalize cInsn a thr hit .failed c i = r at hinsn hfail
      cases r with
      | failed c' => exact cFail_inv c'.stack hinsn rfl (hfail c' rfl)
      | running | done | aborted => exact hinsn

end Step

section Run

/-- The machine and its control from a first state on, with a condition on the control
before each instruction and on what the instruction finds in the table. -/
inductive TracedRun (a : VmArgs) (thr : Option Int) (P : Option MemoEntry → Ctl → Prop)
    (s₀ : VmState) : VmNext → CNext → Prop
  | start : TracedRun a thr P s₀ (.running s₀) (.running ⟨s₀.ip, 0, 0, [], s₀.nchecks, []⟩)
  | step {s : VmState} {c : Ctl} (h : TracedRun a thr P s₀ (.running s) (.running c))
      (hP : P (lookupNow a s) c) :
      TracedRun a thr P s₀ (vmStep a s) (cStep a thr (lookupNow a s) c)

def traceOf : CNext → List Event
  | .running c | .done c _ | .failed c => c.trace
  | .aborted _ => []

def thresholdOf (tbl : Option MemoTable) : Option Int :=
  tbl.map MemoTable.threshold

variable {a : VmArgs} {thr : Option Int} {base : List Int} {s₀ : VmState} {r : VmNext} {c : CNext}

theorem TracedRun.tracks {P : Option MemoEntry → Ctl → Prop}
    (h₀ : Tracks a thr base s₀ ⟨s₀.ip, 0, 0, [], s₀.nchecks, []⟩) (h : TracedRun a thr P s₀ r c) :
    NextTracks a thr base r c := by
  induction h with
  | start => exact h₀
  | step _ _ ih => exact vmStep_tracks ih

theorem TracedRun.inv (h : TracedRun a thr (Covers a thr) s₀ r c) : NextInv c := by
  induction h with
  | start =>
      refine ⟨List.pairwise_singleton _ _, .nil, ?_⟩
      intro before x after heq
      cases before <;> cases heq
  | step _ hP ih => exact cStep_inv ih hP

theorem NextInv.contained (h : NextInv c) : Contained (traceOf c) := by
  cases c with
  | running | done | failed => exact h.contained
  | aborted =>
      intro before x after heq
      cases before <;> cases heq

end Run

/-- In every run whose instructions find the bytes that the open evaluations depend on
covered, the extent of an entry that is stored has in it the extents of all entries that
were taken or stored in its evaluation; the trace is the one of the machine. A windowed
run starts on the memory and the table that its first edit leaves. -/
theorem stored_extent_contains (a : VmArgs) (mem : Mem) (tbl : Option MemoTable) (nchecks : Nat)
    (r : VmNext) (c : CNext)
    (hrun : TracedRun a (thresholdOf (vmStart a mem tbl nchecks).tbl)
      (Covers a (thresholdOf (vmStart a mem tbl nchecks).tbl)) (vmStart a mem tbl nchecks) r c) :
    NextTracks a (thresholdOf (vmStart a mem tbl nchecks).tbl)
      ((vmStart a mem tbl nchecks).mem.entries.map MemoEntry.examined) r c ∧
      Contained (traceOf c) :=
  ⟨hrun.tracks (vmStart_tracks a mem tbl nchecks), hrun.inv.contained⟩

/-- A number of instructions at most, each with `P` before it. -/
def tracedLoop (a : VmArgs) (thr : Option Int) (P : Option MemoEntry → Ctl → Prop)
    [∀ hit c, Decidable (P hit c)] : Nat → VmState → Ctl → Option (VmNext × CNext)
  | 0, s, c => some (.running s, .running c)
  | n + 1, s, c =>
      if P (lookupNow a s) c then
        match vmStep a s, cStep a thr (lookupNow a s) c with
        | .running s', .running c' => tracedLoop a thr P n s' c'
        | r, c' => some (r, c')
      else none

theorem tracedLoop_run {a : VmArgs} {thr : Option Int} {P : Option MemoEntry → Ctl → Prop}
    [∀ hit c, Decidable (P hit c)] {s₀ : VmState} {n : Nat} {s : VmState} {c : Ctl} {r : VmNext}
    {c' : CNext} (h : TracedRun a thr P s₀ (.running s) (.running c))
    (hloop : tracedLoop a thr P n s c = some (r, c')) : TracedRun a thr P s₀ r c' := by
  induction n generalizing s c with
  | zero =>
      cases hloop
      exact h
  | succ n ih =>
      rw [tracedLoop] at hloop
      split at hloop
      · next hP =>
          have hstep := h.step hP
          split at hloop
          · next hs hc =>
              rw [hs, hc] at hstep
              exact ih hstep hloop
          · cases hloop
            exact hstep
      · cases hloop

/-- Two alternatives with the same memoized start. -/
def letterPat : Pattern.Pat :=
  .memo (.alt (.seq (.memo (.literal [97, 98]) 2) (.literal [99]))
    (.seq (.memo (.literal [97, 98]) 2) (.literal [100]))) 1

def aheadPat : Pattern.Pat :=
  .memo (.seq (.and (.memo (.dot 5) 2)) (.literal [97])) 1

def firstParse (p : Pattern.Pat) (subject : List UInt8) : Peg.Peg :=
  Peg.pegReset (Peg.pegNew (Session.compiledCode 20 p) 0) subject

def firstStart (p : Pattern.Pat) (subject : List UInt8) : VmState :=
  vmStart ((firstParse p subject).args (-1) (-1)) (firstParse p subject).mem
    (some (firstParse p subject).tbl) (firstParse p subject).nchecks

def firstTrace (p : Pattern.Pat) (subject : List UInt8) (P : Option MemoEntry → Ctl → Prop)
    [∀ hit c, Decidable (P hit c)] : Option (VmNext × CNext) :=
  tracedLoop ((firstParse p subject).args (-1) (-1)) (some 0) P 40
    (firstStart p subject) ⟨0, 0, 0, [], 0, []⟩

theorem firstTrace_run {p : Pattern.Pat} {subject : List UInt8} {P : Option MemoEntry → Ctl → Prop}
    [∀ hit c, Decidable (P hit c)] {r : VmNext} {c : CNext}
    (h : firstTrace p subject P = some (r, c)) :
    TracedRun ((firstParse p subject).args (-1) (-1)) (some 0) P
      (firstStart p subject) r c :=
  tracedLoop_run .start h

/-- The second alternative takes the entry that the first one has stored. -/
theorem stored_extent_contains_letters : ∃ (r : VmNext) (c : CNext),
    TracedRun ((firstParse letterPat [97, 98, 100]).args (-1) (-1)) (some 0)
        (Covers ((firstParse letterPat [97, 98, 100]).args (-1) (-1)) (some 0))
        (firstStart letterPat [97, 98, 100]) r c ∧
      traceOf c = [.opened, .opened, .stored ⟨0, 3⟩, .closed, .hit ⟨0, 3⟩, .stored ⟨0, 4⟩,
        .closed] ∧ Contained (traceOf c) := by
  have htrace : (firstTrace letterPat [97, 98, 100]
      (Covers ((firstParse letterPat [97, 98, 100]).args (-1) (-1)) (some 0))).any (fun r =>
        decide (traceOf r.2 = [.opened, .opened, .stored ⟨0, 3⟩, .closed, .hit ⟨0, 3⟩,
          .stored ⟨0, 4⟩, .closed])) = true := by
    decide +kernel
  obtain ⟨⟨r, c⟩, hsome, heq⟩ := (Option.any_eq_true _ _).mp htrace
  have hrun := firstTrace_run hsome
  exact ⟨r, c, hrun, of_decide_eq_true heq,
    (stored_extent_contains ((firstParse letterPat [97, 98, 100]).args (-1) (-1))
      (firstParse letterPat [97, 98, 100]).mem (some (firstParse letterPat [97, 98, 100]).tbl)
      (firstParse letterPat [97, 98, 100]).nchecks r c hrun).2⟩

/-- The entry of the lookahead depends on six bytes, the one of the whole pattern has
two. -/
theorem stored_extent_misses :
    ¬∀ (fuel : Nat) (memoCounter : Int) (pat : Pattern.Pat) (code : VmCode),
      Compile.patCompile fuel memoCounter pat = some (.ok code) →
      ∀ (threshold : Int) (s : Session.PegSession),
      Session.SessionRun (fun _ _ => True) code threshold s →
      ∀ (op : Peg.PegOp) (g : Peg.Peg), Session.execArgs s.peg op = some (g, -1, -1) →
      ∀ (fuel : Nat) (start : VmState), Session.pegStart fuel g (-1) (-1) = some start →
      ∀ (r : VmNext) (c : CNext),
      TracedRun (g.args (-1) (-1)) (thresholdOf start.tbl) (fun _ _ => True) start r c →
      Contained (traceOf c) := by
  intro h
  have hcode := @Session.patCompile_compiledCode 20 aheadPat (by decide +kernel)
  have htrace : (firstTrace aheadPat (List.replicate 6 97) fun _ _ => True).any (fun r =>
      decide (traceOf r.2 = [.opened, .opened, .stored ⟨0, 6⟩, .closed] ++
        .stored ⟨0, 2⟩ :: [.closed])) = true := by
    decide +kernel
  obtain ⟨⟨r, c⟩, hsome, heq⟩ := (Option.any_eq_true _ _).mp htrace
  have hcontained := h _ _ _ _ hcode 0 _ .new (.parse (List.replicate 6 97)) _ rfl 0 _ rfl r c
    (firstTrace_run hsome)
  have hin := hcontained _ _ _ (of_decide_eq_true heq) ⟨0, 6⟩ (by decide)
  exact absurd hin.2 (by decide)

end Libpeg.Extents
