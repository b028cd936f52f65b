import Mathlib.Logic.Relation
import Libpeg.ControlMachine
import Libpeg.Segments

namespace Libpeg.PlainMachine

open Libpeg.Charset Libpeg.Opcode Libpeg.Code Libpeg.Memo Libpeg.Input Libpeg.Vm Libpeg.Forest
open Libpeg.ControlMachine Libpeg.Segments

instance : Zero CapForest :=
  ⟨.nil⟩

instance : Add CapForest :=
  ⟨CapForest.append⟩

instance : AddMonoid CapForest where
  add_assoc := append_assoc
  zero_add := nil_append
  add_zero := append_nil
  nsmul := nsmulRec

def Kept (e : StEntry) : Prop :=
  isMemo e = false

def btrackOf : StEntry → Option (Nat × Nat)
  | .btrack ip off => some (ip, off)
  | _ => none

structure Plain where
  ip : Nat
  pos : Nat
  stack : Pile StEntry CapForest

inductive PNext where
  | running (x : Plain)
  | done (success : Bool)
  | failed
  | stuck

/-- What an instruction does: it goes on, with captures for the stack and maybe a new entry,
it fails, or it ends the run. -/
inductive Act where
  | go (ip pos : Nat) (capt : CapForest) (entry : Option StEntry)
  | fail
  | done (success : Bool)
  | stuck

/-- The instructions that take the top entry off. -/
def pops : VmInsn → Bool
  | .commit _ | .ret | .partialCommit _ | .backCommit _ | .failTwice | .captureEnd
  | .checkEnd _ => true
  | _ => false

def byteAct (input : List UInt8) (ip pos : Nat) (p : UInt8 → Bool) : Act :=
  if input[pos]?.any p then .go (ip + 1) (pos + 1) .nil none else .fail

def testAct (input : List UInt8) (ip pos : Nat) (p : UInt8 → Bool) (entry : Option StEntry)
    (target : Nat) : Act :=
  if input[pos]?.any p then .go (ip + 1) (pos + 1) .nil entry else .go target pos .nil none

/-- What an instruction does at a position; `top` is the entry that it may pop. -/
def act (code : VmCode) (input : List UInt8) (ip pos : Nat) (top : Option (StEntry × CapForest)) :
    VmInsn → Act
  | .char b => byteAct input ip pos (isByte b)
  | .set set => byteAct input ip pos set.has
  | .any n =>
      if pos + n.toNat ≤ input.length then .go (ip + 1) (pos + n.toNat) .nil none else .fail
  | .span set => .go (ip + 1) (pos + spanLength input set pos) .nil none
  | .empty mask =>
      let r1 := if pos > 0 then input[pos - 1]? else none
      if emptyOpContext r1 input[pos]? &&& mask.toNat ≠ 0 then .go (ip + 1) pos .nil none
      else .fail
  | .jump l => .go l pos .nil none
  | .choice l => .go (ip + 1) pos .nil (some (.btrack l pos))
  | .call l => .go l pos .nil (some (.ret (ip + 1)))
  | .commit l =>
      match top with
      | some (_, capt) => .go l pos capt none
      | none => .stuck
  | .ret =>
      match top with
      | some (.ret r, capt) => .go r pos capt none
      | _ => .stuck
  | .partialCommit l =>
      match top with
      | some (.btrack r _, capt) => .go l pos capt (some (.btrack r pos))
      | _ => .stuck
  | .backCommit l =>
      match top with
      | some (.btrack _ off, capt) => .go l off capt none
      | _ => .stuck
  | .fail => .fail
  | .failTwice =>
      match top with
      | some _ => .fail
      | none => .stuck
  | .testChar b l => testAct input ip pos (isByte b) (some (.btrack l pos)) l
  | .testCharNoChoice b l => testAct input ip pos (isByte b) none l
  | .testSet set l => testAct input ip pos set.has (some (.btrack l pos)) l
  | .testSetNoChoice set l => testAct input ip pos set.has none l
  | .testAny n l =>
      if pos + n.toNat ≤ input.length then
        .go (ip + 1) (pos + n.toNat) .nil (some (.btrack l pos))
      else .go l pos .nil none
  | .endOp b => .done (b ≠ 1)
  | .nop => .stuck
  | .captureBegin id => .go (ip + 1) pos .nil (some (.capt id pos))
  | .captureLate back id => .go (ip + 1) pos .nil (some (.capt id (pos - back)))
  | .captureEnd =>
      match top with
      | some (.capt id start, capt) =>
          .go (ip + 1) pos (.cons id start ((pos : Int) - start) capt .nil) none
      | _ => .stuck
  | .captureFull back id =>
      .go (ip + 1) pos (.cons id ((pos : Int) - back) back .nil .nil) none
  | .checkBegin id flag => .go (ip + 1) pos .nil (some (.check id pos flag))
  | .checkEnd k =>
      match top with
      | some (.check id start flag, capt) =>
          match (code.checkers[k]?).join with
          | none => .go (ip + 1) pos capt none
          | some fn =>
              let n := fn 0 ((input.drop start).take (pos - start)) input id flag
              if n < 0 then .fail
              else if pos + n.toNat > input.length then .fail
              else .go (ip + 1) (pos + n.toNat) capt none
      | _ => .stuck
  | .memoOpen _ _ | .memoClose | .memoTreeOpen _ _ | .memoTreeInsert | .memoTree
  | .memoTreeClose _ | .error _ => .go (ip + 1) pos .nil none

def back (S : Pile StEntry CapForest) : PNext :=
  match unwind btrackOf S with
  | some ((ip, off), S) => .running ⟨ip, off, S⟩
  | none => .failed

def enter (S : Pile StEntry CapForest) : Option StEntry → Pile StEntry CapForest
  | some e => S.push (e, .nil)
  | none => S

def settle (S : Pile StEntry CapForest) : Act → PNext
  | .go ip pos capt entry => .running ⟨ip, pos, enter (S.add capt) entry⟩
  | .fail => back S
  | .done success => .done success
  | .stuck => .stuck

/-- The stack without the entry that an instruction pops. -/
def remaining (i : VmInsn) (S : Pile StEntry CapForest) : Pile StEntry CapForest :=
  if pops i then S.pop else S

def step (code : VmCode) (input : List UInt8) (x : Plain) : PNext :=
  match code.prog[x.ip]? with
  | none => .stuck
  | some i => settle (remaining i x.stack) (act code input x.ip x.pos x.stack.frames.head? i)

variable {code : VmCode} {input : List UInt8} {ip pos ip' pos' : Nat} {x y z : Plain}
  {S S' U U' B : Pile StEntry CapForest} {i : VmInsn}

section Places

def PNext.onto (B : Pile StEntry CapForest) : PNext → PNext
  | .running x => .running { x with stack := x.stack.onto B }
  | .failed => back B
  | r => r

theorem back_onto (S B : Pile StEntry CapForest) : back (S.onto B) = (back S).onto B := by
  rw [back, back, unwind_onto]
  cases unwind btrackOf S with
  | none => rfl
  | some r => rfl

theorem settle_onto (S B : Pile StEntry CapForest) (act : Act) :
    settle (S.onto B) act = (settle S act).onto B := by
  cases act with
  | go ip pos capt entry =>
      rw [settle, settle, ← add_onto]
      cases entry <;> rfl
  | fail => exact back_onto S B
  | done success => rfl
  | stuck => rfl

theorem act_top (h : pops i = false) (top top' : Option (StEntry × CapForest)) :
    act code input ip pos top i = act code input ip pos top' i := by
  cases i <;> first | rfl | cases h

theorem act_empty (h : pops i = true) : act code input ip pos none i = .stuck := by
  cases i <;> first | rfl | cases h

theorem act_kept {top : Option (StEntry × CapForest)} {capt : CapForest} {e : StEntry}
    (h : act code input ip pos top i = .go ip' pos' capt (some e)) : Kept e := by
  cases i with
  | empty mask =>
      simp only [act] at h
      generalize emptyOpContext _ _ &&& mask.toNat = m at h
      split at h <;> cases h
  | char | set | any | testChar | testCharNoChoice | testSet | testSetNoChoice
  | testAny =>
      simp only [act, byteAct, testAct] at h
      split at h <;> cases h
      all_goals rfl
  | commit | ret | backCommit | failTwice | captureEnd =>
      simp only [act] at h
      split at h <;> cases h
  | partialCommit =>
      simp only [act] at h
      split at h <;> cases h
      rfl
  | checkEnd k =>
      simp only [act] at h
      split at h
      · split at h
        · cases h
        · split at h
          · cases h
          · split at h <;> cases h
      · cases h
  | _ =>
      cases h
      try rfl

theorem step_onto (h : step code input ⟨ip, pos, U⟩ ≠ .stuck) (B : Pile StEntry CapForest) :
    step code input ⟨ip, pos, U.onto B⟩ = (step code input ⟨ip, pos, U⟩).onto B := by
  simp only [step] at h ⊢
  cases hi : code.prog[ip]? with
  | none => rfl
  | some i =>
      simp only [hi] at h ⊢
      cases hp : pops i with
      | false =>
          simp only [remaining, hp, Bool.false_eq_true, if_false]
          rw [settle_onto, act_top hp]
      | true =>
          obtain ⟨_ | ⟨f, frames⟩, base⟩ := U
          · rw [List.head?_nil, act_empty hp] at h
            exact absurd rfl h
          · simp only [remaining, hp, if_true]
            rw [← settle_onto]
            rfl

def Moves (code : VmCode) (input : List UInt8) (x y : Plain) : Prop :=
  step code input x = .running y

def Reaches (code : VmCode) (input : List UInt8) : Plain → Plain → Prop :=
  Relation.ReflTransGen (Moves code input)

def Advances (code : VmCode) (input : List UInt8) : Plain → Plain → Prop :=
  Relation.TransGen (Moves code input)

def Fails (code : VmCode) (input : List UInt8) (x : Plain) : Prop :=
  ∃ y, Reaches code input x y ∧ step code input y = .failed

theorem moves_onto (h : Moves code input x y) (B : Pile StEntry CapForest) :
    Moves code input { x with stack := x.stack.onto B } { y with stack := y.stack.onto B } := by
  have hne : step code input ⟨x.ip, x.pos, x.stack⟩ ≠ .stuck := by
    change step code input x ≠ _
    rw [h]
    nofun
  change step code input ⟨x.ip, x.pos, x.stack.onto B⟩ = _
  rw [step_onto hne]
  change (step code input x).onto B = _
  rw [h]
  rfl

theorem reaches_onto (h : Reaches code input x y) (B : Pile StEntry CapForest) :
    Reaches code input { x with stack := x.stack.onto B } { y with stack := y.stack.onto B } :=
  h.lift (fun x : Plain => ({ x with stack := x.stack.onto B } : Plain)) fun _ _ h => moves_onto h B

theorem advances_onto (h : Advances code input x y) (B : Pile StEntry CapForest) :
    Advances code input { x with stack := x.stack.onto B } { y with stack := y.stack.onto B } :=
  h.lift (fun x : Plain => ({ x with stack := x.stack.onto B } : Plain)) fun _ _ h => moves_onto h B

theorem fails_onto (h : Fails code input ⟨ip, pos, ⟨[], .nil⟩⟩) (U : Pile StEntry CapForest) :
    (unwind btrackOf U = none → Fails code input ⟨ip, pos, U⟩) ∧
      ∀ r U', unwind btrackOf U = some (r, U') →
        Advances code input ⟨ip, pos, U⟩ ⟨r.1, r.2, U'⟩ := by
  obtain ⟨y, hreach, hy⟩ := h
  have hne : step code input ⟨y.ip, y.pos, y.stack⟩ ≠ .stuck := by
    change step code input y ≠ _
    rw [hy]
    nofun
  have hback : step code input { y with stack := y.stack.onto U } = back U := by
    rw [step_onto hne]
    change (step code input y).onto U = _
    rw [hy]
    rfl
  have hreach' : Reaches code input ⟨ip, pos, U⟩ { y with stack := y.stack.onto U } := by
    simpa only [show (⟨[], .nil⟩ : Pile StEntry CapForest).onto U = U from empty_onto U]
      using reaches_onto hreach U
  refine ⟨fun hU => ⟨_, hreach', ?_⟩, fun r U' hU => .tail' hreach' ?_⟩
  · rw [hback, back, hU]
  · rw [Moves, hback, back, hU]

end Places

section Ends

theorem moves_unique (h : Moves code input x y) (h' : Moves code input x z) : y = z := by
  have := h.symm.trans h'
  cases this
  rfl

theorem acc_of_reaches (h : Reaches code input x y) (hy : ∀ z, ¬Moves code input y z) :
    Acc (fun z x => Moves code input x z) x := by
  induction h using Relation.ReflTransGen.head_induction_on with
  | refl => exact ⟨_, fun z hz => absurd hz (hy z)⟩
  | head hstep _ ih =>
      refine ⟨_, fun z hz => ?_⟩
      rwa [← moves_unique hstep hz]

end Ends

end Libpeg.PlainMachine
