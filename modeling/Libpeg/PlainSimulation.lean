import Libpeg.AbstractVm
import Libpeg.PlainMachine
import Libpeg.Positions

namespace Libpeg.PlainSimulation

open Libpeg.Charset Libpeg.Opcode Libpeg.Code Libpeg.Memo Libpeg.Input Libpeg.Vm Libpeg.Forest
open Libpeg.AbstractVm Libpeg.Positions Libpeg.ControlMachine Libpeg.Segments Libpeg.PlainMachine

def pile (σ : AState) : Pile StEntry CapForest :=
  ⟨σ.stack.map fun f => (f.entry, f.capt), σ.capt⟩

def PureCheckers (code : VmCode) : Prop :=
  ∀ fn, some fn ∈ code.checkers → ∀ n n', fn n = fn n'

def memoizes : VmInsn → Bool
  | .memoOpen _ _ | .memoClose | .memoTreeOpen _ _ | .memoTreeInsert | .memoTree
  | .memoTreeClose _ => true
  | _ => false

variable {a : VmArgs} {σ σ' : AState} {hit : Option AEntry} {i : VmInsn} {e : AFrame}
  {rest : List AFrame}

section Instructions

theorem pile_addCapt (σ : AState) (capt : CapForest) : pile (aAddCapt σ capt) = (pile σ).add capt := by
  unfold aAddCapt
  split
  · next h =>
      rw [pile, pile, h]
      rfl
  · next h =>
      rw [pile, pile, h]
      rfl

theorem pile_rest (h : σ.stack = e :: rest) : pile { σ with stack := rest } = (pile σ).pop := by
  simp only [pile, Pile.pop, h, List.map_cons, List.tail_cons]

theorem pile_pop (h : σ.stack = e :: rest) : pile (aPop σ e rest) = (pile σ).pop.add e.capt := by
  rw [aPop, pile_addCapt, pile_rest h]

/-- The machine does what the plain machine does with this stack. -/
def Acted (a : VmArgs) (σ : AState) (S : Pile StEntry CapForest) : Act → ANext → Prop
  | .go ip pos capt entry, r => ∃ σ', r = .running σ' ∧ σ'.ip = ip ∧ σ'.pos = pos ∧
      pile σ' = enter (S.add capt) entry ∧ σ'.tbl = σ.tbl
  | .fail, r => ∃ σ' capt, r = aGoFail a σ' ∧ pile σ' = S.add capt ∧ σ'.tbl = σ.tbl
  | .done success, r => r = .done σ success
  | .stuck, _ => True

theorem acted_next (h : σ'.ip = σ.ip) {pos : Nat} (hpos : σ'.pos = pos) (hpile : pile σ' = pile σ)
    (htbl : σ'.tbl = σ.tbl) :
    Acted a σ (pile σ) (.go (σ.ip + 1) pos .nil none) (aNextIp σ') :=
  ⟨_, rfl, congrArg (· + 1) h, hpos, hpile.trans (Pile.add_zero _).symm, htbl⟩

theorem acted_fail (hpile : pile σ' = pile σ) (htbl : σ'.tbl = σ.tbl) :
    Acted a σ (pile σ) .fail (aGoFail a σ') :=
  ⟨_, .nil, rfl, hpile.trans (Pile.add_zero _).symm, htbl⟩

theorem aMatch_acted (p : UInt8 → Bool) :
    Acted a σ (pile σ) (byteAct a.input σ.ip σ.pos p) (aMatch a σ p) := by
  rw [byteAct, aMatch, aTest]
  split
  · exact acted_next (a := a) rfl rfl rfl rfl
  · exact acted_fail rfl rfl

theorem aTestInsn_acted (p : UInt8 → Bool) (choice : Bool) (l : Nat) :
    Acted a σ (pile σ) (testAct a.input σ.ip σ.pos p
      (if choice then some (.btrack l σ.pos) else none) l) (aTestInsn a σ p choice l) := by
  rw [testAct, aTestInsn, aTest]
  split
  · cases choice with
    | true => exact ⟨_, rfl, rfl, rfl, congrArg (Pile.push · _) (Pile.add_zero (pile σ)).symm, rfl⟩
    | false => exact acted_next (a := a) rfl rfl rfl rfl
  · exact ⟨_, rfl, rfl, rfl, (Pile.add_zero (pile σ)).symm, rfl⟩

theorem acted_pop (h : σ.stack = e :: rest) (ip : Nat) :
    Acted a σ (pile σ).pop (.go ip σ.pos e.capt none) (aJumpTo (aPop σ e rest) ip) :=
  ⟨_, rfl, rfl, aPop_pos e rest, (pile_pop h), aPop_tbl e rest⟩

theorem aInsn_acted_pop (hw : a.windowed = false) (hpure : PureCheckers a.code) (hi : pops i = true)
    (hit : Option AEntry) : Acted a σ (pile σ).pop
      (act a.code a.input σ.ip σ.pos (pile σ).frames.head? i) (aInsn a hit σ i) := by
  cases hstack : σ.stack with
  | nil =>
      have hhead : (pile σ).frames.head? = none := by simp [pile, hstack]
      rw [hhead, act_empty hi]
      exact trivial
  | cons e rest =>
      obtain ⟨entry, capt⟩ := e
      have hhead : (pile σ).frames.head? = some (entry, capt) := by simp [pile, hstack]
      have hpop := acted_pop (a := a) hstack
      rw [hhead]
      cases i with
      | commit l => simpa only [aInsn, hstack, act] using hpop l
      | failTwice =>
          simp only [aInsn, hstack]
          exact ⟨_, .nil, rfl, (pile_rest hstack).trans (Pile.add_zero _).symm, rfl⟩
      | ret =>
          cases entry with
          | ret r => simpa only [aInsn, hstack, act] using hpop r
          | _ => exact trivial
      | partialCommit l =>
          cases entry with
          | btrack r off =>
              simp only [aInsn, hstack]
              refine ⟨_, rfl, rfl, aPop_pos (s := σ) _ _, ?_, aPop_tbl (s := σ) _ _⟩
              exact congrArg (Pile.push · _) (pile_pop hstack)
          | _ => exact trivial
      | backCommit l =>
          cases entry with
          | btrack r off =>
              simp only [aInsn, hstack]
              exact ⟨_, rfl, rfl, rfl, pile_pop hstack, aPop_tbl (s := σ) _ _⟩
          | _ => exact trivial
      | captureEnd =>
          cases entry with
          | capt id start =>
              simp only [aInsn, hstack, inWindow, hw, Bool.not_false, Bool.true_or, if_true]
              exact ⟨_, rfl, congrArg (· + 1) (aAddCapt_ip _), aAddCapt_pos _,
                (pile_addCapt _ _).trans (congrArg (Pile.add · _) (pile_rest hstack)),
                aAddCapt_tbl _⟩
          | _ => exact trivial
      | checkEnd k =>
          cases entry with
          | check id start flag =>
              simp only [aInsn, hstack, act]
              cases hfn : (a.code.checkers[k]?).join with
              | none =>
                  exact ⟨_, rfl, congrArg (· + 1) (aAddCapt_ip _), aPop_pos (s := σ) _ _,
                    pile_pop hstack, aPop_tbl (s := σ) _ _⟩
              | some fn =>
                  have hmem : some fn ∈ a.code.checkers :=
                    List.mem_of_getElem? (Option.join_eq_some_iff.mp hfn)
                  have hfail : ∀ σ', pile σ' = pile (aPop σ ⟨.check id start flag, capt⟩ rest) →
                      σ'.tbl = (aPop σ ⟨.check id start flag, capt⟩ rest).tbl →
                      Acted a σ (pile σ).pop .fail (aGoFail a σ') := fun σ' hpile htbl =>
                    ⟨σ', capt, rfl, hpile.trans (pile_pop hstack), htbl.trans (aPop_tbl (s := σ) _ _)⟩
                  simp only [aPop_pos, hpure fn hmem _ 0]
                  split
                  · exact hfail _ rfl rfl
                  · split
                    · exact hfail _ rfl rfl
                    · exact ⟨_, rfl, congrArg (· + 1) (aAddCapt_ip _), rfl, pile_pop hstack,
                        aPop_tbl (s := σ) _ _⟩
          | _ => exact trivial
      | _ => cases hi

theorem aInsn_acted (hw : a.windowed = false) (hpure : PureCheckers a.code) (hi : memoizes i = false)
    (hit : Option AEntry) : Acted a σ (remaining i (pile σ))
      (act a.code a.input σ.ip σ.pos (pile σ).frames.head? i) (aInsn a hit σ i) := by
  cases i with
  | char b => exact aMatch_acted (isByte b)
  | set set => exact aMatch_acted set.has
  | any n =>
      simp only [act, aInsn, remaining, pops, Bool.false_eq_true, if_false]
      split
      · exact acted_next (a := a) rfl rfl rfl rfl
      · exact acted_fail rfl rfl
  | span set => exact acted_next (a := a) rfl rfl rfl rfl
  | empty mask =>
      simp only [act, aInsn, remaining, pops, Bool.false_eq_true, if_false]
      generalize emptyOpContext _ _ &&& mask.toNat = m
      split
      · exact acted_next (a := a) rfl rfl rfl rfl
      · exact acted_fail rfl rfl
  | jump l => exact ⟨_, rfl, rfl, rfl, (Pile.add_zero (pile σ)).symm, rfl⟩
  | choice l => exact ⟨_, rfl, rfl, rfl, congrArg (Pile.push · _) (Pile.add_zero (pile σ)).symm, rfl⟩
  | call l => exact ⟨_, rfl, rfl, rfl, congrArg (Pile.push · _) (Pile.add_zero (pile σ)).symm, rfl⟩
  | fail => exact acted_fail rfl rfl
  | endOp b => exact rfl
  | nop => exact trivial
  | testChar b l => exact aTestInsn_acted (isByte b) true l
  | testCharNoChoice b l => exact aTestInsn_acted (isByte b) false l
  | testSet set l => exact aTestInsn_acted set.has true l
  | testSetNoChoice set l => exact aTestInsn_acted set.has false l
  | testAny n l =>
      simp only [act, aInsn, remaining, pops, Bool.false_eq_true, if_false]
      split
      · exact ⟨_, rfl, rfl, rfl, congrArg (Pile.push · _) (Pile.add_zero (pile σ)).symm, rfl⟩
      · exact ⟨_, rfl, rfl, rfl, (Pile.add_zero (pile σ)).symm, rfl⟩
  | captureBegin id =>
      exact ⟨_, rfl, rfl, rfl, congrArg (Pile.push · _) (Pile.add_zero (pile σ)).symm, rfl⟩
  | captureLate back id =>
      exact ⟨_, rfl, rfl, rfl, congrArg (Pile.push · _) (Pile.add_zero (pile σ)).symm, rfl⟩
  | checkBegin id flag =>
      exact ⟨_, rfl, rfl, rfl, congrArg (Pile.push · _) (Pile.add_zero (pile σ)).symm, rfl⟩
  | error k => exact acted_next (a := a) rfl rfl rfl rfl
  | captureFull back id =>
      simp only [aInsn, inWindow, hw, Bool.not_false, Bool.true_or, if_true]
      exact ⟨_, rfl, congrArg (· + 1) (aAddCapt_ip _), aAddCapt_pos _, pile_addCapt σ _,
        aAddCapt_tbl _⟩
  | memoOpen | memoClose | memoTreeOpen | memoTreeInsert | memoTree | memoTreeClose => cases hi
  | _ => exact aInsn_acted_pop hw hpure rfl hit

end Instructions

end Libpeg.PlainSimulation
