import Libpeg.CodeShape
import Libpeg.Optimize
import Libpeg.Semantics
import Libpeg.StepSimulation

namespace Libpeg.ListMachine

open Libpeg.Charset Libpeg.Opcode Libpeg.Code Libpeg.Memo Libpeg.Vm Libpeg.AbstractVm
open Libpeg.Compile Libpeg.Optimize Libpeg.CodeShape Libpeg.Semantics Libpeg.StepSimulation

/-- One step through a list, where no lookup finds anything. -/
def aListStep (a : VmArgs) (code : List Pir) (s : AState) : ANext :=
  match code[s.ip]? with
  | none => aInsn a none s (.endOp 0)
  | some (.label _) => aNextIp s
  | some (.openCall name) => .aborted name
  | some (.insn .nop) => aNextIp s
  | some (.insn i) => aInsn a none s (linkAt code s.ip i)

/-- The outcome of a run that ends. -/
inductive Final (a : VmArgs) (code : List Pir) : ANext → Outcome → Prop
  | failed {s : AState} : Final a code (.failed s) .fail
  | done {s : AState} : Final a code (.done s true) (.ok s.pos s.capt)
  | stopped {s : AState} : Final a code (.done s false) .stop
  | step {s : AState} {o : Outcome} (h : Final a code (aListStep a code s) o) :
      Final a code (.running s) o

def goto (s : AState) (ip pos furthest : Nat) : AState :=
  { s with ip := ip, pos := pos, furthest := furthest }

def frame (s : AState) (e : StEntry) (c : CapForest) : AState :=
  { s with stack := ⟨e, c⟩ :: s.stack }

section Updates

variable (s : AState) (ip pos f : Nat)

@[simp] theorem goto_ip : (goto s ip pos f).ip = ip :=
  rfl

@[simp] theorem goto_pos : (goto s ip pos f).pos = pos :=
  rfl

@[simp] theorem goto_furthest : (goto s ip pos f).furthest = f :=
  rfl

@[simp] theorem goto_stack : (goto s ip pos f).stack = s.stack :=
  rfl

@[simp] theorem goto_goto (ip' pos' f' : Nat) :
    goto (goto s ip pos f) ip' pos' f' = goto s ip' pos' f' :=
  rfl

theorem aAddCapt_goto (c : CapForest) :
    aAddCapt (goto s ip pos f) c = goto (aAddCapt s c) ip pos f := by
  unfold aAddCapt goto
  cases s.stack with
  | nil => rfl
  | cons e rest => rfl

theorem aAddCapt_frame (e : StEntry) (c c' : CapForest) :
    aAddCapt (frame s e c) c' = frame s e (c.append c') :=
  rfl

theorem aJumpTo_pop (e : StEntry) (c : CapForest) (l : Nat) :
    aJumpTo (aPop (goto (frame s e c) ip pos f) ⟨e, c⟩ s.stack) l =
      .running (goto (aAddCapt s c) l pos f) := by
  change aJumpTo (aAddCapt (goto s ip pos f) c) l = _
  rw [aAddCapt_goto]
  rfl

theorem aFail_stack (a : VmArgs) (stack st : List AFrame) (s : AState) :
    aFail a stack { s with stack := st } = aFail a stack s := by
  induction stack generalizing s with
  | nil => rfl
  | cons e rest ih =>
      rw [aFail, aFail]
      cases e.entry with
      | btrack l off => rfl
      | memo id p =>
          have hmem : aMemoize a { s with stack := st } id p (-1) 0 e.capt =
              { aMemoize a s id p (-1) 0 e.capt with stack := st } := by
            obtain ⟨ip, q, fu, st', capt, tbl, errs, n⟩ := s
            cases tbl with
            | none => rfl
            | some t =>
                simp only [aMemoize]
                split
                · rfl
                · generalize (if fu > q then fu else q) = seen
                  split
                  · rfl
                  · rfl
          dsimp only
          rw [hmem, ih]
      | _ => exact ih s

theorem aGoFail_btrack (a : VmArgs) (l i : Nat) (c : CapForest) :
    aGoFail a (goto (frame s (.btrack l i) c) ip pos f) = .running (goto s l i f) :=
  rfl

theorem aGoFail_ret (a : VmArgs) (l : Nat) (c : CapForest) :
    aGoFail a (goto (frame s (.ret l) c) ip pos f) = aGoFail a (goto s ip pos f) :=
  aFail_stack a s.stack (⟨.ret l, c⟩ :: s.stack) (goto s ip pos f)

theorem aGoFail_capt (a : VmArgs) (id p : Int) (c : CapForest) :
    aGoFail a (goto (frame s (.capt id p) c) ip pos f) = aGoFail a (goto s ip pos f) :=
  aFail_stack a s.stack (⟨.capt id p, c⟩ :: s.stack) (goto s ip pos f)

end Updates

section Rules

variable {a : VmArgs} {code : List Pir} {s : AState} {k i f l x : Nat} {o : Outcome}

theorem filterMap_index {α β : Type} {f : α → Option β} {xs : List α} {y z : Nat} {u v : α} {c : β}
    (h : (xs.filterMap f).Nodup) (hy : xs[y]? = some u) (hz : xs[z]? = some v)
    (hu : f u = some c) (hv : f v = some c) : y = z := by
  induction xs generalizing y z with
  | nil => cases hy
  | cons t xs ih =>
      have htail : (xs.filterMap f).Nodup := h.sublist ((List.sublist_cons_self t xs).filterMap f)
      have hhead : f t = some c → ∀ (n : Nat) (v : α), xs[n]? = some v → f v ≠ some c := by
        intro ht n v hn hv
        rw [List.filterMap_cons_some ht, List.nodup_cons] at h
        exact h.1 (List.mem_filterMap.mpr ⟨v, List.mem_of_getElem? hn, hv⟩)
      cases y with
      | zero =>
          cases z with
          | zero => rfl
          | succ z =>
              cases hy
              exact absurd hv (hhead hu z v hz)
      | succ y =>
          cases z with
          | zero =>
              cases hz
              exact absurd hu (hhead hv y u hy)
          | succ z => rw [ih htail hy hz]

theorem labelIdx_eq (hnodup : (labelsOf code).Nodup) (hx : code[x]? = some (.label l)) :
    labelIdx code l = x := by
  unfold labelIdx
  cases hfind : (List.range code.length).reverse.find? fun i => code[i]?.any (marks l) with
  | none =>
      have hlt := (List.getElem?_eq_some_iff.mp hx).1
      have hno := List.find?_eq_none.mp hfind x (by simpa using hlt)
      simp [hx, marks] at hno
  | some y =>
      have hmark := List.find?_some hfind
      cases hy : code[y]? with
      | none => simp [hy] at hmark
      | some c =>
          cases c with
          | label l' =>
              simp only [hy, Option.any_some, marks, beq_iff_eq] at hmark
              subst hmark
              exact filterMap_index hnodup hy hx rfl rfl
          | _ => simp [hy, marks] at hmark

theorem aListStep_insn {j : PirInsn} (hj : code[s.ip]? = some (.insn j))
    (hreal : isReal (.insn j) = true) : aListStep a code s = aInsn a none s (linkAt code s.ip j) := by
  unfold aListStep
  rw [hj]
  cases j <;> first | rfl | cases hreal

theorem final_label (hk : code[k]? = some (.label l))
    (h : Final a code (.running (goto s (k + 1) i f)) o) :
    Final a code (.running (goto s k i f)) o := by
  apply Final.step
  rw [aListStep, goto_ip, hk]
  exact h

theorem final_insn {j : PirInsn} (hk : code[k]? = some (.insn j))
    (hreal : isReal (.insn j) = true)
    (h : Final a code (aInsn a none (goto s k i f) (linkAt code k j)) o) :
    Final a code (.running (goto s k i f)) o := by
  apply Final.step
  rw [aListStep_insn (by rw [goto_ip, hk]) hreal]
  exact h

theorem final_jump (hk : code[k]? = some (.insn (.jump l)))
    (h : Final a code (.running (goto s (labelIdx code l) i f)) o) :
    Final a code (.running (goto s k i f)) o :=
  final_insn hk rfl h

theorem final_choice (hk : code[k]? = some (.insn (.choice l)))
    (h : Final a code (.running (goto (frame s (.btrack (labelIdx code l) i) .nil) (k + 1) i f)) o) :
    Final a code (.running (goto s k i f)) o :=
  final_insn hk rfl h

theorem final_call (hk : code[k]? = some (.insn (.call l)))
    (h : Final a code (.running (goto (frame s (.ret (k + 1)) .nil) (labelIdx code l) i f)) o) :
    Final a code (.running (goto s k i f)) o :=
  final_insn hk rfl h

theorem final_commit {e : StEntry} {c : CapForest} (hk : code[k]? = some (.insn (.commit l)))
    (h : Final a code (.running (goto (aAddCapt s c) (labelIdx code l) i f)) o) :
    Final a code (.running (goto (frame s e c) k i f)) o := by
  refine final_insn hk rfl ?_
  change Final a code (aJumpTo (aPop (goto (frame s e c) k i f) ⟨e, c⟩ s.stack) _) o
  rw [aJumpTo_pop]
  exact h

theorem final_partialCommit {t j : Nat} {c : CapForest}
    (hk : code[k]? = some (.insn (.partialCommit l)))
    (h : Final a code (.running (goto (frame (aAddCapt s c) (.btrack t i) .nil)
      (labelIdx code l) i f)) o) :
    Final a code (.running (goto (frame s (.btrack t j) c) k i f)) o := by
  refine final_insn hk rfl ?_
  have hadd : aAddCapt { goto (frame s (.btrack t j) c) k i f with stack := s.stack } c =
      goto (aAddCapt s c) k i f := aAddCapt_goto s k i f c
  change Final a code (aJumpTo { aAddCapt { goto (frame s (.btrack t j) c) k i f with
    stack := s.stack } c with stack := _ :: (aAddCapt { goto (frame s (.btrack t j) c) k i f with
    stack := s.stack } c).stack } _) o
  rw [hadd]
  exact h

theorem final_backCommit {t j : Nat} {c : CapForest} (hk : code[k]? = some (.insn (.backCommit l)))
    (h : Final a code (.running (goto (aAddCapt s c) (labelIdx code l) j f)) o) :
    Final a code (.running (goto (frame s (.btrack t j) c) k i f)) o := by
  refine final_insn hk rfl ?_
  have hadd : aAddCapt (goto s k i f) c = goto (aAddCapt s c) k i f := aAddCapt_goto s k i f c
  change Final a code (aJumpTo { aAddCapt (goto s k i f) c with pos := j } _) o
  rw [hadd]
  exact h

theorem final_ret {t : Nat} {c : CapForest} (hk : code[k]? = some (.insn .ret))
    (h : Final a code (.running (goto (aAddCapt s c) t i f)) o) :
    Final a code (.running (goto (frame s (.ret t) c) k i f)) o := by
  refine final_insn hk rfl ?_
  change Final a code (aJumpTo (aPop (goto (frame s (.ret t) c) k i f) ⟨.ret t, c⟩ s.stack) _) o
  rw [aJumpTo_pop]
  exact h

theorem final_fail (hk : code[k]? = some (.insn .fail))
    (h : Final a code (aGoFail a (goto s k i f)) o) : Final a code (.running (goto s k i f)) o :=
  final_insn hk rfl h

theorem final_failTwice {e : StEntry} {c : CapForest} (hk : code[k]? = some (.insn .failTwice))
    (h : Final a code (aGoFail a (goto s k i f)) o) :
    Final a code (.running (goto (frame s e c) k i f)) o :=
  final_insn hk rfl h

theorem final_captureBegin {id : Int} (hk : code[k]? = some (.insn (.captureBegin id)))
    (h : Final a code (.running (goto (frame s (.capt id i) .nil) (k + 1) i f)) o) :
    Final a code (.running (goto s k i f)) o :=
  final_insn hk rfl h

theorem final_captureLate {back id : Int} (hk : code[k]? = some (.insn (.captureLate back id)))
    (h : Final a code (.running (goto (frame s (.capt id (i - back)) .nil) (k + 1) i f)) o) :
    Final a code (.running (goto s k i f)) o :=
  final_insn hk rfl h

theorem final_captureEnd {id p : Int} {c : CapForest} (ha : a.windowed = false)
    (hk : code[k]? = some (.insn .captureEnd))
    (h : Final a code (.running (goto (aAddCapt s (.cons id p (i - p) c .nil)) (k + 1) i f)) o) :
    Final a code (.running (goto (frame s (.capt id p) c) k i f)) o := by
  refine final_insn hk rfl ?_
  have hwindow : inWindow a p i = true := by simp [inWindow, ha]
  have hadd := aAddCapt_goto s k i f (.cons id p (i - p) c .nil)
  change Final a code (if inWindow a p i = true then
    aNextIp (aAddCapt (goto s k i f) (.cons id p (i - p) c .nil)) else _) o
  rw [if_pos hwindow, hadd]
  exact h

theorem final_captureFull {back id : Int} (ha : a.windowed = false)
    (hk : code[k]? = some (.insn (.captureFull back id)))
    (h : Final a code (.running (goto (aAddCapt s (.cons id (i - back) back .nil .nil))
      (k + 1) i f)) o) : Final a code (.running (goto s k i f)) o := by
  refine final_insn hk rfl ?_
  have hwindow : inWindow a ((i : Int) - back) i = true := by simp [inWindow, ha]
  have hadd := aAddCapt_goto s k i f (.cons id (i - back) back .nil .nil)
  change Final a code (if inWindow a ((i : Int) - back) i = true then
    aNextIp (aAddCapt (goto s k i f) (.cons id (i - back) back .nil .nil)) else _) o
  rw [if_pos hwindow, hadd]
  exact h

theorem final_match {j : PirInsn} {p : UInt8 → Bool} (hk : code[k]? = some (.insn j))
    (hreal : isReal (.insn j) = true)
    (hj : aInsn a none (goto s k i f) (linkAt code k j) = aMatch a (goto s k i f) p)
    (hok : a.input[i]?.any p = true → ∀ f, Final a code (.running (goto s (k + 1) (i + 1) f)) o)
    (hfail : a.input[i]?.any p = false → ∀ f, Final a code (aGoFail a (goto s k i f)) o) :
    Final a code (.running (goto s k i f)) o := by
  refine final_insn hk hreal ?_
  rw [hj, aMatch, aTest, goto_pos]
  cases htest : a.input[i]?.any p with
  | true => exact hok htest _
  | false => exact hfail htest _

theorem final_test {j : PirInsn} {p : UInt8 → Bool} (hk : code[k]? = some (.insn j))
    (hreal : isReal (.insn j) = true)
    (hj : aInsn a none (goto s k i f) (linkAt code k j) =
      aTestInsn a (goto s k i f) p false (labelIdx code l))
    (hok : a.input[i]?.any p = true → ∀ f, Final a code (.running (goto s (k + 1) (i + 1) f)) o)
    (hfail : a.input[i]?.any p = false →
      ∀ f, Final a code (.running (goto s (labelIdx code l) i f)) o) :
    Final a code (.running (goto s k i f)) o := by
  refine final_insn hk hreal ?_
  rw [hj, aTestInsn, aTest, goto_pos]
  cases htest : a.input[i]?.any p with
  | true => exact hok htest _
  | false => exact hfail htest _

theorem final_any {n : Int} (hk : code[k]? = some (.insn (.any n)))
    (hok : i + n.toNat ≤ a.input.length →
      ∀ f, Final a code (.running (goto s (k + 1) (i + n.toNat) f)) o)
    (hfail : a.input.length < i + n.toNat → ∀ i f, Final a code (aGoFail a (goto s k i f)) o) :
    Final a code (.running (goto s k i f)) o := by
  refine final_insn hk rfl ?_
  change Final a code (if i + n.toNat ≤ a.input.length then _ else _) o
  split
  · next h => exact hok h f
  · next h => exact hfail (by omega) _ f

theorem final_span {set : VmCharset} (hk : code[k]? = some (.insn (.span set)))
    (h : ∀ f, Final a code (.running (goto s (k + 1) (i + Input.spanLength a.input set i) f)) o) :
    Final a code (.running (goto s k i f)) o :=
  final_insn hk rfl (h _)

theorem final_empty {mask : Int} (hk : code[k]? = some (.insn (.empty mask)))
    (hok : emptyOpContext (if i > 0 then a.input[i - 1]? else none) a.input[i]? &&& mask.toNat ≠ 0 →
      Final a code (.running (goto s (k + 1) i f)) o)
    (hfail : emptyOpContext (if i > 0 then a.input[i - 1]? else none) a.input[i]? &&& mask.toNat = 0 →
      Final a code (aGoFail a (goto s k i f)) o) : Final a code (.running (goto s k i f)) o := by
  refine final_insn hk rfl ?_
  change Final a code (if emptyOpContext (if i > 0 then a.input[i - 1]? else none) a.input[i]? &&&
    mask.toNat ≠ 0 then _ else _) o
  generalize emptyOpContext (if i > 0 then a.input[i - 1]? else none) a.input[i]? &&& mask.toNat = n
    at hok hfail ⊢
  split
  · next h => exact hok h
  · next h => exact hfail (by simpa using h)

end Rules

end Libpeg.ListMachine
