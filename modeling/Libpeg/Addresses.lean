import Libpeg.Compile
import Libpeg.Control

namespace Libpeg.Addresses

open Libpeg.Charset Libpeg.Opcode Libpeg.Code Libpeg.Memo Libpeg.Input Libpeg.Vm Libpeg.Compile
open Libpeg.Control

def renameEntry (m : Nat → Nat) : StEntry → StEntry
  | .ret ip => .ret (m ip)
  | .btrack ip off => .btrack (m ip) off
  | e => e

def renameFrame (m : Nat → Nat) (e : StackEntry) : StackEntry :=
  { e with entry := renameEntry m e.entry }

def rename (m : Nat → Nat) (s : VmState) : VmState :=
  { s with ip := m s.ip, stack := s.stack.map (renameFrame m) }

def renameNext (m : Nat → Nat) : VmNext → VmNext
  | .running s => .running (rename m s)
  | .done s success => .done (rename m s) success
  | .failed s => .failed (rename m s)
  | .aborted msg => .aborted msg

variable {m : Nat → Nat} {a : VmArgs} {c : VmCode} {s : VmState}

section Operations

@[simp] theorem renameFrame_capt (e : StackEntry) : (renameFrame m e).capt = e.capt :=
  rfl

@[simp] theorem rename_src : (rename m s).src = s.src :=
  rfl

@[simp] theorem rename_mem : (rename m s).mem = s.mem :=
  rfl

@[simp] theorem rename_ip : (rename m s).ip = m s.ip :=
  rfl

@[simp] theorem rename_stack : (rename m s).stack = s.stack.map (renameFrame m) :=
  rfl

theorem rename_appendCapt (cs : List Nat) :
    appendCapt (rename m s) cs = rename m (appendCapt s cs) := by
  obtain ⟨ip, src, stack, capt, mem, tbl, errs, low, high, n⟩ := s
  cases stack with
  | nil => rfl
  | cons e rest => rfl

theorem rename_addCapt (cs : List Nat) :
    stackAddCapt (rename m s) cs = rename m (stackAddCapt s cs) :=
  rename_appendCapt (s := { s with mem := refAll s.mem cs }) cs

theorem rename_push {e : StEntry} (he : renameEntry m e = e) :
    push (rename m s) e = rename m (push s e) := by
  simp only [push, rename, List.map_cons, renameFrame, he]

theorem rename_popClear (b : Bool) (e : StackEntry) (rest : List StackEntry) :
    popClear (rename m s) b (renameFrame m e) (rest.map (renameFrame m)) =
      rename m (popClear s b e rest) := by
  cases b with
  | false => rfl
  | true =>
      cases rest with
      | nil => rfl
      | cons e' rest => rfl

theorem rename_stackPop (e : StackEntry) (rest : List StackEntry) :
    stackPop (rename m s) true (renameFrame m e) (rest.map (renameFrame m)) =
      rename m (stackPop s true e rest) := by
  cases rest with
  | nil => rfl
  | cons e' rest => rfl

theorem windowed_code : VmArgs.windowed { a with code := c } = a.windowed :=
  rfl

theorem rename_memoize (id : Int) (pos : Nat) (mlen count : Int) (cs : List Nat) :
    memoize { a with code := c } (rename m s) id pos mlen count cs =
      rename m (memoize a s id pos mlen count cs) := by
  obtain ⟨ip, src, stack, capt, mem, tbl, errs, low, high, n⟩ := s
  cases tbl with
  | none => rfl
  | some t =>
      cases hw : a.windowed with
      | true => simp only [memoize, rename, windowed_code, hw, if_true]
      | false =>
          simp only [memoize, rename, windowed_code, hw, Bool.false_eq_true, if_false]
          rfl

theorem rename_fail (stack : List StackEntry) (s : VmState) :
    vmFail { a with code := c } (stack.map (renameFrame m)) (rename m s) =
      renameNext m (vmFail a stack s) := by
  induction stack generalizing s with
  | nil => rfl
  | cons e rest ih =>
      obtain ⟨entry, cs⟩ := e
      rw [List.map_cons, vmFail, vmFail]
      cases entry with
      | btrack ip off => rfl
      | memo id pos =>
          simp only [renameFrame, renameEntry, rename_memoize]
          exact ih _
      | _ => exact ih { s with mem := freeAll s.mem cs }

theorem rename_goFail : goFail { a with code := c } (rename m s) = renameNext m (goFail a s) :=
  rename_fail s.stack s

theorem rename_addEach (cs : List Nat) : addEach (rename m s) cs = rename m (addEach s cs) := by
  induction cs generalizing s with
  | nil => rfl
  | cons d cs ih =>
      rw [addEach, addEach, List.foldl_cons, List.foldl_cons, rename_addCapt]
      exact ih

theorem rename_lookup (id : Int) :
    lookup (rename m s) id = (rename m (lookup s id).1, (lookup s id).2) := by
  obtain ⟨ip, src, stack, capt, mem, tbl, errs, low, high, n⟩ := s
  cases tbl with
  | none => rfl
  | some t => rfl

theorem rename_addNode (id start length : Int) (cs : List Nat) :
    addNode (rename m s) id start length cs = rename m (addNode s id start length cs) := by
  obtain ⟨ip, src, stack, capt, mem, tbl, errs, low, high, n⟩ := s
  cases stack with
  | nil => rfl
  | cons e rest => rfl

theorem rename_addDummy (start length : Int) (cs : List Nat) :
    addDummy (rename m s) start length cs = rename m (addDummy s start length cs) := by
  obtain ⟨ip, src, stack, capt, mem, tbl, errs, low, high, n⟩ := s
  cases stack with
  | nil => rfl
  | cons e rest => rfl

theorem rename_widen (low high : Int) :
    widen { a with code := c } (rename m s) low high = rename m (widen a s low high) := by
  cases hw : a.windowed with
  | true => simp only [widen, rename, windowed_code, hw, if_true]
  | false => simp only [widen, rename, windowed_code, hw, Bool.false_eq_true, if_false]

theorem rename_treeClose (id : Int) (fuel : Nat) (s : VmState) :
    memoTreeClose id fuel (rename m s) = rename m (memoTreeClose id fuel s) := by
  induction fuel generalizing s with
  | zero => rfl
  | succ fuel ih =>
      rw [memoTreeClose, memoTreeClose]
      cases hs : s.stack with
      | nil => simp only [rename_stack, hs, List.map_nil]
      | cons e rest =>
          simp only [rename_stack, hs, List.map_cons]
          obtain ⟨entry, cs⟩ := e
          cases entry with
          | memoTree id' pos count =>
              simp only [renameFrame, renameEntry]
              split
              · have hpop := @rename_popClear m s true ⟨.memoTree id' pos count, cs⟩ rest
                exact (congrArg (memoTreeClose id fuel) hpop).trans (ih _)
              · rfl
          | _ => rfl

theorem rename_popMany (n : Nat) (s : VmState) :
    popMany n (rename m s) = rename m (popMany n s) := by
  induction n generalizing s with
  | zero => rfl
  | succ n ih =>
      rw [popMany, popMany]
      cases hs : s.stack with
      | nil => simp only [rename_stack, hs, List.map_nil]
      | cons e rest =>
          simp only [rename_stack, hs, List.map_cons, rename_popClear]
          exact ih _

/-- The captures of an entry that is merged, put on the entry below. -/
def handDown (a : VmArgs) (start length : Int) (cs : List Nat) (s : VmState) : VmState :=
  if cs = [] then s
  else if a.windowed then
    { stackAddCapt s cs with mem := freeAll (stackAddCapt s cs).mem cs }
  else addDummy s start length cs

/-- The entry that a merge leaves on top, with its new count, is stored. -/
def storeTop (a : VmArgs) (accum : Int) (p : Nat) (s : VmState) : VmState :=
  match s.stack with
  | ⟨.memoTree id pos count, cs⟩ :: rest =>
      memoize a { s with stack := ⟨.memoTree id pos (accum + count), cs⟩ :: rest
                         mem := refAll s.mem cs } id pos ((p : Int) - pos) (accum + count) cs
  | _ => s

theorem treeMerge_eq {seen : Nat} {accum id count : Int} {pos : Nat} {cs : List Nat}
    {rest : List StackEntry} (h : (popMany (seen - 1) s).stack = ⟨.memoTree id pos count, cs⟩ :: rest) :
    memoTreeMerge a seen accum s = storeTop a accum (vmInputPos (popMany (seen - 1) s).src)
      (handDown a pos ((vmInputPos (popMany (seen - 1) s).src : Int) - pos) cs
        { popMany (seen - 1) s with stack := rest }) := by
  simp only [memoTreeMerge, h]
  rfl

theorem rename_handDown (start length : Int) (cs : List Nat) (s : VmState) :
    handDown { a with code := c } start length cs (rename m s) =
      rename m (handDown a start length cs s) := by
  simp only [handDown, rename_addCapt, rename_addDummy, windowed_code]
  split
  · rfl
  · split
    · rfl
    · rfl

theorem rename_storeTop (accum : Int) (p : Nat) (s : VmState) :
    storeTop { a with code := c } accum p (rename m s) = rename m (storeTop a accum p s) := by
  rw [storeTop, storeTop, rename_stack]
  cases s.stack with
  | nil => rfl
  | cons e rest =>
      obtain ⟨entry, cs⟩ := e
      cases entry with
      | memoTree id pos count =>
          exact rename_memoize (s := { s with
            stack := ⟨.memoTree id pos (accum + count), cs⟩ :: rest, mem := refAll s.mem cs })
            id pos ((p : Int) - pos) (accum + count) cs
      | _ => rfl

theorem rename_treeMerge (seen : Nat) (accum : Int) (s : VmState) :
    memoTreeMerge { a with code := c } seen accum (rename m s) =
      rename m (memoTreeMerge a seen accum s) := by
  have hpop := rename_popMany (m := m) (seen - 1) s
  cases ht : (popMany (seen - 1) s).stack with
  | nil =>
      have ht' : (popMany (seen - 1) (rename m s)).stack = [] := by
        rw [hpop, rename_stack, ht]
        rfl
      simp only [memoTreeMerge, ht, ht']
      exact hpop
  | cons e rest =>
      obtain ⟨entry, cs⟩ := e
      have ht' : (popMany (seen - 1) (rename m s)).stack =
          ⟨renameEntry m entry, cs⟩ :: rest.map (renameFrame m) := by
        rw [hpop, rename_stack, ht]
        rfl
      cases entry with
      | memoTree id pos count =>
          rw [treeMerge_eq ht, treeMerge_eq ht', hpop, ← rename_storeTop, ← rename_handDown]
          rfl
      | _ =>
          simp only [memoTreeMerge, ht, ht', renameEntry]
          exact hpop

theorem rename_treeLoop (fuel seen : Nat) (accum : Int) (s : VmState) :
    memoTreeLoop { a with code := c } fuel seen accum (rename m s) =
      rename m (memoTreeLoop a fuel seen accum s) := by
  induction fuel generalizing seen accum s with
  | zero => rfl
  | succ fuel ih =>
      rw [memoTreeLoop, memoTreeLoop, rename_stack, List.getElem?_map, List.getElem?_map]
      cases s.stack[seen]? with
      | none => rfl
      | some e =>
          obtain ⟨entry, cs⟩ := e
          cases entry with
          | memoTree id pos count =>
              cases s.stack[seen + 1]? with
              | none => rfl
              | some e' =>
                  obtain ⟨entry', cs'⟩ := e'
                  cases entry' with
                  | memoTree id' pos' next =>
                      simp only [Option.map_some, renameFrame, renameEntry]
                      split
                      · exact ih _ _ _
                      · rw [rename_treeMerge]
                        exact ih _ _ _
                  | _ => rfl
          | _ => rfl

theorem rename_tree (s : VmState) :
    memoTree { a with code := c } (rename m s) = rename m (memoTree a s) := by
  rw [memoTree, memoTree, rename_stack, List.length_map, rename_treeLoop]

end Operations

section Instructions

variable {f f' : Nat → Nat} {g g' : String → Nat} {h h' : Option VmChecker → Nat}

theorem rename_next (hnext : m (s.ip + 1) = m s.ip + 1) :
    nextIp (rename m s) = renameNext m (nextIp s) := by
  simp only [nextIp, renameNext, rename, hnext]

theorem rename_ite {P : Prop} {d d' : Decidable P} {r r' t t' : VmNext}
    (hthen : r' = renameNext m r) (helse : t' = renameNext m t) :
    @ite _ P d r' t' = renameNext m (@ite _ P d' r t) := by
  by_cases hp : P
  · rw [if_pos hp, if_pos hp, hthen]
  · rw [if_neg hp, if_neg hp, helse]

theorem rename_test (hnext : m (s.ip + 1) = m s.ip + 1) (p : UInt8 → Bool) (choice : Bool)
    (l : Nat) : testInsn (rename m s) p choice (m l) = renameNext m (testInsn s p choice l) := by
  refine rename_ite ?_ rfl
  cases choice with
  | true =>
      exact rename_next (s := stepByte (push (testByte s p).1
        (.btrack l (vmInputPos (testByte s p).1.src)))) hnext
  | false => exact rename_next (s := stepByte (testByte s p).1) hnext

theorem rename_match (hnext : m (s.ip + 1) = m s.ip + 1) (p : UInt8 → Bool) :
    (if (testByte (rename m s) p).2 = true then nextIp (stepByte (testByte (rename m s) p).1)
      else goFail { a with code := c } (testByte (rename m s) p).1) =
      renameNext m (if (testByte s p).2 = true then nextIp (stepByte (testByte s p).1)
        else goFail a (testByte s p).1) :=
  rename_ite (rename_next (s := stepByte (testByte s p).1) hnext)
    (rename_goFail (s := (testByte s p).1))

theorem rename_capture (hnext : m (s.ip + 1) = m s.ip + 1) (low high id start length : Int)
    (cs : List Nat) :
    nextIp (addNode (widen { a with code := c } (rename m s) low high) id start length cs) =
      renameNext m (nextIp (addNode (widen a s low high) id start length cs)) := by
  rw [rename_widen, rename_addNode]
  apply rename_next
  rw [addNode_ip, widen_ip, hnext]

theorem rename_stored (hnext : m (s.ip + 1) = m s.ip + 1) (id : Int) (pos : Nat)
    (mlen count : Int) (cs : List Nat) :
    nextIp (memoize { a with code := c } (rename m s) id pos mlen count cs) =
      renameNext m (nextIp (memoize a s id pos mlen count cs)) := by
  rw [rename_memoize]
  apply rename_next
  rw [memoize_ip, hnext]

/-- An instruction with its targets renamed, in a state with its addresses renamed. The
messages and checkers may be numbered differently. -/
theorem rename_insn (i : PirInsn) (hnext : m (s.ip + 1) = m s.ip + 1)
    (htarget : ∀ l, i.target = some l → f' l = m (f l))
    (herror : ∀ msg, i = .error msg → c.errors.getD (g' msg) "" = a.code.errors.getD (g msg) "")
    (hcheck : ∀ fn, i = .checkEnd fn →
      (c.checkers[h' fn]?).join = (a.code.checkers[h fn]?).join) :
    vmInsn { a with code := c } (rename m s) (i.map f' id id g' h') =
      renameNext m (vmInsn a s (i.map f id id g h)) := by
  cases i with
  | char b => exact rename_match hnext (isByte b)
  | set set => exact rename_match hnext set.has
  | jump l =>
      simp only [Insn.map, vmInsn, htarget l rfl]
      rfl
  | choice l =>
      simp only [Insn.map, vmInsn, htarget l rfl]
      exact rename_next (s := push s (.btrack (f l) (vmInputPos s.src))) hnext
  | call l =>
      simp only [Insn.map, vmInsn, htarget l rfl, rename_ip, ← hnext]
      rfl
  | commit l =>
      simp only [Insn.map, vmInsn, htarget l rfl, rename_stack]
      cases s.stack with
      | nil => rfl
      | cons e rest =>
          simp only [List.map_cons, rename_popClear]
          rfl
  | ret =>
      simp only [Insn.map, vmInsn, rename_stack]
      rcases s.stack with _ | ⟨⟨entry, cs⟩, rest⟩
      · rfl
      · cases entry with
        | ret ip =>
            have hpop := @rename_popClear m s true ⟨.ret ip, cs⟩ rest
            exact congrArg (fun t => jumpTo t (m ip)) hpop
        | _ => rfl
  | fail => exact rename_goFail
  | any n =>
      exact rename_ite (rename_next (s := { s with src := (inputAdvance s.src n.toNat).1 }) hnext)
        (rename_goFail (s := { s with src := (inputAdvance s.src n.toNat).1 }))
  | partialCommit l =>
      simp only [Insn.map, vmInsn, htarget l rfl, rename_stack]
      rcases s.stack with _ | ⟨⟨entry, cs⟩, rest⟩
      · rfl
      · cases entry with
        | btrack ip off =>
            cases rest with
            | nil => rfl
            | cons e rest => rfl
        | _ => rfl
  | span set => exact rename_next (s := { s with src := inputSpan s.src set }) hnext
  | backCommit l =>
      simp only [Insn.map, vmInsn, htarget l rfl, rename_stack]
      rcases s.stack with _ | ⟨⟨entry, cs⟩, rest⟩
      · rfl
      · cases entry with
        | btrack ip off =>
            have hpop := @rename_popClear m s true ⟨.btrack ip off, cs⟩ rest
            exact congrArg (fun t : VmState =>
              jumpTo { t with src := inputSeekTo t.src off } (m (f l))) hpop
        | _ => rfl
  | failTwice =>
      simp only [Insn.map, vmInsn, rename_stack]
      cases s.stack with
      | nil => exact rename_goFail
      | cons e rest =>
          simp only [List.map_cons, rename_popClear]
          exact rename_goFail
  | empty mask =>
      exact rename_ite (rename_next hnext) rename_goFail
  | testChar b l =>
      simp only [Insn.map, vmInsn, htarget l rfl]
      exact rename_test hnext (isByte b) true (f l)
  | testCharNoChoice b l =>
      simp only [Insn.map, vmInsn, htarget l rfl]
      exact rename_test hnext (isByte b) false (f l)
  | testSet set l =>
      simp only [Insn.map, vmInsn, htarget l rfl]
      exact rename_test hnext set.has true (f l)
  | testSetNoChoice set l =>
      simp only [Insn.map, vmInsn, htarget l rfl]
      exact rename_test hnext set.has false (f l)
  | testAny n l =>
      simp only [Insn.map, vmInsn, htarget l rfl]
      exact rename_ite (rename_next (s := push { s with src := (inputAdvance s.src n.toNat).1 }
        (.btrack (f l) (vmInputPos s.src))) hnext) rfl
  | endOp b => rfl
  | nop => rfl
  | captureBegin id => exact rename_next (s := push s (.capt id (vmInputPos s.src))) hnext
  | captureLate back id =>
      exact rename_next (s := push s (.capt id (vmInputPos s.src - back))) hnext
  | captureEnd =>
      simp only [Insn.map, vmInsn, rename_stack]
      rcases s.stack with _ | ⟨⟨entry, cs⟩, rest⟩
      · rfl
      · cases entry with
        | capt id pos =>
            refine rename_ite ?_ (rename_next (s := { s with
              stack := rest, mem := freeAll s.mem cs }) hnext)
            exact rename_capture (s := { s with stack := rest }) hnext _ _ id pos _ cs
        | _ => rfl
  | captureFull back id =>
      refine rename_ite ?_ (rename_next hnext)
      exact rename_capture hnext _ _ id _ back []
  | checkBegin id flag =>
      exact rename_next (s := push s (.check id (vmInputPos s.src) flag)) hnext
  | checkEnd fn =>
      simp only [Insn.map, vmInsn, rename_stack, hcheck fn rfl]
      rcases s.stack with _ | ⟨⟨entry, cs⟩, rest⟩
      · rfl
      · cases entry with
        | check id pos flag =>
            have hpop : popClear (rename m s) true ⟨.check id pos flag, cs⟩
                (rest.map (renameFrame m)) = _ :=
              rename_popClear true ⟨.check id pos flag, cs⟩ rest
            have hip := popClear_ip (s := s) true ⟨.check id pos flag, cs⟩ rest
            simp only [List.map_cons, renameFrame, renameEntry, hpop]
            generalize popClear s true ⟨.check id pos flag, cs⟩ rest = t at hip
            rw [← hip] at hnext
            cases (a.code.checkers[h fn]?).join with
            | none => exact rename_next hnext
            | some fn =>
                exact rename_ite (rename_goFail (s := { t with nchecks := t.nchecks + 1 }))
                  (rename_ite (rename_goFail (s := { t with nchecks := t.nchecks + 1 }))
                    (rename_next (s := { t with
                      nchecks := t.nchecks + 1, src := (inputAdvance t.src _).1 }) hnext))
        | _ => rfl
  | memoOpen l id =>
      have hip := (lookup_control (s := s) id).2
      simp only [Insn.map, vmInsn, id_eq, rename_lookup, htarget l rfl]
      rw [← hip] at hnext
      generalize lookup s id = r at hnext ⊢
      obtain ⟨t, e⟩ := r
      cases e with
      | none => exact rename_next (s := push t (.memo id (vmInputPos t.src))) hnext
      | some e =>
          refine rename_ite rename_goFail ?_
          simp only [rename_addEach]
          rfl
  | memoClose =>
      simp only [Insn.map, vmInsn, rename_stack]
      rcases s.stack with _ | ⟨⟨entry, cs⟩, rest⟩
      · rfl
      · cases entry with
        | memo id pos =>
            have hpop : stackPop (rename m s) true ⟨.memo id pos, cs⟩ (rest.map (renameFrame m)) = _ :=
              rename_stackPop ⟨.memo id pos, cs⟩ rest
            have hip : (stackPop s true ⟨.memo id pos, cs⟩ rest).ip = s.ip := stackAddCapt_ip cs
            simp only [List.map_cons, renameFrame, renameEntry, hpop]
            generalize stackPop s true ⟨.memo id pos, cs⟩ rest = t at hip
            rw [← hip] at hnext
            exact rename_stored hnext id pos ((vmInputPos t.src : Int) - pos) 1 cs
        | _ => rfl
  | memoTreeOpen l id =>
      have hip := (lookup_control (s := s) id).2
      simp only [Insn.map, vmInsn, id_eq, rename_lookup, htarget l rfl]
      rw [← hip] at hnext
      generalize lookup s id = r at hnext ⊢
      obtain ⟨t, e⟩ := r
      cases e with
      | none => exact rename_next (s := push t (.memoTree id (vmInputPos t.src) 0)) hnext
      | some e =>
          refine rename_ite rename_goFail ?_
          have hpush : push (rename m t) (.memoTree id (vmInputPos t.src) e.count) = _ :=
            rename_push rfl
          simp only [rename_src, hpush, rename_addEach]
          rfl
  | memoTreeInsert =>
      simp only [Insn.map, vmInsn, rename_stack]
      rcases s.stack with _ | ⟨⟨entry, cs⟩, rest⟩
      · rfl
      · cases entry with
        | memoTree id pos count =>
            exact rename_stored (s := { s with
              stack := ⟨.memoTree id pos (count + 1), cs⟩ :: rest, mem := refAll s.mem cs }) hnext
              id pos ((vmInputPos s.src : Int) - pos) (count + 1) cs
        | _ => rfl
  | memoTree =>
      have hip : (memoTree a s).ip = s.ip := (memoTreeLoop_popped _ _ _ s).1
      simp only [Insn.map, vmInsn, rename_tree]
      exact rename_next (by rw [hip, hnext])
  | memoTreeClose id =>
      have hip : (memoTreeClose id s.stack.length s).ip = s.ip := (memoTreeClose_popped _ _ s).1
      simp only [Insn.map, vmInsn, rename_stack, List.length_map, rename_treeClose]
      exact rename_next (s := memoTreeClose id s.stack.length s) (by rw [hip, hnext])
  | error msg =>
      simp only [Insn.map, vmInsn, herror msg rfl]
      exact rename_next (s := { s with
        errs := s.errs ++ [(vmInputPos s.src, a.code.errors.getD (g msg) "")] }) hnext

end Instructions

end Libpeg.Addresses
