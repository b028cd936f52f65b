import Libpeg.Addresses
import Libpeg.Operands

namespace Libpeg.ProgramRuns

open Libpeg.Opcode Libpeg.Code Libpeg.Memo Libpeg.Vm Libpeg.Pattern Libpeg.Compile
open Libpeg.Optimize Libpeg.CodeShape Libpeg.Linking Libpeg.Operands Libpeg.Addresses
open Libpeg.Simulation (vmExec_loops)

/-- The number of instructions that are encoded in front of a position. -/
def slot (code : List Pir) (k : Nat) : Nat :=
  (encoded (code.take k)).length

variable {code : List Pir} {c : VmCode} {a : VmArgs} {s : VmState} {k n : Nat} {i : PirInsn}

section Slots

theorem slot_succ {x : Pir} (hk : code[k]? = some x) :
    slot code (k + 1) = slot code k + (encoded [x]).length := by
  rw [slot, List.take_add_one, hk, encoded_append, List.length_append]
  rfl

theorem slot_next (hk : code[k]? = some (.insn i)) (hi : i ≠ .nop) :
    slot code (k + 1) = slot code k + 1 := by
  rw [slot_succ hk, encoded_insn hi]
  rfl

theorem slot_skip {x : Pir} (hk : code[k]? = some x) (hx : realInsn x = none) :
    slot code (k + 1) = slot code k := by
  rw [slot_succ hk, encoded, List.filterMap_cons_none hx]
  rfl

theorem slot_end (hk : code[k]? = none) : slot code k = (encoded code).length := by
  rw [slot, List.take_of_length_le (List.getElem?_eq_none_iff.mp hk)]

theorem encoded_slot (hk : code[k]? = some (.insn i)) (hi : i ≠ .nop) :
    (encoded code)[slot code k]? = some i := by
  obtain ⟨hlt, hget⟩ := List.getElem?_eq_some_iff.mp hk
  have hsplit : code = code.take k ++ ([.insn i] ++ code.drop (k + 1)) := by
    rw [← hget, List.singleton_append, ← List.drop_eq_getElem_cons hlt, List.take_append_drop]
  have henc : encoded code = encoded (code.take k) ++ ([i] ++ encoded (code.drop (k + 1))) := by
    conv_lhs => rw [hsplit, encoded_append, encoded_append, encoded_insn hi]
  rw [henc, slot, List.getElem?_append_right le_rfl, Nat.sub_self]
  rfl

theorem meantFrom_get (at_ : Nat → Nat) (errors : List String) (is : List PirInsn) (n j : Nat) :
    (meantFrom at_ errors n is)[j]? =
      is[j]?.map (meant at_ errors (n + ((is.take j).flatMap checkerOf).length)) := by
  induction is generalizing n j with
  | nil => rfl
  | cons i is ih =>
      cases j with
      | zero => rfl
      | succ j =>
          rw [meantFrom, List.getElem?_cons_succ, List.getElem?_cons_succ, ih, List.take_succ_cons,
            List.flatMap_cons, List.length_append, Nat.add_assoc]

theorem meantFrom_length (at_ : Nat → Nat) (errors : List String) (is : List PirInsn) (n : Nat) :
    (meantFrom at_ errors n is).length = is.length := by
  induction is generalizing n with
  | nil => rfl
  | cons i is ih => rw [meantFrom, List.length_cons, ih, List.length_cons]

theorem flatMap_checkerOf {is : List PirInsn} {j : Nat} {fn : Option VmChecker}
    (hj : is[j]? = some (.checkEnd fn)) :
    (is.flatMap checkerOf)[((is.take j).flatMap checkerOf).length]? = some fn := by
  induction is generalizing j with
  | nil => cases hj
  | cons i is ih =>
      cases j with
      | zero =>
          cases hj
          rfl
      | succ j =>
          rw [List.take_succ_cons, List.flatMap_cons, List.flatMap_cons, List.length_append,
            List.getElem?_append_right (Nat.le_add_right _ _), Nat.add_sub_cancel_left]
          exact ih hj

end Slots

section Steps

variable {input : List UInt8} {low high : Int}

theorem vmStep_slot (hfaithful : Faithful code c) (hk : code[s.ip]? = some (.insn i))
    (hi : i ≠ .nop) : vmStep ⟨c, input, low, high⟩ (rename (slot code) s) =
      renameNext (slot code) (listStep (listArgs code input low high) code s) := by
  have henc := encoded_slot hk hi
  have hfetch : c.prog[slot code s.ip]? = some (meant (place code) c.errors
      (0 + (((encoded code).take (slot code s.ip)).flatMap checkerOf).length) i) := by
    have hlt := (List.getElem?_eq_some_iff.mp henc).1
    rw [hfaithful.prog, List.getElem?_append_left (by rwa [meantFrom_length]), meantFrom_get, henc]
    rfl
  have hreal : isReal (.insn i) = true := by
    cases i <;> first | rfl | exact absurd rfl hi
  rw [vmStep, rename_ip, hfetch, listStep_insn hk hreal]
  refine rename_insn (a := listArgs code input low high) i (slot_next hk hi) (fun l _ => rfl)
    (fun msg hmsg => ?_) fun fn hfn => ?_
  · subst hmsg
    have hmem : msg ∈ c.errors := by
      refine hfaithful.messages msg (List.mem_flatMap.mpr ⟨_, List.mem_of_getElem? henc, ?_⟩)
      exact List.mem_singleton_self msg
    have hlist : (listCode code).errors[s.ip]? = some msg := by
      rw [listCode, List.getElem?_map, hk]
      rfl
    change c.errors.getD (c.errors.idxOf msg) "" = (listCode code).errors.getD s.ip ""
    rw [List.getD_eq_getElem?_getD, List.getElem?_idxOf hmem, List.getD_eq_getElem?_getD, hlist]
  · subst hfn
    have hlist : (listCode code).checkers[s.ip]? = some fn := by
      rw [listCode, List.getElem?_map, hk]
      rfl
    change (c.checkers[0 + (((encoded code).take (slot code s.ip)).flatMap checkerOf).length]?).join =
      ((listCode code).checkers[s.ip]?).join
    rw [hlist, hfaithful.checkers, Nat.zero_add, flatMap_checkerOf henc]

theorem vmStep_end (hfaithful : Faithful code c) (hk : code[s.ip]? = none) :
    vmStep ⟨c, input, low, high⟩ (rename (slot code) s) =
      renameNext (slot code) (listStep (listArgs code input low high) code s) := by
  have hfetch : c.prog[slot code s.ip]? = some (.endOp 0) := by
    rw [hfaithful.prog, slot_end hk, List.getElem?_append_right (by rw [meantFrom_length]),
      meantFrom_length, Nat.sub_self]
    rfl
  rw [vmStep, rename_ip, hfetch, listStep, hk]
  rfl

theorem rename_skip {x : Pir} (hk : code[s.ip]? = some x) (hx : realInsn x = none) :
    rename (slot code) { s with ip := s.ip + 1 } = rename (slot code) s := by
  simp only [rename, slot_skip hk hx]

theorem entry_cases (hopen : ∀ name, Pir.openCall name ∉ code) (k : Nat) :
    code[k]? = none ∨ (∃ i, code[k]? = some (.insn i) ∧ i ≠ .nop) ∨
      ∃ x, code[k]? = some x ∧ isReal x = false ∧ realInsn x = none := by
  cases hk : code[k]? with
  | none => exact .inl rfl
  | some x =>
      cases x with
      | label l => exact .inr (.inr ⟨_, rfl, rfl, rfl⟩)
      | openCall name => exact absurd (List.mem_of_getElem? hk) (hopen name)
      | insn i =>
          by_cases hi : i = .nop
          · subst hi
            exact .inr (.inr ⟨_, rfl, rfl, rfl⟩)
          · exact .inr (.inl ⟨i, rfl, hi⟩)

theorem vmLoop_of_listLoop (hfaithful : Faithful code c)
    (hopen : ∀ name, Pir.openCall name ∉ code) {fuel : Nat} {r : VmNext}
    (h : listLoop (listArgs code input low high) code fuel s = some r) :
    ∃ n, vmLoop ⟨c, input, low, high⟩ n (rename (slot code) s) =
      some (renameNext (slot code) r) := by
  induction fuel generalizing s with
  | zero => cases h
  | succ fuel ih =>
      rw [listLoop] at h
      have hstep : vmStep ⟨c, input, low, high⟩ (rename (slot code) s) =
          renameNext (slot code) (listStep (listArgs code input low high) code s) →
          ∃ n, vmLoop ⟨c, input, low, high⟩ n (rename (slot code) s) =
            some (renameNext (slot code) r) := by
        intro hvm
        cases hlist : listStep (listArgs code input low high) code s with
        | running s' =>
            rw [hlist] at h hvm
            obtain ⟨n, hn⟩ := ih h
            exact ⟨n + 1, by rw [vmLoop, hvm]; exact hn⟩
        | _ =>
            rw [hlist] at h hvm
            cases h
            exact ⟨1, by rw [vmLoop, hvm]; rfl⟩
      rcases entry_cases hopen s.ip with hk | ⟨i, hk, hi⟩ | ⟨x, hk, hreal, hx⟩
      · exact hstep (vmStep_end hfaithful hk)
      · exact hstep (vmStep_slot hfaithful hk hi)
      · rw [listStep_skip hk hreal] at h
        obtain ⟨n, hn⟩ := ih (s := { s with ip := s.ip + 1 }) h
        rw [rename_skip hk hx] at hn
        exact ⟨n, hn⟩

/-- A run of the program is a run of the list, which also passes its labels. -/
theorem listLoop_of_vmLoop (hfaithful : Faithful code c)
    (hopen : ∀ name, Pir.openCall name ∉ code) {r' : VmNext}
    (h : vmLoop ⟨c, input, low, high⟩ n (rename (slot code) s) = some r') :
    ∃ fuel r, listLoop (listArgs code input low high) code fuel s = some r ∧
      r' = renameNext (slot code) r := by
  induction n generalizing s with
  | zero => cases h
  | succ n ih =>
      -- the entries ahead run out
      induction hd : code.length - s.ip using Nat.strong_induction_on generalizing s with
      | _ d ihd =>
          have hstep : vmStep ⟨c, input, low, high⟩ (rename (slot code) s) =
              renameNext (slot code) (listStep (listArgs code input low high) code s) →
              ∃ fuel r, listLoop (listArgs code input low high) code fuel s = some r ∧
                r' = renameNext (slot code) r := by
            intro hvm
            rw [vmLoop] at h
            cases hlist : listStep (listArgs code input low high) code s with
            | running s' =>
                rw [hlist] at hvm
                rw [hvm] at h
                obtain ⟨fuel, r, hrun, hr⟩ := ih h
                exact ⟨fuel + 1, r, by rw [listLoop, hlist]; exact hrun, hr⟩
            | _ =>
                rw [hlist] at hvm
                rw [hvm] at h
                cases h
                exact ⟨1, _, by rw [listLoop, hlist], rfl⟩
          rcases entry_cases hopen s.ip with hk | ⟨i, hk, hi⟩ | ⟨x, hk, hreal, hx⟩
          · exact hstep (vmStep_end hfaithful hk)
          · exact hstep (vmStep_slot hfaithful hk hi)
          · have hlt := (List.getElem?_eq_some_iff.mp hk).1
            rw [← rename_skip hk hx] at h
            obtain ⟨fuel, r, hrun, hr⟩ := ihd (code.length - (s.ip + 1)) (by omega) h rfl
            exact ⟨fuel + 1, r, by rw [listLoop, listStep_skip hk hreal]; exact hrun, hr⟩

theorem vmFinish_rename (m : Nat → Nat) (r : VmNext) :
    vmFinish ⟨c, input, low, high⟩ (renameNext m r) =
      vmFinish (listArgs code input low high) r := by
  cases r with
  | running s => rfl
  | done s success =>
      have hcapts : ∀ mem : Mem, (s.stack.map (renameFrame m)).reverse.foldl
          (fun m e => freeAll m e.capt) mem = s.stack.reverse.foldl (fun m e => freeAll m e.capt) mem := by
        intro mem
        rw [← List.map_reverse, List.foldl_map]
        rfl
      simp only [renameNext, vmFinish, rename, hcapts]
      rfl
  | failed s => rfl
  | aborted msg => rfl

theorem rename_start (mem : Mem) (tbl : Option MemoTable) (nchecks : Nat) :
    rename (slot code) (vmStart (listArgs code input low high) mem tbl nchecks) =
      vmStart ⟨c, input, low, high⟩ mem tbl nchecks := by
  simp only [rename, vmStart, List.map_nil, slot, List.take_zero, encoded_nil]
  rfl

theorem vmExec_iff (hfaithful : Faithful code c) (hopen : ∀ name, Pir.openCall name ∉ code)
    (mem : Mem) (tbl : Option MemoTable) (nchecks : Nat)
    (r : Except String (VmResult × VmAfter)) :
    (∃ fuel, vmExec fuel ⟨c, input, low, high⟩ mem tbl nchecks = some r) ↔
      ∃ fuel, listExec fuel code input low high mem tbl nchecks = some r := by
  have hprog : c.prog ≠ [] := by
    rw [hfaithful.prog]
    exact List.append_ne_nil_of_right_ne_nil _ (List.cons_ne_nil _ _)
  by_cases hwindow : (listArgs code input low high).windowed ∧ tbl.isNone
  · have hwindow' : VmArgs.windowed ⟨c, input, low, high⟩ ∧ tbl.isNone := hwindow
    simp only [vmExec, listExec, if_pos hwindow, if_pos hwindow']
  · rw [listExec_iff hwindow, vmExec_loops (a := ⟨c, input, low, high⟩) hwindow hprog]
    refine exists_congr fun x => and_congr_right fun _ => ?_
    rw [← @rename_start code]
    constructor
    · rintro ⟨fuel, h⟩
      obtain ⟨r', hr', rfl⟩ := Option.map_eq_some_iff.mp h
      obtain ⟨fuel', r, hrun, rfl⟩ := listLoop_of_vmLoop hfaithful hopen hr'
      exact ⟨fuel', by rw [hrun, Option.map_some, vmFinish_rename]⟩
    · rintro ⟨fuel, h⟩
      obtain ⟨r', hr', rfl⟩ := Option.map_eq_some_iff.mp h
      obtain ⟨n, hn⟩ := vmLoop_of_listLoop hfaithful hopen hr'
      exact ⟨n, by rw [hn, Option.map_some, vmFinish_rename]⟩

end Steps

end Libpeg.ProgramRuns
