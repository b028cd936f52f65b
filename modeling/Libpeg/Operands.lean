import Libpeg.Linking

namespace Libpeg.Operands

open Libpeg.Charset Libpeg.Opcode Libpeg.Code Libpeg.Pattern Libpeg.Compile Libpeg.Optimize
open Libpeg.CodeShape Libpeg.Linking

def shortsOf : PirInsn → List Int
  | .captureBegin a | .captureLate _ a | .captureFull _ a | .memoOpen _ a | .memoTreeOpen _ a
  | .memoTreeClose a => [a]
  | .checkBegin a b => [a, b]
  | _ => []

/-- Every operand of the list is the operand that its instruction carries. -/
structure Faithful (code : List Pir) (c : VmCode) : Prop where
  prog : c.prog = meantFrom (place code) c.errors 0 (encoded code) ++ [.endOp 0]
  messages : ∀ msg ∈ (encoded code).flatMap messageOf, msg ∈ c.errors
  checkers : c.checkers = (encoded code).flatMap checkerOf

/-- The ids and flags of an instruction list are 16-bit values, and its messages
and checkers can be numbered with 24 bits. -/
structure OperandsFit (code : List Pir) : Prop where
  shorts : ∀ i ∈ encoded code, ∀ a ∈ shortsOf i, -32768 ≤ a ∧ a ≤ 32767
  messages : ((encoded code).flatMap messageOf).dedup.length ≤ 16777216
  checkers : ((encoded code).flatMap checkerOf).length ≤ 16777216

section Instructions

variable {at_ : Nat → Nat} {errors : List String} {k : Nat} {i : PirInsn}

theorem uint8_ofInt {a : Int} (h : 0 ≤ a ∧ a < 256) : ((UInt8.ofInt a).toNat : Int) = a := by
  simp [UInt8.ofInt]
  omega

theorem int16_ofInt (a : Int) : (Int16.ofInt a).toInt = a ↔ -32768 ≤ a ∧ a ≤ 32767 := by
  have hsize : ((Int16.size : Nat) : Int) = 65536 := rfl
  rw [Int16.toInt_ofInt, Int.bmod, hsize]
  constructor
  · intro h
    split at h
    · omega
    · omega
  · intro h
    split
    · omega
    · omega

theorem cut_eq_meant (hfit : BytesFit i) : cut at_ errors k i = meant at_ errors k i ↔
    (∀ a ∈ shortsOf i, -32768 ≤ a ∧ a ≤ 32767) ∧
      (∀ msg ∈ messageOf i, errors.idxOf msg < 16777216) ∧
      (checkerOf i = [] ∨ k < 16777216) := by
  cases i with
  | endOp a =>
      rcases hfit with rfl | rfl
      · simp [cut, meant, Insn.map, shortsOf, messageOf, checkerOf]
      · simp [cut, meant, Insn.map, shortsOf, messageOf, checkerOf]
  | char a | any a | empty a | testChar a l | testCharNoChoice a l | testAny a l =>
      simp [cut, meant, Insn.map, shortsOf, messageOf, checkerOf, uint8_ofInt hfit]
  | captureLate a id | captureFull a id =>
      simp [cut, meant, Insn.map, shortsOf, messageOf, checkerOf, uint8_ofInt hfit, int16_ofInt,
        -Int16.toInt_ofInt]
  | error msg => simp [cut, meant, Insn.map, shortsOf, messageOf, checkerOf]
  | checkEnd fn => simp [cut, meant, Insn.map, shortsOf, messageOf, checkerOf]
  | _ =>
      simp [cut, meant, Insn.map, shortsOf, messageOf, checkerOf, int16_ofInt, -Int16.toInt_ofInt]

theorem checkerOf_length (i : PirInsn) : (checkerOf i).length ≤ 1 := by
  cases i <;> simp [checkerOf]

theorem cutFrom_eq_meantFrom {is : List PirInsn} (hfit : ∀ i ∈ is, BytesFit i) :
    cutFrom at_ errors k is = meantFrom at_ errors k is ↔
      (∀ i ∈ is, ∀ a ∈ shortsOf i, -32768 ≤ a ∧ a ≤ 32767) ∧
      (∀ msg ∈ is.flatMap messageOf, errors.idxOf msg < 16777216) ∧
      (is.flatMap checkerOf = [] ∨ k + (is.flatMap checkerOf).length ≤ 16777216) := by
  induction is generalizing k with
  | nil => simp [cutFrom, meantFrom]
  | cons i is ih =>
      have hi := hfit i List.mem_cons_self
      have his := ih (k := k + (checkerOf i).length) fun j hj => hfit j (List.mem_cons_of_mem i hj)
      rw [cutFrom, meantFrom, List.cons.injEq, cut_eq_meant hi, his]
      have hle := checkerOf_length i
      simp only [List.forall_mem_cons, List.flatMap_cons, List.forall_mem_append,
        ← List.length_eq_zero_iff, List.length_append]
      constructor
      · rintro ⟨⟨hshorts, hmsg, hcheck⟩, hshorts', hmsg', hcheck'⟩
        exact ⟨⟨hshorts, hshorts'⟩, ⟨hmsg, hmsg'⟩, by omega⟩
      · rintro ⟨⟨hshorts, hshorts'⟩, ⟨hmsg, hmsg'⟩, hcheck⟩
        exact ⟨⟨hshorts, hmsg, by omega⟩, hshorts', hmsg', by omega⟩

end Instructions

section Programs

variable {code : List Pir} {c : VmCode}

theorem messages_fit {errors : List String} (hnodup : errors.Nodup) :
    (∀ msg ∈ errors, errors.idxOf msg < 16777216) ↔ errors.length ≤ 16777216 := by
  constructor
  · intro h
    by_contra hlt
    have hmem : errors[16777216] ∈ errors := List.getElem_mem (by omega)
    have hidx := h _ hmem
    rw [hnodup.idxOf_getElem] at hidx
    omega
  · intro h msg hmsg
    exact (List.idxOf_lt_length_iff.mpr hmsg).trans_le h

theorem errors_length (h : Linked code c) :
    c.errors.length = ((encoded code).flatMap messageOf).dedup.length := by
  refine List.Perm.length_eq ?_
  rw [List.perm_ext_iff_of_nodup h.errors_nodup (List.nodup_dedup _)]
  intro msg
  rw [h.errors, List.mem_dedup]

theorem faithful_iff (h : Linked code c) (hfit : ∀ i, .insn i ∈ code → BytesFit i) :
    Faithful code c ↔ OperandsFit code := by
  have hiff : cutFrom (place code) c.errors 0 (encoded code) =
      meantFrom (place code) c.errors 0 (encoded code) ↔ _ :=
    cutFrom_eq_meantFrom fun i hi => hfit i (mem_encoded.mp hi).1
  have hmessages : (∀ msg ∈ (encoded code).flatMap messageOf, c.errors.idxOf msg < 16777216) ↔
      ((encoded code).flatMap messageOf).dedup.length ≤ 16777216 := by
    rw [← errors_length h, ← messages_fit h.errors_nodup]
    simp only [h.errors]
  have hcheckers : ((encoded code).flatMap checkerOf = [] ∨
      0 + ((encoded code).flatMap checkerOf).length ≤ 16777216) ↔
        ((encoded code).flatMap checkerOf).length ≤ 16777216 := by
    rw [← List.length_eq_zero_iff]
    omega
  rw [hmessages, hcheckers] at hiff
  constructor
  · intro hfaithful
    have heq := h.prog.symm.trans hfaithful.prog
    obtain ⟨hshorts, hmsg, hcheck⟩ := hiff.mp (List.append_cancel_right heq)
    exact ⟨hshorts, hmsg, hcheck⟩
  · intro hoperands
    have heq := hiff.mpr ⟨hoperands.shorts, hoperands.messages, hoperands.checkers⟩
    exact ⟨heq ▸ h.prog, fun msg hmsg => (h.errors msg).mpr hmsg, h.checkers⟩

/-- An instruction without an operand that is cut. -/
def Uncut (i : PirInsn) : Prop :=
  shortsOf i = [] ∧ messageOf i = [] ∧ checkerOf i = []

theorem replacesJump_uncut {t : Pir} (h : replacesJump t = true) : ∃ i, t = .insn i ∧ Uncut i := by
  unfold replacesJump at h
  split at h
  all_goals first
    | exact ⟨_, rfl, rfl, rfl, rfl⟩
    | cases h

theorem headFail_uncut {x y : Pir} {test : PirInsn} (h : headFail x y = some test) :
    ∃ i j, x = .insn i ∧ y = .insn j ∧ Uncut i ∧ Uncut j ∧ Uncut test := by
  unfold headFail at h
  split at h
  all_goals first
    | cases h
      exact ⟨_, _, rfl, rfl, ⟨rfl, rfl, rfl⟩, ⟨rfl, rfl, rfl⟩, rfl, rfl, rfl⟩
    | cases h

theorem rewritten_uncut {D : List Pir} {k : Nat} (h : Rewritten code D k) : D[k]? = code[k]? ∨
    ∃ i j, code[k]? = some (.insn i) ∧ D[k]? = some (.insn j) ∧ Uncut i ∧ Uncut j := by
  cases h with
  | same h => exact .inl h
  | copied hc _ _ hreplaces hd =>
      obtain ⟨i, rfl, hi⟩ := replacesJump_uncut hreplaces
      exact .inr ⟨_, _, hc, hd, ⟨rfl, rfl, rfl⟩, hi⟩
  | fused h =>
      obtain ⟨x, y, test, hx, -, hfail, htest, -⟩ := h
      obtain ⟨i, -, rfl, -, hi, -, htest'⟩ := headFail_uncut hfail
      exact .inr ⟨i, test, hx, htest, hi, htest'⟩
  | gone hj h =>
      obtain ⟨x, y, test, -, hy, hfail, -, hnop⟩ := h
      obtain ⟨-, j, -, rfl, -, hj', -⟩ := headFail_uncut hfail
      exact .inr ⟨j, .nop, hj ▸ hy, hj ▸ hnop, hj', rfl, rfl, rfl⟩

theorem encoded_flatMap {α : Type} (f : PirInsn → List α) (code : List Pir) :
    (encoded code).flatMap f = (code.map fun i => (realInsn i).toList.flatMap f).flatten := by
  induction code with
  | nil => rfl
  | cons i code ih =>
      rw [List.map_cons, List.flatten_cons, ← ih, encoded, List.filterMap_cons]
      cases realInsn i with
      | none => rfl
      | some j => simp [encoded]

theorem patOptimize_flatMap {α : Type} {f : PirInsn → List α} (hf : ∀ i, Uncut i → f i = []) :
    (encoded (patOptimize code)).flatMap f = (encoded code).flatMap f := by
  have hnil : ∀ i, Uncut i → (realInsn (.insn i)).toList.flatMap f = [] := by
    intro i hi
    cases i <;> first | rfl | simp [realInsn, hf _ hi]
  rw [encoded_flatMap, encoded_flatMap]
  refine congrArg List.flatten (List.ext_getElem? fun k => ?_)
  rw [List.getElem?_map, List.getElem?_map]
  rcases rewritten_uncut ((patOptimize_upto code).entry k) with heq | ⟨i, j, hi, hj, hi', hj'⟩
  · rw [heq]
  · rw [hi, hj, Option.map_some, Option.map_some, hnil i hi', hnil j hj']

theorem operandsFit_patOptimize : OperandsFit (patOptimize code) ↔ OperandsFit code := by
  have hshorts : ∀ code : List Pir,
      (∀ i ∈ encoded code, ∀ a ∈ shortsOf i, -32768 ≤ a ∧ a ≤ 32767) ↔
        ∀ a ∈ (encoded code).flatMap shortsOf, -32768 ≤ a ∧ a ≤ 32767 := by
    intro code
    simp only [List.mem_flatMap]
    exact ⟨fun h a ⟨i, hi, ha⟩ => h i hi a ha, fun h i hi a ha => h a ⟨i, hi, ha⟩⟩
  have hiff : ∀ code : List Pir, OperandsFit code ↔
      (∀ a ∈ (encoded code).flatMap shortsOf, -32768 ≤ a ∧ a ≤ 32767) ∧
        ((encoded code).flatMap messageOf).dedup.length ≤ 16777216 ∧
        ((encoded code).flatMap checkerOf).length ≤ 16777216 := by
    intro code
    rw [← hshorts]
    exact ⟨fun h => ⟨h.shorts, h.messages, h.checkers⟩, fun h => ⟨h.1, h.2.1, h.2.2⟩⟩
  rw [hiff, hiff, patOptimize_flatMap fun i hi => hi.1, patOptimize_flatMap fun i hi => hi.2.1,
    patOptimize_flatMap fun i hi => hi.2.2]

end Programs

/-- The operands that `compile_pat` puts into the list are those of the program if
and only if they fit their fields. -/
theorem operands_kept_iff {fuel : Nat} {counter : Int} {p : Pat} {code : List Pir} {ctx : Pctx}
    {c : VmCode} (hcode : compilePat fuel ⟨0, counter, none⟩ p = some (code, ctx))
    (hcompile : patCompile fuel counter p = some (.ok c)) :
    Faithful (patOptimize code) c ↔ OperandsFit code := by
  obtain ⟨hlinked, hshaped, -⟩ := patCompile_linked hcode hcompile
  rw [faithful_iff hlinked (bytesFit_patOptimize hshaped.fits), operandsFit_patOptimize]

def wideCapture : Pat :=
  .cap (.literal [97]) 65537

theorem operands_kept_capture :
    ∃ c, patCompile 5 0 (.cap (.literal [97]) 7) = some (.ok c) ∧
      Faithful (patOptimize [.insn (.char 97), .insn (.captureFull 1 7)]) c := by
  have hcode : compilePat 5 ⟨0, 0, none⟩ (.cap (.literal [97]) 7) =
      some ([.insn (.char 97), .insn (.captureFull 1 7)], ⟨0, 0, none⟩) := rfl
  refine ⟨_, rfl, (operands_kept_iff hcode rfl).mpr ⟨?_, ?_, ?_⟩⟩
  · decide
  · decide
  · decide

/-- The capture comes out with another id. -/
theorem operands_cut :
    compilePat 5 ⟨0, 0, none⟩ wideCapture =
        some ([.insn (.char 97), .insn (.captureFull 1 65537)], ⟨0, 0, none⟩) ∧
      ∃ c, patCompile 5 0 wideCapture = some (.ok c) ∧
        c.prog = [.char 97, .captureFull 1 1, .endOp 0] ∧
        ¬Faithful (patOptimize [.insn (.char 97), .insn (.captureFull 1 65537)]) c := by
  have hcode : compilePat 5 ⟨0, 0, none⟩ wideCapture =
      some ([.insn (.char 97), .insn (.captureFull 1 65537)], ⟨0, 0, none⟩) := rfl
  refine ⟨hcode, _, rfl, rfl, fun h => ?_⟩
  have hprog := h.prog
  revert hprog
  decide

end Libpeg.Operands
