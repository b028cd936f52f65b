import Libpeg.Code
import Mathlib.Data.List.Dedup
import Mathlib.Data.List.Perm.Subperm

/-!
Encoding and pre-decoding of programs. The bytes that the builder holds after
any sequence of calls are described by `encAll`; backpatching replaces the
placeholders of the label operands, and the two passes of the pre-decoder invert
the result.
-/

namespace Libpeg.CodeRoundTrip

open Libpeg.Charset
open Libpeg.Opcode
open Libpeg.Code

/-- What a sequence of builder calls is meant to produce: the instructions in
order, and for each label the index of the instruction it stands before. -/
structure Listing where
  insns : List Emit
  labels : List Nat

/-- The effect of one builder call on the listing. -/
def Listing.call (s : Listing) : Call → Listing
  | .emit .nop => s
  | .emit e => { s with insns := s.insns ++ [e] }
  | .label => { s with labels := s.labels ++ [s.insns.length] }
  | .mark l => { s with labels := s.labels.set l s.insns.length }

def listing (calls : List Call) : Listing :=
  calls.foldl Listing.call ⟨[], []⟩

/-- How many checker indices an instruction takes. -/
def checkCount : Emit → Nat
  | .checkEnd _ => 1
  | _ => 0

/-- The pre-decoded form of an emitted instruction: labels become instruction
indices, a `CheckEnd` carries its number `k`, operands keep their values. -/
def decoded (labels : List Nat) (k : Nat) : Emit → Insn Nat Int Int (Option String) Nat
  | .endOp a => .endOp (if a ≠ 0 then 1 else 0)
  | e => e.map (fun l => labels.getD l 0) (fun b => (b.toNat : Int)) Int16.toInt some
      (fun _ => k)

def decodedFrom (labels : List Nat) : Nat → List Emit →
    List (Insn Nat Int Int (Option String) Nat)
  | _, [] => []
  | k, e :: es => decoded labels k e :: decodedFrom labels (k + checkCount e) es

def setOperand : Emit → Option VmCharset
  | .set s | .span s | .testSet s _ | .testSetNoChoice s _ => some s
  | _ => none

def errorOperand : Emit → Option String
  | .error msg => some msg
  | _ => none

/-- The position of the label operand inside an encoded instruction. -/
def labelOperand : Emit → Option (Nat × Nat)
  | .jump l | .choice l | .call l | .commit l | .partialCommit l | .backCommit l
  | .memoOpen l _ | .memoTreeOpen l _ => some (1, l)
  | .testChar _ l | .testCharNoChoice _ l | .testSet _ l | .testSetNoChoice _ l
  | .testAny _ l => some (3, l)
  | _ => none

/-- The bytes of an instruction, for a label resolution and final tables. -/
def encBytes (resolve : Nat → Nat) (sets : List VmCharset) (errors : List String)
    (k : Nat) (e : Emit) : List UInt8 :=
  match e with
  | .char a | .any a | .empty a => [e.op.byte, a]
  | .endOp a => [e.op.byte, if a ≠ 0 then 1 else 0]
  | .jump l | .choice l | .call l | .commit l | .partialCommit l | .backCommit l =>
      e.op.byte :: u24Bytes (resolve l)
  | .set s | .span s => [e.op.byte, UInt8.ofNat (sets.idxOf s)]
  | .testChar a l | .testCharNoChoice a l | .testAny a l =>
      [e.op.byte, 0, a] ++ u24Bytes (resolve l)
  | .testSet s l | .testSetNoChoice s l =>
      [e.op.byte, 0, UInt8.ofNat (sets.idxOf s)] ++ u24Bytes (resolve l)
  | .captureBegin id | .memoTreeClose id => [e.op.byte, 0] ++ i16Bytes id
  | .captureLate back id | .captureFull back id => [e.op.byte, back] ++ i16Bytes id
  | .checkBegin id flag => [e.op.byte, 0] ++ i16Bytes id ++ i16Bytes flag
  | .memoOpen l id | .memoTreeOpen l id =>
      e.op.byte :: u24Bytes (resolve l) ++ i16Bytes id
  | .checkEnd _ => e.op.byte :: u24Bytes k
  | .error msg => e.op.byte :: u24Bytes (errors.idxOf msg)
  | .nop => []
  | .ret | .fail | .failTwice | .captureEnd | .memoClose | .memoTreeInsert
  | .memoTree => [e.op.byte, 0]

def encAll (resolve : Nat → Nat) (sets : List VmCharset) (errors : List String) :
    Nat → List Emit → List UInt8
  | _, [] => []
  | k, e :: es =>
      encBytes resolve sets errors k e ++ encAll resolve sets errors (k + checkCount e) es

/-- The fixups of a listing whose first instruction starts at `base`. -/
def fixupsFrom : Nat → List Emit → List (Nat × Nat)
  | _, [] => []
  | base, e :: es =>
      ((labelOperand e).map fun d => (base + d.1, d.2)).toList ++
        fixupsFrom (base + opSizes e.op) es

/-- The byte offset of the instruction with a given index. -/
def offsetOf (es : List Emit) (j : Nat) : Nat :=
  ((es.take j).map fun e => opSizes e.op).sum

section Lengths

variable (resolve : Nat → Nat) (sets : List VmCharset) (errors : List String)

theorem encBytes_length (k : Nat) (e : Emit) (he : e ≠ .nop) :
    (encBytes resolve sets errors k e).length = opSizes e.op := by
  cases e <;> first | exact absurd rfl he | rfl

theorem encAll_length (k : Nat) (es : List Emit) (hes : ∀ e ∈ es, e ≠ .nop) :
    (encAll resolve sets errors k es).length = offsetOf es es.length := by
  induction es generalizing k with
  | nil => rfl
  | cons e es ih =>
      have he : e ≠ .nop := hes e (by simp)
      have htail : ∀ d ∈ es, d ≠ .nop := fun d hd => hes d (by simp [hd])
      have hih := ih (k + checkCount e) htail
      simp only [offsetOf, List.take_length] at hih ⊢
      simp only [encAll, List.length_append, List.map_cons, List.sum_cons, hih,
        encBytes_length resolve sets errors k e he]

theorem encAll_append (k : Nat) (es fs : List Emit) :
    encAll resolve sets errors k (es ++ fs) =
      encAll resolve sets errors k es ++
        encAll resolve sets errors (k + (es.map checkCount).sum) fs := by
  induction es generalizing k with
  | nil => simp [encAll]
  | cons e es ih =>
      simp only [List.cons_append, encAll, ih, List.map_cons, List.sum_cons,
        List.append_assoc, Nat.add_assoc]

end Lengths

theorem fixupsFrom_append (base : Nat) (es fs : List Emit) :
    fixupsFrom base (es ++ fs) =
      fixupsFrom base es ++ fixupsFrom (base + offsetOf es es.length) fs := by
  induction es generalizing base with
  | nil => simp [fixupsFrom, offsetOf]
  | cons e es ih =>
      simp only [List.cons_append, fixupsFrom, ih, List.append_assoc, offsetOf,
        List.take_length, List.map_cons, List.sum_cons, Nat.add_assoc]

theorem offsetOf_append_of_le (es fs : List Emit) (j : Nat) (hj : j ≤ es.length) :
    offsetOf (es ++ fs) j = offsetOf es j := by
  simp [offsetOf, List.take_append_of_le_length hj]

/-- The state of the builder after calls with a given listing. The bytes are
those of the listing in any tables that extend the current ones, with every
label operand still a placeholder. -/
structure Built (p : VmProg) (s : Listing) : Prop where
  code : ∀ sets errors, p.sets <+: sets → p.errors <+: errors →
    p.code = encAll (fun _ => 0) sets errors 0 s.insns
  fixups : p.fixups = fixupsFrom 0 s.insns
  labels : p.labels = s.labels.map (offsetOf s.insns)
  labels_le : ∀ j ∈ s.labels, j ≤ s.insns.length
  ncheckers : p.ncheckers = (s.insns.map checkCount).sum
  noNop : ∀ e ∈ s.insns, e ≠ .nop
  sets_nodup : p.sets.Nodup
  errors_nodup : p.errors.Nodup
  sets_eq : ∀ set, set ∈ p.sets ↔ ∃ e ∈ s.insns, setOperand e = some set
  errors_eq : ∀ msg, msg ∈ p.errors ↔ ∃ e ∈ s.insns, errorOperand e = some msg

theorem Built.code_length {p : VmProg} {s : Listing} (h : Built p s) :
    p.code.length = offsetOf s.insns s.insns.length := by
  rw [h.code p.sets p.errors (List.prefix_refl _) (List.prefix_refl _)]
  exact encAll_length _ _ _ _ _ h.noNop

theorem built_new : Built vmProgNew ⟨[], []⟩ where
  code := by intros; rfl
  fixups := rfl
  labels := rfl
  labels_le := by simp
  ncheckers := rfl
  noNop := by simp
  sets_nodup := by simp [vmProgNew]
  errors_nodup := by simp [vmProgNew]
  sets_eq := by simp [vmProgNew]
  errors_eq := by simp [vmProgNew]

/-- What `vmEmit` does on success: it appends the bytes of the instruction and
the fixup of its label operand, and extends the tables by the operand. -/
structure Emitted (p : VmProg) (e : Emit) (p' : VmProg) : Prop where
  code : ∀ sets errors, p'.sets <+: sets → p'.errors <+: errors →
    p'.code = p.code ++ encBytes (fun _ => 0) sets errors p.ncheckers e
  fixups : p'.fixups = p.fixups ++
    ((labelOperand e).map fun d => (p.code.length + d.1, d.2)).toList
  labels : p'.labels = p.labels
  ncheckers : p'.ncheckers = p.ncheckers + checkCount e
  sets_prefix : p.sets <+: p'.sets
  errors_prefix : p.errors <+: p'.errors
  sets_nodup : p.sets.Nodup → p'.sets.Nodup
  errors_nodup : p.errors.Nodup → p'.errors.Nodup
  sets_eq : ∀ set, set ∈ p'.sets ↔ set ∈ p.sets ∨ setOperand e = some set
  errors_eq : ∀ msg, msg ∈ p'.errors ↔ msg ∈ p.errors ∨ errorOperand e = some msg

theorem idxOf_of_initial {α : Type} [DecidableEq α] {a : α} {l l' : List α}
    (hl : l <+: l') (ha : a ∈ l) : l'.idxOf a = l.idxOf a := by
  obtain ⟨t, rfl⟩ := hl
  exact List.idxOf_append_of_mem ha

/-- `addSet` succeeds while the operands so far and the new one have at most
256 distinct values. -/
theorem addSet_spec (p : VmProg) (set : VmCharset)
    (hroom : set ∉ p.sets → p.sets.length < 256) :
    ∃ i p', addSet p set = .ok (i, p') ∧ p' = { p with sets := p'.sets } ∧
      p.sets <+: p'.sets ∧ (p.sets.Nodup → p'.sets.Nodup) ∧
      (∀ t, t ∈ p'.sets ↔ t ∈ p.sets ∨ set = t) ∧
      ∀ sets, p'.sets <+: sets → i = UInt8.ofNat (sets.idxOf set) := by
  by_cases hmem : set ∈ p.sets
  · refine ⟨UInt8.ofNat (p.sets.idxOf set), p, ?_, rfl, List.prefix_refl _, id, ?_, ?_⟩
    · simp [addSet, List.idxOf_lt_length_iff.mpr hmem]
    · intro t
      constructor
      · exact Or.inl
      · rintro (ht | rfl)
        · exact ht
        · exact hmem
    · intro sets hsets
      rw [idxOf_of_initial hsets hmem]
  · have hlen := hroom hmem
    refine ⟨UInt8.ofNat p.sets.length, { p with sets := p.sets ++ [set] }, ?_, rfl,
      List.prefix_append _ _, ?_, ?_, ?_⟩
    · simp [addSet, hmem, Nat.not_le.mpr hlen]
    · intro hnd
      refine List.nodup_append.mpr ⟨hnd, by simp, ?_⟩
      rintro a ha b hb rfl
      exact hmem ((List.mem_singleton.mp hb) ▸ ha)
    · intro t
      simp [eq_comm]
    · intro sets hsets
      rw [idxOf_of_initial hsets (by simp), List.idxOf_append_of_notMem hmem]
      simp

theorem addError_spec (p : VmProg) (msg : String) :
    ∃ i p', addError p msg = (i, p') ∧ p' = { p with errors := p'.errors } ∧
      p.errors <+: p'.errors ∧ (p.errors.Nodup → p'.errors.Nodup) ∧
      (∀ t, t ∈ p'.errors ↔ t ∈ p.errors ∨ msg = t) ∧
      ∀ errors, p'.errors <+: errors → i = errors.idxOf msg := by
  by_cases hmem : msg ∈ p.errors
  · refine ⟨p.errors.idxOf msg, p, ?_, rfl, List.prefix_refl _, id, ?_, ?_⟩
    · simp [addError, List.idxOf_lt_length_iff.mpr hmem]
    · intro t
      constructor
      · exact Or.inl
      · rintro (ht | rfl)
        · exact ht
        · exact hmem
    · intro errors herrors
      rw [idxOf_of_initial herrors hmem]
  · refine ⟨p.errors.length, { p with errors := p.errors ++ [msg] }, ?_, rfl,
      List.prefix_append _ _, ?_, ?_, ?_⟩
    · simp [addError, hmem]
    · intro hnd
      refine List.nodup_append.mpr ⟨hnd, by simp, ?_⟩
      rintro a ha b hb rfl
      exact hmem ((List.mem_singleton.mp hb) ▸ ha)
    · intro t
      simp [eq_comm]
    · intro errors herrors
      rw [idxOf_of_initial herrors (by simp), List.idxOf_append_of_notMem hmem]
      simp

/-- An instruction without set and message operand only appends bytes and its
fixup. -/
theorem emitted_of_plain {p p' : VmProg} {e : Emit}
    (hcode : p'.code = p.code ++ encBytes (fun _ => 0) [] [] p.ncheckers e)
    (hfix : p'.fixups = p.fixups ++
      ((labelOperand e).map fun d => (p.code.length + d.1, d.2)).toList)
    (hlabels : p'.labels = p.labels)
    (hcheck : p'.ncheckers = p.ncheckers + checkCount e)
    (hsets : p'.sets = p.sets) (herrors : p'.errors = p.errors)
    (hset : setOperand e = none) (herror : errorOperand e = none) :
    Emitted p e p' where
  code := by
    intro sets errors _ _
    rw [hcode]
    cases e <;> first | rfl | simp [setOperand, errorOperand] at hset herror
  fixups := hfix
  labels := hlabels
  ncheckers := hcheck
  sets_prefix := by rw [hsets]
  errors_prefix := by rw [herrors]
  sets_nodup := by rw [hsets]; exact id
  errors_nodup := by rw [herrors]; exact id
  sets_eq := by simp [hsets, hset]
  errors_eq := by simp [herrors, herror]

theorem emitOpSet_emitted (p : VmProg) (op : VmOp) (set : VmCharset) (e : Emit)
    (he : e = .set set ∧ op = .set ∨ e = .span set ∧ op = .span)
    (hroom : set ∉ p.sets → p.sets.length < 256) :
    ∃ p', emitOpSet p op set = .ok p' ∧ Emitted p e p' := by
  obtain ⟨i, q, hadd, hq, hpre, hnd, hmem, hi⟩ := addSet_spec p set hroom
  refine ⟨emitOpU8 q op i, ?_, ?_⟩
  · simp [emitOpSet, hadd, bind, Except.bind, pure, Except.pure]
  · have hcode : q.code = p.code := by rw [hq]
    have hfix : q.fixups = p.fixups := by rw [hq]
    have hlab : q.labels = p.labels := by rw [hq]
    have hchk : q.ncheckers = p.ncheckers := by rw [hq]
    have herr : q.errors = p.errors := by rw [hq]
    rcases he with ⟨rfl, rfl⟩ | ⟨rfl, rfl⟩ <;>
    exact {
      code := by
        intro sets errors hsets _
        simp [emitOpU8, progWrite, hcode, encBytes, Insn.op, hi sets hsets]
      fixups := by simp [emitOpU8, progWrite, hfix, labelOperand]
      labels := by simp [emitOpU8, progWrite, hlab]
      ncheckers := by simp [emitOpU8, progWrite, hchk, checkCount]
      sets_prefix := hpre
      errors_prefix := by simp [emitOpU8, progWrite, herr]
      sets_nodup := hnd
      errors_nodup := by simp [emitOpU8, progWrite, herr]
      sets_eq := by simpa [emitOpU8, progWrite, setOperand] using hmem
      errors_eq := by simp [emitOpU8, progWrite, herr, errorOperand] }

theorem emitOpSetLabel_emitted (p : VmProg) (op : VmOp) (set : VmCharset) (l : Nat)
    (e : Emit)
    (he : e = .testSet set l ∧ op = .testSet ∨
      e = .testSetNoChoice set l ∧ op = .testSetNoChoice)
    (hroom : set ∉ p.sets → p.sets.length < 256) :
    ∃ p', emitOpSetLabel p op set l = .ok p' ∧ Emitted p e p' := by
  obtain ⟨i, q, hadd, hq, hpre, hnd, hmem, hi⟩ := addSet_spec p set hroom
  refine ⟨emitOpU8Label q op i l, ?_, ?_⟩
  · simp [emitOpSetLabel, hadd, bind, Except.bind, pure, Except.pure]
  · have hcode : q.code = p.code := by rw [hq]
    have hfix : q.fixups = p.fixups := by rw [hq]
    have hlab : q.labels = p.labels := by rw [hq]
    have hchk : q.ncheckers = p.ncheckers := by rw [hq]
    have herr : q.errors = p.errors := by rw [hq]
    rcases he with ⟨rfl, rfl⟩ | ⟨rfl, rfl⟩ <;>
    exact {
      code := by
        intro sets errors hsets _
        simp [emitOpU8Label, addFixup, progWrite, hcode, encBytes, Insn.op,
          hi sets hsets, u24Bytes]
      fixups := by simp [emitOpU8Label, addFixup, progWrite, hfix, hcode, labelOperand]
      labels := by simp [emitOpU8Label, addFixup, progWrite, hlab]
      ncheckers := by simp [emitOpU8Label, addFixup, progWrite, hchk, checkCount]
      sets_prefix := hpre
      errors_prefix := by simp [emitOpU8Label, addFixup, progWrite, herr]
      sets_nodup := hnd
      errors_nodup := by simp [emitOpU8Label, addFixup, progWrite, herr]
      sets_eq := by simpa [emitOpU8Label, addFixup, progWrite, setOperand] using hmem
      errors_eq := by simp [emitOpU8Label, addFixup, progWrite, herr, errorOperand] }

theorem emitError_emitted (p : VmProg) (msg : String) :
    Emitted p (.error msg)
      (emitOpU24 (addError p msg).2 .error (addError p msg).1) := by
  obtain ⟨i, q, hadd, hq, hpre, hnd, hmem, hi⟩ := addError_spec p msg
  have hcode : q.code = p.code := by rw [hq]
  have hfix : q.fixups = p.fixups := by rw [hq]
  have hlab : q.labels = p.labels := by rw [hq]
  have hchk : q.ncheckers = p.ncheckers := by rw [hq]
  have hset : q.sets = p.sets := by rw [hq]
  rw [hadd]
  exact {
    code := by
      intro sets errors _ herrors
      simp [emitOpU24, progWrite, hcode, encBytes, Insn.op, hi errors herrors]
    fixups := by simp [emitOpU24, progWrite, hfix, labelOperand]
    labels := by simp [emitOpU24, progWrite, hlab]
    ncheckers := by simp [emitOpU24, progWrite, hchk, checkCount]
    sets_prefix := by simp [emitOpU24, progWrite, hset]
    errors_prefix := hpre
    sets_nodup := by simp [emitOpU24, progWrite, hset]
    errors_nodup := hnd
    sets_eq := by simp [emitOpU24, progWrite, hset, setOperand]
    errors_eq := by simpa [emitOpU24, progWrite, errorOperand] using hmem }

/-- Every `vm_emit_*` function succeeds when its charset still fits into the
table, and appends the instruction. -/
theorem vmEmit_emitted (p : VmProg) (e : Emit) (he : e ≠ .nop)
    (hroom : ∀ set, setOperand e = some set → set ∉ p.sets → p.sets.length < 256) :
    ∃ p', vmEmit p e = .ok p' ∧ Emitted p e p' := by
  cases e with
  | nop => exact absurd rfl he
  | set s => exact emitOpSet_emitted p .set s _ (.inl ⟨rfl, rfl⟩) (hroom s rfl)
  | span s => exact emitOpSet_emitted p .span s _ (.inr ⟨rfl, rfl⟩) (hroom s rfl)
  | testSet s l =>
      exact emitOpSetLabel_emitted p .testSet s l _ (.inl ⟨rfl, rfl⟩) (hroom s rfl)
  | testSetNoChoice s l =>
      exact emitOpSetLabel_emitted p .testSetNoChoice s l _ (.inr ⟨rfl, rfl⟩)
        (hroom s rfl)
  | error msg => exact ⟨_, rfl, emitError_emitted p msg⟩
  | _ =>
      refine ⟨_, rfl, emitted_of_plain ?_ ?_ ?_ ?_ ?_ ?_ ?_ ?_⟩ <;>
      simp [emit1, emitOpU8, emitOpLabel, emitOpI16, emitOpLabelI16, emitOpU8Label,
        emitOpU24, emitOpI16I16, emitOpU8I16, addFixup, progWrite, encBytes, Insn.op,
        u24Bytes, labelOperand, checkCount, setOperand, errorOperand]

theorem listing_call_emit (s : Listing) (e : Emit) (he : e ≠ .nop) :
    s.call (.emit e) = { s with insns := s.insns ++ [e] } := by
  cases e <;> first | rfl | exact absurd rfl he

theorem Built.emit {p p' : VmProg} {s : Listing} {e : Emit} (h : Built p s)
    (he : e ≠ .nop) (hemit : Emitted p e p') : Built p' (s.call (.emit e)) := by
  rw [listing_call_emit s e he]
  refine ⟨?_, ?_, ?_, ?_, ?_, ?_, hemit.sets_nodup h.sets_nodup,
    hemit.errors_nodup h.errors_nodup, ?_, ?_⟩
  · intro sets errors hsets herrors
    rw [hemit.code sets errors hsets herrors,
      h.code sets errors (hemit.sets_prefix.trans hsets)
        (hemit.errors_prefix.trans herrors)]
    simp [encAll_append, encAll, h.ncheckers]
  · rw [hemit.fixups, h.fixups, fixupsFrom_append, h.code_length]
    simp [fixupsFrom]
  · rw [hemit.labels, h.labels]
    apply List.map_congr_left
    intro j hj
    exact (offsetOf_append_of_le s.insns [e] j (h.labels_le j hj)).symm
  · intro j hj
    have := h.labels_le j hj
    simp only [List.length_append, List.length_singleton]
    omega
  · rw [hemit.ncheckers, h.ncheckers]
    simp
  · intro d hd
    rcases List.mem_append.mp hd with hd | hd
    · exact h.noNop d hd
    · exact List.mem_singleton.mp hd ▸ he
  · intro set
    rw [hemit.sets_eq, h.sets_eq]
    simp [or_and_right, exists_or]
  · intro msg
    rw [hemit.errors_eq, h.errors_eq]
    simp [or_and_right, exists_or]

theorem Built.label {p : VmProg} {s : Listing} (h : Built p s) :
    Built (vmProgLabel p).2 (s.call .label) := by
  refine ⟨h.code, h.fixups, ?_, ?_, h.ncheckers, h.noNop, h.sets_nodup,
    h.errors_nodup, h.sets_eq, h.errors_eq⟩
  · simp [vmProgLabel, Listing.call, h.labels, h.code_length]
  · intro j hj
    rcases List.mem_append.mp hj with hj | hj
    · exact h.labels_le j hj
    · exact (List.mem_singleton.mp hj).le

theorem Built.mark {p : VmProg} {s : Listing} (h : Built p s) (l : Nat) :
    Built (vmProgMark p l) (s.call (.mark l)) := by
  refine ⟨h.code, h.fixups, ?_, ?_, h.ncheckers, h.noNop, h.sets_nodup,
    h.errors_nodup, h.sets_eq, h.errors_eq⟩
  · simp [vmProgMark, Listing.call, h.labels, h.code_length, List.map_set]
  · intro j hj
    rcases List.mem_or_eq_of_mem_set hj with hj | rfl
    · exact h.labels_le j hj
    · exact le_rfl

def emitOf : Call → Option Emit
  | .emit .nop => none
  | .emit e => some e
  | _ => none

/-- The instructions that a sequence of calls emits. -/
def emitsOf (calls : List Call) : List Emit :=
  calls.filterMap emitOf

theorem listing_insns (calls : List Call) (s : Listing) :
    (calls.foldl Listing.call s).insns = s.insns ++ emitsOf calls := by
  induction calls generalizing s with
  | nil => simp [emitsOf]
  | cons c calls ih =>
      have hstep : (s.call c).insns = s.insns ++ (emitOf c).toList := by
        cases c with
        | emit e => cases e <;> simp [Listing.call, emitOf]
        | _ => simp [Listing.call, emitOf]
      rw [List.foldl_cons, ih, hstep, List.append_assoc]
      simp only [emitsOf, List.filterMap_cons]
      cases emitOf c <;> rfl

def setOperands (calls : List Call) : List VmCharset :=
  (emitsOf calls).filterMap setOperand

def errorOperands (calls : List Call) : List String :=
  (emitsOf calls).filterMap errorOperand

/-- Any sequence of builder calls with at most 256 distinct charsets goes
through, and its result is described by its listing. -/
theorem runCalls_built (calls done : List Call) {p : VmProg}
    (hdone : Built p (done.foldl Listing.call ⟨[], []⟩))
    (hsets : (setOperands (done ++ calls)).dedup.length ≤ 256) :
    ∃ p', runCalls calls p = .ok p' ∧
      Built p' ((done ++ calls).foldl Listing.call ⟨[], []⟩) := by
  induction calls generalizing done p with
  | nil => exact ⟨p, rfl, by simpa using hdone⟩
  | cons c calls ih =>
      have hone : ∃ p', runCall p c = .ok p' ∧
          Built p' ((done ++ [c]).foldl Listing.call ⟨[], []⟩) := by
        simp only [List.foldl_append, List.foldl_cons, List.foldl_nil]
        cases c with
        | label => exact ⟨_, rfl, hdone.label⟩
        | mark l => exact ⟨_, rfl, hdone.mark l⟩
        | emit e =>
            by_cases hnop : e = .nop
            · subst hnop
              exact ⟨p, rfl, hdone⟩
            · have hroom : ∀ set, setOperand e = some set → set ∉ p.sets →
                  p.sets.length < 256 := by
                intro set hset hfresh
                have hsub : set :: p.sets ⊆ (setOperands (done ++ .emit e :: calls)).dedup := by
                  intro t ht
                  rw [List.mem_dedup, setOperands, List.mem_filterMap]
                  rcases List.mem_cons.mp ht with rfl | ht
                  · refine ⟨e, ?_, hset⟩
                    have hsome : emitOf (.emit e) = some e := by
                      cases e <;> first | rfl | exact absurd rfl hnop
                    simp [emitsOf, hsome]
                  · obtain ⟨d, hd, hdset⟩ := (hdone.sets_eq t).mp ht
                    rw [listing_insns] at hd
                    refine ⟨d, ?_, hdset⟩
                    simp only [emitsOf, List.filterMap_append, List.mem_append]
                    exact .inl (by simpa [emitsOf] using hd)
                have hle := (List.subperm_of_subset
                  (List.nodup_cons.mpr ⟨hfresh, hdone.sets_nodup⟩) hsub).length_le
                simp only [List.length_cons] at hle
                omega
              obtain ⟨p', hok, hemit⟩ := vmEmit_emitted p e hnop hroom
              exact ⟨p', hok, hdone.emit hnop hemit⟩
      obtain ⟨q, hq, hbuilt⟩ := hone
      obtain ⟨p', hrun, hfinal⟩ := ih (done ++ [c]) hbuilt (by simpa using hsets)
      refine ⟨p', ?_, by simpa using hfinal⟩
      simp [runCalls, hq, bind, Except.bind, hrun]

theorem vmEmit_room {p p' : VmProg} {e : Emit} (hok : vmEmit p e = .ok p') :
    ∀ set, setOperand e = some set → set ∉ p.sets → p.sets.length < 256 := by
  intro set hset hfresh
  by_contra hfull
  have hadd : addSet p set = .error "charset table overflow (max 256)" := by
    simp [addSet, hfresh, Nat.not_lt.mp hfull]
  cases e <;> simp only [setOperand, Option.some.injEq, reduceCtorEq] at hset <;>
    subst hset <;>
    simp [vmEmit, emitOpSet, emitOpSetLabel, hadd, bind, Except.bind] at hok

theorem Emitted.sets_length_le {p p' : VmProg} {e : Emit} (h : Emitted p e p')
    (hnd : p.sets.Nodup) (hle : p.sets.length ≤ 256)
    (hroom : ∀ set, setOperand e = some set → set ∉ p.sets → p.sets.length < 256) :
    p'.sets.length ≤ 256 := by
  have hnd' := h.sets_nodup hnd
  cases hset : setOperand e with
  | none =>
      have hsub : p'.sets ⊆ p.sets := fun t ht => by simpa [hset] using (h.sets_eq t).mp ht
      exact ((List.subperm_of_subset hnd' hsub).length_le).trans hle
  | some set =>
      have hsub : p'.sets ⊆ set :: p.sets := by
        intro t ht
        rcases (h.sets_eq t).mp ht with ht | ht
        · exact List.mem_cons_of_mem _ ht
        · rw [hset, Option.some.injEq] at ht
          exact ht ▸ List.mem_cons_self
      by_cases hmem : set ∈ p.sets
      · have hsub' : p'.sets ⊆ p.sets :=
          fun t ht => (List.mem_cons.mp (hsub ht)).elim (fun h => h ▸ hmem) id
        exact ((List.subperm_of_subset hnd' hsub').length_le).trans hle
      · have hlt := hroom set hset hmem
        have hlen := (List.subperm_of_subset hnd' hsub).length_le
        simp only [List.length_cons] at hlen
        omega

/-- A sequence of builder calls that goes through is described by its listing. -/
theorem runCalls_built_of_ok {calls : List Call} {p p' : VmProg} {s : Listing}
    (hbuilt : Built p s) (hle : p.sets.length ≤ 256) (hok : runCalls calls p = .ok p') :
    Built p' (calls.foldl Listing.call s) ∧ p'.sets.length ≤ 256 := by
  induction calls generalizing p s with
  | nil =>
      cases hok
      exact ⟨hbuilt, hle⟩
  | cons c calls ih =>
      simp only [runCalls, bind, Except.bind] at hok
      cases c with
      | label => exact ih hbuilt.label hle hok
      | mark l => exact ih (hbuilt.mark l) hle hok
      | emit e =>
          simp only [runCall] at hok
          by_cases hnop : e = .nop
          · subst hnop
            exact ih hbuilt hle hok
          · cases hemit : vmEmit p e with
            | error msg => simp [hemit] at hok
            | ok q =>
                have hroom := vmEmit_room hemit
                obtain ⟨q', hq', hq⟩ := vmEmit_emitted p e hnop hroom
                cases hemit.symm.trans hq'
                simp only [hemit] at hok
                exact ih (hbuilt.emit hnop hq)
                  (hq.sets_length_le hbuilt.sets_nodup hle hroom) hok

theorem patchU24_append (before w : List UInt8) (d off : Nat) :
    patchU24 (before ++ w) (before.length + d) off = before ++ patchU24 w d off := by
  simp [patchU24, Nat.add_assoc]

/-- Patching the label operand of an instruction gives its resolved bytes. -/
theorem patchU24_encBytes (resolve : Nat → Nat) (sets : List VmCharset)
    (errors : List String) (k : Nat) (e : Emit) (d : Nat × Nat) (rest : List UInt8)
    (hd : labelOperand e = some d) :
    patchU24 (encBytes (fun _ => 0) sets errors k e ++ rest) d.1 (resolve d.2) =
      encBytes resolve sets errors k e ++ rest := by
  cases e <;> simp only [labelOperand, Option.some.injEq, reduceCtorEq] at hd <;>
    subst hd <;> rfl

theorem encBytes_of_no_label (resolve : Nat → Nat) (sets : List VmCharset)
    (errors : List String) (k : Nat) (e : Emit) (he : labelOperand e = none) :
    encBytes (fun _ => 0) sets errors k e = encBytes resolve sets errors k e := by
  cases e <;> first | rfl | simp [labelOperand] at he

/-- Backpatching turns the placeholder bytes of a listing into the bytes for the
final label offsets. -/
theorem patchFixups_encAll (labels : List Nat) (sets : List VmCharset)
    (errors : List String) (before : List UInt8) (k : Nat) (es : List Emit)
    (hes : ∀ e ∈ es, e ≠ .nop)
    (hoff : ∀ e ∈ es, ∀ d, labelOperand e = some d → labels.getD d.2 0 ≤ 0xffffff) :
    patchFixups labels (fixupsFrom before.length es)
        (before ++ encAll (fun _ => 0) sets errors k es) =
      .ok (before ++ encAll (fun l => labels.getD l 0) sets errors k es) := by
  induction es generalizing before k with
  | nil => rfl
  | cons e es ih =>
      have he : e ≠ .nop := hes e (by simp)
      have htail : ∀ d ∈ es, d ≠ .nop := fun d hd => hes d (by simp [hd])
      have hofftail : ∀ d ∈ es, ∀ b, labelOperand d = some b →
          labels.getD b.2 0 ≤ 0xffffff := fun d hd => hoff d (by simp [hd])
      have hlen := encBytes_length (fun l => labels.getD l 0) sets errors k e he
      have hnext := ih (before ++ encBytes (fun l => labels.getD l 0) sets errors k e)
        (k + checkCount e) htail hofftail
      rw [List.length_append, hlen] at hnext
      simp only [encAll, fixupsFrom]
      cases hlabel : labelOperand e with
      | none =>
          rw [encBytes_of_no_label (fun l => labels.getD l 0) sets errors k e hlabel]
          simpa using hnext
      | some d =>
          have hle := hoff e (by simp) d hlabel
          simp only [Option.map_some, Option.toList_some, List.singleton_append,
            patchFixups, if_neg (Nat.not_lt.mpr hle)]
          rw [patchU24_append,
            patchU24_encBytes (fun l => labels.getD l 0) sets errors k e d _ hlabel]
          simpa using hnext

theorem decodeU24_u24Bytes (a : Nat) (rest : List UInt8) :
    decodeU24 (u24Bytes a ++ rest) = a % 16777216 := by
  have hhigh : (a >>> 16) &&& 0xff = a / 65536 % 256 := by
    rw [Nat.and_two_pow_sub_one_eq_mod _ 8, Nat.shiftRight_eq_div_pow]
  have hlow : a &&& 0xff = a % 256 := Nat.and_two_pow_sub_one_eq_mod _ 8
  have hmid : (a >>> 8) &&& 0xff = a / 256 % 256 := by
    rw [Nat.and_two_pow_sub_one_eq_mod _ 8, Nat.shiftRight_eq_div_pow]
  have hsum : decodeU24 (u24Bytes a ++ rest) =
      ((a / 65536 % 256) <<< 16 ||| a % 256) ||| (a / 256 % 256) <<< 8 := by
    simp only [decodeU24, u24Bytes, hhigh, hlow, hmid, List.cons_append, List.nil_append,
      List.getD_cons_zero, List.getD_cons_succ, UInt8.toNat_ofNat']
    rw [Nat.mod_eq_of_lt (show a / 65536 % 256 < 2 ^ 8 by omega),
      Nat.mod_eq_of_lt (show a % 256 < 2 ^ 8 by omega),
      Nat.mod_eq_of_lt (show a / 256 % 256 < 2 ^ 8 by omega)]
  rw [hsum, Nat.or_assoc, Nat.or_comm (a % 256),
    ← Nat.shiftLeft_add_eq_or_of_lt (by omega) (a / 256 % 256),
    ← Nat.shiftLeft_add_eq_or_of_lt
      (by rw [Nat.shiftLeft_eq]; omega) (a / 65536 % 256)]
  simp only [Nat.shiftLeft_eq]
  omega

theorem decodeI16_i16Bytes (a : Int16) (rest : List UInt8) :
    decodeI16 (i16Bytes a ++ rest) = a.toInt := by
  have hlt : a.toBitVec.toNat < 2 ^ 16 := a.toBitVec.isLt
  have hlow : a.toBitVec.toNat &&& 0xff = a.toBitVec.toNat % 256 :=
    Nat.and_two_pow_sub_one_eq_mod _ 8
  have hsum : (a.toBitVec.toNat % 256) ||| ((a.toBitVec.toNat / 256) <<< 8) =
      a.toBitVec.toNat := by
    rw [Nat.or_comm, ← Nat.shiftLeft_add_eq_or_of_lt (by omega), Nat.shiftLeft_eq]
    omega
  have hbytes : decodeI16 (i16Bytes a ++ rest) =
      (BitVec.ofNat 16 ((a.toBitVec.toNat % 256) |||
        ((a.toBitVec.toNat / 256) <<< 8))).toInt := by
    simp only [decodeI16, i16Bytes, hlow, Nat.shiftRight_eq_div_pow, List.cons_append,
      List.nil_append, List.getD_cons_zero, List.getD_cons_succ, UInt8.toNat_ofNat']
    rw [Nat.mod_eq_of_lt (show a.toBitVec.toNat % 256 < 2 ^ 8 by omega),
      Nat.mod_eq_of_lt (show a.toBitVec.toNat / 2 ^ 8 < 2 ^ 8 by omega)]
    rfl
  rw [hbytes, hsum, BitVec.ofNat_toNat, BitVec.setWidth_eq]
  rfl

/-- The pre-decoded form of an instruction for given jump targets: message and
checker indices are cut to the 24 bits of their field. -/
def rawDecoded (resolve : Nat → Nat) (errors : List String) (k : Nat) : Emit → VmInsn
  | .endOp a => .endOp (if a ≠ 0 then 1 else 0)
  | e => e.map resolve (fun b => (b.toNat : Int)) Int16.toInt
      (fun msg => errors.idxOf msg % 16777216) (fun _ => k % 16777216)

/-- The label and set operands of an instruction fit their fields. -/
structure Fits (resolve : Nat → Nat) (sets : List VmCharset) (e : Emit) : Prop where
  label : ∀ d, labelOperand e = some d → resolve d.2 < 16777216
  set : ∀ s, setOperand e = some s → s ∈ sets
  sets_le : sets.length ≤ 256

theorem getElem?_idxOf_mod {sets : List VmCharset} {s : VmCharset} (hs : s ∈ sets)
    (hle : sets.length ≤ 256) :
    sets[sets.idxOf s % 256]?.getD .none = s := by
  have hlt : sets.idxOf s < sets.length := List.idxOf_lt_length_iff.mpr hs
  rw [Nat.mod_eq_of_lt (by omega), List.getElem?_eq_getElem hlt, List.getElem_idxOf hlt]
  rfl

theorem drop_u24Bytes (a : Nat) (rest : List UInt8) :
    (u24Bytes a ++ rest).drop 3 = rest := rfl

theorem drop_i16Bytes (a : Int16) (rest : List UInt8) :
    (i16Bytes a ++ rest).drop 2 = rest := rfl

theorem decodeInsn_encBytes {resolve : Nat → Nat} {sets : List VmCharset}
    (errors : List String) (k : Nat) {e : Emit} (rest : List UInt8) (he : e ≠ .nop)
    (hfits : Fits resolve sets e) :
    decodeInsn sets (encBytes resolve sets errors k e ++ rest) e.op =
      rawDecoded resolve errors k e := by
  have hlabel := hfits.label
  have hset := hfits.set
  cases e with
  | nop => exact absurd rfl he
  | endOp a =>
      by_cases ha : a = 0 <;> simp [encBytes, decodeInsn, rawDecoded, Insn.op, ha]
  | _ =>
      simp only [labelOperand, setOperand, Option.some.injEq, forall_eq', reduceCtorEq,
        false_implies, implies_true] at hlabel hset
      simp [encBytes, decodeInsn, rawDecoded, Insn.op, Insn.map, decodeU24_u24Bytes,
        decodeI16_i16Bytes, getElem?_idxOf_mod, drop_u24Bytes, drop_i16Bytes,
        Nat.mod_eq_of_lt, hfits.sets_le, *]

/-- The result of the first pre-decoding pass over the bytes of a listing. -/
def passOf (resolve : Nat → Nat) (errors : List String) :
    Nat → Nat → List Emit → List (Nat × VmInsn)
  | _, _, [] => []
  | ip, k, e :: es =>
      (ip, rawDecoded resolve errors k e) ::
        passOf resolve errors (ip + opSizes e.op) (k + checkCount e) es

theorem encBytes_eq_cons (resolve : Nat → Nat) (sets : List VmCharset)
    (errors : List String) (k : Nat) (e : Emit) (he : e ≠ .nop) :
    ∃ w, encBytes resolve sets errors k e = e.op.byte :: w := by
  cases e <;> first | exact absurd rfl he | exact ⟨_, rfl⟩

theorem predecodePass_encAll {resolve : Nat → Nat} {sets : List VmCharset}
    (errors : List String) (ip k : Nat) {fuel : Nat} {es : List Emit}
    (hes : ∀ e ∈ es, e ≠ .nop) (hfit : ∀ e ∈ es, Fits resolve sets e)
    (hfuel : (encAll resolve sets errors k es).length ≤ fuel) :
    predecodePass sets fuel ip (encAll resolve sets errors k es) =
      passOf resolve errors ip k es := by
  induction es generalizing fuel ip k with
  | nil => cases fuel <;> rfl
  | cons e es ih =>
      have he : e ≠ .nop := hes e (by simp)
      have htail : ∀ d ∈ es, d ≠ .nop := fun d hd => hes d (by simp [hd])
      have hlen := encBytes_length resolve sets errors k e he
      have hpos := opSizes_pos e.op
      obtain ⟨w, hw⟩ := encBytes_eq_cons resolve sets errors k e he
      have hdecode := decodeInsn_encBytes errors k
        (encAll resolve sets errors (k + checkCount e) es) he (hfit e (by simp))
      have hdrop : (encBytes resolve sets errors k e ++
          encAll resolve sets errors (k + checkCount e) es).drop (opSizes e.op) =
            encAll resolve sets errors (k + checkCount e) es := by
        rw [← hlen, List.drop_left]
      simp only [encAll, List.length_append, hlen] at hfuel
      cases fuel with
      | zero => omega
      | succ fuel =>
          have hnext := ih (ip + opSizes e.op) (k + checkCount e) htail
            (fun d hd => hfit d (by simp [hd])) (show _ ≤ fuel by omega)
          simp only [encAll, passOf]
          rw [hw] at hdecode hdrop ⊢
          simp only [List.cons_append] at hdecode hdrop ⊢
          simp only [predecodePass, ofByte_byte, hdecode, hdrop, hnext]

/-- The offsets that the instructions of a listing start at. -/
def startsFrom : Nat → List Emit → List Nat
  | _, [] => []
  | base, e :: es => base :: startsFrom (base + opSizes e.op) es

theorem passOf_starts (resolve : Nat → Nat) (errors : List String) (ip k : Nat)
    (es : List Emit) : (passOf resolve errors ip k es).map Prod.fst = startsFrom ip es := by
  induction es generalizing ip k with
  | nil => rfl
  | cons e es ih => simp [passOf, startsFrom, ih]

theorem offsetOf_cons_succ (e : Emit) (es : List Emit) (j : Nat) :
    offsetOf (e :: es) (j + 1) = opSizes e.op + offsetOf es j := by
  simp [offsetOf]

theorem idxOf_startsFrom (base : Nat) (es : List Emit) (j : Nat) (hj : j ≤ es.length) :
    (startsFrom base es).idxOf (base + offsetOf es j) = j := by
  induction es generalizing base j with
  | nil =>
      have : j = 0 := by simpa using hj
      subst this
      rfl
  | cons e es ih =>
      cases j with
      | zero => simp [startsFrom, offsetOf]
      | succ j =>
          have hpos := opSizes_pos e.op
          have hne : base ≠ base + offsetOf (e :: es) (j + 1) := by
            rw [offsetOf_cons_succ]
            omega
          have hih := ih (base + opSizes e.op) j (by simpa using hj)
          rw [startsFrom, List.idxOf_cons_ne _ hne, offsetOf_cons_succ, ← Nat.add_assoc,
            hih]

def linkedFrom (labels : List Nat) (errors : List String) : Nat → List Emit → List VmInsn
  | _, [] => []
  | k, e :: es =>
      rawDecoded (fun l => labels.getD l 0) errors k e ::
        linkedFrom labels errors (k + checkCount e) es

/-- Translating the targets of a decoded listing gives the listing with its
labels as instruction indices. -/
theorem passOf_translate (resolve idx : Nat → Nat) (errors : List String)
    (labels : List Nat) (ip k : Nat) (es : List Emit)
    (hidx : ∀ e ∈ es, ∀ d, labelOperand e = some d → idx (resolve d.2) = labels.getD d.2 0) :
    ((passOf resolve errors ip k es).map fun i => i.2.map idx id id id id) =
      linkedFrom labels errors k es := by
  induction es generalizing ip k with
  | nil => rfl
  | cons e es ih =>
      have hlabel := hidx e (by simp)
      simp only [passOf, List.map_cons, linkedFrom, List.cons.injEq]
      refine ⟨?_, ih _ _ (fun d hd => hidx d (by simp [hd]))⟩
      cases e with
      | endOp a => rfl
      | _ =>
          simp only [labelOperand, Option.some.injEq, forall_eq', reduceCtorEq,
            false_implies, implies_true] at hlabel
          simp [rawDecoded, Insn.map, *]

theorem linkedFrom_errors (labels : List Nat) (errors : List String) (k : Nat)
    (es : List Emit) (herr : ∀ e ∈ es, ∀ msg, errorOperand e = some msg → msg ∈ errors)
    (herrors : errors.length ≤ 16777216) (hcheck : k + (es.map checkCount).sum ≤ 16777216) :
    (linkedFrom labels errors k es).map (Insn.map id id id (fun i => errors[i]?) id) =
      decodedFrom labels k es := by
  induction es generalizing k with
  | nil => rfl
  | cons e es ih =>
      have hmsg := herr e (by simp)
      simp only [List.map_cons, List.sum_cons] at hcheck
      simp only [linkedFrom, List.map_cons, decodedFrom, List.cons.injEq]
      refine ⟨?_, ih _ (fun d hd => herr d (by simp [hd])) (by omega)⟩
      cases e with
      | endOp a => rfl
      | error msg =>
          have hmem := hmsg msg rfl
          have hlt := List.idxOf_lt_length_iff.mpr hmem
          simp [rawDecoded, decoded, Insn.map, hmem, Nat.mod_eq_of_lt (hlt.trans_le herrors)]
      | checkEnd u =>
          have hlt : k < 16777216 := by
            simp only [checkCount] at hcheck
            omega
          simp [rawDecoded, decoded, Insn.map, Nat.mod_eq_of_lt hlt]
      | _ => simp [rawDecoded, decoded, Insn.map]

theorem decodedFrom_append (labels : List Nat) (k : Nat) (es fs : List Emit) :
    decodedFrom labels k (es ++ fs) =
      decodedFrom labels k es ++ decodedFrom labels (k + (es.map checkCount).sum) fs := by
  induction es generalizing k with
  | nil => simp [decodedFrom]
  | cons e es ih =>
      simp only [List.cons_append, decodedFrom, ih, List.map_cons, List.sum_cons,
        Nat.add_assoc]

theorem getD_map_offsetOf (labels : List Nat) (es : List Emit) (l : Nat) :
    (labels.map (offsetOf es)).getD l 0 = offsetOf es (labels.getD l 0) := by
  have hzero : offsetOf es 0 = 0 := by simp [offsetOf]
  simp only [List.getD_eq_getElem?_getD, List.getElem?_map]
  cases labels[l]? with
  | none => exact hzero.symm
  | some j => rfl

/-- Finishing a program whose jump targets fit into 24 bits links its listing. -/
theorem vmProgFinish_of_end {p : VmProg} {es : List Emit} {labels : List Nat}
    (hend : Built (emitOpU8 p .endOp 0) ⟨es, labels⟩) (hsets : p.sets.length ≤ 256)
    (hoffsets : ∀ e ∈ es, ∀ d, labelOperand e = some d → p.labels.getD d.2 0 ≤ 0xffffff) :
    ∃ c, vmProgFinish p = .ok c ∧ c.errors = p.errors ∧ c.checkers = [] ∧
      c.prog = linkedFrom labels p.errors 0 es := by
  have hlabels : p.labels = labels.map (offsetOf es) := hend.labels
  have hresolve : ∀ l, p.labels.getD l 0 = offsetOf es (labels.getD l 0) := by
    intro l
    rw [hlabels, getD_map_offsetOf]
  have hindex : ∀ l, labels.getD l 0 ≤ es.length := by
    intro l
    rw [List.getD_eq_getElem?_getD]
    cases hget : labels[l]? with
    | none => simp
    | some j => exact hend.labels_le j (List.mem_of_getElem? hget)
  have hcode := hend.code p.sets p.errors (List.prefix_refl _) (List.prefix_refl _)
  have hpatch := patchFixups_encAll p.labels p.sets p.errors [] 0 es hend.noNop hoffsets
  have hfit : ∀ e ∈ es, Fits (fun l => p.labels.getD l 0) p.sets e := by
    intro e he
    refine ⟨fun d hd => Nat.lt_succ_of_le (hoffsets e he d hd), ?_, hsets⟩
    intro set hset
    exact (hend.sets_eq set).mpr ⟨e, he, hset⟩
  have hpass := predecodePass_encAll p.errors 0 0 hend.noNop hfit le_rfl
  simp only [List.nil_append, List.length_nil] at hpatch
  have hfinish : vmProgFinish p = .ok {
      insns := encAll (fun l => p.labels.getD l 0) p.sets p.errors 0 es
      sets := p.sets
      errors := p.errors
      prog := vmPredecode p.sets (encAll (fun l => p.labels.getD l 0) p.sets p.errors 0 es)
      checkers := [] } := by
    change (patchFixups p.labels (emitOpU8 p .endOp 0).fixups (emitOpU8 p .endOp 0).code >>=
      _) = _
    rw [hend.fixups, hcode, hpatch]
    rfl
  refine ⟨_, hfinish, rfl, rfl, ?_⟩
  simp only [vmPredecode, hpass, passOf_starts]
  refine passOf_translate _ _ _ labels 0 0 es ?_
  intro e _ d _
  rw [hresolve]
  simpa using idxOf_startsFrom 0 es _ (hindex d.2)

theorem Built.finish {p : VmProg} {s : Listing} (h : Built p s) :
    Built (emitOpU8 p .endOp 0) ⟨s.insns ++ [.endOp 0], s.labels⟩ :=
  h.emit (e := .endOp 0) (by simp)
    (emitted_of_plain rfl (by simp [emitOpU8, progWrite, labelOperand]) rfl rfl rfl rfl
      rfl rfl)

theorem patchFixups_offsets {labels : List Nat} {base : Nat} {es : List Emit}
    {code code' : List UInt8}
    (hok : patchFixups labels (fixupsFrom base es) code = .ok code') :
    ∀ e ∈ es, ∀ d, labelOperand e = some d → labels.getD d.2 0 ≤ 0xffffff := by
  induction es generalizing base code with
  | nil => simp
  | cons e es ih =>
      simp only [fixupsFrom] at hok
      intro f hf d hd
      cases hlabel : labelOperand e with
      | none =>
          simp only [hlabel, Option.map_none, Option.toList_none, List.nil_append] at hok
          rcases List.mem_cons.mp hf with rfl | hf
          · simp [hlabel] at hd
          · exact ih hok f hf d hd
      | some b =>
          simp only [hlabel, Option.map_some, Option.toList_some, List.singleton_append,
            patchFixups] at hok
          by_cases hlarge : labels.getD b.2 0 > 0xffffff
          · rw [if_pos hlarge] at hok
            cases hok
          · rw [if_neg hlarge] at hok
            rcases List.mem_cons.mp hf with rfl | hf
            · cases hlabel.symm.trans hd
              exact Nat.not_lt.mp hlarge
            · exact ih hok f hf d hd

theorem length_le_dedup_of_subset {α : Type} [DecidableEq α] {l l' : List α}
    (hnd : l.Nodup) (hsub : ∀ a ∈ l, a ∈ l') : l.length ≤ l'.dedup.length :=
  (List.subperm_of_subset hnd fun a ha => List.mem_dedup.mpr (hsub a ha)).length_le

/-- Bytecode round trip: whatever instructions are emitted and wherever labels
are created and marked, finishing the program pre-decodes to exactly the emitted
instructions followed by `End`, with every operand preserved and every label
resolved to the instruction it stands before. -/
theorem vmProgFinish_roundTrip (calls : List Call)
    (hsets : (setOperands calls).dedup.length ≤ 256)
    (herrors : (errorOperands calls).dedup.length < 2 ^ 24)
    (hcheckers : ((emitsOf calls).map checkCount).sum < 2 ^ 24)
    (hoffsets : ∀ p, runCalls calls vmProgNew = .ok p → ∀ off ∈ p.labels, off ≤ 0xffffff) :
    ∃ p c, runCalls calls vmProgNew = .ok p ∧ vmProgFinish p = .ok c ∧
      c.prog.map (Insn.map id id id (fun i => c.errors[i]?) id) =
        decodedFrom (listing calls).labels 0 (emitsOf calls) ++ [.endOp 0] := by
  obtain ⟨p, hrun, hbuilt⟩ := runCalls_built calls [] built_new (by simpa using hsets)
  have hinsns : (listing calls).insns = emitsOf calls := by
    simpa [listing] using listing_insns calls ⟨[], []⟩
  have hbuilt : Built p (listing calls) := by simpa [listing] using hbuilt
  have hsetsLe : p.sets.length ≤ (setOperands calls).dedup.length := by
    refine length_le_dedup_of_subset hbuilt.sets_nodup fun set hset => ?_
    obtain ⟨e, he, hop⟩ := (hbuilt.sets_eq set).mp hset
    exact List.mem_filterMap.mpr ⟨e, hinsns ▸ he, hop⟩
  have herrorsLe : p.errors.length ≤ (errorOperands calls).dedup.length := by
    refine length_le_dedup_of_subset hbuilt.errors_nodup fun msg hmsg => ?_
    obtain ⟨e, he, hop⟩ := (hbuilt.errors_eq msg).mp hmsg
    exact List.mem_filterMap.mpr ⟨e, hinsns ▸ he, hop⟩
  have hend := hbuilt.finish
  have hlist : (listing calls).insns ++ [.endOp 0] = emitsOf calls ++ [.endOp 0] := by
    rw [hinsns]
  obtain ⟨c, hfinish, herrs, -, hprog⟩ := vmProgFinish_of_end hend (by omega) (by
    intro e _ d _
    rw [List.getD_eq_getElem?_getD]
    cases hget : p.labels[d.2]? with
    | none => simp
    | some off => exact hoffsets p hrun off (List.mem_of_getElem? hget))
  refine ⟨p, c, hrun, hfinish, ?_⟩
  have hmsg : ∀ e ∈ emitsOf calls ++ [.endOp 0], ∀ msg, errorOperand e = some msg →
      msg ∈ p.errors := by
    intro e he msg hop
    exact (hend.errors_eq msg).mpr ⟨e, hlist ▸ he, hop⟩
  rw [hprog, herrs, hlist,
    linkedFrom_errors _ _ _ _ hmsg (by omega) (by simp [checkCount]; omega),
    decodedFrom_append]
  rfl

theorem vmProgFinish_linked {calls : List Call} {p : VmProg} {c : VmCode}
    (hrun : runCalls calls vmProgNew = .ok p) (hfinish : vmProgFinish p = .ok c) :
    c.prog = linkedFrom (listing calls).labels c.errors 0 (emitsOf calls ++ [.endOp 0]) ∧
      c.checkers = [] := by
  obtain ⟨hbuilt, hle⟩ := runCalls_built_of_ok built_new (by simp [vmProgNew]) hrun
  have hbuilt : Built p (listing calls) := hbuilt
  have hinsns : (listing calls).insns = emitsOf calls := by
    simpa [listing] using listing_insns calls ⟨[], []⟩
  have hend := hbuilt.finish
  have hoff : ∀ e ∈ (listing calls).insns ++ [.endOp 0], ∀ d, labelOperand e = some d →
      p.labels.getD d.2 0 ≤ 0xffffff := by
    cases hpatch : patchFixups p.labels (emitOpU8 p .endOp 0).fixups
        (emitOpU8 p .endOp 0).code with
    | error msg =>
        have hlabels : (emitOpU8 p .endOp 0).labels = p.labels := rfl
        simp [vmProgFinish, hlabels, hpatch, bind, Except.bind] at hfinish
    | ok insns =>
        rw [hend.fixups] at hpatch
        exact patchFixups_offsets hpatch
  obtain ⟨c', hc', herrs, hchk, hprog⟩ := vmProgFinish_of_end hend hle hoff
  cases hfinish.symm.trans hc'
  rw [hprog, herrs, hinsns]
  exact ⟨rfl, hchk⟩

/-- A loop with a forward and a backward label, a negative id and a shared set. -/
def loopCalls : List Call :=
  [.label, .label, .emit (.choice 1), .emit (.set (.fill [97])),
    .emit (.captureBegin (-3)), .emit (.error "expected"), .emit (.checkEnd ()),
    .emit (.span (.fill [97])), .emit (.jump 0), .mark 1, .emit .captureEnd]

theorem vmProgFinish_roundTrip_loopCalls :
    ∃ p c, runCalls loopCalls vmProgNew = .ok p ∧ vmProgFinish p = .ok c ∧
      c.prog.map (Insn.map id id id (fun i => c.errors[i]?) id) =
        decodedFrom (listing loopCalls).labels 0 (emitsOf loopCalls) ++ [.endOp 0] := by
  refine vmProgFinish_roundTrip loopCalls (by decide) (by decide) (by decide) ?_
  intro p hp
  have hp : Except.ok _ = Except.ok p := hp
  cases hp
  decide

end Libpeg.CodeRoundTrip
