import Libpeg.Opcode

namespace Libpeg.Code

open Libpeg.Charset
open Libpeg.Opcode

/-- A program under construction, `struct vm_prog`. `labels` holds the byte
offset of each label, `fixups` the offset and the label of every operand that
`vmProgFinish` still has to patch. -/
structure VmProg where
  code : List UInt8
  sets : List VmCharset
  errors : List String
  labels : List Nat
  fixups : List (Nat × Nat)
  ncheckers : Nat

/-- `vm_prog_new`. -/
def vmProgNew : VmProg :=
  ⟨[], [], [], [], [], 0⟩

/-- `vm_prog_label`: a new label at the current offset. -/
def vmProgLabel (p : VmProg) : Nat × VmProg :=
  (p.labels.length, { p with labels := p.labels ++ [p.code.length] })

/-- `vm_prog_mark`: move a label to the current offset. -/
def vmProgMark (p : VmProg) (label : Nat) : VmProg :=
  { p with labels := p.labels.set label p.code.length }

/-- `prog_reserve` and the stores through the cursor it returns. -/
def progWrite (p : VmProg) (w : List UInt8) : VmProg :=
  { p with code := p.code ++ w }

/-- `add_fixup`. -/
def addFixup (p : VmProg) (at_ : Nat) (label : Nat) : VmProg :=
  { p with fixups := p.fixups ++ [(at_, label)] }

/-- `add_set`: the index of a set in the table, storing it when it is new. The
table holds at most 256 sets. -/
def addSet (p : VmProg) (set : VmCharset) : Except String (UInt8 × VmProg) :=
  if p.sets.idxOf set < p.sets.length then
    .ok (UInt8.ofNat (p.sets.idxOf set), p)
  else if p.sets.length ≥ 256 then
    .error "charset table overflow (max 256)"
  else
    .ok (UInt8.ofNat p.sets.length, { p with sets := p.sets ++ [set] })

/-- `add_error`: the index of a message in the table, storing it when it is
new. -/
def addError (p : VmProg) (msg : String) : Nat × VmProg :=
  if p.errors.idxOf msg < p.errors.length then
    (p.errors.idxOf msg, p)
  else
    (p.errors.length, { p with errors := p.errors ++ [msg] })

/-- The two bytes of a 16-bit operand, low byte first. -/
def i16Bytes (a : Int16) : List UInt8 :=
  [UInt8.ofNat (a.toBitVec.toNat &&& 0xff), UInt8.ofNat (a.toBitVec.toNat >>> 8)]

/-- The three bytes of a 24-bit operand: bits 16-23, then bits 0-15 low byte
first. -/
def u24Bytes (a : Nat) : List UInt8 :=
  [UInt8.ofNat ((a >>> 16) &&& 0xff), UInt8.ofNat (a &&& 0xff),
    UInt8.ofNat ((a >>> 8) &&& 0xff)]

/-- `emit1`: opcode and padding. -/
def emit1 (p : VmProg) (op : VmOp) : VmProg :=
  progWrite p [op.byte, 0]

/-- `emit_op_u8`. -/
def emitOpU8 (p : VmProg) (op : VmOp) (a : UInt8) : VmProg :=
  progWrite p [op.byte, a]

/-- `emit_op_label`: the operand is a placeholder until `vmProgFinish`. -/
def emitOpLabel (p : VmProg) (op : VmOp) (label : Nat) : VmProg :=
  addFixup (progWrite p [op.byte, 0, 0, 0]) (p.code.length + 1) label

/-- `emit_op_i16`. -/
def emitOpI16 (p : VmProg) (op : VmOp) (a : Int16) : VmProg :=
  progWrite p ([op.byte, 0] ++ i16Bytes a)

/-- `emit_op_label_i16`. -/
def emitOpLabelI16 (p : VmProg) (op : VmOp) (label : Nat) (b : Int16) : VmProg :=
  addFixup (progWrite p ([op.byte, 0, 0, 0] ++ i16Bytes b)) (p.code.length + 1) label

def emitOpU8Label (p : VmProg) (op : VmOp) (a : UInt8) (label : Nat) : VmProg :=
  addFixup (progWrite p [op.byte, 0, a, 0, 0, 0]) (p.code.length + 3) label

/-- `emit_op_set_label`. -/
def emitOpSetLabel (p : VmProg) (op : VmOp) (set : VmCharset) (label : Nat) :
    Except String VmProg := do
  let (i, p) ← addSet p set
  return emitOpU8Label p op i label

/-- `emit_op_set`. -/
def emitOpSet (p : VmProg) (op : VmOp) (set : VmCharset) : Except String VmProg := do
  let (i, p) ← addSet p set
  return emitOpU8 p op i

/-- `emit_op_u24`. -/
def emitOpU24 (p : VmProg) (op : VmOp) (a : Nat) : VmProg :=
  progWrite p (op.byte :: u24Bytes a)

/-- `emit_op_i16_i16`. -/
def emitOpI16I16 (p : VmProg) (op : VmOp) (a b : Int16) : VmProg :=
  progWrite p ([op.byte, 0] ++ i16Bytes a ++ i16Bytes b)

/-- `emit_op_u8_i16`. -/
def emitOpU8I16 (p : VmProg) (op : VmOp) (b : UInt8) (a : Int16) : VmProg :=
  progWrite p ([op.byte, b] ++ i16Bytes a)

/-- A call of one of the `vm_emit_*` functions, with operands of the types of
its parameters. -/
abbrev Emit := Insn Nat UInt8 Int16 String Unit

/-- The `vm_emit_*` functions. A `CheckEnd` takes the next checker index; there
is no function that emits a `Nop`. -/
def vmEmit (p : VmProg) : Emit → Except String VmProg
  | .char a => .ok (emitOpU8 p .char a)
  | .jump l => .ok (emitOpLabel p .jump l)
  | .choice l => .ok (emitOpLabel p .choice l)
  | .call l => .ok (emitOpLabel p .call l)
  | .commit l => .ok (emitOpLabel p .commit l)
  | .ret => .ok (emit1 p .ret)
  | .fail => .ok (emit1 p .fail)
  | .set s => emitOpSet p .set s
  | .any n => .ok (emitOpU8 p .any n)
  | .partialCommit l => .ok (emitOpLabel p .partialCommit l)
  | .span s => emitOpSet p .span s
  | .backCommit l => .ok (emitOpLabel p .backCommit l)
  | .failTwice => .ok (emit1 p .failTwice)
  | .empty op => .ok (emitOpU8 p .empty op)
  | .testChar c l => .ok (emitOpU8Label p .testChar c l)
  | .testCharNoChoice c l => .ok (emitOpU8Label p .testCharNoChoice c l)
  | .testSet s l => emitOpSetLabel p .testSet s l
  | .testSetNoChoice s l => emitOpSetLabel p .testSetNoChoice s l
  | .testAny n l => .ok (emitOpU8Label p .testAny n l)
  | .endOp fail => .ok (emitOpU8 p .endOp (if fail ≠ 0 then 1 else 0))
  | .nop => .ok p
  | .captureBegin id => .ok (emitOpI16 p .captureBegin id)
  | .captureLate back id => .ok (emitOpU8I16 p .captureLate back id)
  | .captureEnd => .ok (emit1 p .captureEnd)
  | .captureFull back id => .ok (emitOpU8I16 p .captureFull back id)
  | .checkBegin id flag => .ok (emitOpI16I16 p .checkBegin id flag)
  | .checkEnd _ =>
      .ok (emitOpU24 { p with ncheckers := p.ncheckers + 1 } .checkEnd p.ncheckers)
  | .memoOpen l id => .ok (emitOpLabelI16 p .memoOpen l id)
  | .memoClose => .ok (emit1 p .memoClose)
  | .memoTreeOpen l id => .ok (emitOpLabelI16 p .memoTreeOpen l id)
  | .memoTreeInsert => .ok (emit1 p .memoTreeInsert)
  | .memoTree => .ok (emit1 p .memoTree)
  | .memoTreeClose id => .ok (emitOpI16 p .memoTreeClose id)
  | .error msg =>
      .ok (emitOpU24 (addError p msg).2 .error (addError p msg).1)

/-- A call of the builder. -/
inductive Call where
  | emit (e : Emit)
  | label
  | mark (label : Nat)

def runCall (p : VmProg) : Call → Except String VmProg
  | .emit e => vmEmit p e
  | .label => .ok (vmProgLabel p).2
  | .mark l => .ok (vmProgMark p l)

def runCalls : List Call → VmProg → Except String VmProg
  | [], p => .ok p
  | c :: cs, p => runCall p c >>= runCalls cs

/-- A checker together with its user data. It receives the matched bytes, the
subject and the id and flag of its `CheckBegin`; the first argument is the
number of checker calls made before, so that a checker with state of its own is
covered. -/
abbrev VmChecker := Nat → List UInt8 → List UInt8 → Int → Int → Int

/-- The compiled program, `struct vm_code`. -/
structure VmCode where
  insns : List UInt8
  sets : List VmCharset
  errors : List String
  prog : List VmInsn
  checkers : List (Option VmChecker)

/-- `decode_u24`. -/
def decodeU24 (w : List UInt8) : Nat :=
  ((w.getD 0 0).toNat <<< 16) ||| (w.getD 1 0).toNat ||| ((w.getD 2 0).toNat <<< 8)

/-- `decode_i16`. -/
def decodeI16 (w : List UInt8) : Int :=
  (BitVec.ofNat 16 ((w.getD 0 0).toNat ||| ((w.getD 1 0).toNat <<< 8))).toInt

/-- The operands of the instruction encoded at the start of `w`; jump targets
are still byte offsets. -/
def decodeInsn (sets : List VmCharset) (w : List UInt8) : VmOp → VmInsn
  | .char => .char (w.getD 1 0).toNat
  | .any => .any (w.getD 1 0).toNat
  | .empty => .empty (w.getD 1 0).toNat
  | .endOp => .endOp (w.getD 1 0).toNat
  | .jump => .jump (decodeU24 (w.drop 1))
  | .choice => .choice (decodeU24 (w.drop 1))
  | .call => .call (decodeU24 (w.drop 1))
  | .commit => .commit (decodeU24 (w.drop 1))
  | .partialCommit => .partialCommit (decodeU24 (w.drop 1))
  | .backCommit => .backCommit (decodeU24 (w.drop 1))
  | .error => .error (decodeU24 (w.drop 1))
  | .checkEnd => .checkEnd (decodeU24 (w.drop 1))
  | .set => .set (sets.getD (w.getD 1 0).toNat .none)
  | .span => .span (sets.getD (w.getD 1 0).toNat .none)
  | .testChar => .testChar (w.getD 2 0).toNat (decodeU24 (w.drop 3))
  | .testCharNoChoice => .testCharNoChoice (w.getD 2 0).toNat (decodeU24 (w.drop 3))
  | .testAny => .testAny (w.getD 2 0).toNat (decodeU24 (w.drop 3))
  | .testSet => .testSet (sets.getD (w.getD 2 0).toNat .none) (decodeU24 (w.drop 3))
  | .testSetNoChoice =>
      .testSetNoChoice (sets.getD (w.getD 2 0).toNat .none) (decodeU24 (w.drop 3))
  | .captureBegin => .captureBegin (decodeI16 (w.drop 2))
  | .memoTreeClose => .memoTreeClose (decodeI16 (w.drop 2))
  | .captureLate => .captureLate (w.getD 1 0).toNat (decodeI16 (w.drop 2))
  | .captureFull => .captureFull (w.getD 1 0).toNat (decodeI16 (w.drop 2))
  | .checkBegin => .checkBegin (decodeI16 (w.drop 2)) (decodeI16 (w.drop 4))
  | .memoOpen => .memoOpen (decodeU24 (w.drop 1)) (decodeI16 (w.drop 4))
  | .memoTreeOpen => .memoTreeOpen (decodeU24 (w.drop 1)) (decodeI16 (w.drop 4))
  | .ret => .ret
  | .fail => .fail
  | .failTwice => .failTwice
  | .nop => .nop
  | .captureEnd => .captureEnd
  | .memoClose => .memoClose
  | .memoTreeInsert => .memoTreeInsert
  | .memoTree => .memoTree

/-- First pass of `vm_predecode`: the instructions with the byte offsets they
start at. The fuel is the number of bytes left. -/
def predecodePass (sets : List VmCharset) : Nat → Nat → List UInt8 → List (Nat × VmInsn)
  | 0, _, _ => []
  | _ + 1, _, [] => []
  | fuel + 1, ip, b :: w =>
      match VmOp.ofByte b with
      | none => []
      | some op =>
          (ip, decodeInsn sets (b :: w) op) ::
            predecodePass sets fuel (ip + opSizes op) ((b :: w).drop (opSizes op))

/-- `vm_predecode`: the second pass turns the byte offset of a jump target into
an instruction index. -/
def vmPredecode (sets : List VmCharset) (insns : List UInt8) : List VmInsn :=
  let pass := predecodePass sets insns.length 0 insns
  pass.map fun i => i.2.map (fun off => (pass.map Prod.fst).idxOf off) id id id id

def patchU24 (code : List UInt8) (at_ off : Nat) : List UInt8 :=
  ((code.set at_ (UInt8.ofNat ((off >>> 16) &&& 0xff))).set (at_ + 1)
    (UInt8.ofNat (off &&& 0xff))).set (at_ + 2) (UInt8.ofNat ((off >>> 8) &&& 0xff))

def patchFixups (labels : List Nat) : List (Nat × Nat) → List UInt8 → Except String (List UInt8)
  | [], code => .ok code
  | (at_, l) :: fs, code =>
      if labels.getD l 0 > 0xffffff then
        .error "program too large: jump target exceeds 24 bits"
      else patchFixups labels fs (patchU24 code at_ (labels.getD l 0))

/-- `vm_prog_finish`: append the terminating `End`, resolve the labels and
pre-decode. -/
def vmProgFinish (p : VmProg) : Except String VmCode := do
  let p := emitOpU8 p .endOp 0
  let insns ← patchFixups p.labels p.fixups p.code
  return {
    insns := insns
    sets := p.sets
    errors := p.errors
    prog := vmPredecode p.sets insns
    checkers := [] }

/-- `vm_code_add_checker`. -/
def vmCodeAddChecker (c : VmCode) (fn : Option VmChecker) : VmCode :=
  { c with checkers := c.checkers ++ [fn] }

end Libpeg.Code
