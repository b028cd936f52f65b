import Libpeg.Charset

namespace Libpeg.Opcode

open Libpeg.Charset

/-- The opcodes of the parsing machine, in the order of `enum vm_op`. -/
inductive VmOp where
  | char | jump | choice | call | commit | ret | fail | set | any
  | partialCommit | span | backCommit | failTwice | empty
  | testChar | testCharNoChoice | testSet | testSetNoChoice | testAny
  | endOp | nop
  | captureBegin | captureLate | captureEnd | captureFull
  | checkBegin | checkEnd
  | memoOpen | memoClose | memoTreeOpen | memoTreeInsert | memoTree
  | memoTreeClose | error
  deriving DecidableEq, Repr

/-- The opcodes as a table indexed by their numbers. -/
def vmOps : List VmOp :=
  [.char, .jump, .choice, .call, .commit, .ret, .fail, .set, .any,
    .partialCommit, .span, .backCommit, .failTwice, .empty,
    .testChar, .testCharNoChoice, .testSet, .testSetNoChoice, .testAny,
    .endOp, .nop,
    .captureBegin, .captureLate, .captureEnd, .captureFull,
    .checkBegin, .checkEnd,
    .memoOpen, .memoClose, .memoTreeOpen, .memoTreeInsert, .memoTree,
    .memoTreeClose, .error]

def VmOp.byte : VmOp → UInt8
  | .char => 0 | .jump => 1 | .choice => 2 | .call => 3 | .commit => 4
  | .ret => 5 | .fail => 6 | .set => 7 | .any => 8 | .partialCommit => 9
  | .span => 10 | .backCommit => 11 | .failTwice => 12 | .empty => 13
  | .testChar => 14 | .testCharNoChoice => 15 | .testSet => 16
  | .testSetNoChoice => 17 | .testAny => 18 | .endOp => 19 | .nop => 20
  | .captureBegin => 21 | .captureLate => 22 | .captureEnd => 23
  | .captureFull => 24 | .checkBegin => 25 | .checkEnd => 26
  | .memoOpen => 27 | .memoClose => 28 | .memoTreeOpen => 29
  | .memoTreeInsert => 30 | .memoTree => 31 | .memoTreeClose => 32
  | .error => 33

def VmOp.ofByte (b : UInt8) : Option VmOp :=
  vmOps[b.toNat]?

@[simp] theorem ofByte_byte (op : VmOp) : VmOp.ofByte op.byte = some op := by
  cases op <;> rfl

/-- Encoded size of each opcode in bytes, padding included: `op_sizes`. -/
def opSizes : VmOp → Nat
  | .char | .ret | .fail | .set | .any | .span | .failTwice | .empty | .endOp
  | .nop | .captureEnd | .memoClose | .memoTreeInsert | .memoTree => 2
  | .jump | .choice | .call | .commit | .partialCommit | .backCommit
  | .captureBegin | .captureLate | .captureFull | .checkEnd
  | .memoTreeClose | .error => 4
  | .testChar | .testCharNoChoice | .testSet | .testSetNoChoice | .testAny
  | .checkBegin | .memoOpen | .memoTreeOpen => 6

theorem opSizes_pos (op : VmOp) : 2 ≤ opSizes op := by
  cases op <;> decide

/-- One instruction with its operands. The parameters are the type of jump
targets `L`, of 8-bit operands `B`, of 16-bit operands `I`, of the operand of
`Error` and of the operand of `CheckEnd`: the instruction list of the compiler,
the calls of the program builder and the pre-decoded program are three
instances. -/
inductive Insn (L B I E K : Type) where
  | char (a : B)
  | jump (a : L)
  | choice (a : L)
  | call (a : L)
  | commit (a : L)
  | ret
  | fail
  | set (set : VmCharset)
  | any (a : B)
  | partialCommit (a : L)
  | span (set : VmCharset)
  | backCommit (a : L)
  | failTwice
  | empty (a : B)
  | testChar (b : B) (a : L)
  | testCharNoChoice (b : B) (a : L)
  | testSet (set : VmCharset) (a : L)
  | testSetNoChoice (set : VmCharset) (a : L)
  | testAny (b : B) (a : L)
  | endOp (a : B)
  | nop
  | captureBegin (a : I)
  | captureLate (b : B) (a : I)
  | captureEnd
  | captureFull (b : B) (a : I)
  | checkBegin (a b : I)
  | checkEnd (a : K)
  | memoOpen (a : L) (b : I)
  | memoClose
  | memoTreeOpen (a : L) (b : I)
  | memoTreeInsert
  | memoTree
  | memoTreeClose (a : I)
  | error (a : E)
  deriving DecidableEq

section Map

variable {L B I E K L' B' I' E' K' : Type}

def Insn.map (fL : L → L') (fB : B → B') (fI : I → I') (fE : E → E')
    (fK : K → K') : Insn L B I E K → Insn L' B' I' E' K'
  | .char a => .char (fB a)
  | .jump a => .jump (fL a)
  | .choice a => .choice (fL a)
  | .call a => .call (fL a)
  | .commit a => .commit (fL a)
  | .ret => .ret
  | .fail => .fail
  | .set s => .set s
  | .any a => .any (fB a)
  | .partialCommit a => .partialCommit (fL a)
  | .span s => .span s
  | .backCommit a => .backCommit (fL a)
  | .failTwice => .failTwice
  | .empty a => .empty (fB a)
  | .testChar b a => .testChar (fB b) (fL a)
  | .testCharNoChoice b a => .testCharNoChoice (fB b) (fL a)
  | .testSet s a => .testSet s (fL a)
  | .testSetNoChoice s a => .testSetNoChoice s (fL a)
  | .testAny b a => .testAny (fB b) (fL a)
  | .endOp a => .endOp (fB a)
  | .nop => .nop
  | .captureBegin a => .captureBegin (fI a)
  | .captureLate b a => .captureLate (fB b) (fI a)
  | .captureEnd => .captureEnd
  | .captureFull b a => .captureFull (fB b) (fI a)
  | .checkBegin a b => .checkBegin (fI a) (fI b)
  | .checkEnd a => .checkEnd (fK a)
  | .memoOpen a b => .memoOpen (fL a) (fI b)
  | .memoClose => .memoClose
  | .memoTreeOpen a b => .memoTreeOpen (fL a) (fI b)
  | .memoTreeInsert => .memoTreeInsert
  | .memoTree => .memoTree
  | .memoTreeClose a => .memoTreeClose (fI a)
  | .error a => .error (fE a)

def Insn.op : Insn L B I E K → VmOp
  | .char _ => .char
  | .jump _ => .jump
  | .choice _ => .choice
  | .call _ => .call
  | .commit _ => .commit
  | .ret => .ret
  | .fail => .fail
  | .set _ => .set
  | .any _ => .any
  | .partialCommit _ => .partialCommit
  | .span _ => .span
  | .backCommit _ => .backCommit
  | .failTwice => .failTwice
  | .empty _ => .empty
  | .testChar _ _ => .testChar
  | .testCharNoChoice _ _ => .testCharNoChoice
  | .testSet _ _ => .testSet
  | .testSetNoChoice _ _ => .testSetNoChoice
  | .testAny _ _ => .testAny
  | .endOp _ => .endOp
  | .nop => .nop
  | .captureBegin _ => .captureBegin
  | .captureLate _ _ => .captureLate
  | .captureEnd => .captureEnd
  | .captureFull _ _ => .captureFull
  | .checkBegin _ _ => .checkBegin
  | .checkEnd _ => .checkEnd
  | .memoOpen _ _ => .memoOpen
  | .memoClose => .memoClose
  | .memoTreeOpen _ _ => .memoTreeOpen
  | .memoTreeInsert => .memoTreeInsert
  | .memoTree => .memoTree
  | .memoTreeClose _ => .memoTreeClose
  | .error _ => .error

/-- The jump target of an instruction that has one. -/
def Insn.target : Insn L B I E K → Option L
  | .jump a | .choice a | .call a | .commit a | .partialCommit a
  | .backCommit a | .testChar _ a | .testCharNoChoice _ a | .testSet _ a
  | .testSetNoChoice _ a | .testAny _ a | .memoOpen a _
  | .memoTreeOpen a _ => some a
  | _ => none

end Map

/-- A pre-decoded instruction: jump targets are instruction indices, `Error`
and `CheckEnd` carry indices into the tables of the program. -/
abbrev VmInsn := Insn Nat Int Int Nat Nat

end Libpeg.Opcode
