import Libpeg.Pattern

namespace Libpeg.Compile

open Libpeg.Charset Libpeg.Opcode Libpeg.Code Libpeg.Pattern

/-- The operands of an instruction of the list; a `CheckEnd` holds its
checker. -/
abbrev PirInsn := Insn Nat Int Int String (Option VmChecker)

/-- `pir_insn`. -/
inductive Pir where
  | label (l : Nat)
  | openCall (name : String)
  | insn (i : PirInsn)

/-- `pctx`, with the global counter of memo ids. -/
structure Pctx where
  nlabels : Nat
  memoCounter : Int
  err : Option String

/-- `pctx_label`. -/
def pctxLabel (ctx : Pctx) : Nat × Pctx :=
  (ctx.nlabels, { ctx with nlabels := ctx.nlabels + 1 })

/-- `set_err`: only the first error is kept. -/
def setErr (ctx : Pctx) (name : String) : Pctx :=
  { ctx with err := ctx.err.orElse fun _ => some name }

/-- Labels and `Nop`s are not instructions. -/
def isReal : Pir → Bool
  | .label _ | .insn .nop => false
  | _ => true

/-- `next_insn_idx`: the next instruction of a list. -/
def nextInsn (code : List Pir) : Option Pir :=
  code.find? isReal

def isLabel : Pir → Bool
  | .label _ => true
  | _ => false

/-- `next_insn_label_idx`: whether a label precedes the next instruction. -/
def hadLabel (code : List Pir) : Bool :=
  (code.takeWhile fun i => !isReal i).any isLabel

/-- Replace the next instruction by a `Nop`. -/
def nopNext : List Pir → List Pir
  | [] => []
  | i :: rest => if isReal i then .insn .nop :: rest else i :: nopNext rest

/-- The loop that resolves open calls, for the labels of the definitions. A call
in tail position becomes a jump. The loop stops at a name without label. -/
def resolveCalls (labelOf : String → Option Nat) : List Pir → List Pir × Option String
  | [] => ([], none)
  | .openCall name :: rest =>
      match labelOf name with
      | none => (.openCall name :: rest, some name)
      | some l =>
          let (rest', err) := resolveCalls labelOf rest
          match nextInsn rest with
          | some (.insn .ret) =>
              (.insn (.jump l) :: (if hadLabel rest then rest' else nopNext rest'), err)
          | _ => (.insn (.call l) :: rest', err)
  | i :: rest =>
      let (rest', err) := resolveCalls labelOf rest
      (i :: rest', err)

/-- The instruction that tests for the head of the left branch, when the right
branch starts with a matcher that excludes it. -/
def disjointTest (l1 : Nat) : Option Pir → Option Pir → Option PirInsn
  | some (.insn (.set s)), some (.insn (.char c)) =>
      if s.has (UInt8.ofInt c) then none else some (.testSetNoChoice s l1)
  | some (.insn (.char b)), some (.insn (.char c)) =>
      if b = c then none else some (.testCharNoChoice b l1)
  | some (.insn (.char b)), some (.insn (.set s)) =>
      if s.has (UInt8.ofInt b) then none else some (.testCharNoChoice b l1)
  | _, _ => none

def altCode (l1 l2 : Nat) (l r : List Pir) : List Pir :=
  match disjointTest l1 (nextInsn l) (nextInsn r) with
  | some test =>
      [.insn test] ++ l.drop 1 ++ [.insn (.jump l2), .label l1] ++ r ++ [.label l2]
  | none =>
      [.insn (.choice l1)] ++ l ++ [.insn (.commit l2), .label l1] ++ r ++ [.label l2]

def starCode (l1 l2 : Nat) (sub : List Pir) : List Pir :=
  [.insn (.choice l2), .label l1] ++ sub ++ [.insn (.partialCommit l1), .label l2]

/-- The code of the repetition of a memoized pattern. -/
def memoTreeCode (l1 l2 l3 nojump : Nat) (id : Int) (sub : List Pir) : List Pir :=
  [.label l1, .insn (.memoTreeOpen l3 id), .insn (.choice l2)] ++ sub ++
    [.insn (.commit nojump), .label nojump, .insn .memoTreeInsert, .label l3,
      .insn .memoTree, .insn (.jump l1), .label l2, .insn (.memoTreeClose id)]

/-- The number of bytes that a constant-width matcher consumes. -/
def matchWidth : Pir → Option Int
  | .insn (.char _) | .insn (.set _) => some 1
  | .insn (.any n) => some n
  | _ => none

/-- The code of a capture: the capture is opened after the leading run of
constant-width matchers. -/
def capCode (id : Int) (sub : List Pir) : List Pir :=
  let run := sub.takeWhile fun i => (matchWidth i).isSome
  let rest := sub.dropWhile fun i => (matchWidth i).isSome
  let back := (run.filterMap matchWidth).sum
  if run = [] ∨ back ≥ 256 then
    [.insn (.captureBegin id)] ++ sub ++ [.insn .captureEnd]
  else if rest = [] then sub ++ [.insn (.captureFull back id)]
  else run ++ [.insn (.captureLate back id)] ++ rest ++ [.insn .captureEnd]

/-- The set a search skips before it tries its pattern again. -/
def searchSkip (sub : List Pir) : Option VmCharset :=
  match nextInsn sub with
  | some (.insn (.char b)) => some (VmCharset.fill [UInt8.ofInt b]).negate
  | some (.insn (.set s)) => if s.count < 10 then some s.negate else none
  | _ => none

/-- `S <- sp / . rsearch`, where `rsearch` skips the set if there is one. -/
def searchDefs (sp : Pat) (skip : Option VmCharset) : Defs :=
  let rsearch :=
    match skip with
    | some set => .seq (.star (.cls set)) (.nonterm "S")
    | none => .nonterm "S"
  .cons "S" (.alt sp (.seq (.dot 1) rsearch)) .nil

mutual

/-- `compile_pat`. The first argument bounds the recursion; `none` when it does
not suffice. -/
def compilePat : Nat → Pctx → Pat → Option (List Pir × Pctx)
  | 0, _, _ => none
  | fuel + 1, ctx, .alt l r => do
      let lp ← getPat fuel l
      let rp ← getPat fuel r
      match combine lp rp with
      | some set => return ([.insn (.set set)], ctx)
      | none =>
          let (l, ctx) ← compilePat fuel ctx lp
          let (r, ctx) ← compilePat fuel ctx rp
          let (l1, ctx) := pctxLabel ctx
          let (l2, ctx) := pctxLabel ctx
          return (altCode l1 l2 l r, ctx)
  | fuel + 1, ctx, .seq l r => do
      let lp ← getPat fuel l
      let (l, ctx) ← compilePat fuel ctx lp
      let rp ← getPat fuel r
      let (r, ctx) ← compilePat fuel ctx rp
      return (l ++ r, ctx)
  | fuel + 1, ctx, .star p => do
      let sp ← getPat fuel p
      match sp with
      | .cls set => return ([.insn (.span set)], ctx)
      | .memo body _ =>
          let bp ← getPat fuel body
          let (sub, ctx) ← compilePat fuel ctx bp
          let (l1, ctx) := pctxLabel ctx
          let (l2, ctx) := pctxLabel ctx
          let (l3, ctx) := pctxLabel ctx
          let (nojump, ctx) := pctxLabel ctx
          let id := ctx.memoCounter
          return (memoTreeCode l1 l2 l3 nojump id sub,
            { ctx with memoCounter := ctx.memoCounter + 1 })
      | sp =>
          let (sub, ctx) ← compilePat fuel ctx sp
          let (l1, ctx) := pctxLabel ctx
          let (l2, ctx) := pctxLabel ctx
          return (starCode l1 l2 sub, ctx)
  | fuel + 1, ctx, .plus p => do
      let sp ← getPat fuel p
      let (star, ctx) ← compilePat fuel ctx (.star sp)
      let (sub, ctx) ← compilePat fuel ctx sp
      return (sub ++ star, ctx)
  | fuel + 1, ctx, .optional p => do
      let sp ← getPat fuel p
      match sp with
      | .literal [b] =>
          let (l1, ctx) := pctxLabel ctx
          return ([.insn (.testCharNoChoice b.toNat l1), .label l1], ctx)
      | .cls set =>
          let (l1, ctx) := pctxLabel ctx
          return ([.insn (.testSetNoChoice set l1), .label l1], ctx)
      | sp => compilePat fuel ctx (.alt sp .empty)
  | fuel + 1, ctx, .not p => do
      let sp ← getPat fuel p
      let (sub, ctx) ← compilePat fuel ctx sp
      let (l1, ctx) := pctxLabel ctx
      return ([.insn (.choice l1)] ++ sub ++ [.insn .failTwice, .label l1], ctx)
  | fuel + 1, ctx, .and p => do
      let sp ← getPat fuel p
      let (sub, ctx) ← compilePat fuel ctx sp
      let (l1, ctx) := pctxLabel ctx
      let (l2, ctx) := pctxLabel ctx
      return ([.insn (.choice l1)] ++ sub ++
        [.insn (.backCommit l2), .label l1, .insn .fail, .label l2], ctx)
  | fuel + 1, ctx, .cap p id => do
      let sp ← getPat fuel p
      let (sub, ctx) ← compilePat fuel ctx sp
      return (capCode id sub, ctx)
  | fuel + 1, ctx, .memo p id => do
      let (l1, ctx) := pctxLabel ctx
      let sp ← getPat fuel p
      let (sub, ctx) ← compilePat fuel ctx sp
      return ([.insn (.memoOpen l1 id)] ++ sub ++ [.insn .memoClose, .label l1], ctx)
  | fuel + 1, ctx, .check p fn id flag => do
      let (l1, ctx) := pctxLabel ctx
      let sp ← getPat fuel p
      let (sub, ctx) ← compilePat fuel ctx sp
      return ([.insn (.checkBegin id flag)] ++ sub ++ [.insn (.checkEnd fn), .label l1], ctx)
  | fuel + 1, ctx, .search p => do
      let sp ← getPat fuel p
      let (sub, ctx) ← compilePat fuel ctx sp
      compileGrammar fuel ctx "S" (searchDefs sp (searchSkip sub))
  | fuel + 1, ctx, .grammar start defs => compileGrammar fuel ctx start defs
  | _ + 1, ctx, .cls set => some ([.insn (.set set)], ctx)
  | _ + 1, ctx, .literal str => some (str.map fun b => .insn (.char b.toNat), ctx)
  | _ + 1, ctx, .nonterm name => some ([.openCall name], ctx)
  | fuel + 1, ctx, .inlined _ p => compilePat fuel ctx p
  | _ + 1, ctx, .dot n => some ([.insn (.any n.toNat)], ctx)
  | _ + 1, ctx, .error msg => some ([.insn (.error msg), .insn (.endOp 1)], ctx)
  | fuel + 1, ctx, .errorRecover msg p => do
      let (rec, ctx) ← compilePat fuel ctx p
      return ([.insn (.error msg)] ++ rec, ctx)
  | _ + 1, ctx, .emptyop op => some ([.insn (.empty op.toNat)], ctx)
  | _ + 1, ctx, .empty => some ([], ctx)
  | fuel + 1, ctx, .repeated p n => compileRepeat fuel ctx p n

/-- The loop over the copies of a repeated pattern. -/
def compileRepeat : Nat → Pctx → Pat → Nat → Option (List Pir × Pctx)
  | 0, _, _, _ => none
  | _ + 1, ctx, _, 0 => some ([], ctx)
  | fuel + 1, ctx, p, n + 1 => do
      let (sub, ctx) ← compilePat fuel ctx p
      let (rest, ctx) ← compileRepeat fuel ctx p n
      return (sub ++ rest, ctx)

/-- `compile_grammar`. -/
def compileGrammar : Nat → Pctx → String → Defs → Option (List Pir × Pctx)
  | 0, _, _, _ => none
  | fuel + 1, ctx, start, defs => do
      let defs ← grammarInline fuel defs
      let used := (unresolvedDefs defs).filterMap (findDef defs)
      match findDef defs start with
      | none => return ([], setErr ctx start)
      | some startidx =>
          if unresolvedDefs defs = [] then compilePat fuel ctx ((defAt defs startidx).getD .empty)
          else
            let (lend, ctx) := pctxLabel ctx
            let (fns, labels, ctx) ←
              compileDefs fuel ctx (fun i => i = startidx || used.contains i) 0 defs
            let code := [.openCall start, .insn (.jump lend)] ++ fns
            let labelOf := fun name => (findDef defs name).bind fun i => labels.getD i none
            let (code, err) := resolveCalls labelOf code
            match err with
            | some name => return (code, setErr ctx name)
            | none => return (code ++ [.label lend], ctx)

/-- The loop over the definitions that are compiled: their code, and for each
definition its label. -/
def compileDefs : Nat → Pctx → (Nat → Bool) → Nat → Defs →
    Option (List Pir × List (Option Nat) × Pctx)
  | 0, _, _, _, _ => none
  | _ + 1, ctx, _, _, .nil => some ([], [], ctx)
  | fuel + 1, ctx, keep, i, .cons _ p rest =>
      if keep i then do
        let (l, ctx) := pctxLabel ctx
        let (fn, ctx) ← compilePat fuel ctx p
        let (code, labels, ctx) ← compileDefs fuel ctx keep (i + 1) rest
        return ([.label l] ++ fn ++ [.insn .ret] ++ code, some l :: labels, ctx)
      else do
        let (code, labels, ctx) ← compileDefs fuel ctx keep (i + 1) rest
        return (code, none :: labels, ctx)

end

def marks (l : Nat) : Pir → Bool
  | .label l' => l' == l
  | _ => false

/-- The index of the entry of a label; the last one if there are several. -/
def labelIdx (code : List Pir) (l : Nat) : Nat :=
  ((List.range code.length).reverse.find? fun i => code[i]?.any (marks l)).getD 0

/-- Head-fail: a `Choice` before a matcher becomes a test. -/
def headFail : Pir → Pir → Option PirInsn
  | .insn (.choice l), .insn (.char b) => some (.testChar b l)
  | .insn (.choice l), .insn (.set s) => some (.testSet s l)
  | .insn (.choice l), .insn (.any n) => some (.testAny n l)
  | _, _ => none

/-- The instructions that may stand for a jump to them. -/
def replacesJump : Pir → Bool
  | .insn (.partialCommit _) | .insn (.backCommit _) | .insn (.commit _) | .insn (.jump _)
  | .insn .ret | .insn .fail | .insn .failTwice | .insn (.endOp _) => true
  | _ => false

def optimizeHead (code : List Pir) (i : Nat) : List Pir :=
  match code[i]?, code[i + 1]? with
  | some c, some d =>
      match headFail c d with
      | some test => (code.set i (.insn test)).set (i + 1) (.insn .nop)
      | none => code
  | _, _ => code

/-- The body of the jump replacement half of the loop. -/
def optimizeJump (labidx : Nat → Nat) (code : List Pir) (i : Nat) : List Pir :=
  match code[i]? with
  | some (.insn (.jump l)) =>
      match nextInsn (code.drop (labidx l)) with
      | some target => if replacesJump target then code.set i target else code
      | none => code
  | _ => code

/-- `pat_optimize`. -/
def patOptimize (code : List Pir) : List Pir :=
  let labidx := labelIdx code
  (List.range code.length).foldl
    (fun code i => optimizeJump labidx (optimizeHead code i) i) code

/-- `struct encoder`: the builder calls made, the labels of the list in the
order in which builder labels were created for them, and the checkers. -/
structure Encoder where
  calls : List Call
  map : List Nat
  checkers : List (Option VmChecker)

/-- `enc_label`: the builder label of a label, created when it is new. -/
def encLabel (e : Encoder) (l : Nat) : Nat × Encoder :=
  if e.map.idxOf l < e.map.length then (e.map.idxOf l, e)
  else (e.map.length, { e with calls := e.calls ++ [.label], map := e.map ++ [l] })

/-- Create the builder label of the operand of an instruction. -/
def encTarget (e : Encoder) (i : PirInsn) : Encoder :=
  match i.target with
  | some l => (encLabel e l).2
  | none => e

/-- The builder call of an instruction, with its operands cut to size. -/
def encInsn (map : List Nat) : PirInsn → Emit
  | .endOp a => .endOp (if a ≠ 0 then 1 else 0)
  | i => i.map (fun l => map.idxOf l) UInt8.ofInt Int16.ofInt id fun _ => ()

/-- The checker of a `CheckEnd`. -/
def checkerOf : PirInsn → List (Option VmChecker)
  | .checkEnd fn => [fn]
  | _ => []

/-- `enc`; a `Nop` is never encoded, and no open call is left here. -/
def enc (e : Encoder) : Pir → Encoder
  | .label l =>
      let (l, e) := encLabel e l
      { e with calls := e.calls ++ [.mark l] }
  | .openCall _ => e
  | .insn .nop => e
  | .insn i =>
      let e := encTarget e i
      { e with calls := e.calls ++ [.emit (encInsn e.map i)]
               checkers := e.checkers ++ checkerOf i }

def firstOpenCall (code : List Pir) : Option String :=
  code.findSome? fun i =>
    match i with
    | .openCall name => some name
    | _ => none

/-- Why there is no program: `NULL` with a name without definition in `*err`, or the message
that the builder aborts with. -/
inductive CompileError where
  | undefined (name : String)
  | aborted (msg : String)
  deriving DecidableEq

/-- The result of the program builder on the calls of an encoder. -/
def build (e : Encoder) : Except CompileError VmCode :=
  let built : Except String VmCode := do
    let b ← runCalls e.calls vmProgNew
    let out ← vmProgFinish b
    return e.checkers.foldl vmCodeAddChecker out
  built.mapError .aborted

/-- `pat_compile` with the counter of memo ids. -/
def patCompile (fuel : Nat) (memoCounter : Int) (p : Pat) :
    Option (Except CompileError VmCode) := do
  let (code, ctx) ← compilePat fuel ⟨0, memoCounter, none⟩ p
  match ctx.err.orElse fun _ => firstOpenCall code with
  | some name => return .error (.undefined name)
  | none => return build ((patOptimize code).foldl enc ⟨[], [], []⟩)

end Libpeg.Compile
