import Libpeg.Code
import Libpeg.Memo
import Libpeg.Input

namespace Libpeg.Vm

open Libpeg.Charset Libpeg.Opcode Libpeg.Code Libpeg.Memo Libpeg.Input

/-- The type of a stack entry with the fields it uses. -/
inductive StEntry where
  | ret (ip : Nat)
  | btrack (ip off : Nat)
  | memo (id : Int) (pos : Nat)
  | memoTree (id : Int) (pos : Nat) (count : Int)
  | capt (id pos : Int)
  | check (id : Int) (pos : Nat) (flag : Int)
  deriving DecidableEq

/-- `stack_entry`: every entry can hold captures. -/
structure StackEntry where
  entry : StEntry
  capt : List Nat
  deriving DecidableEq

/-- What the machine works on. The top of the stack is the head of the list;
`capt` is the list below every entry. `nchecks` counts the checker calls made,
so that a checker may answer differently from one call to the next. -/
structure VmState where
  ip : Nat
  src : VmInput
  stack : List StackEntry
  capt : List Nat
  mem : Mem
  tbl : Option MemoTable
  errs : List (Nat × String)
  capLow : Int
  capHigh : Int
  nchecks : Nat

/-- The arguments of `vm_exec` that do not change during a run. -/
structure VmArgs where
  code : VmCode
  input : List UInt8
  windowLow : Int
  windowHigh : Int

def VmArgs.windowed (a : VmArgs) : Bool :=
  a.windowLow ≥ 0

/-- What one instruction leads to. -/
inductive VmNext where
  | running (s : VmState)
  | done (s : VmState) (success : Bool)
  | failed (s : VmState)
  | aborted (msg : String)

/-- `is_word_byte`; `none` is no character. -/
def isWordByte : Option UInt8 → Bool
  | none => false
  | some r => (97 ≤ r && r ≤ 122) || (65 ≤ r && r ≤ 90) || (48 ≤ r && r ≤ 57) || r == 95

/-- `empty_op_context`. -/
def emptyOpContext (r1 r2 : Option UInt8) : Nat :=
  let left := if isWordByte r1 then 0 else if r1 = some 10 then 1 else if r1 = none then 5 else 0
  let right := if isWordByte r2 then 0 else if r2 = some 10 then 2 else if r2 = none then 10 else 0
  let op := 32 ||| left ||| right
  if isWordByte r1 != isWordByte r2 then op ^^^ 48 else op

/-- `overlaps`. -/
def overlaps (wl wh low2 high2 : Int) : Bool :=
  wl < high2 && wh > low2

/-- Take a reference for every capture of a list. -/
def refAll (m : Mem) (capt : List Nat) : Mem :=
  capt.foldl memoCaptureRef m

/-- Release the references of a list, as `entry_clear_capt` does. -/
def freeAll (m : Mem) (capt : List Nat) : Mem :=
  capt.foldl memoCaptureFree m

/-- Put captures at the end of the list of the top entry, or of the result list
when the stack is empty. -/
def appendCapt (s : VmState) (capt : List Nat) : VmState :=
  match s.stack with
  | [] => { s with capt := s.capt ++ capt }
  | e :: rest => { s with stack := { e with capt := e.capt ++ capt } :: rest }

/-- `stack_add_capt`: takes a reference per pointer. -/
def stackAddCapt (s : VmState) (capt : List Nat) : VmState :=
  appendCapt { s with mem := refAll s.mem capt } capt

/-- `stack_prop_capt`: the references move. -/
def stackPropCapt (s : VmState) : VmState :=
  match s.stack with
  | [] => s
  | e :: rest =>
      let t := appendCapt { s with stack := rest } e.capt
      { t with stack := { e with capt := [] } :: t.stack }

/-- `stack_pop` of a stack that is not empty. -/
def stackPop (s : VmState) (propagate : Bool) (e : StackEntry) (rest : List StackEntry) :
    VmState :=
  let s := { s with stack := rest }
  if propagate then stackAddCapt s e.capt else s

def popClear (s : VmState) (propagate : Bool) (e : StackEntry) (rest : List StackEntry) :
    VmState :=
  let s := stackPop s propagate e rest
  { s with mem := freeAll s.mem e.capt }

def push (s : VmState) (e : StEntry) : VmState :=
  { s with stack := ⟨e, []⟩ :: s.stack }

/-- `memoize`: takes over the references of the list. -/
def memoize (a : VmArgs) (s : VmState) (id : Int) (pos : Nat) (mlen count : Int)
    (capt : List Nat) : VmState :=
  match s.tbl with
  | none => { s with mem := freeAll s.mem capt }
  | some t =>
      if a.windowed then { s with mem := freeAll s.mem capt }
      else
        let p := vmInputPos s.src
        let mexam : Int := (if s.src.furthest > p then s.src.furthest else p : Nat) - pos + 1
        let (mem, t) := memoTablePut s.mem t id pos mlen mexam count capt
        { s with mem := mem, tbl := some t }

/-- The failure handler: unwind to a backtrack point, memoizing the failure of
the plain memo entries passed. -/
def vmFail (a : VmArgs) : List StackEntry → VmState → VmNext
  | [], s => .failed { s with stack := [] }
  | e :: rest, s =>
      match e.entry with
      | .btrack ip off =>
          .running { s with
            stack := rest
            ip := ip
            src := inputSeekTo s.src off
            mem := freeAll s.mem e.capt }
      | .memo id pos => vmFail a rest (memoize a s id pos (-1) 0 e.capt)
      | _ => vmFail a rest { s with mem := freeAll s.mem e.capt }

def goFail (a : VmArgs) (s : VmState) : VmNext :=
  vmFail a s.stack s

def nextIp (s : VmState) : VmNext :=
  .running { s with ip := s.ip + 1 }

def jumpTo (s : VmState) (ip : Nat) : VmNext :=
  .running { s with ip := ip }

def addEach (s : VmState) (capt : List Nat) : VmState :=
  capt.foldl (fun s c => stackAddCapt s [c]) s

/-- `memo_table_get` at the current position. -/
def lookup (s : VmState) (id : Int) : VmState × Option MemoEntry :=
  match s.tbl with
  | none => (s, none)
  | some t =>
      let (t, e) := memoTableGet t id (vmInputPos s.src)
      ({ s with tbl := some t }, e.bind fun e => s.mem.entries[e]?)

/-- A new node with the given children, put on the top entry. -/
def addNode (s : VmState) (id start length : Int) (children : List Nat) : VmState :=
  let (c, mem) := memoCaptureNode s.mem id start length
  let mem := children.foldl (fun m child => memoCaptureAdd m c child) mem
  let mem := freeAll mem children
  let s := stackAddCapt { s with mem := mem } [c]
  { s with mem := memoCaptureFree s.mem c }

def addDummy (s : VmState) (start length : Int) (children : List Nat) : VmState :=
  let (c, mem) := memoCaptureDummy s.mem start length
  let mem := children.foldl (fun m child => memoCaptureAdd m c child) mem
  let mem := freeAll mem children
  let s := stackAddCapt { s with mem := mem } [c]
  { s with mem := memoCaptureFree s.mem c }

def inWindow (a : VmArgs) (low high : Int) : Bool :=
  !a.windowed || overlaps a.windowLow a.windowHigh low high

/-- The range of the captures kept by a windowed run. -/
def widen (a : VmArgs) (s : VmState) (low high : Int) : VmState :=
  if a.windowed then { s with capLow := min s.capLow low, capHigh := max s.capHigh high } else s

/-- The pops of `MemoTreeClose`; the first argument bounds their number. -/
def memoTreeClose (id : Int) : Nat → VmState → VmState
  | 0, s => s
  | fuel + 1, s =>
      match s.stack with
      | e :: rest =>
          match e.entry with
          | .memoTree id' _ _ =>
              if id' = id then memoTreeClose id fuel (popClear s true e rest) else s
          | _ => s
      | [] => s

/-- Pop entries, each handing its captures to the one below. -/
def popMany : Nat → VmState → VmState
  | 0, s => s
  | n + 1, s =>
      match s.stack with
      | e :: rest => popMany n (popClear s true e rest)
      | [] => s

/-- Merge the top `seen` memo-tree entries into the one below them and memoize
it. -/
def memoTreeMerge (a : VmArgs) (seen : Nat) (accum : Int) (s : VmState) : VmState :=
  let s := popMany (seen - 1) s
  let p := vmInputPos s.src
  match s.stack with
  | ⟨.memoTree _ pos _, capt⟩ :: rest =>
      let s := { s with stack := rest }
      let s :=
        if capt = [] then s
        else if a.windowed then
          let s := stackAddCapt s capt
          { s with mem := freeAll s.mem capt }
        else addDummy s pos ((p : Int) - pos) capt
      match s.stack with
      | ⟨.memoTree id pos count, capt⟩ :: rest =>
          let count := accum + count
          let s := { s with stack := ⟨.memoTree id pos count, capt⟩ :: rest }
          memoize a { s with mem := refAll s.mem capt } id pos ((p : Int) - pos) count capt
      | _ => s
  | _ => s

/-- The loop of `MemoTree`; the first argument bounds the number of rounds. -/
def memoTreeLoop (a : VmArgs) : Nat → Nat → Int → VmState → VmState
  | 0, _, _, s => s
  | fuel + 1, seen, accum, s =>
      match s.stack[seen]?, s.stack[seen + 1]? with
      | some ⟨.memoTree _ _ count, _⟩, some ⟨.memoTree _ _ next, _⟩ =>
          if accum + count < next then memoTreeLoop a fuel (seen + 1) (accum + count) s
          else memoTreeLoop a fuel 0 0 (memoTreeMerge a (seen + 1) (accum + count) s)
      | _, _ => s

/-- `MemoTree`. -/
def memoTree (a : VmArgs) (s : VmState) : VmState :=
  memoTreeLoop a (2 * s.stack.length + 1) 0 0 s

/-- The instructions that look at the next byte before they go on. -/
def testByte (s : VmState) (p : UInt8 → Bool) : VmState × Bool :=
  let (src, b) := inputPeek s.src
  ({ s with src := src }, b.any p)

def stepByte (s : VmState) : VmState :=
  { s with src := (inputAdvance s.src 1).1 }

/-- The byte of an instruction against a byte of the input. -/
def isByte (a : Int) (b : UInt8) : Bool :=
  (b.toNat : Int) = a

/-- The test instructions: with a choice entry when `choice` is set. -/
def testInsn (s : VmState) (p : UInt8 → Bool) (choice : Bool) (target : Nat) : VmNext :=
  let (s, ok) := testByte s p
  if ok then
    let s := if choice then push s (.btrack target (vmInputPos s.src)) else s
    nextIp (stepByte s)
  else jumpTo s target

/-- Execute one instruction. -/
def vmInsn (a : VmArgs) (s : VmState) : VmInsn → VmNext
  | .char b =>
      let (s, ok) := testByte s (isByte b)
      if ok then nextIp (stepByte s) else goFail a s
  | .jump l => jumpTo s l
  | .choice l => nextIp (push s (.btrack l (vmInputPos s.src)))
  | .call l => jumpTo (push s (.ret (s.ip + 1))) l
  | .commit l =>
      match s.stack with
      | [] => .aborted "Commit failed"
      | e :: rest => jumpTo (popClear s true e rest) l
  | .ret =>
      match s.stack with
      | ⟨.ret ip, capt⟩ :: rest => jumpTo (popClear s true ⟨.ret ip, capt⟩ rest) ip
      | _ => .aborted "Return failed"
  | .fail => goFail a s
  | .set set =>
      let (s, ok) := testByte s set.has
      if ok then nextIp (stepByte s) else goFail a s
  | .any n =>
      let (src, ok) := inputAdvance s.src n.toNat
      let s := { s with src := src }
      if ok then nextIp s else goFail a s
  | .partialCommit l =>
      match s.stack with
      | ⟨.btrack ip _, capt⟩ :: rest =>
          let s := { s with stack := ⟨.btrack ip (vmInputPos s.src), capt⟩ :: rest }
          jumpTo (stackPropCapt s) l
      | _ => .aborted "PartialCommit failed"
  | .span set => nextIp { s with src := inputSpan s.src set }
  | .backCommit l =>
      match s.stack with
      | ⟨.btrack ip off, capt⟩ :: rest =>
          let s := popClear s true ⟨.btrack ip off, capt⟩ rest
          jumpTo { s with src := inputSeekTo s.src off } l
      | _ => .aborted "BackCommit failed"
  | .failTwice =>
      match s.stack with
      | [] => goFail a s
      | e :: rest => goFail a (popClear s false e rest)
  | .empty mask =>
      let pos := vmInputPos s.src
      let r1 := if pos > 0 then a.input[pos - 1]? else none
      if emptyOpContext r1 a.input[pos]? &&& mask.toNat ≠ 0 then nextIp s else goFail a s
  | .testChar b l => testInsn s (isByte b) true l
  | .testCharNoChoice b l => testInsn s (isByte b) false l
  | .testSet set l => testInsn s set.has true l
  | .testSetNoChoice set l => testInsn s set.has false l
  | .testAny n l =>
      let off := vmInputPos s.src
      let (src, ok) := inputAdvance s.src n.toNat
      let s := { s with src := src }
      if ok then nextIp (push s (.btrack l off))
      else jumpTo { s with src := inputSeekTo s.src off } l
  | .endOp b => .done s (b ≠ 1)
  | .nop => .aborted "invalid opcode"
  | .captureBegin id => nextIp (push s (.capt id (vmInputPos s.src)))
  | .captureLate back id => nextIp (push s (.capt id (vmInputPos s.src - back)))
  | .captureEnd =>
      match s.stack with
      | ⟨.capt id pos, capt⟩ :: rest =>
          let s := { s with stack := rest }
          let stop : Int := vmInputPos s.src
          if inWindow a pos stop then
            nextIp (addNode (widen a s pos stop) id pos (stop - pos) capt)
          else nextIp { s with mem := freeAll s.mem capt }
      | _ => .aborted "CaptureEnd found no capture entry"
  | .captureFull back id =>
      let pos : Int := vmInputPos s.src
      if inWindow a (pos - back) pos then
        nextIp (addNode (widen a s (pos - back) pos) id (pos - back) back [])
      else nextIp s
  | .checkBegin id flag => nextIp (push s (.check id (vmInputPos s.src) flag))
  | .checkEnd k =>
      match s.stack with
      | ⟨.check id pos flag, capt⟩ :: rest =>
          let s := popClear s true ⟨.check id pos flag, capt⟩ rest
          match (a.code.checkers[k]?).join with
          | none => nextIp s
          | some fn =>
              let stop := vmInputPos s.src
              let n := fn s.nchecks ((a.input.drop pos).take (stop - pos)) a.input id flag
              let s := { s with nchecks := s.nchecks + 1 }
              if n < 0 then goFail a s
              else if stop + n.toNat > a.input.length then goFail a s
              else nextIp { s with src := (inputAdvance s.src n.toNat).1 }
      | _ => .aborted "check end needs check stack entry"
  | .memoOpen l id =>
      match lookup s id with
      | (s, some e) =>
          if e.length = -1 then goFail a s
          else
            -- a run stores no length below -1, so `toNat` loses nothing
            let s := addEach s e.captures
            jumpTo { s with src := (inputAdvance s.src e.length.toNat).1 } l
      | (s, none) => nextIp (push s (.memo id (vmInputPos s.src)))
  | .memoClose =>
      match s.stack with
      | ⟨.memo id pos, capt⟩ :: rest =>
          let s := stackPop s true ⟨.memo id pos, capt⟩ rest
          nextIp (memoize a s id pos ((vmInputPos s.src : Int) - pos) 1 capt)
      | _ => .aborted "memo close failed"
  | .memoTreeOpen l id =>
      match lookup s id with
      | (s, some e) =>
          if e.length = -1 then goFail a s
          else
            -- as at `memoOpen`, the length is not negative here
            let s := addEach (push s (.memoTree id (vmInputPos s.src) e.count)) e.captures
            jumpTo { s with src := inputTouch (inputAdvance s.src e.length.toNat).1 } l
      | (s, none) => nextIp (push s (.memoTree id (vmInputPos s.src) 0))
  | .memoTreeInsert =>
      match s.stack with
      | ⟨.memoTree id pos count, capt⟩ :: rest =>
          let s := { s with stack := ⟨.memoTree id pos (count + 1), capt⟩ :: rest }
          nextIp (memoize a { s with mem := refAll s.mem capt } id pos
            ((vmInputPos s.src : Int) - pos) (count + 1) capt)
      | _ => .aborted "no memo entry on stack"
  | .memoTree => nextIp (memoTree a s)
  | .memoTreeClose id => nextIp (memoTreeClose id s.stack.length s)
  | .error k => nextIp { s with errs := s.errs ++ [(vmInputPos s.src, a.code.errors.getD k "")] }

def vmStep (a : VmArgs) (s : VmState) : VmNext :=
  match a.code.prog[s.ip]? with
  | none => .aborted "instruction pointer out of range"
  | some i => vmInsn a s i

/-- The interpreter loop, for at most the given number of instructions. -/
def vmLoop (a : VmArgs) : Nat → VmState → Option VmNext
  | 0, _ => none
  | fuel + 1, s =>
      match vmStep a s with
      | .running s => vmLoop a fuel s
      | r => some r

/-- `vm_result`; `captures` is the root of the capture tree. -/
structure VmResult where
  success : Bool
  pos : Nat
  captures : Option Nat
  errors : List (Nat × String)

/-- What `vm_exec` leaves behind besides its result. -/
structure VmAfter where
  mem : Mem
  tbl : Option MemoTable
  nchecks : Nat

/-- The edit that a windowed run makes first, which evicts what overlaps the window. -/
def vmClear (fuel : Nat) (a : VmArgs) (mem : Mem) :
    Option MemoTable → Option (Mem × Option MemoTable)
  | none => some (mem, none)
  | some t =>
      if a.windowed ∧ a.windowHigh > a.windowLow then do
        let (mem, t) ← memoTableApplyEdit fuel mem t
          ⟨a.windowLow, a.windowHigh, a.windowHigh - a.windowLow⟩
        return (mem, some t)
      else some (mem, some t)

def vmStart (a : VmArgs) (mem : Mem) (tbl : Option MemoTable) (nchecks : Nat) : VmState where
  ip := 0
  src := vmInputNew a.input
  stack := []
  capt := []
  mem := mem
  tbl := tbl
  errs := []
  capLow := 0
  capHigh := 0
  nchecks := nchecks

/-- The result of a run that ended, with the captures of the machine released. -/
def vmFinish (a : VmArgs) : VmNext → Except String (VmResult × VmAfter)
  | .aborted msg => .error msg
  | .running _ => .error "still running"
  | .failed s =>
      .ok (⟨false, vmInputPos s.src, none, s.errs⟩,
        ⟨freeAll s.mem s.capt, s.tbl, s.nchecks⟩)
  | .done s success =>
      let (root, mem) :=
        if a.windowed then memoCaptureDummy s.mem s.capLow (s.capHigh - s.capLow)
        else memoCaptureDummy s.mem 0 (vmInputPos s.src)
      let mem := s.capt.foldl (fun m c => memoCaptureAdd m root c) mem
      let mem := s.stack.reverse.foldl (fun m e => freeAll m e.capt) mem
      .ok (⟨success, vmInputPos s.src, some root, s.errs⟩,
        ⟨freeAll mem s.capt, s.tbl, s.nchecks⟩)

/-- `vm_exec` within the given number of instructions, and depth of the removal of a
window; `none` when it is still running then. -/
def vmExec (fuel : Nat) (a : VmArgs) (mem : Mem) (tbl : Option MemoTable) (nchecks : Nat) :
    Option (Except String (VmResult × VmAfter)) :=
  if a.windowed ∧ tbl.isNone then some (.error "windowed execution requires a memo table")
  else if a.code.prog = [] then
    let (root, mem) := memoCaptureDummy mem 0 0
    some (.ok (⟨true, 0, some root, []⟩, ⟨mem, tbl, nchecks⟩))
  else do
    let (mem, tbl) ← vmClear fuel a mem tbl
    (vmLoop a fuel (vmStart a mem tbl nchecks)).map (vmFinish a)

/-- `vm_result_free`: the reference that a result holds. -/
def vmResultFree (m : Mem) (r : VmResult) : Mem :=
  r.captures.toList.foldl memoCaptureFree m

end Libpeg.Vm
