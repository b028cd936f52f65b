import Libpeg.Control

/-!
The control of the parsing machine: instruction pointer, position, furthest byte
and the entries of the stack, without captures and table. What a lookup returned
is an argument of the step. Next to it the machine writes a trace of the memoized
evaluations it opens and closes, and of the extents it takes from the table or
puts into it.
-/

namespace Libpeg.ControlMachine

open Libpeg.Charset Libpeg.Opcode Libpeg.Code Libpeg.Memo Libpeg.Input Libpeg.Vm

/-- The bytes `[start, stop)` that an entry describes. -/
structure Extent where
  start : Int
  stop : Int
  deriving DecidableEq

inductive Event where
  | opened
  | closed
  | hit (x : Extent)
  | stored (x : Extent)
  deriving DecidableEq

structure Ctl where
  ip : Nat
  pos : Nat
  furthest : Nat
  stack : List StEntry
  nchecks : Nat
  trace : List Event
  deriving DecidableEq

inductive CNext where
  | running (c : Ctl)
  | done (c : Ctl) (success : Bool)
  | failed (c : Ctl)
  | aborted (msg : String)

def isMemo : StEntry → Bool
  | .memo _ _ | .memoTree _ _ _ => true
  | _ => false

def record (c : Ctl) (e : Event) : Ctl :=
  { c with trace := c.trace ++ [e] }

def cPush (c : Ctl) (e : StEntry) : Ctl :=
  let c := { c with stack := e :: c.stack }
  if isMemo e then record c .opened else c

def cPop (c : Ctl) (e : StEntry) (rest : List StEntry) : Ctl :=
  let c := { c with stack := rest }
  if isMemo e then record c .closed else c

/-- The extent of an entry that would be stored now. -/
def extentNow (c : Ctl) (pos : Nat) (mlen : Int) : Extent :=
  ⟨pos, pos + max (((if c.furthest > c.pos then c.furthest else c.pos : Nat) : Int) - pos + 1) mlen⟩

/-- `memoize` for a table with a threshold, or without a table. -/
def cMemoize (a : VmArgs) (thr : Option Int) (c : Ctl) (pos : Nat) (mlen : Int) : Ctl :=
  match thr with
  | none => c
  | some th =>
      if a.windowed then c
      else
        let mexam : Int := (if c.furthest > c.pos then c.furthest else c.pos : Nat) - pos + 1
        if th > 0 ∧ mexam < th ∨ mlen = 0 then c
        else record c (.stored (extentNow c pos mlen))

section Fields

variable (a : VmArgs) (thr : Option Int) (c : Ctl)

@[simp] theorem cPush_pos (e : StEntry) : (cPush c e).pos = c.pos := by
  unfold cPush
  split <;> rfl

@[simp] theorem cPush_furthest (e : StEntry) : (cPush c e).furthest = c.furthest := by
  unfold cPush
  split <;> rfl

@[simp] theorem cPop_pos (e : StEntry) (rest : List StEntry) : (cPop c e rest).pos = c.pos := by
  unfold cPop
  split <;> rfl

@[simp] theorem cPop_furthest (e : StEntry) (rest : List StEntry) :
    (cPop c e rest).furthest = c.furthest := by
  unfold cPop
  split <;> rfl

@[simp] theorem cPop_stack (e : StEntry) (rest : List StEntry) : (cPop c e rest).stack = rest := by
  unfold cPop
  split <;> rfl

theorem cMemoize_eq (pos : Nat) (mlen : Int) :
    cMemoize a thr c pos mlen = c ∨
      cMemoize a thr c pos mlen = record c (.stored (extentNow c pos mlen)) := by
  unfold cMemoize
  cases thr with
  | none => exact .inl rfl
  | some th =>
      dsimp only
      split
      · exact .inl rfl
      · generalize ((if c.furthest > c.pos then c.furthest else c.pos : Nat) : Int) - pos + 1 = exam
        split
        · exact .inl rfl
        · exact .inr rfl

@[simp] theorem cMemoize_pos (pos : Nat) (mlen : Int) : (cMemoize a thr c pos mlen).pos = c.pos := by
  rcases cMemoize_eq a thr c pos mlen with h | h <;> rw [h] <;> rfl

@[simp] theorem cMemoize_furthest (pos : Nat) (mlen : Int) :
    (cMemoize a thr c pos mlen).furthest = c.furthest := by
  rcases cMemoize_eq a thr c pos mlen with h | h <;> rw [h] <;> rfl

@[simp] theorem cMemoize_stack (pos : Nat) (mlen : Int) :
    (cMemoize a thr c pos mlen).stack = c.stack := by
  rcases cMemoize_eq a thr c pos mlen with h | h <;> rw [h] <;> rfl

end Fields

def cFail (a : VmArgs) (thr : Option Int) : List StEntry → Ctl → CNext
  | [], c => .failed { c with stack := [] }
  | e :: rest, c =>
      match e with
      | .btrack ip off => .running { c with stack := rest, ip := ip, pos := off }
      | .memo id pos => cFail a thr rest (cPop (cMemoize a thr c pos (-1)) (.memo id pos) rest)
      | e => cFail a thr rest (cPop c e rest)

def cGoFail (a : VmArgs) (thr : Option Int) (c : Ctl) : CNext :=
  cFail a thr c.stack c

def cNextIp (c : Ctl) : CNext :=
  .running { c with ip := c.ip + 1 }

def cJumpTo (c : Ctl) (ip : Nat) : CNext :=
  .running { c with ip := ip }

def cTreeClose (id : Int) : Nat → Ctl → Ctl
  | 0, c => c
  | fuel + 1, c =>
      match c.stack with
      | e :: rest =>
          match e with
          | .memoTree id' _ _ => if id' = id then cTreeClose id fuel (cPop c e rest) else c
          | _ => c
      | [] => c

def cPopMany : Nat → Ctl → Ctl
  | 0, c => c
  | n + 1, c =>
      match c.stack with
      | e :: rest => cPopMany n (cPop c e rest)
      | [] => c

def cTreeMerge (a : VmArgs) (thr : Option Int) (seen : Nat) (accum : Int) (c : Ctl) : Ctl :=
  let c := cPopMany (seen - 1) c
  match c.stack with
  | .memoTree id pos count :: rest =>
      let c := cPop c (.memoTree id pos count) rest
      match c.stack with
      | .memoTree id pos count :: rest =>
          let c := { c with stack := .memoTree id pos (accum + count) :: rest }
          cMemoize a thr c pos ((c.pos : Int) - pos)
      | _ => c
  | _ => c

def cTreeLoop (a : VmArgs) (thr : Option Int) : Nat → Nat → Int → Ctl → Ctl
  | 0, _, _, c => c
  | fuel + 1, seen, accum, c =>
      match c.stack[seen]?, c.stack[seen + 1]? with
      | some (.memoTree _ _ count), some (.memoTree _ _ next) =>
          if accum + count < next then cTreeLoop a thr fuel (seen + 1) (accum + count) c
          else cTreeLoop a thr fuel 0 0 (cTreeMerge a thr (seen + 1) (accum + count) c)
      | _, _ => c

def cTree (a : VmArgs) (thr : Option Int) (c : Ctl) : Ctl :=
  cTreeLoop a thr (2 * c.stack.length + 1) 0 0 c

def cPeek (c : Ctl) : Ctl :=
  { c with furthest := max c.furthest c.pos }

def cAdvance (c : Ctl) (n : Nat) : Ctl :=
  { c with pos := c.pos + n }

def cTest (a : VmArgs) (c : Ctl) (p : UInt8 → Bool) : Bool :=
  a.input[c.pos]?.any p

def cMatch (a : VmArgs) (fail : Ctl → CNext) (c : Ctl) (p : UInt8 → Bool) : CNext :=
  if cTest a c p then cNextIp (cAdvance (cPeek c) 1) else fail (cPeek c)

def cTestInsn (a : VmArgs) (c : Ctl) (p : UInt8 → Bool) (choice : Bool) (target : Nat) : CNext :=
  if cTest a c p then
    let c := if choice then cPush (cPeek c) (.btrack target c.pos) else cPeek c
    cNextIp (cAdvance c 1)
  else cJumpTo (cPeek c) target

/-- The extent of an entry found at the current position. -/
def hitExtent (c : Ctl) (e : MemoEntry) : Extent :=
  ⟨c.pos, c.pos + e.examined⟩

/-- Execute one instruction; `hit` is the answer of the lookup it may make and `fail`
the failure handler. -/
def cInsn (a : VmArgs) (thr : Option Int) (hit : Option MemoEntry) (fail : Ctl → CNext)
    (c : Ctl) : VmInsn → CNext
  | .char b => cMatch a fail c (isByte b)
  | .jump l => cJumpTo c l
  | .choice l => cNextIp (cPush c (.btrack l c.pos))
  | .call l => cJumpTo (cPush c (.ret (c.ip + 1))) l
  | .commit l =>
      match c.stack with
      | [] => .aborted "Commit failed"
      | e :: rest => cJumpTo (cPop c e rest) l
  | .ret =>
      match c.stack with
      | .ret ip :: rest => cJumpTo (cPop c (.ret ip) rest) ip
      | _ => .aborted "Return failed"
  | .fail => fail c
  | .set set => cMatch a fail c set.has
  | .any n =>
      if c.pos + n.toNat ≤ a.input.length then cNextIp (cAdvance c n.toNat)
      else fail (cAdvance c n.toNat)
  | .partialCommit l =>
      match c.stack with
      | .btrack ip _ :: rest => cJumpTo { c with stack := .btrack ip c.pos :: rest } l
      | _ => .aborted "PartialCommit failed"
  | .span set =>
      let n := spanLength a.input set c.pos
      cNextIp { c with pos := c.pos + n, furthest := max c.furthest (c.pos + n) }
  | .backCommit l =>
      match c.stack with
      | .btrack ip off :: rest => cJumpTo { cPop c (.btrack ip off) rest with pos := off } l
      | _ => .aborted "BackCommit failed"
  | .failTwice =>
      match c.stack with
      | [] => fail c
      | e :: rest => fail (cPop c e rest)
  | .empty mask =>
      let r1 := if c.pos > 0 then a.input[c.pos - 1]? else none
      if emptyOpContext r1 a.input[c.pos]? &&& mask.toNat ≠ 0 then cNextIp c else fail c
  | .testChar b l => cTestInsn a c (isByte b) true l
  | .testCharNoChoice b l => cTestInsn a c (isByte b) false l
  | .testSet set l => cTestInsn a c set.has true l
  | .testSetNoChoice set l => cTestInsn a c set.has false l
  | .testAny n l =>
      if c.pos + n.toNat ≤ a.input.length then
        cNextIp (cPush (cAdvance c n.toNat) (.btrack l c.pos))
      else cJumpTo c l
  | .endOp b => .done c (b ≠ 1)
  | .nop => .aborted "invalid opcode"
  | .captureBegin id => cNextIp (cPush c (.capt id c.pos))
  | .captureLate back id => cNextIp (cPush c (.capt id (c.pos - back)))
  | .captureEnd =>
      match c.stack with
      | .capt id pos :: rest => cNextIp (cPop c (.capt id pos) rest)
      | _ => .aborted "CaptureEnd found no capture entry"
  | .captureFull _ _ => cNextIp c
  | .checkBegin id flag => cNextIp (cPush c (.check id c.pos flag))
  | .checkEnd k =>
      match c.stack with
      | .check id pos flag :: rest =>
          let c := cPop c (.check id pos flag) rest
          match (a.code.checkers[k]?).join with
          | none => cNextIp c
          | some fn =>
              let n := fn c.nchecks ((a.input.drop pos).take (c.pos - pos)) a.input id flag
              let c := { c with nchecks := c.nchecks + 1 }
              if n < 0 then fail c
              else if c.pos + n.toNat > a.input.length then fail c
              else cNextIp (cAdvance c n.toNat)
      | _ => .aborted "check end needs check stack entry"
  | .memoOpen l id =>
      match hit with
      | some e =>
          let c := record c (.hit (hitExtent c e))
          if e.length = -1 then fail c
          else cJumpTo (cAdvance c e.length.toNat) l
      | none => cNextIp (cPush c (.memo id c.pos))
  | .memoClose =>
      match c.stack with
      | .memo id pos :: rest =>
          cNextIp (cPop (cMemoize a thr c pos ((c.pos : Int) - pos)) (.memo id pos) rest)
      | _ => .aborted "memo close failed"
  | .memoTreeOpen l id =>
      match hit with
      | some e =>
          if e.length = -1 then fail (record c (.hit (hitExtent c e)))
          else
            let c := record (cPush c (.memoTree id c.pos e.count)) (.hit (hitExtent c e))
            cJumpTo (cPeek (cAdvance c e.length.toNat)) l
      | none => cNextIp (cPush c (.memoTree id c.pos 0))
  | .memoTreeInsert =>
      match c.stack with
      | .memoTree id pos count :: rest =>
          let c := { c with stack := .memoTree id pos (count + 1) :: rest }
          cNextIp (cMemoize a thr c pos ((c.pos : Int) - pos))
      | _ => .aborted "no memo entry on stack"
  | .memoTree => cNextIp (cTree a thr c)
  | .memoTreeClose id => cNextIp (cTreeClose id c.stack.length c)
  | .error _ => cNextIp c

def cStep (a : VmArgs) (thr : Option Int) (hit : Option MemoEntry) (c : Ctl) : CNext :=
  match a.code.prog[c.ip]? with
  | none => .aborted "instruction pointer out of range"
  | some i => cInsn a thr hit (cGoFail a thr) c i

end Libpeg.ControlMachine
