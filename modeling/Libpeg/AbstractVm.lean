import Libpeg.Vm

/-!
The parsing machine without its memory: captures are forests, the memo table is a
list of entries, and the input is a position. A lookup may return any of the
entries that examined most, so it is an argument of the step.
-/

namespace Libpeg.AbstractVm

open Libpeg.Charset Libpeg.Opcode Libpeg.Code Libpeg.Memo Libpeg.Input Libpeg.Vm

/-- A memo entry. -/
structure AEntry where
  id : Int
  pos : Int
  examined : Int
  length : Int
  count : Int
  capt : CapForest

structure ATable where
  threshold : Int
  entries : List AEntry

/-- A stack entry with its captures. -/
structure AFrame where
  entry : StEntry
  capt : CapForest

structure AState where
  ip : Nat
  pos : Nat
  furthest : Nat
  stack : List AFrame
  capt : CapForest
  tbl : Option ATable
  errs : List (Nat × String)
  nchecks : Nat

inductive ANext where
  | running (s : AState)
  | done (s : AState) (success : Bool)
  | failed (s : AState)
  | aborted (msg : String)

def IsHit (tbl : Option ATable) (id pos : Int) : Option AEntry → Prop
  | none => ∀ t, tbl = some t → ∀ e ∈ t.entries, ¬(e.id = id ∧ e.pos = pos)
  | some e => ∃ t, tbl = some t ∧ e ∈ t.entries ∧ e.id = id ∧ e.pos = pos ∧
      ∀ d ∈ t.entries, d.id = id → d.pos = pos → d.examined ≤ e.examined

/-- Put captures at the end of those of the top entry. -/
def aAddCapt (s : AState) (capt : CapForest) : AState :=
  match s.stack with
  | [] => { s with capt := s.capt.append capt }
  | e :: rest => { s with stack := { e with capt := e.capt.append capt } :: rest }

/-- Pop an entry, which hands its captures to the one below. -/
def aPop (s : AState) (e : AFrame) (rest : List AFrame) : AState :=
  aAddCapt { s with stack := rest } e.capt

def aPush (s : AState) (e : StEntry) : AState :=
  { s with stack := ⟨e, .nil⟩ :: s.stack }

def aMemoize (a : VmArgs) (s : AState) (id : Int) (pos : Nat) (mlen count : Int)
    (capt : CapForest) : AState :=
  match s.tbl with
  | none => s
  | some t =>
      if a.windowed then s
      else
        let mexam : Int := (if s.furthest > s.pos then s.furthest else s.pos : Nat) - pos + 1
        if t.threshold > 0 ∧ mexam < t.threshold ∨ mlen = 0 then s
        else { s with tbl := some { t with
          entries := t.entries ++ [⟨id, pos, max mexam mlen, mlen, count, capt⟩] } }

def aFail (a : VmArgs) : List AFrame → AState → ANext
  | [], s => .failed { s with stack := [] }
  | e :: rest, s =>
      match e.entry with
      | .btrack ip off => .running { s with stack := rest, ip := ip, pos := off }
      | .memo id pos => aFail a rest (aMemoize a s id pos (-1) 0 e.capt)
      | _ => aFail a rest s

def aGoFail (a : VmArgs) (s : AState) : ANext :=
  aFail a s.stack s

def aNextIp (s : AState) : ANext :=
  .running { s with ip := s.ip + 1 }

def aJumpTo (s : AState) (ip : Nat) : ANext :=
  .running { s with ip := ip }

def aTreeClose (id : Int) : Nat → AState → AState
  | 0, s => s
  | fuel + 1, s =>
      match s.stack with
      | e :: rest =>
          match e.entry with
          | .memoTree id' _ _ => if id' = id then aTreeClose id fuel (aPop s e rest) else s
          | _ => s
      | [] => s

def aPopMany : Nat → AState → AState
  | 0, s => s
  | n + 1, s =>
      match s.stack with
      | e :: rest => aPopMany n (aPop s e rest)
      | [] => s

def aTreeMerge (a : VmArgs) (seen : Nat) (accum : Int) (s : AState) : AState :=
  let s := aPopMany (seen - 1) s
  match s.stack with
  | ⟨.memoTree id pos count, capt⟩ :: rest =>
      let s := aPop s ⟨.memoTree id pos count, capt⟩ rest
      match s.stack with
      | ⟨.memoTree id pos count, capt⟩ :: rest =>
          let count := accum + count
          let s := { s with stack := ⟨.memoTree id pos count, capt⟩ :: rest }
          aMemoize a s id pos ((s.pos : Int) - pos) count capt
      | _ => s
  | _ => s

def aTreeLoop (a : VmArgs) : Nat → Nat → Int → AState → AState
  | 0, _, _, s => s
  | fuel + 1, seen, accum, s =>
      match s.stack[seen]?, s.stack[seen + 1]? with
      | some ⟨.memoTree _ _ count, _⟩, some ⟨.memoTree _ _ next, _⟩ =>
          if accum + count < next then aTreeLoop a fuel (seen + 1) (accum + count) s
          else aTreeLoop a fuel 0 0 (aTreeMerge a (seen + 1) (accum + count) s)
      | _, _ => s

def aTree (a : VmArgs) (s : AState) : AState :=
  aTreeLoop a (2 * s.stack.length + 1) 0 0 s

def aPeek (s : AState) : AState :=
  { s with furthest := max s.furthest s.pos }

def aAdvance (s : AState) (n : Nat) : AState :=
  { s with pos := s.pos + n }

def aTest (a : VmArgs) (s : AState) (p : UInt8 → Bool) : Bool :=
  a.input[s.pos]?.any p

def aMatch (a : VmArgs) (s : AState) (p : UInt8 → Bool) : ANext :=
  if aTest a s p then aNextIp (aAdvance (aPeek s) 1) else aGoFail a (aPeek s)

def aTestInsn (a : VmArgs) (s : AState) (p : UInt8 → Bool) (choice : Bool) (target : Nat) :
    ANext :=
  if aTest a s p then
    let s := if choice then aPush (aPeek s) (.btrack target s.pos) else aPeek s
    aNextIp (aAdvance s 1)
  else aJumpTo (aPeek s) target

/-- Execute one instruction; `hit` is the answer of the lookup it may make. -/
def aInsn (a : VmArgs) (hit : Option AEntry) (s : AState) : VmInsn → ANext
  | .char b => aMatch a s (isByte b)
  | .jump l => aJumpTo s l
  | .choice l => aNextIp (aPush s (.btrack l s.pos))
  | .call l => aJumpTo (aPush s (.ret (s.ip + 1))) l
  | .commit l =>
      match s.stack with
      | [] => .aborted "Commit failed"
      | e :: rest => aJumpTo (aPop s e rest) l
  | .ret =>
      match s.stack with
      | ⟨.ret ip, capt⟩ :: rest => aJumpTo (aPop s ⟨.ret ip, capt⟩ rest) ip
      | _ => .aborted "Return failed"
  | .fail => aGoFail a s
  | .set set => aMatch a s set.has
  | .any n =>
      if s.pos + n.toNat ≤ a.input.length then aNextIp (aAdvance s n.toNat)
      else aGoFail a (aAdvance s n.toNat)
  | .partialCommit l =>
      match s.stack with
      | ⟨.btrack ip _, capt⟩ :: rest =>
          let s' := aPop s ⟨.btrack ip s.pos, capt⟩ rest
          aJumpTo { s' with stack := ⟨.btrack ip s.pos, .nil⟩ :: s'.stack } l
      | _ => .aborted "PartialCommit failed"
  | .span set =>
      let n := spanLength a.input set s.pos
      aNextIp { s with pos := s.pos + n, furthest := max s.furthest (s.pos + n) }
  | .backCommit l =>
      match s.stack with
      | ⟨.btrack ip off, capt⟩ :: rest =>
          aJumpTo { aPop s ⟨.btrack ip off, capt⟩ rest with pos := off } l
      | _ => .aborted "BackCommit failed"
  | .failTwice =>
      match s.stack with
      | [] => aGoFail a s
      | _ :: rest => aGoFail a { s with stack := rest }
  | .empty mask =>
      let r1 := if s.pos > 0 then a.input[s.pos - 1]? else none
      if emptyOpContext r1 a.input[s.pos]? &&& mask.toNat ≠ 0 then aNextIp s else aGoFail a s
  | .testChar b l => aTestInsn a s (isByte b) true l
  | .testCharNoChoice b l => aTestInsn a s (isByte b) false l
  | .testSet set l => aTestInsn a s set.has true l
  | .testSetNoChoice set l => aTestInsn a s set.has false l
  | .testAny n l =>
      if s.pos + n.toNat ≤ a.input.length then
        aNextIp (aPush (aAdvance s n.toNat) (.btrack l s.pos))
      else aJumpTo s l
  | .endOp b => .done s (b ≠ 1)
  | .nop => .aborted "invalid opcode"
  | .captureBegin id => aNextIp (aPush s (.capt id s.pos))
  | .captureLate back id => aNextIp (aPush s (.capt id (s.pos - back)))
  | .captureEnd =>
      match s.stack with
      | ⟨.capt id pos, capt⟩ :: rest =>
          let s := { s with stack := rest }
          if inWindow a pos s.pos then
            aNextIp (aAddCapt s (.cons id pos ((s.pos : Int) - pos) capt .nil))
          else aNextIp s
      | _ => .aborted "CaptureEnd found no capture entry"
  | .captureFull back id =>
      if inWindow a ((s.pos : Int) - back) s.pos then
        aNextIp (aAddCapt s (.cons id ((s.pos : Int) - back) back .nil .nil))
      else aNextIp s
  | .checkBegin id flag => aNextIp (aPush s (.check id s.pos flag))
  | .checkEnd k =>
      match s.stack with
      | ⟨.check id pos flag, capt⟩ :: rest =>
          let s := aPop s ⟨.check id pos flag, capt⟩ rest
          match (a.code.checkers[k]?).join with
          | none => aNextIp s
          | some fn =>
              let n := fn s.nchecks ((a.input.drop pos).take (s.pos - pos)) a.input id flag
              let s := { s with nchecks := s.nchecks + 1 }
              if n < 0 then aGoFail a s
              else if s.pos + n.toNat > a.input.length then aGoFail a s
              else aNextIp (aAdvance s n.toNat)
      | _ => .aborted "check end needs check stack entry"
  | .memoOpen l id =>
      match hit with
      | some e =>
          if e.length = -1 then aGoFail a s
          else aJumpTo (aAdvance (aAddCapt s e.capt) e.length.toNat) l
      | none => aNextIp (aPush s (.memo id s.pos))
  | .memoClose =>
      match s.stack with
      | ⟨.memo id pos, capt⟩ :: rest =>
          let s := aPop s ⟨.memo id pos, capt⟩ rest
          aNextIp (aMemoize a s id pos ((s.pos : Int) - pos) 1 capt)
      | _ => .aborted "memo close failed"
  | .memoTreeOpen l id =>
      match hit with
      | some e =>
          if e.length = -1 then aGoFail a s
          else
            let s := aAddCapt (aPush s (.memoTree id s.pos e.count)) e.capt
            aJumpTo (aPeek (aAdvance s e.length.toNat)) l
      | none => aNextIp (aPush s (.memoTree id s.pos 0))
  | .memoTreeInsert =>
      match s.stack with
      | ⟨.memoTree id pos count, capt⟩ :: rest =>
          let s := { s with stack := ⟨.memoTree id pos (count + 1), capt⟩ :: rest }
          aNextIp (aMemoize a s id pos ((s.pos : Int) - pos) (count + 1) capt)
      | _ => .aborted "no memo entry on stack"
  | .memoTree => aNextIp (aTree a s)
  | .memoTreeClose id => aNextIp (aTreeClose id s.stack.length s)
  | .error k => aNextIp { s with errs := s.errs ++ [(s.pos, a.code.errors.getD k "")] }

/-- The id of the lookup that an instruction makes. -/
def lookupId : VmInsn → Option Int
  | .memoOpen _ id => some id
  | .memoTreeOpen _ id => some id
  | _ => none

/-- One step of the machine. -/
inductive AStep (a : VmArgs) (s : AState) : ANext → Prop
  | out (h : a.code.prog[s.ip]? = none) :
      AStep a s (.aborted "instruction pointer out of range")
  | insn {i : VmInsn} {hit : Option AEntry} (h : a.code.prog[s.ip]? = some i)
      (hhit : ∀ id, lookupId i = some id → IsHit s.tbl id s.pos hit) :
      AStep a s (aInsn a hit s i)

/-- A run to its end, with the number of its instructions. -/
inductive ARun (a : VmArgs) : Nat → AState → ANext → Prop
  | stop {s : AState} {r : ANext} (h : AStep a s r) (hstop : ∀ s', r ≠ .running s') : ARun a 1 s r
  | step {s s' : AState} {n : Nat} {r : ANext} (h : AStep a s (.running s'))
      (hrun : ARun a n s' r) : ARun a (n + 1) s r

end Libpeg.AbstractVm
