import Libpeg.Vm
import Libpeg.Compile

namespace Libpeg.Peg

open Libpeg.Code Libpeg.IntervalTree Libpeg.Memo Libpeg.Input Libpeg.Vm

/-- `struct peg`, with the memory that its captures live in and the number of
checker calls made so far. -/
structure Peg where
  code : VmCode
  tbl : MemoTable
  threshold : Int
  buf : List UInt8
  mem : Mem
  nchecks : Nat

/-- `peg_new` for a compiled pattern. -/
def pegNew (code : VmCode) (threshold : Int) : Peg :=
  ⟨code, memoTableNew threshold, threshold, [], Mem.empty, 0⟩

/-- The arguments of `vm_exec` on the buffer, with a window or without one. -/
def Peg.args (g : Peg) (low high : Int) : VmArgs :=
  ⟨g.code, g.buf, low, high⟩

/-- `vm_exec` on the buffer and the table, within a number of instructions. -/
def pegExec (fuel : Nat) (g : Peg) (low high : Int) : Option (Except String (VmResult × Peg)) :=
  (vmExec fuel (g.args low high) g.mem (some g.tbl) g.nchecks).map fun r => do
    let (r, after) ← r
    return (r, { g with
      mem := after.mem
      tbl := after.tbl.getD g.tbl
      nchecks := after.nchecks })

/-- The start of `peg_parse`: a new subject and an empty table. -/
def pegReset (g : Peg) (data : List UInt8) : Peg :=
  { g with
    buf := data
    mem := memoTableFree g.mem g.tbl
    tbl := memoTableNew g.threshold }

/-- `peg_parse`. -/
def pegParse (fuel : Nat) (g : Peg) (data : List UInt8) :
    Option (Except String (VmResult × Peg)) :=
  pegExec fuel (pegReset g data) (-1) (-1)

/-- The splice of `peg_edit`. -/
def splice (buf : List UInt8) (start stop : Nat) (text : List UInt8) : List UInt8 :=
  buf.take start ++ text ++ buf.drop stop

/-- `peg_edit`, when the removal of `memo_table_apply_edit` returns within the given
depth. -/
def pegEdit (fuel : Nat) (g : Peg) (start stop : Int) (text : List UInt8) :
    Option (Except String Peg) :=
  if start < 0 ∨ stop < start ∨ stop > g.buf.length then
    some (.error "peg_edit: range out of bounds")
  else do
    let (mem, tbl) ← memoTableApplyEdit fuel g.mem g.tbl ⟨start, stop, text.length⟩
    return .ok { g with buf := splice g.buf start.toNat stop.toNat text, mem := mem, tbl := tbl }

/-- `peg_reparse`. -/
def pegReparse (fuel : Nat) (g : Peg) : Option (Except String (VmResult × Peg)) :=
  pegExec fuel g (-1) (-1)

/-- `peg_capture_interval`. -/
def pegCaptureInterval (fuel : Nat) (g : Peg) (low high : Int) :
    Option (Except String (VmResult × Peg)) :=
  pegExec fuel g low high

/-- A call on a parser. -/
inductive PegOp where
  | parse (data : List UInt8)
  | edit (start stop : Int) (text : List UInt8)
  | reparse
  | captureInterval (low high : Int)

/-- One call that returns: the parser afterwards and the result, if the call has
one. -/
inductive PegStep : Peg → PegOp → Option VmResult → Peg → Prop
  | parse {g : Peg} {data : List UInt8} {fuel : Nat} {r : VmResult} {g' : Peg}
      (h : pegParse fuel g data = some (.ok (r, g'))) : PegStep g (.parse data) (some r) g'
  | edit {g : Peg} {start stop : Int} {text : List UInt8} {fuel : Nat} {g' : Peg}
      (h : pegEdit fuel g start stop text = some (.ok g')) :
      PegStep g (.edit start stop text) none g'
  | reparse {g : Peg} {fuel : Nat} {r : VmResult} {g' : Peg}
      (h : pegReparse fuel g = some (.ok (r, g'))) : PegStep g .reparse (some r) g'
  | captureInterval {g : Peg} {low high : Int} {fuel : Nat} {r : VmResult} {g' : Peg}
      (h : pegCaptureInterval fuel g low high = some (.ok (r, g'))) :
      PegStep g (.captureInterval low high) (some r) g'

end Libpeg.Peg
