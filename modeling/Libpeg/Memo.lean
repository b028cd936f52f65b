import Libpeg.IntervalTree

/-!
Captures, memo entries and the memo table. Captures are shared between stack,
table and results, so they live in a memory and are spoken of by address; the
reference counts are kept beside the cells. A cell that has been released stays
readable with count 0.
-/

namespace Libpeg.Memo

open Libpeg.IntervalTree

/-- `struct memo_capture` without its count. -/
structure MemoCapture where
  id : Int
  dummy : Bool
  off : Int
  length : Int
  ment : Option Nat
  children : List Nat
  deriving DecidableEq

/-- `struct memo_entry`; `pos` is the handle into the interval tree. -/
structure MemoEntry where
  length : Int
  examined : Int
  count : Int
  captures : List Nat
  pos : Nat
  deriving DecidableEq

/-- The memory that captures and entries are allocated in. -/
structure Mem where
  caps : List MemoCapture
  refs : List Nat
  entries : List MemoEntry
  deriving DecidableEq

def Mem.empty : Mem :=
  ⟨[], [], []⟩

def Mem.cap (m : Mem) (c : Nat) : MemoCapture :=
  m.caps.getD c ⟨0, true, 0, 0, none, []⟩

/-- `struct memo_table`. -/
structure MemoTable where
  tree : Itree Nat
  threshold : Int

/-- `memo_capture_node`. -/
def memoCaptureNode (m : Mem) (id start length : Int) : Nat × Mem :=
  (m.caps.length, { m with
    caps := m.caps ++ [⟨id, false, start, length, none, []⟩]
    refs := m.refs ++ [1] })

/-- `memo_capture_dummy`. -/
def memoCaptureDummy (m : Mem) (start length : Int) : Nat × Mem :=
  (m.caps.length, { m with
    caps := m.caps ++ [⟨0, true, start, length, none, []⟩]
    refs := m.refs ++ [1] })

/-- `memo_capture_ref`. -/
def memoCaptureRef (m : Mem) (c : Nat) : Mem :=
  { m with refs := m.refs.modify c (· + 1) }

/-- The counts after `memo_capture_free`. Children are older than their parent,
so the number of cells bounds the recursion. -/
def captureFreeLoop (caps : List MemoCapture) : Nat → List Nat → Nat → List Nat
  | 0, refs, _ => refs
  | fuel + 1, refs, c =>
      let refs := refs.modify c (· - 1)
      if refs.getD c 0 ≠ 0 then refs
      else
        match caps[c]? with
        | none => refs
        | some cell => cell.children.foldl (captureFreeLoop caps fuel) refs

/-- `memo_capture_free`. -/
def memoCaptureFree (m : Mem) (c : Nat) : Mem :=
  { m with refs := captureFreeLoop m.caps m.caps.length m.refs c }

/-- `memo_capture_add`. -/
def memoCaptureAdd (m : Mem) (c child : Nat) : Mem :=
  memoCaptureRef { m with
    caps := m.caps.modify c fun cell => { cell with children := cell.children ++ [child] } } child

/-- `memo_entry_pos`: reading a position absorbs the shifts of its node. -/
def memoEntryPos (m : Mem) (t : MemoTable) (e : Nat) : MemoTable × Int :=
  match m.entries[e]? with
  | none => (t, 0)
  | some entry =>
      let (tree, pos) := itreeLocPos t.tree entry.pos
      ({ t with tree := tree }, pos.getD 0)

/-- `memo_capture_start`. -/
def memoCaptureStart (m : Mem) (t : MemoTable) (c : Nat) : MemoTable × Int :=
  match (m.cap c).ment with
  | none => (t, (m.cap c).off)
  | some e =>
      let (t, pos) := memoEntryPos m t e
      (t, pos + (m.cap c).off)

/-- `memo_capture_absolutize` for an entry at a given position. -/
def captureAbsolutize (e : Nat) (pos : Int) : Nat → List MemoCapture → Nat → List MemoCapture
  | 0, caps, _ => caps
  | fuel + 1, caps, c =>
      match caps[c]? with
      | none => caps
      | some cell =>
          let caps :=
            if cell.ment = some e then
              caps.modify c fun cell => { cell with off := cell.off + pos, ment := none }
            else caps
          cell.children.foldl (captureAbsolutize e pos fuel) caps

/-- `memo_capture_absolutize`. -/
def memoCaptureAbsolutize (e : Nat) (pos : Int) (m : Mem) (c : Nat) : Mem :=
  { m with caps := captureAbsolutize e pos m.caps.length m.caps c }

/-- `capture_set_ment`. -/
def captureSetMent (e : Nat) : Nat → Mem × MemoTable → Nat → Mem × MemoTable
  | 0, s, _ => s
  | fuel + 1, (m, t), c =>
      if (m.cap c).ment.isSome then (m, t)
      else
        let (t, pos) := memoEntryPos m t e
        (m.cap c).children.foldl (captureSetMent e fuel)
          ({ m with caps := m.caps.modify c fun cell =>
            { cell with off := cell.off - pos, ment := some e } }, t)

/-- `entry_set_pos`. -/
def entrySetPos (m : Mem) (t : MemoTable) (e : Nat) (captures : List Nat) : Mem × MemoTable :=
  captures.foldl (captureSetMent e m.caps.length) (m, t)

/-- `memo_table_new`. -/
def memoTableNew (threshold : Int) : MemoTable :=
  ⟨itreeNew, threshold⟩

/-- `table_free_entry` on an evicted interval, whose low end is the position of
the entry. -/
def tableFreeEntry (m : Mem) (i : IvIns Nat) : Mem :=
  match m.entries[i.value]? with
  | none => m
  | some entry =>
      entry.captures.foldl memoCaptureFree
        (entry.captures.foldl (memoCaptureAbsolutize i.value i.low) m)

/-- `memo_table_free`. -/
def memoTableFree (m : Mem) (t : MemoTable) : Mem :=
  ((itreeEach t.tree).2.map Prod.snd).foldl tableFreeEntry m

/-- `memo_table_get`: the address of an entry. -/
def memoTableGet (t : MemoTable) (id pos : Int) : MemoTable × Option Nat :=
  let (tree, e) := itreeFindLargest t.tree id pos
  ({ t with tree := tree }, e)

/-- `memo_table_put`; the table takes over the references of the list. -/
def memoTablePut (m : Mem) (t : MemoTable) (id start length examined count : Int)
    (captures : List Nat) : Mem × MemoTable :=
  if t.threshold > 0 ∧ examined < t.threshold ∨ length = 0 then
    (captures.foldl memoCaptureFree m, t)
  else
    let examined := if examined < length then length else examined
    let e := m.entries.length
    let (tree, loc) := itreeAdd t.tree id start (start + examined) e
    entrySetPos { m with entries := m.entries ++ [⟨length, examined, count, captures, loc⟩] }
      { t with tree := tree } e captures

/-- `memo_edit`. -/
structure MemoEdit where
  start : Int
  stop : Int
  len : Int

/-- `memo_table_apply_edit`, when the removal returns within the given depth. -/
def memoTableApplyEdit (fuel : Nat) (m : Mem) (t : MemoTable) (edit : MemoEdit) :
    Option (Mem × MemoTable) := do
  let high := if edit.start = edit.stop then edit.start + 1 else edit.stop
  let amt := edit.len - (edit.stop - edit.start)
  let (tree, evicted) ← itreeRemoveAndShift fuel t.tree edit.start high amt
  return (evicted.foldl tableFreeEntry m, { t with tree := tree })

/-- `memo_table_size`. -/
def memoTableSize (t : MemoTable) : Nat :=
  itreeSize t.tree

/-- Captures as a caller reads them: dummies are expanded and starts are
absolute. -/
inductive CapForest where
  | nil
  | cons (id start length : Int) (children rest : CapForest)
  deriving DecidableEq

def CapForest.append : CapForest → CapForest → CapForest
  | .nil, g => g
  | .cons id start length children rest, g => .cons id start length children (rest.append g)

/-- The captures at some addresses, read in one state of memory and table. -/
def captureForest (m : Mem) (t : MemoTable) : Nat → List Nat → CapForest
  | 0, _ => .nil
  | fuel + 1, cs =>
      cs.foldr (fun c rest =>
        let children := captureForest m t fuel (m.cap c).children
        if (m.cap c).dummy then children.append rest
        else .cons (m.cap c).id (memoCaptureStart m t c).2 (m.cap c).length children rest) .nil

end Libpeg.Memo
