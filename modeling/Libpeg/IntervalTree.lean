import Mathlib.Data.List.Basic
import Mathlib.Data.Int.Order.Basic

/-!
The lazy interval tree. Nodes and groups carry the address they have in the
program, so that handles and the links between a node and its group can be
spoken of; everything else follows the functions of the source, each returning
the tree it leaves behind. Positions are unbounded integers: runs in which a
position leaves the range of `int` are outside the model.
-/

namespace Libpeg.IntervalTree

/-- Tree key: nodes are ordered by position, then by id. -/
structure IvKey where
  pos : Int
  id : Int
  deriving DecidableEq

/-- `iv_key_cmp`. -/
def ivKeyCmp (a b : IvKey) : Ordering :=
  if a.pos < b.pos then .lt
  else if a.pos > b.pos then .gt
  else if a.id < b.id then .lt
  else if a.id > b.id then .gt
  else .eq

variable {α : Type}

/-- One stored interval `[low, high)` and its value. -/
structure IvIns (α : Type) where
  low : Int
  high : Int
  value : α
  deriving DecidableEq

/-- The group of intervals stored under one key. `loc` is its address, which
is what a location handle points to, and `node` the address of the node that
owns it. -/
structure IvGroup (α : Type) where
  loc : Nat
  ins : List (IvIns α)
  node : Nat
  deriving DecidableEq

/-- A recorded shift: intervals starting at or after `idx` move by `amt`. -/
structure IvShift where
  idx : Int
  amt : Int
  tstamp : Nat
  deriving DecidableEq

/-- The data of a tree node. -/
structure IvNode (α : Type) where
  addr : Nat
  key : IvKey
  max : Int
  iv : IvGroup α
  tstamp : Nat
  height : Int
  deriving DecidableEq

inductive IvTree (α : Type) where
  | nil
  | node (n : IvNode α) (left right : IvTree α)
  deriving DecidableEq

/-- `struct itree`. `next` is the next unused address. -/
structure Itree (α : Type) where
  root : IvTree α
  shifts : List IvShift
  tstamp : Nat
  next : Nat

/-- `iv_group_high`. -/
def ivGroupHigh (iv : IvGroup α) : Int :=
  iv.ins.foldl (fun m i => max m i.high) 0

/-- `iv_overlaps`: half-open overlap with `[low, high)`. -/
def ivOverlaps (i : IvIns α) (low high : Int) : Bool :=
  i.low < high && i.high > low

/-- `iv_group_push`. -/
def ivGroupPush (iv : IvGroup α) (low high : Int) (value : α) : IvGroup α :=
  { iv with ins := iv.ins ++ [⟨low, high, value⟩] }

/-- `iv_group_shift`. -/
def ivGroupShift (iv : IvGroup α) (amt : Int) : IvGroup α :=
  { iv with ins := iv.ins.map fun i => { i with low := i.low + amt, high := i.high + amt } }

/-- The larger of `m` and the maximum stored at the root. -/
def maxWith (m : Int) : IvTree α → Int
  | .nil => m
  | .node n _ _ => max m n.max

def ivHeight : IvTree α → Int
  | .nil => 0
  | .node n _ _ => n.height

/-- `iv_update_max`: never lowers the stored value. -/
def ivUpdateMax (n : IvNode α) (left right : IvTree α) : IvNode α :=
  let m := maxWith (maxWith (ivGroupHigh n.iv) left) right
  if m > n.max then { n with max := m } else n

/-- `iv_update_height`. -/
def ivUpdateHeight (n : IvNode α) (left right : IvTree α) : IvNode α :=
  { n with height := 1 + max (ivHeight left) (ivHeight right) }

/-- `iv_balance`. -/
def ivBalance : IvTree α → Int
  | .nil => 0
  | .node _ l r => ivHeight l - ivHeight r

/-- `iv_apply_shift`: absorb one shift into a node. -/
def ivApplyShift (n : IvNode α) (s : IvShift) : IvNode α :=
  if n.tstamp ≥ s.tstamp then n
  else if n.max ≥ s.idx then
    if n.key.pos ≥ s.idx then
      { n with
        tstamp := s.tstamp
        max := n.max + s.amt
        key := { n.key with pos := n.key.pos + s.amt }
        iv := ivGroupShift n.iv s.amt }
    else { n with tstamp := s.tstamp, max := n.max + s.amt }
  else { n with tstamp := s.tstamp }

/-- The shifts of the log newer than a timestamp, found from its end. -/
def pendingShifts (shifts : List IvShift) (tstamp : Nat) : List IvShift :=
  (shifts.reverse.takeWhile fun s => s.tstamp > tstamp).reverse

/-- The timestamp test and the replay loop of `iv_apply_shifts`. -/
def ivReplay (shifts : List IvShift) (n : IvNode α) : IvNode α :=
  (pendingShifts shifts n.tstamp).foldl ivApplyShift n

/-- `iv_apply_shifts` on a node with the given children. -/
def ivApplyShifts (shifts : List IvShift) (n : IvNode α) (left right : IvTree α) : IvNode α :=
  if shifts = [] then n else ivUpdateMax (ivReplay shifts n) left right

/-- `iv_apply_shifts` through a child pointer. -/
def ivAbsorb (shifts : List IvShift) : IvTree α → IvTree α
  | .nil => .nil
  | .node n l r => .node (ivApplyShifts shifts n l r) l r

/-- `iv_record_shift`. -/
def ivRecordShift (t : Itree α) (idx amt : Int) : Itree α :=
  if amt = 0 then t
  else { t with
    tstamp := t.tstamp + 1
    shifts := t.shifts ++ [⟨idx, amt, t.tstamp + 1⟩] }

def ivUpdate (n : IvNode α) (left right : IvTree α) : IvNode α :=
  ivUpdateMax (ivUpdateHeight n left right) left right

/-- `iv_rotate_left`: both nodes absorb their shifts first. -/
def ivRotateLeft (shifts : List IvShift) : IvTree α → IvTree α
  | .node n l (.node m rl rr) =>
      let n := ivApplyShifts shifts n l (.node m rl rr)
      let m := ivApplyShifts shifts m rl rr
      let t := .node (ivUpdate n l rl) l rl
      .node (ivUpdate m t rr) t rr
  | t => t

/-- `iv_rotate_right`. -/
def ivRotateRight (shifts : List IvShift) : IvTree α → IvTree α
  | .node n (.node m ll lr) r =>
      let n := ivApplyShifts shifts n (.node m ll lr) r
      let m := ivApplyShifts shifts m ll lr
      let t := .node (ivUpdate n lr r) lr r
      .node (ivUpdate m ll t) ll t
  | t => t

def ivDepth : IvTree α → Nat
  | .nil => 0
  | .node _ l r => 1 + max (ivDepth l) (ivDepth r)

def ivNodes : IvTree α → Nat
  | .nil => 0
  | .node _ l r => 1 + ivNodes l + ivNodes r

/-- The recursion of `iv_rebalance`; the first argument bounds its depth. -/
def ivRebalanceLoop (shifts : List IvShift) : Nat → IvTree α → IvTree α
  | 0, t => t
  | _ + 1, .nil => .nil
  | fuel + 1, .node n l r =>
      let n := ivUpdate n l r
      if ivHeight l - ivHeight r > 1 then
        let l := if ivBalance l < 0 then ivRotateLeft shifts l else l
        match ivRotateRight shifts (.node n l r) with
        | .nil => .nil
        | .node m ml mr =>
            ivRebalanceLoop shifts fuel (.node m ml (ivRebalanceLoop shifts fuel mr))
      else if ivHeight l - ivHeight r < -1 then
        let r := if ivBalance r > 0 then ivRotateRight shifts r else r
        match ivRotateLeft shifts (.node n l r) with
        | .nil => .nil
        | .node m ml mr =>
            ivRebalanceLoop shifts fuel (.node m (ivRebalanceLoop shifts fuel ml) mr)
      else .node n l r

/-- `iv_rebalance`. -/
def ivRebalance (shifts : List IvShift) (t : IvTree α) : IvTree α :=
  ivRebalanceLoop shifts (ivDepth t + 3) t

/-- `iv_add`: the new tree and the handle of the interval. -/
def ivAdd (shifts : List IvShift) (tstamp fresh : Nat) (key : IvKey) (high : Int)
    (value : α) : IvTree α → IvTree α × Nat
  | .nil =>
      (.node {
        addr := fresh
        key := key
        max := high
        iv := ⟨fresh, [⟨key.pos, high, value⟩], fresh⟩
        tstamp := tstamp
        height := 1 } .nil .nil, fresh)
  | .node n l r =>
      let n := ivApplyShifts shifts n l r
      match ivKeyCmp key n.key with
      | .lt =>
          let (l, loc) := ivAdd shifts tstamp fresh key high value l
          (ivRebalance shifts (.node n l r), loc)
      | .gt =>
          let (r, loc) := ivAdd shifts tstamp fresh key high value r
          (ivRebalance shifts (.node n l r), loc)
      | .eq =>
          let n := { n with iv := ivGroupPush n.iv key.pos high value, tstamp := tstamp }
          (ivRebalance shifts (.node n l r), n.iv.loc)

/-- The nodes that `iv_find_smallest` visits below its starting node absorb
their shifts. -/
def ivAbsorbLeft (shifts : List IvShift) : IvTree α → IvTree α
  | .nil => .nil
  | .node n l r => .node (ivApplyShifts shifts n l r) (ivAbsorbLeft shifts l) r

/-- The tree that `iv_find_smallest` leaves behind. -/
def ivFindSmallest (shifts : List IvShift) : IvTree α → IvTree α
  | .nil => .nil
  | .node n l r => .node n (ivAbsorbLeft shifts l) r

def ivLeftmost : IvTree α → Option (IvNode α)
  | .nil => none
  | .node n l _ => (ivLeftmost l).or (some n)

def ivSetLeftmost (f : IvNode α → IvNode α) : IvTree α → IvTree α
  | .nil => .nil
  | .node n .nil r => .node (f n) .nil r
  | .node n l r => .node n (ivSetLeftmost f l) r

/-- The recursion of `iv_remove`; the first argument bounds its depth. A node
with two children adopts the key and the group of its successor, which keeps the
emptied group and is deleted in its place. -/
def ivRemoveLoop (shifts : List IvShift) : Nat → IvKey → IvTree α → IvTree α
  | 0, _, t => t
  | _ + 1, _, .nil => .nil
  | fuel + 1, key, .node n l r =>
      let n := ivApplyShifts shifts n l r
      match ivKeyCmp key n.key with
      | .lt => ivRebalance shifts (.node n (ivRemoveLoop shifts fuel key l) r)
      | .gt => ivRebalance shifts (.node n l (ivRemoveLoop shifts fuel key r))
      | .eq =>
          match l, r with
          | .nil, .nil => .nil
          | l, .nil => ivRebalance shifts (ivAbsorb shifts l)
          | .nil, r => ivRebalance shifts (ivAbsorb shifts r)
          | l, r =>
              let l := ivAbsorb shifts l
              let r := ivFindSmallest shifts (ivAbsorb shifts r)
              match ivLeftmost r with
              | none => .node n l r
              | some succ =>
                  let r := ivSetLeftmost
                    (fun s => { s with iv := { n.iv with node := s.addr } }) r
                  let n := { n with
                    key := succ.key
                    iv := { succ.iv with node := n.addr }
                    tstamp := succ.tstamp }
                  ivRebalance shifts (.node n l (ivRemoveLoop shifts fuel succ.key r))

/-- `iv_remove`. -/
def ivRemove (shifts : List IvShift) (key : IvKey) (t : IvTree α) : IvTree α :=
  ivRemoveLoop shifts (ivDepth t) key t

/-- What follows a freed slot once the last interval has been moved into it. -/
def ivMoveLast (rest : List (IvIns α)) : List (IvIns α) :=
  match rest.getLast? with
  | none => []
  | some j => j :: rest.dropLast

/-- The loop of `iv_remove_overlaps` over a group: an overlapping interval is
handed to `on_evict` and its slot taken by the last one. -/
def ivDropOverlaps (low high : Int) : Nat → List (IvIns α) → List (IvIns α) → List (IvIns α) →
    List (IvIns α) × List (IvIns α)
  | 0, kept, rest, evicted => (kept ++ rest, evicted)
  | _ + 1, kept, [], evicted => (kept, evicted)
  | fuel + 1, kept, i :: rest, evicted =>
      if ivOverlaps i low high then
        ivDropOverlaps low high fuel kept (ivMoveLast rest) (evicted ++ [i])
      else ivDropOverlaps low high fuel (kept ++ [i]) rest evicted

/-- `iv_remove_overlaps`: the remaining tree and the evicted intervals with their
bounds, in the order of the calls of `on_evict`. There is no result when the calls
nest deeper than the first argument allows. No number of calls is enough for some
trees whose keys are out of order: `iv_remove` may miss the emptied node there, and
the restart meets it again. -/
def ivRemoveOverlaps (shifts : List IvShift) (low high : Int) :
    Nat → IvTree α → Option (IvTree α × List (IvIns α))
  | 0, _ => none
  | _ + 1, .nil => some (.nil, [])
  | fuel + 1, .node n l r =>
      let n := ivApplyShifts shifts n l r
      if low > n.max then some (.node n l r, [])
      else do
        let (l, ev) ← ivRemoveOverlaps shifts low high fuel l
        let (ins, ev') := ivDropOverlaps low high n.iv.ins.length [] n.iv.ins []
        let n := { n with iv := { n.iv with ins := ins } }
        if ins.isEmpty then
          let t := ivRemove shifts n.key (.node n l r)
          if high ≥ n.key.pos then
            let (t, ev'') ← ivRemoveOverlaps shifts low high fuel t
            return (ivRebalance shifts t, ev ++ ev' ++ ev'')
          else return (ivRebalance shifts t, ev ++ ev')
        else if high < n.key.pos then
          return (ivRebalance shifts (.node n l r), ev ++ ev')
        else
          let (r, ev'') ← ivRemoveOverlaps shifts low high fuel r
          return (ivRebalance shifts (.node n l r), ev ++ ev' ++ ev'')

/-- `itree_new`. -/
def itreeNew : Itree α :=
  ⟨.nil, [], 0, 0⟩

/-- `itree_add`. -/
def itreeAdd (t : Itree α) (id low high : Int) (value : α) : Itree α × Nat :=
  let (root, loc) := ivAdd t.shifts t.tstamp t.next ⟨low, id⟩ high value t.root
  ({ t with root := root, next := t.next + 1 }, loc)

/-- The search of `itree_find_largest`: the node with the key, and the tree in
which the visited nodes have absorbed their shifts. -/
def ivSearch (shifts : List IvShift) (key : IvKey) : IvTree α → IvTree α × Option (IvNode α)
  | .nil => (.nil, none)
  | .node n l r =>
      let n := ivApplyShifts shifts n l r
      match ivKeyCmp key n.key with
      | .lt =>
          let (l, found) := ivSearch shifts key l
          (.node n l r, found)
      | .gt =>
          let (r, found) := ivSearch shifts key r
          (.node n l r, found)
      | .eq => (.node n l r, some n)

/-- The longest interval of a group; the first one in the array wins ties. -/
def ivLargest : List (IvIns α) → Option (IvIns α)
  | [] => none
  | i :: is =>
      some (is.foldl (fun best j => if j.high - j.low > best.high - best.low then j else best) i)

/-- `itree_find_largest`. -/
def itreeFindLargest (t : Itree α) (id pos : Int) : Itree α × Option α :=
  let (root, found) := ivSearch t.shifts ⟨pos, id⟩ t.root
  ({ t with root := root }, found.bind fun n => (ivLargest n.iv.ins).map IvIns.value)

/-- `itree_remove_and_shift_cb`: the tree and the evicted intervals, when the
removal returns within the given depth. -/
def itreeRemoveAndShift (fuel : Nat) (t : Itree α) (low high amt : Int) :
    Option (Itree α × List (IvIns α)) := do
  let (root, evicted) ← ivRemoveOverlaps t.shifts low high fuel t.root
  return (ivRecordShift { t with root := root } low amt, evicted)

/-- `iv_size`. -/
def ivSize : IvTree α → Nat
  | .nil => 0
  | .node n l r => ivSize l + ivSize r + n.iv.ins.length

/-- `itree_size`. -/
def itreeSize (t : Itree α) : Nat :=
  ivSize t.root

/-- `iv_each`: the reported intervals in order. The key of the node is reported
with each of them. -/
def ivEach (shifts : List IvShift) : IvTree α → IvTree α × List (IvKey × IvIns α)
  | .nil => (.nil, [])
  | .node n l r =>
      let (l, before) := ivEach shifts l
      let n := ivApplyShifts shifts n l r
      let (r, after) := ivEach shifts r
      (.node n l r, before ++ n.iv.ins.map (fun i => (n.key, i)) ++ after)

/-- `itree_each`. -/
def itreeEach (t : Itree α) : Itree α × List (IvKey × IvIns α) :=
  let (root, out) := ivEach t.shifts t.root
  ({ t with root := root }, out)

/-- The node that owns the group a handle points to. -/
def ivGroupNode (loc : Nat) : IvTree α → Option Nat
  | .nil => none
  | .node n l r =>
      if n.iv.loc = loc then some n.iv.node
      else (ivGroupNode loc l).or (ivGroupNode loc r)

/-- Absorb the shifts of the node at an address; the node afterwards. -/
def ivApplyAt (shifts : List IvShift) (addr : Nat) : IvTree α → IvTree α × Option (IvNode α)
  | .nil => (.nil, none)
  | .node n l r =>
      if n.addr = addr then
        let n := ivApplyShifts shifts n l r
        (.node n l r, some n)
      else
        match ivApplyAt shifts addr l with
        | (l, some m) => (.node n l r, some m)
        | (l, none) =>
            let (r, found) := ivApplyAt shifts addr r
            (.node n l r, found)

/-- `itree_loc_pos`; `none` when the handle does not point into the tree. -/
def itreeLocPos (t : Itree α) (loc : Nat) : Itree α × Option Int :=
  match ivGroupNode loc t.root with
  | none => (t, none)
  | some addr =>
      let (root, found) := ivApplyAt t.shifts addr t.root
      ({ t with root := root }, found.map fun n => n.key.pos)

/-- `iv_apply_all`. -/
def ivApplyAll (shifts : List IvShift) : IvTree α → IvTree α
  | .nil => .nil
  | .node n l r =>
      let l := ivApplyAll shifts l
      let r := ivApplyAll shifts r
      .node (ivApplyShifts shifts n l r) l r

/-- `itree_apply_all_shifts`. -/
def itreeApplyAllShifts (t : Itree α) : Itree α :=
  { t with root := ivApplyAll t.shifts t.root, shifts := [] }

end Libpeg.IntervalTree
