import Libpeg.Peg
import Libpeg.RunSimulation
import Libpeg.Relocation

/-!
Sessions with one parser: any sequence of calls on it, with results that are kept
for as long as the caller likes. Next to the parser a session keeps, for every
entry that was ever stored, the state in which it was stored.
-/

namespace Libpeg.Session

open Libpeg.Code Libpeg.IntervalTree Libpeg.IntervalCells Libpeg.IntervalRefinement
open Libpeg.IntervalHandles Libpeg.Memo Libpeg.Input Libpeg.Vm Libpeg.Peg Libpeg.MemoView Libpeg.Forest
open Libpeg.AbstractVm Libpeg.Simulation Libpeg.StepSimulation Libpeg.Positions
open Libpeg.RunSimulation Libpeg.Relocation

/-- Memory, table and subject right after an instruction that stored an entry. -/
structure Snapshot where
  mem : Mem
  tbl : MemoTable
  subject : List UInt8

/-- One snapshot for each entry that an instruction stores. -/
def snapshots (a : VmArgs) (s s' : VmState) : List Snapshot :=
  match s'.tbl with
  | none => []
  | some t =>
      List.replicate (s'.mem.entries.length - s.mem.entries.length) ⟨s'.mem, t, a.input⟩

/-- The snapshots of a run of at most the given number of instructions. -/
def vmSnapshots (a : VmArgs) : Nat → VmState → List Snapshot
  | 0, _ => []
  | fuel + 1, s =>
      match vmStep a s with
      | .running s' => snapshots a s s' ++ vmSnapshots a fuel s'
      | .done s' _ | .failed s' => snapshots a s s'
      | .aborted _ => []

/-- A parser, the results that were not freed, and for the address of every entry
the state in which it was stored. -/
structure PegSession where
  peg : Peg
  kept : List VmResult
  stored : List Snapshot

/-- The parser and the window on which a call executes the program. -/
def execArgs (g : Peg) : PegOp → Option (Peg × Int × Int)
  | .parse data => some (pegReset g data, -1, -1)
  | .edit _ _ _ => none
  | .reparse => some (g, -1, -1)
  | .captureInterval low high => some (g, low, high)

/-- The state in which the machine starts on a parser, once the removal of the window
has returned. -/
def pegStart (fuel : Nat) (g : Peg) (low high : Int) : Option VmState :=
  (vmClear fuel (g.args low high) g.mem (some g.tbl)).map fun x =>
    vmStart (g.args low high) x.1 x.2 g.nchecks

/-- The snapshots of a call that executes the program. -/
def pegSnapshots (fuel : Nat) (g : Peg) (low high : Int) : List Snapshot :=
  ((pegStart fuel g low high).map (vmSnapshots (g.args low high) fuel)).getD []

/-- The states of sessions in which `P` holds before every call. -/
inductive SessionRun (P : Peg → PegOp → Prop) (code : VmCode) (threshold : Int) : PegSession → Prop
  | new : SessionRun P code threshold ⟨pegNew code threshold, [], []⟩
  | exec {s : PegSession} {op : PegOp} {g g' : Peg} {low high : Int} {fuel : Nat} {r : VmResult}
      (h : SessionRun P code threshold s) (hP : P s.peg op)
      (hop : execArgs s.peg op = some (g, low, high))
      (hrun : pegExec fuel g low high = some (.ok (r, g'))) :
      SessionRun P code threshold
        ⟨g', s.kept ++ [r], s.stored ++ pegSnapshots fuel g low high⟩
  | edit {s : PegSession} {start stop : Int} {text : List UInt8} {fuel : Nat} {g : Peg}
      (h : SessionRun P code threshold s) (hP : P s.peg (.edit start stop text))
      (hedit : pegEdit fuel s.peg start stop text = some (.ok g)) :
      SessionRun P code threshold ⟨g, s.kept, s.stored⟩
  | free {s : PegSession} {i : Nat} {r : VmResult} (h : SessionRun P code threshold s)
      (hr : s.kept[i]? = some r) :
      SessionRun P code threshold
        ⟨{ s.peg with mem := vmResultFree s.peg.mem r }, s.kept.eraseIdx i, s.stored⟩

theorem SessionRun.mono {P P' : Peg → PegOp → Prop} {code : VmCode} {threshold : Int}
    {s : PegSession} (h : SessionRun P code threshold s) (hPP' : ∀ g op, P g op → P' g op) :
    SessionRun P' code threshold s := by
  induction h with
  | new => exact .new
  | exec h hP hop hrun ih => exact .exec ih (hPP' _ _ hP) hop hrun
  | edit h hP hedit ih => exact .edit ih (hPP' _ _ hP) hedit
  | free h hr ih => exact .free ih hr

/-- One call within a number of instructions, if it returns. -/
def call (fuel : Nat) (op : PegOp) (s : PegSession) : Option PegSession :=
  match op with
  | .edit start stop text =>
      match pegEdit fuel s.peg start stop text with
      | some (.ok g) => some ⟨g, s.kept, s.stored⟩
      | _ => none
  | op =>
      match execArgs s.peg op with
      | none => none
      | some (g, low, high) =>
          match pegExec fuel g low high with
          | some (.ok (r, g')) =>
              some ⟨g', s.kept ++ [r], s.stored ++ pegSnapshots fuel g low high⟩
          | _ => none

/-- Some calls, each with `P` before it. -/
def play (P : Peg → PegOp → Prop) [∀ g op, Decidable (P g op)] :
    List (Nat × PegOp) → PegSession → Option PegSession
  | [], s => some s
  | (fuel, op) :: ops, s =>
      if P s.peg op then (call fuel op s).bind (play P ops) else none

theorem call_run {P : Peg → PegOp → Prop} {code : VmCode} {threshold : Int} {fuel : Nat}
    {op : PegOp} {s s' : PegSession} (h : SessionRun P code threshold s) (hP : P s.peg op)
    (hcall : call fuel op s = some s') : SessionRun P code threshold s' := by
  unfold call at hcall
  split at hcall
  · split at hcall
    · next g hedit =>
        cases hcall
        exact h.edit hP hedit
    · cases hcall
  · split at hcall
    · cases hcall
    · next hop =>
        split at hcall
        · next hrun =>
            cases hcall
            exact h.exec hP hop hrun
        · cases hcall

theorem play_run {P : Peg → PegOp → Prop} [∀ g op, Decidable (P g op)] {code : VmCode}
    {threshold : Int} {ops : List (Nat × PegOp)} {s s' : PegSession}
    (h : SessionRun P code threshold s) (hplay : play P ops s = some s') :
    SessionRun P code threshold s' := by
  induction ops generalizing s with
  | nil =>
      cases hplay
      exact h
  | cons o ops ih =>
      rw [play] at hplay
      split at hplay
      · next hP =>
          obtain ⟨s₁, hcall, hrest⟩ := Option.bind_eq_some_iff.mp hplay
          exact ih (call_run h hP hcall) hrest
      · cases hplay

def compiledCode (fuel : Nat) (p : Pattern.Pat) : VmCode :=
  ((Compile.patCompile fuel 0 p).bind Except.toOption).getD ⟨[], [], [], [], []⟩

theorem patCompile_compiledCode {fuel : Nat} {p : Pattern.Pat}
    (h : ((Compile.patCompile fuel 0 p).bind Except.toOption).isSome = true) :
    Compile.patCompile fuel 0 p = some (.ok (compiledCode fuel p)) := by
  unfold compiledCode
  rcases hc : Compile.patCompile fuel 0 p with _ | (msg | code)
  · simp [hc] at h
  · simp [hc, Except.toOption] at h
  · simp [Except.toOption]

/-- A state between two instructions of a run. -/
inductive Boundary (a : VmArgs) (s : VmState) : VmState → Prop
  | start : Boundary a s s
  | step {s' s'' : VmState} (h : Boundary a s s') (hstep : vmStep a s' = .running s'') :
      Boundary a s s''

section Machine

variable {a : VmArgs} {ref : List (RefIv Nat)} {p : Nat → Int} {s : VmState}

theorem nextTable_absNext {b : Bool} {r : VmNext} {s' : VmState}
    (h : NextTable b (absNext ref p r)) (hs' : nextState r = some s') : s'.tbl.isSome = b := by
  cases r with
  | aborted msg => cases hs'
  | _ =>
      cases hs'
      simpa [NextTable, absNext, absState] using h

theorem Boundary.ok {s' : VmState} (hb : Boundary a s s') (h : Ok a.input ref p s)
    (hplaced : Placed (absState ref p s)) :
    ∃ ref' p', Ok a.input ref' p' s' ∧ Placed (absState ref' p' s') ∧
      s'.tbl.isSome = s.tbl.isSome ∧ Grown s.mem p s'.mem p' ref ref' := by
  induction hb with
  | start => exact ⟨ref, p, h, hplaced, rfl, Extends.grown (.refl _) p⟩
  | step hb hstep ih =>
      obtain ⟨ref', p', hok, hpl, hsome, hgrown⟩ := ih
      obtain ⟨ρ, -, hnext, htbl, ref'', p'', habs, hok'⟩ := vmStep_sim hok hpl
      rw [hstep] at habs hok'
      obtain ⟨hok', hgrown'⟩ := hok' _ rfl
      subst habs
      have hsome' := nextTable_absNext htbl rfl
      exact ⟨ref'', p'', hok', hnext _ rfl, hsome'.trans hsome, hgrown.trans hgrown'⟩

theorem Boundary.head {s s' s'' : VmState} (hstep : vmStep a s = .running s')
    (h : Boundary a s' s'') : Boundary a s s'' := by
  induction h with
  | start => exact .step .start hstep
  | step h hstep' ih => exact .step ih hstep'

theorem vmLoop_boundary {fuel : Nat} {r : VmNext} (h : vmLoop a fuel s = some r) :
    ∃ st, Boundary a s st ∧ vmStep a st = r := by
  induction fuel generalizing s with
  | zero => cases h
  | succ fuel ih =>
      rw [vmLoop] at h
      split at h
      · next s' hstep =>
          obtain ⟨st, hb, hr⟩ := ih h
          exact ⟨st, Boundary.head hstep hb, hr⟩
      · next hstep =>
          cases h
          exact ⟨s, .start, rfl⟩

/-- `snap` was taken when the entry behind `q` was stored, and nothing has moved
since. -/
structure Taken (snap : Snapshot) (subject : List UInt8) (m : Mem) (p : Nat → Int)
    (q : RefIv Nat) : Prop where
  subject : snap.subject = subject
  pos : (memoEntryPos snap.mem snap.tbl q.value).2 = q.low
  stored : q.value < snap.mem.entries.length
  entries : snap.mem.entries <+: m.entries
  start : ∀ (c : Nat) (cell : VCell), c < snap.mem.caps.length →
    (view m p)[c]? = some cell → (memoCaptureStart snap.mem snap.tbl c).2 = cell.start
  captures : ∀ e, m.entries[q.value]? = some e → ∀ c ∈ e.captures, c < snap.mem.caps.length
  length : snap.mem.caps.length ≤ m.caps.length

theorem taken_now {t : MemoTable} {m : Mem} (h : MemoOk m (some t) ref p) {q : RefIv Nat}
    (hq : q ∈ ref) (input : List UInt8) : Taken ⟨m, t, input⟩ input m p q := by
  obtain ⟨e, he, -⟩ := h.entry q hq
  refine ⟨rfl, ?_, (List.getElem?_eq_some_iff.mp he).1, List.prefix_refl _, ?_, ?_, le_rfl⟩
  · rw [memoEntryPos_eq h hq, h.pos q hq]
  · intro c cell _ hcell
    rw [view, List.getElem?_map, Option.map_eq_some_iff] at hcell
    obtain ⟨cap, hcap, rfl⟩ := hcell
    exact memoCaptureStart_eq h hcap
  · intro e he c hc
    exact h.captures e (List.mem_of_getElem? he) c hc

theorem Taken.grown {snap : Snapshot} {subject : List UInt8} {m m' : Mem} {p' : Nat → Int}
    {q : RefIv Nat} {ref' : List (RefIv Nat)} (h : Taken snap subject m p q)
    (hgrown : Grown m p m' p' ref ref') : Taken snap subject m' p' q := by
  have hlen : m.caps.length ≤ m'.caps.length := by
    simpa [view] using hgrown.view.length_le
  refine ⟨h.subject, h.pos, h.stored, h.entries.trans hgrown.entries, ?_, ?_, h.length.trans hlen⟩
  · intro c cell hc hcell
    refine h.start c cell hc ?_
    obtain ⟨tail, htail⟩ := hgrown.view
    have hlt : c < (view m p).length := by
      rw [view, List.length_map]
      exact hc.trans_le h.length
    rwa [← htail, List.getElem?_append_left hlt] at hcell
  · intro e he
    have hlt := h.stored.trans_le h.entries.length_le
    obtain ⟨tail, htail⟩ := hgrown.entries
    rw [← htail, List.getElem?_append_left hlt] at he
    exact h.captures e he

theorem snapshots_spec {s' : VmState} {ref' : List (RefIv Nat)} {p' : Nat → Int}
    (hok : Ok a.input ref' p' s') (hgrown : Grown s.mem p s'.mem p' ref ref') :
    (snapshots a s s').length = s'.mem.entries.length - s.mem.entries.length ∧
      ∀ q ∈ ref', s.mem.entries.length ≤ q.value → ∃ snap,
        (snapshots a s s')[q.value - s.mem.entries.length]? = some snap ∧
          Taken snap a.input s'.mem p' q := by
  obtain ⟨new, href, -, hlen⟩ := hgrown.ref
  cases ht : s'.tbl with
  | none =>
      have hnil := hok.memo.none ht
      rw [hnil] at href
      obtain ⟨-, rfl⟩ := List.append_eq_nil_iff.mp href.symm
      simp only [List.length_nil, Nat.add_zero] at hlen
      simp [snapshots, ht, hlen, hnil]
  | some t =>
      have hmemo := hok.memo
      rw [ht] at hmemo
      simp only [snapshots, ht, List.length_replicate, true_and]
      intro q hq hge
      obtain ⟨e, he, -⟩ := hmemo.entry q hq
      have hlt := (List.getElem?_eq_some_iff.mp he).1
      refine ⟨⟨s'.mem, t, a.input⟩, ?_, taken_now hmemo hq a.input⟩
      rw [List.getElem?_replicate, if_pos (by omega)]

/-- A run that ends leaves a well-formed state, and a snapshot of every entry that
it stored. -/
theorem vmSnapshots_spec (fuel : Nat) (h : Ok a.input ref p s)
    (hplaced : Placed (absState ref p s)) {r : VmNext} (hr : vmLoop a fuel s = some r)
    {s' : VmState} (hs' : nextState r = some s') :
    ∃ ref' p', Ok a.input ref' p' s' ∧ s'.tbl.isSome = s.tbl.isSome ∧
      Grown s.mem p s'.mem p' ref ref' ∧
      (vmSnapshots a fuel s).length = s'.mem.entries.length - s.mem.entries.length ∧
      ∀ q ∈ ref', s.mem.entries.length ≤ q.value → ∃ snap,
        (vmSnapshots a fuel s)[q.value - s.mem.entries.length]? = some snap ∧
          Taken snap a.input s'.mem p' q := by
  induction fuel generalizing s ref p with
  | zero => cases hr
  | succ fuel ih =>
      obtain ⟨ρ, hstep, hpl, htbl, ref₁, p₁, habs, hok₁⟩ := vmStep_sim h hplaced
      rw [vmLoop] at hr
      cases hnext : vmStep a s with
      | running s₁ =>
          rw [hnext] at hr habs hok₁
          obtain ⟨hok₁, hgrown₁⟩ := hok₁ s₁ rfl
          subst habs
          have hsome := nextTable_absNext htbl rfl
          obtain ⟨hlen₁, hsnap₁⟩ := snapshots_spec hok₁ hgrown₁
          obtain ⟨ref', p', hok, hsome', hgrown, hlen, hsnap⟩ := ih hok₁ (hpl _ rfl) hr
          have hle₁ := hgrown₁.entries.length_le
          have hle := hgrown.entries.length_le
          simp only [vmSnapshots, hnext]
          refine ⟨ref', p', hok, hsome'.trans hsome, hgrown₁.trans hgrown, ?_, ?_⟩
          · rw [List.length_append, hlen₁, hlen]
            omega
          · intro q hq hge
            by_cases hlt : q.value < s₁.mem.entries.length
            · obtain ⟨snap, hget, htaken⟩ := hsnap₁ q (hgrown.mem_old hq hlt) hge
              refine ⟨snap, ?_, htaken.grown hgrown⟩
              rw [List.getElem?_append_left (by omega)]
              exact hget
            · obtain ⟨snap, hget, htaken⟩ := hsnap q hq (by omega)
              refine ⟨snap, ?_, htaken⟩
              rw [List.getElem?_append_right (by omega), hlen₁, ← hget]
              congr 1
              omega
      | done s₁ success =>
          rw [hnext] at hr habs hok₁
          cases hr
          cases hs'
          obtain ⟨hok₁, hgrown₁⟩ := hok₁ s' rfl
          subst habs
          simp only [vmSnapshots, hnext]
          exact ⟨ref₁, p₁, hok₁, nextTable_absNext htbl rfl, hgrown₁,
            snapshots_spec hok₁ hgrown₁⟩
      | failed s₁ =>
          rw [hnext] at hr habs hok₁
          cases hr
          cases hs'
          obtain ⟨hok₁, hgrown₁⟩ := hok₁ s' rfl
          subst habs
          simp only [vmSnapshots, hnext]
          exact ⟨ref₁, p₁, hok₁, nextTable_absNext htbl rfl, hgrown₁,
            snapshots_spec hok₁ hgrown₁⟩
      | aborted msg =>
          rw [hnext] at hr
          cases hr
          cases hs'

theorem vmFinish_done {s' : VmState} {success : Bool} {res : VmResult} {after : VmAfter}
    (hfin : vmFinish a (.done s' success) = .ok (res, after)) :
    ∃ cell : MemoCapture, cell.ment = none ∧ cell.dummy = true ∧ cell.children = s'.capt ∧
      after.mem.caps = s'.mem.caps ++ [cell] ∧ after.mem.entries = s'.mem.entries ∧
      after.tbl = s'.tbl ∧
      res = ⟨success, vmInputPos s'.src, some s'.mem.caps.length, s'.errs⟩ := by
  have hroot : ∀ start length : Int, ∃ cell : MemoCapture, cell.ment = none ∧ cell.dummy = true ∧
      cell.children = s'.capt ∧
      (s'.capt.foldl (fun m c => memoCaptureAdd m s'.mem.caps.length c)
        (memoCaptureDummy s'.mem start length).2).caps = s'.mem.caps ++ [cell] ∧
      (s'.capt.foldl (fun m c => memoCaptureAdd m s'.mem.caps.length c)
        (memoCaptureDummy s'.mem start length).2).entries = s'.mem.entries := by
    intro start length
    obtain ⟨hcaps, hentries⟩ := foldl_memoCaptureAdd s'.capt
      (show (memoCaptureDummy s'.mem start length).2.caps = s'.mem.caps ++ [_] from rfl)
    exact ⟨_, rfl, rfl, by simp, hcaps, hentries⟩
  have hdrop : ∀ (m : Mem) (stack : List StackEntry),
      (stack.foldl (fun m e => freeAll m e.capt) m).caps = m.caps ∧
        (stack.foldl (fun m e => freeAll m e.capt) m).entries = m.entries := by
    intro m stack
    induction stack generalizing m with
    | nil => exact ⟨rfl, rfl⟩
    | cons e stack ih => simpa using ih (freeAll m e.capt)
  have hafter : ∃ start length : Int, after.tbl = s'.tbl ∧
      after.mem = freeAll (s'.stack.reverse.foldl (fun m e => freeAll m e.capt)
        (s'.capt.foldl (fun m c => memoCaptureAdd m s'.mem.caps.length c)
          (memoCaptureDummy s'.mem start length).2)) s'.capt ∧
      res = ⟨success, vmInputPos s'.src, some s'.mem.caps.length, s'.errs⟩ := by
    simp only [vmFinish] at hfin
    cases hw : a.windowed with
    | true =>
        simp only [hw, if_true] at hfin
        cases hfin
        exact ⟨_, _, rfl, rfl, rfl⟩
    | false =>
        simp only [hw, Bool.false_eq_true, if_false] at hfin
        cases hfin
        exact ⟨_, _, rfl, rfl, rfl⟩
  obtain ⟨start, length, htbl, hmem, hres⟩ := hafter
  obtain ⟨cell, hment, hdummy, hkids, hcaps, hentries⟩ := hroot start length
  refine ⟨cell, hment, hdummy, hkids, ?_, ?_, htbl, hres⟩
  · rw [hmem, freeAll_caps, (hdrop _ _).1, hcaps]
  · rw [hmem, freeAll_entries, (hdrop _ _).2, hentries]

theorem vmFinish_ok {r : VmNext} {s' : VmState} (h : Ok a.input ref p s')
    (hs' : nextState r = some s') {res : VmResult} {after : VmAfter}
    (hfin : vmFinish a r = .ok (res, after)) :
    MemoOk after.mem s'.tbl ref p ∧ Extends s'.mem after.mem ∧ after.tbl = s'.tbl := by
  cases r with
  | running s => cases hfin
  | aborted msg => cases hfin
  | failed s =>
      cases hs'
      cases hfin
      exact ⟨h.memo.congr (by simp) (by simp), .of_eq (by simp) (by simp), rfl⟩
  | done s success =>
      cases hs'
      obtain ⟨cell, hment, -, hkids, hcaps, hentries, htbl, -⟩ := vmFinish_done hfin
      exact ⟨memoOk_grow h.memo hcaps hentries hment (hkids ▸ h.capt),
        ⟨hentries, hcaps ▸ List.prefix_append _ _⟩, htbl⟩

/-- The captures that the result of a match reads as are those of the machine. -/
theorem vmFinish_forest {s' : VmState} {success : Bool} (h : Ok a.input ref p s')
    {res : VmResult} {after : VmAfter} (hfin : vmFinish a (.done s' success) = .ok (res, after)) :
    forest (view after.mem p) res.captures.toList = forest (view s'.mem p) s'.capt ∧
      ∀ c ∈ res.captures.toList, c < after.mem.caps.length := by
  obtain ⟨hmemo, -, -⟩ := vmFinish_ok h rfl hfin
  obtain ⟨cell, hment, hdummy, hkids, hcaps, -, -, rfl⟩ := vmFinish_done hfin
  have hview : view after.mem p = view s'.mem p ++ [vcell p cell] := by
    simp [view, hcaps]
  have hroot : (view after.mem p)[s'.mem.caps.length]? = some (vcell p cell) := by
    simp [view, hcaps]
  have hlt : ∀ c ∈ s'.capt, c < (view s'.mem p).length := by
    simpa [view] using h.capt
  refine ⟨?_, by simp [hcaps]⟩
  rw [Option.toList_some, forest_cons, forest_nil, append_nil,
    capTree_eq (olderView hmemo.older p) hroot]
  simp only [vcell, hdummy, if_true, hkids]
  rw [hview, forest_grow (olderView h.memo.older p) hlt]

end Machine

section Calls

variable {ref : List (RefIv Nat)} {p : Nat → Int}

theorem startRef_subset (a : VmArgs) (ref : List (RefIv Nat)) : startRef a ref ⊆ ref := by
  unfold startRef
  split
  · exact fun _ hq => List.mem_of_mem_filter hq
  · exact fun _ hq => hq

theorem pegStart_unique {fuel fuel' : Nat} {g : Peg} {low high : Int} {s s' : VmState}
    (h : pegStart fuel g low high = some s) (h' : pegStart fuel' g low high = some s') : s = s' := by
  obtain ⟨x, hx, rfl⟩ := Option.map_eq_some_iff.mp h
  obtain ⟨y, hy, rfl⟩ := Option.map_eq_some_iff.mp h'
  rw [vmClear_unique hx hy]

theorem pegStart_ok {g : Peg} (h : MemoOk g.mem (some g.tbl) ref p) (low high : Int) :
    ∃ s, (∃ depth, ∀ fuel, depth < fuel → pegStart fuel g low high = some s) ∧
      Ok g.buf (startRef (g.args low high) ref) p s ∧
      absState (startRef (g.args low high) ref) p s =
        aStart (some (absTable g.mem (startRef (g.args low high) ref) p g.tbl)) g.nchecks ∧
      Grown g.mem p s.mem p (startRef (g.args low high) ref)
        (startRef (g.args low high) ref) := by
  obtain ⟨m, tbl, ⟨depth, hclear⟩, hmemo, htbl, hgrown⟩ := vmClear_ok h (g.args low high)
  obtain ⟨hok, habs⟩ := vmStart_ok (a := g.args low high) hmemo g.nchecks
  refine ⟨_, ⟨depth, fun fuel hfuel => ?_⟩, hok, ?_, hgrown⟩
  · rw [pegStart, hclear fuel hfuel]
    rfl
  · rw [habs, htbl]
    rfl

theorem pegStart_started {g : Peg} (h : MemoOk g.mem (some g.tbl) ref p) {low high : Int}
    {fuel : Nat} {s : VmState} (hs : pegStart fuel g low high = some s) :
    Ok g.buf (startRef (g.args low high) ref) p s ∧
      absState (startRef (g.args low high) ref) p s =
        aStart (some (absTable g.mem (startRef (g.args low high) ref) p g.tbl)) g.nchecks ∧
      Grown g.mem p s.mem p (startRef (g.args low high) ref)
        (startRef (g.args low high) ref) := by
  obtain ⟨s', ⟨depth, hreturns⟩, hstart⟩ := pegStart_ok h low high
  cases pegStart_unique hs (hreturns _ (Nat.lt_succ_self _))
  exact hstart

theorem started_placed {s : VmState} {tbl : ATable} {nchecks : Nat}
    (habs : absState ref p s = aStart (some tbl) nchecks) :
    Placed (absState ref p s) ∧ s.tbl.isSome = true := by
  have hsome := congrArg (fun s => s.tbl.isSome) habs
  refine ⟨?_, by simpa [absState, aStart] using hsome⟩
  rw [habs]
  exact aStart_placed _ _

/-- A call that executes the program either finds it empty or runs the machine to
its end. -/
theorem pegExec_cases {g g' : Peg} {low high : Int} {fuel : Nat} {r : VmResult}
    (hrun : pegExec fuel g low high = some (.ok (r, g'))) :
    ∃ after : VmAfter, g' = { g with
        mem := after.mem
        tbl := after.tbl.getD g.tbl
        nchecks := after.nchecks } ∧
      (g.code.prog = [] ∧ after.mem = (memoCaptureDummy g.mem 0 0).2 ∧ after.tbl = some g.tbl ∧
          r.captures = some g.mem.caps.length ∨
        ∃ s n, pegStart fuel g low high = some s ∧ vmLoop (g.args low high) fuel s = some n ∧
          vmFinish (g.args low high) n = .ok (r, after)) := by
  rw [pegExec, Option.map_eq_some_iff] at hrun
  obtain ⟨res, hexec, hres⟩ := hrun
  cases res with
  | error msg => cases hres
  | ok res =>
      obtain ⟨r', after⟩ := res
      cases hres
      refine ⟨after, rfl, ?_⟩
      simp only [vmExec, Option.isNone_some, Bool.false_eq_true, and_false, if_false] at hexec
      split at hexec
      · next hnil =>
          cases hexec
          exact .inl ⟨hnil, rfl, rfl, rfl⟩
      · obtain ⟨x, hclear, hloop⟩ := Option.bind_eq_some_iff.mp hexec
        obtain ⟨n, hn, hfin⟩ := Option.map_eq_some_iff.mp hloop
        refine .inr ⟨_, n, ?_, hn, hfin⟩
        rw [pegStart, hclear]
        rfl

/-- A call that executes the program keeps the memory well formed, and takes a
snapshot of every entry that it stores. -/
theorem pegExec_ok {g g' : Peg} (h : MemoOk g.mem (some g.tbl) ref p) {low high : Int}
    {fuel : Nat} {r : VmResult} (hrun : pegExec fuel g low high = some (.ok (r, g'))) :
    ∃ ref₀ ref' p', MemoOk g'.mem (some g'.tbl) ref' p' ∧ ref₀ ⊆ ref ∧
      Grown g.mem p g'.mem p' ref₀ ref' ∧ g'.buf = g.buf ∧
      g'.threshold = g.threshold ∧
      (pegSnapshots fuel g low high).length = g'.mem.entries.length - g.mem.entries.length ∧
      ∀ q ∈ ref', g.mem.entries.length ≤ q.value → ∃ snap,
        (pegSnapshots fuel g low high)[q.value - g.mem.entries.length]? = some snap ∧
          Taken snap g.buf g'.mem p' q := by
  obtain ⟨after, rfl, ⟨hnil, hmem, htbl, -⟩ | ⟨s, n, hs, hn, hfin⟩⟩ := pegExec_cases hrun
  · have hcaps : after.mem.caps = g.mem.caps ++ [⟨0, true, 0, 0, none, []⟩] := by rw [hmem]; rfl
    have hentries : after.mem.entries = g.mem.entries := by rw [hmem]; rfl
    have hmemo := memoOk_grow h hcaps hentries rfl (by simp)
    have hgrown : Grown g.mem p after.mem p ref ref :=
      Extends.grown ⟨hentries, hcaps ▸ List.prefix_append _ _⟩ p
    have hstop : pegSnapshots fuel g low high = [] := by
      rw [pegSnapshots]
      cases pegStart fuel g low high with
      | none => rfl
      | some s =>
          cases fuel with
          | zero => rfl
          | succ fuel => simp [vmSnapshots, vmStep, Peg.args, hnil]
    refine ⟨ref, ref, p, ?_, fun _ hq => hq, hgrown, rfl, rfl, by simp [hstop, hentries], ?_⟩
    · rw [htbl]
      exact hmemo
    · intro q hq hge
      obtain ⟨e, he, -⟩ := h.entry q hq
      have := (List.getElem?_eq_some_iff.mp he).1
      omega
  · obtain ⟨hok, habs, hstart⟩ := pegStart_started h hs
    obtain ⟨hplaced, hstartSome⟩ := started_placed habs
    have hstartLen : s.mem.entries.length = g.mem.entries.length := by
      obtain ⟨new, hnew, -, hlen⟩ := hstart.ref
      have hnil : new = [] := by simpa using hnew
      rw [hlen, hnil]
      rfl
    obtain ⟨s', hs'⟩ : ∃ s', nextState n = some s' := by
      cases n with
      | aborted msg => cases hfin
      | _ => exact ⟨_, rfl⟩
    obtain ⟨ref', p', hok', hsome, hgrown, hlen, hsnap⟩ := vmSnapshots_spec fuel hok hplaced hn hs'
    obtain ⟨hmemo, hext, htbl⟩ := vmFinish_ok hok' hs' hfin
    obtain ⟨t, ht⟩ : ∃ t, s'.tbl = some t :=
      Option.isSome_iff_exists.mp (hsome.trans hstartSome)
    have hlast : Grown s'.mem p' after.mem p' ref' ref' := hext.grown p'
    have hsnaps : pegSnapshots fuel g low high = vmSnapshots (g.args low high) fuel s := by
      rw [pegSnapshots, hs]
      rfl
    rw [hsnaps]
    refine ⟨startRef (g.args low high) ref, ref', p', ?_, startRef_subset _ _,
      (hstart.trans hgrown).trans hlast, rfl, rfl, ?_, ?_⟩
    · rw [htbl, ht]
      exact ht ▸ hmemo
    · rw [hlen, hext.entries, hstartLen]
    · intro q hq hge
      obtain ⟨snap, hget, htaken⟩ := hsnap q hq (hstartLen.symm ▸ hge)
      exact ⟨snap, hstartLen ▸ hget, htaken.grown hlast⟩

end Calls

end Libpeg.Session
