import Libpeg.Simulation

namespace Libpeg.Relocation

open Libpeg.IntervalTree Libpeg.IntervalCells Libpeg.IntervalOps Libpeg.IntervalRefinement
open Libpeg.IntervalHandles Libpeg.Memo Libpeg.MemoView Libpeg.Simulation

def newCapture (m : Mem) (dummy : Bool) (id start length : Int) (children : List Nat) : Mem :=
  let (c, m) :=
    if dummy then memoCaptureDummy m start length else memoCaptureNode m id start length
  children.foldl (fun m child => memoCaptureAdd m c child) m

/-- The states of a table: captures are built and entries stored, and the text is
edited; `P` holds of the table before every call on it. -/
inductive TableRun (P : MemoTable → Prop) : Mem → MemoTable → Prop
  | new (threshold : Int) : TableRun P Mem.empty (memoTableNew threshold)
  | capture {m : Mem} {t : MemoTable} (h : TableRun P m t) (dummy : Bool) (id start length : Int)
      {children : List Nat} (hchildren : ∀ d ∈ children, d < m.caps.length) :
      TableRun P (newCapture m dummy id start length children) t
  | put {m : Mem} {t : MemoTable} (h : TableRun P m t) (hP : P t) (id start length : Int)
      {examined : Int} (count : Int) {captures : List Nat} (hexam : 1 ≤ max examined length)
      (hcaptures : ∀ c ∈ captures, c < m.caps.length) :
      TableRun P (memoTablePut m t id start length examined count captures).1
        (memoTablePut m t id start length examined count captures).2
  | edit {m : Mem} {t : MemoTable} (h : TableRun P m t) (hP : P t) {edit : MemoEdit}
      (hstart : 0 ≤ edit.start) (hle : edit.start ≤ edit.stop) (hlen : 0 ≤ edit.len)
      {fuel : Nat} {m' : Mem} {t' : MemoTable}
      (hedit : memoTableApplyEdit fuel m t edit = some (m', t')) : TableRun P m' t'

def Bounded (t : MemoTable) : Prop :=
  MaxBounds t.tree.shifts t.tree.root

instance : DecidablePred Bounded := fun t =>
  inferInstanceAs (Decidable (MaxBounds t.tree.shifts t.tree.root))

/-- The addresses of the entries that an edit evicts. -/
def evictedBy (t : MemoTable) (edit : MemoEdit) : List Nat :=
  ((itreeRemoveAndShift (removalDepth t.tree) t.tree edit.start (editHigh edit)
    (editAmt edit)).map fun x => x.2.map IvIns.value).getD []

variable {m : Mem} {t : MemoTable} {ref : List (RefIv Nat)} {p : Nat → Int}

theorem newCapture_ok (h : MemoOk m (some t) ref p) (dummy : Bool) (id start length : Int)
    {children : List Nat} (hchildren : ∀ d ∈ children, d < m.caps.length) :
    MemoOk (newCapture m dummy id start length children) (some t) ref p := by
  cases dummy with
  | true =>
      obtain ⟨hcaps, hentries⟩ := foldl_memoCaptureAdd children
        (show (memoCaptureDummy m start length).2.caps = m.caps ++ [_] from rfl)
      exact memoOk_grow h hcaps hentries rfl (by simpa using hchildren)
  | false =>
      obtain ⟨hcaps, hentries⟩ := foldl_memoCaptureAdd children
        (show (memoCaptureNode m id start length).2.caps = m.caps ++ [_] from rfl)
      exact memoOk_grow h hcaps hentries rfl (by simpa using hchildren)

theorem memoOk_new (threshold : Int) : MemoOk Mem.empty (some (memoTableNew threshold)) [] p where
  none := by simp
  tree := by
    rintro t ⟨⟩
    exact boundedInv_new
  entry := by simp
  values := by simp
  pos := by simp
  older := by simp [Older, Mem.empty]
  owned := by simp [Mem.empty]
  captures := by simp [Mem.empty]

theorem TableRun.ok (h : TableRun Bounded m t) (hmax : Bounded t) :
    ∃ ref p, MemoOk m (some t) ref p := by
  induction h with
  | new threshold => exact ⟨[], fun _ => 0, memoOk_new threshold⟩
  | capture h dummy id start length hchildren ih =>
      obtain ⟨ref, p, hok⟩ := ih hmax
      exact ⟨ref, p, newCapture_ok hok dummy id start length hchildren⟩
  | @put m t h hP id start length examined count captures hexam hcaptures ih =>
      obtain ⟨ref, p, hok⟩ := ih hP
      by_cases hskip : t.threshold > 0 ∧ examined < t.threshold ∨ length = 0
      · rw [memoTablePut_skip hskip]
        obtain ⟨hcaps, hentries⟩ := foldl_memoCaptureFree captures m
        exact ⟨ref, p, hok.congr hcaps hentries⟩
      · obtain ⟨m', t', loc, heq, -, -, -, -, hok', -⟩ := hok.put hskip hexam hcaptures
        rw [heq]
        exact ⟨_, _, hok'⟩
  | edit h hP hstart hle hlen hedit ih =>
      obtain ⟨ref, p, hok⟩ := ih hP
      obtain ⟨m', t', heq, -, -, -, -, -, -, hok'⟩ := hok.edit hle hlen
      cases memoTableApplyEdit_unique hedit (heq _ (Nat.lt_succ_self _))
      exact ⟨_, _, hok' hmax⟩

theorem memoEntryPos_eq (h : MemoOk m (some t) ref p) {r : RefIv Nat} (hr : r ∈ ref) :
    (memoEntryPos m t r.value).2 = p r.value := by
  obtain ⟨e, he, hloc, -⟩ := h.entry r hr
  have htree := h.tree t rfl
  obtain ⟨hagree, -⟩ := step_locPos htree.toInv htree.bounds ⟨r, hr, rfl⟩
  have hpos : (itreeLocPos t.tree r.loc).2 = some r.low := hagree r hr rfl
  simp only [memoEntryPos, he, hloc, hpos, Option.getD_some]
  exact (h.pos r hr).symm

theorem memoCaptureStart_eq (h : MemoOk m (some t) ref p) {c : Nat} {cell : MemoCapture}
    (hcell : m.caps[c]? = some cell) : (memoCaptureStart m t c).2 = absStart p cell := by
  have hcap : m.cap c = cell := by simp [Mem.cap, List.getD, hcell]
  cases hment : cell.ment with
  | none => simp [memoCaptureStart, hcap, hment, absStart]
  | some e =>
      obtain ⟨⟨r, hr, rfl⟩, -⟩ := h.owned c cell hcell e hment
      simp [memoCaptureStart, hcap, hment, absStart, memoEntryPos_eq h hr]

/-- The eviction of its entry leaves a capture without entry and where it was. -/
theorem evicted_start (h : MemoOk m (some t) ref p) {edit : MemoEdit}
    (hle : edit.start ≤ edit.stop) (hlen : 0 ≤ edit.len) {c e : Nat}
    (hown : (m.cap c).ment = some e) (hev : e ∈ evictedBy t edit) :
    ∃ m' t', (∃ fuel, memoTableApplyEdit fuel m t edit = some (m', t')) ∧
      (memoCaptureStart m' t' c).2 = (memoCaptureStart m t c).2 := by
  obtain ⟨tree, evicted, hremove, hperm, -⟩ := h.edit_evict hle hlen
  rw [evictedBy, hremove _ (ivNodes_lt_removalDepth _)] at hev
  obtain ⟨cell, hcell⟩ : ∃ cell, m.caps[c]? = some cell := by
    cases hc : m.caps[c]? with
    | none => simp [Mem.cap, List.getD, hc] at hown
    | some cell => exact ⟨cell, rfl⟩
  have hment : cell.ment = some e := by simpa [Mem.cap, List.getD, hcell] using hown
  obtain ⟨hafter, howned⟩ := h.evict hperm
  obtain ⟨q, hq, rfl⟩ : ∃ q ∈ ref.filter (fun r => ivOverlaps r.ins edit.start (editHigh edit)),
      q.value = e := by
    obtain ⟨i, hi, rfl⟩ := List.mem_map.mp hev
    obtain ⟨q, hq, rfl⟩ := List.mem_map.mp (hperm.mem_iff.mp hi)
    exact ⟨q, hq, rfl⟩
  refine ⟨_, _, ⟨_, memoTableApplyEdit_of_remove (hremove _ (ivNodes_lt_removalDepth _))⟩, ?_⟩
  generalize evicted.foldl tableFreeEntry m = m' at hafter howned
  obtain ⟨cell', hcell'⟩ : ∃ cell', m'.caps[c]? = some cell' := by
    have hlt := (List.getElem?_eq_some_iff.mp hcell).1
    cases hc : m'.caps[c]? with
    | none =>
        have hge := List.getElem?_eq_none_iff.mp hc
        have hlen := hafter.length
        omega
    | some cell' => exact ⟨cell', rfl⟩
  have hnone : cell'.ment = none := by
    cases hment' : cell'.ment with
    | none => rfl
    | some e' =>
        obtain ⟨cell₀, hcell₀, hment₀⟩ := hafter.ment c cell' hcell' e' hment'
        cases hcell.symm.trans hcell₀
        cases hment.symm.trans hment₀
        obtain ⟨⟨r, hr, hval⟩, -⟩ := howned c cell' hcell' q.value hment'
        obtain ⟨hr, hno⟩ := List.mem_filter.mp hr
        obtain ⟨hq, hov⟩ := List.mem_filter.mp hq
        rw [List.inj_on_of_nodup_map h.values hr hq hval] at hno
        simp [hov] at hno
  have hview : (view m' p)[c]? = (view m p)[c]? := by rw [hafter.view]
  simp only [view, List.getElem?_map, hcell, hcell', Option.map_some, Option.some.injEq] at hview
  have hstart : absStart p cell' = absStart p cell := congrArg VCell.start hview
  rw [memoCaptureStart_eq h hcell, ← hstart]
  simp [memoCaptureStart, Mem.cap, List.getD, hcell', hnone, absStart]

/-- The edit returns, and a capture whose entry it evicts is where the contract of
`memo_capture_absolutize` puts it exactly when the shift of the edit does not
concern its entry. -/
theorem evicted_capture_start (hrun : TableRun Bounded m t) (hmax : Bounded t) {edit : MemoEdit}
    (_hstart : 0 ≤ edit.start) (hle : edit.start ≤ edit.stop) (hlen : 0 ≤ edit.len) {c e : Nat}
    (hown : (m.cap c).ment = some e) (hev : e ∈ evictedBy t edit) :
    ∃ m' t', (∃ fuel, memoTableApplyEdit fuel m t edit = some (m', t')) ∧
      ((memoCaptureStart m' t' c).2 = (memoCaptureStart m t c).2 +
          (if (memoEntryPos m t e).2 < edit.start then 0 else editAmt edit) ↔
        (memoEntryPos m t e).2 < edit.start ∨ editAmt edit = 0) := by
  obtain ⟨ref, p, hok⟩ := hrun.ok hmax
  obtain ⟨m', t', hedit, hstart⟩ := evicted_start hok hle hlen hown hev
  refine ⟨m', t', hedit, ?_⟩
  rw [hstart]
  split <;> omega

/-- An entry for `[5, 7)` that owns a capture, which another capture holds too. -/
def heldMem : Mem :=
  newCapture (newCapture Mem.empty false 1 5 1 []) false 2 5 1 [0]

def heldTable : Mem × MemoTable :=
  memoTablePut heldMem (memoTableNew 0) 1 5 1 2 1 [0]

theorem heldTable_run (P : MemoTable → Prop) (hP : P (memoTableNew 0)) :
    TableRun P heldTable.1 heldTable.2 :=
  .put (.capture (.capture (.new 0) false 1 5 1 (by simp)) false 2 5 1 (by decide)) hP
    1 5 1 1 (by decide) (by decide)

theorem evicted_capture_start_replaced :
    ∃ m' t', (∃ fuel, memoTableApplyEdit fuel heldTable.1 heldTable.2 ⟨5, 6, 1⟩ = some (m', t')) ∧
      (memoCaptureStart m' t' 0).2 = (memoCaptureStart heldTable.1 heldTable.2 0).2 +
        (if (memoEntryPos heldTable.1 heldTable.2 0).2 < 5 then 0 else editAmt ⟨5, 6, 1⟩) := by
  obtain ⟨m', t', hedit, hiff⟩ := evicted_capture_start (c := 0) (e := 0)
    (heldTable_run Bounded (by decide)) (by decide)
    (show 0 ≤ (⟨5, 6, 1⟩ : MemoEdit).start by decide) (by decide) (by decide) (by decide)
    (by decide)
  exact ⟨m', t', hedit, hiff.mpr (by decide)⟩

/-- The deletion of `[4, 6)` moves the position 5 to 3, but not the capture that
outlives its entry there. -/
theorem evicted_capture_not_shifted :
    ¬∀ (m : Mem) (t : MemoTable), TableRun (fun _ => True) m t → ∀ edit : MemoEdit,
      0 ≤ edit.start → edit.start ≤ edit.stop → 0 ≤ edit.len → ∀ c e : Nat,
      (m.cap c).ment = some e → e ∈ evictedBy t edit → ∀ fuel m' t',
      memoTableApplyEdit fuel m t edit = some (m', t') → 0 < m'.refs.getD c 0 →
      (memoCaptureStart m' t' c).2 = (memoCaptureStart m t c).2 +
        (if (memoEntryPos m t e).2 < edit.start then 0 else editAmt edit) := by
  intro h
  have hstart := h _ _ (heldTable_run _ trivial) ⟨4, 6, 0⟩ (by decide) (by decide) (by decide) 0 0
    (by decide) (by decide) 8 _ _ rfl (by decide)
  revert hstart
  decide

end Libpeg.Relocation
