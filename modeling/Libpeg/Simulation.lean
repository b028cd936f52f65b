import Libpeg.AbstractVm
import Libpeg.Forest

namespace Libpeg.Simulation

open Libpeg.Charset Libpeg.Opcode Libpeg.Code Libpeg.Memo Libpeg.Input Libpeg.Vm
open Libpeg.IntervalRefinement Libpeg.MemoView Libpeg.Forest Libpeg.AbstractVm

def absFrame (v : List VCell) (e : StackEntry) : AFrame :=
  ⟨e.entry, forest v e.capt⟩

theorem absFrame_entry (v : List VCell) (e : StackEntry) : (absFrame v e).entry = e.entry :=
  rfl

def absEntry (m : Mem) (p : Nat → Int) (r : RefIv Nat) : AEntry :=
  match m.entries[r.value]? with
  | some e => ⟨r.id, r.low, e.examined, e.length, e.count, forest (view m p) e.captures⟩
  | none => ⟨r.id, r.low, 0, 0, 0, .nil⟩

def absTable (m : Mem) (ref : List (RefIv Nat)) (p : Nat → Int) (t : MemoTable) : ATable :=
  ⟨t.threshold, ref.map (absEntry m p)⟩

def absState (ref : List (RefIv Nat)) (p : Nat → Int) (s : VmState) : AState where
  ip := s.ip
  pos := vmInputPos s.src
  furthest := s.src.furthest
  stack := s.stack.map (absFrame (view s.mem p))
  capt := forest (view s.mem p) s.capt
  tbl := s.tbl.map (absTable s.mem ref p)
  errs := s.errs
  nchecks := s.nchecks

def absNext (ref : List (RefIv Nat)) (p : Nat → Int) : VmNext → ANext
  | .running s => .running (absState ref p s)
  | .done s success => .done (absState ref p s) success
  | .failed s => .failed (absState ref p s)
  | .aborted msg => .aborted msg

/-- A state whose memory is well formed, on a given input. -/
structure Ok (input : List UInt8) (ref : List (RefIv Nat)) (p : Nat → Int) (s : VmState) :
    Prop where
  memo : MemoOk s.mem s.tbl ref p
  stack : ∀ e ∈ s.stack, ∀ c ∈ e.capt, c < s.mem.caps.length
  capt : ∀ c ∈ s.capt, c < s.mem.caps.length
  data : s.src.data = input

/-- `m'` has the entries of `m` and its captures, and maybe more captures. -/
structure Extends (m m' : Mem) : Prop where
  entries : m'.entries = m.entries
  caps : m.caps <+: m'.caps

theorem Extends.refl (m : Mem) : Extends m m :=
  ⟨rfl, List.prefix_refl _⟩

theorem Extends.of_eq {m m' : Mem} (hcaps : m'.caps = m.caps) (hentries : m'.entries = m.entries) :
    Extends m m' :=
  ⟨hentries, hcaps ▸ List.prefix_refl _⟩

theorem Extends.trans {m m' m'' : Mem} (h : Extends m m') (h' : Extends m' m'') : Extends m m'' :=
  ⟨h'.entries.trans h.entries, h.caps.trans h'.caps⟩

theorem Extends.view {m m' : Mem} (h : Extends m m') (p : Nat → Int) :
    view m p <+: view m' p :=
  h.caps.map _

section Refs

variable (m : Mem) (cs : List Nat)

@[simp] theorem refAll_caps : (refAll m cs).caps = m.caps := by
  unfold refAll
  induction cs generalizing m with
  | nil => rfl
  | cons c cs ih => exact ih (memoCaptureRef m c)

@[simp] theorem refAll_entries : (refAll m cs).entries = m.entries := by
  unfold refAll
  induction cs generalizing m with
  | nil => rfl
  | cons c cs ih => exact ih (memoCaptureRef m c)

@[simp] theorem freeAll_caps : (freeAll m cs).caps = m.caps :=
  (foldl_memoCaptureFree cs m).1

@[simp] theorem freeAll_entries : (freeAll m cs).entries = m.entries :=
  (foldl_memoCaptureFree cs m).2

end Refs

variable {input : List UInt8} {ref : List (RefIv Nat)} {p : Nat → Int} {s : VmState}

theorem view_congr {m m' : Mem} (h : m'.caps = m.caps) : view m' p = view m p := by
  rw [view, h]
  rfl

theorem absEntry_congr {m m' : Mem} (hcaps : m'.caps = m.caps) (hentries : m'.entries = m.entries)
    (r : RefIv Nat) : absEntry m' p r = absEntry m p r := by
  rw [absEntry, hentries, view_congr hcaps]
  rfl

theorem absState_mem {m : Mem} (hcaps : m.caps = s.mem.caps) (hentries : m.entries = s.mem.entries) :
    absState ref p { s with mem := m } = absState ref p s := by
  have htable : absTable m ref p = absTable s.mem ref p := by
    funext t
    simp only [absTable, funext (absEntry_congr hcaps hentries)]
  simp only [absState, view_congr hcaps, htable]

theorem Ok.mem {m : Mem} (h : Ok input ref p s) (hcaps : m.caps = s.mem.caps)
    (hentries : m.entries = s.mem.entries) : Ok input ref p { s with mem := m } := by
  refine ⟨h.memo.congr hcaps hentries, ?_, ?_, h.data⟩
  · simp only [hcaps]
    exact h.stack
  · simp only [hcaps]
    exact h.capt

theorem Ok.freeAll (h : Ok input ref p s) (cs : List Nat) :
    Ok input ref p { s with mem := freeAll s.mem cs } :=
  h.mem (by simp) (by simp)

@[simp] theorem absState_freeAll (cs : List Nat) :
    absState ref p { s with mem := freeAll s.mem cs } = absState ref p s :=
  absState_mem (by simp) (by simp)

theorem Ok.setStack {stack : List StackEntry} (h : Ok input ref p s)
    (hstack : ∀ e ∈ stack, ∀ c ∈ e.capt, c < s.mem.caps.length) :
    Ok input ref p { s with stack := stack } :=
  ⟨h.memo, hstack, h.capt, h.data⟩

theorem Ok.tail {e : StackEntry} {rest : List StackEntry} (h : Ok input ref p s)
    (hs : s.stack = e :: rest) : Ok input ref p { s with stack := rest } :=
  h.setStack fun d hd => h.stack d (by simp [hs, hd])

theorem Ok.push (h : Ok input ref p s) (e : StEntry) : Ok input ref p (push s e) := by
  refine h.setStack fun d hd c hc => ?_
  rcases List.mem_cons.mp hd with rfl | hd
  · simp at hc
  · exact h.stack d hd c hc

@[simp] theorem absState_push (e : StEntry) :
    absState ref p (push s e) = aPush (absState ref p s) e :=
  rfl

theorem absState_appendCapt (cs : List Nat) :
    absState ref p (appendCapt s cs) =
      aAddCapt (absState ref p s) (forest (view s.mem p) cs) := by
  cases hstack : s.stack with
  | nil => simp [appendCapt, aAddCapt, absState, hstack, forest_append]
  | cons e rest => simp [appendCapt, aAddCapt, absState, hstack, absFrame, forest_append]

theorem Ok.appendCapt {cs : List Nat} (h : Ok input ref p s)
    (hcs : ∀ c ∈ cs, c < s.mem.caps.length) : Ok input ref p (appendCapt s cs) := by
  unfold Vm.appendCapt
  split
  · refine ⟨h.memo, h.stack, ?_, h.data⟩
    intro c hc
    rcases List.mem_append.mp hc with hc | hc
    · exact h.capt c hc
    · exact hcs c hc
  · next e rest hs =>
      refine h.setStack fun d hd c hc => ?_
      rcases List.mem_cons.mp hd with rfl | hd
      · rcases List.mem_append.mp hc with hc | hc
        · exact h.stack e (by simp [hs]) c hc
        · exact hcs c hc
      · exact h.stack d (by simp [hs, hd]) c hc

theorem Ok.addCapt {cs : List Nat} (h : Ok input ref p s)
    (hcs : ∀ c ∈ cs, c < s.mem.caps.length) : Ok input ref p (stackAddCapt s cs) := by
  refine (h.mem (m := refAll s.mem cs) (by simp) (by simp)).appendCapt ?_
  simpa using hcs

theorem absState_addCapt (cs : List Nat) :
    absState ref p (stackAddCapt s cs) =
      aAddCapt (absState ref p s) (forest (view s.mem p) cs) := by
  rw [stackAddCapt, absState_appendCapt, absState_mem (by simp) (by simp),
    view_congr (m := s.mem) (by simp)]

@[simp] theorem stackAddCapt_caps (cs : List Nat) :
    (stackAddCapt s cs).mem.caps = s.mem.caps := by
  unfold stackAddCapt appendCapt
  split <;> simp

@[simp] theorem stackAddCapt_entries (cs : List Nat) :
    (stackAddCapt s cs).mem.entries = s.mem.entries := by
  unfold stackAddCapt appendCapt
  split <;> simp

theorem Ok.pop {e : StackEntry} {rest : List StackEntry} (h : Ok input ref p s)
    (hs : s.stack = e :: rest) : Ok input ref p (popClear s true e rest) := by
  have hpop := (h.tail hs).addCapt (h.stack e (by simp [hs]))
  exact hpop.freeAll e.capt

theorem absState_pop (e : StackEntry) (rest : List StackEntry) :
    absState ref p (popClear s true e rest) =
      aPop (absState ref p s) (absFrame (view s.mem p) e)
        (rest.map (absFrame (view s.mem p))) := by
  rw [popClear, absState_freeAll]
  simp only [stackPop, if_true, absState_addCapt]
  rfl

section Grow

variable {m : Mem} {cell : MemoCapture}

theorem childOf_mono {caps caps' : List MemoCapture} (h : caps <+: caps') {c d : Nat}
    (hcd : ChildOf caps c d) : ChildOf caps' c d := by
  obtain ⟨tail, rfl⟩ := h
  obtain ⟨cell, hcell, hd⟩ := hcd
  exact ⟨cell, List.getElem?_append_left (List.getElem?_eq_some_iff.mp hcell).1 ▸ hcell, hd⟩

theorem memoOk_grow {m' : Mem} {tbl : Option MemoTable} (h : MemoOk m tbl ref p)
    (hcaps : m'.caps = m.caps ++ [cell]) (hentries : m'.entries = m.entries)
    (hment : cell.ment = none) (hkids : ∀ d ∈ cell.children, d < m.caps.length) :
    MemoOk m' tbl ref p := by
  have hcell : ∀ (i : Nat) (c : MemoCapture), m'.caps[i]? = some c →
      m.caps[i]? = some c ∨ c = cell ∧ i = m.caps.length := by
    intro i c hc
    rw [hcaps, List.getElem?_append] at hc
    split at hc
    · exact .inl hc
    · have hi : i - m.caps.length = 0 := by
        have := (List.getElem?_eq_some_iff.mp hc).1
        simpa using this
      rw [hi] at hc
      simp only [List.getElem?_cons_zero, Option.some.injEq] at hc
      exact .inr ⟨hc.symm, by omega⟩
  refine ⟨h.none, h.tree, ?_, h.values, h.pos, ?_, ?_, ?_⟩
  · rw [hentries]
    exact h.entry
  · intro i c hc d hd
    rcases hcell i c hc with hc | ⟨rfl, rfl⟩
    · exact h.older i c hc d hd
    · exact hkids d hd
  · intro i c hc e he
    rcases hcell i c hc with hc | ⟨rfl, rfl⟩
    · obtain ⟨hr, entry, hentry, d, hd, hdi⟩ := h.owned i c hc e he
      refine ⟨hr, entry, hentries ▸ hentry, d, hd, Relation.ReflTransGen.mono ?_ d i hdi⟩
      exact fun a b hab => childOf_mono (hcaps ▸ List.prefix_append _ _) hab
    · rw [hment] at he
      cases he
  · rw [hentries, hcaps]
    intro e he c hc
    have := h.captures e he c hc
    simp only [List.length_append, List.length_singleton]
    omega

theorem view_grow {m' : Mem} (hcaps : m'.caps = m.caps ++ [cell]) :
    view m' p = view m p ++ [vcell p cell] := by
  rw [view, hcaps, List.map_append]
  rfl

theorem absState_grow (h : Ok input ref p s) (hcaps : m.caps = s.mem.caps ++ [cell])
    (hentries : m.entries = s.mem.entries) :
    absState ref p { s with mem := m } = absState ref p s := by
  have hold := olderView h.memo.older p
  have hlen : (view s.mem p).length = s.mem.caps.length := by simp [view]
  have hforest : ∀ cs : List Nat, (∀ c ∈ cs, c < s.mem.caps.length) →
      forest (view m p) cs = forest (view s.mem p) cs := by
    intro cs hcs
    rw [view_grow hcaps, forest_grow hold (by rwa [hlen])]
  have hstack : s.stack.map (absFrame (view m p)) = s.stack.map (absFrame (view s.mem p)) := by
    refine List.map_congr_left fun e he => ?_
    rw [absFrame, hforest e.capt (h.stack e he)]
    rfl
  have htable : absTable m ref p = absTable s.mem ref p := by
    funext t
    have hentry : ref.map (absEntry m p) = ref.map (absEntry s.mem p) := by
      refine List.map_congr_left fun r hr => ?_
      obtain ⟨e, he, -⟩ := h.memo.entry r hr
      simp only [absEntry, hentries, he]
      rw [hforest e.captures (h.memo.captures e (List.mem_of_getElem? he))]
    rw [absTable, hentry]
    rfl
  simp only [absState, hstack, htable, hforest s.capt h.capt]

theorem Ok.grow (h : Ok input ref p s) (hcaps : m.caps = s.mem.caps ++ [cell])
    (hentries : m.entries = s.mem.entries) (hment : cell.ment = none)
    (hkids : ∀ d ∈ cell.children, d < s.mem.caps.length) :
    Ok input ref p { s with mem := m } := by
  have hlen : m.caps.length = s.mem.caps.length + 1 := by simp [hcaps]
  refine ⟨memoOk_grow h.memo hcaps hentries hment hkids, ?_, ?_, h.data⟩
  · intro e he c hc
    have := h.stack e he c hc
    simp only [hlen]
    omega
  · intro c hc
    have := h.capt c hc
    simp only [hlen]
    omega

theorem modify_length_append {α : Type} (l : List α) (a : α) (f : α → α) :
    (l ++ [a]).modify l.length f = l ++ [f a] := by
  induction l with
  | nil => rfl
  | cons b l ih => simpa using ih

theorem foldl_memoCaptureAdd (children : List Nat) {m : Mem} {caps : List MemoCapture}
    {cell : MemoCapture} (hm : m.caps = caps ++ [cell]) :
    (children.foldl (fun m child => memoCaptureAdd m caps.length child) m).caps =
        caps ++ [{ cell with children := cell.children ++ children }] ∧
      (children.foldl (fun m child => memoCaptureAdd m caps.length child) m).entries =
        m.entries := by
  induction children generalizing m cell with
  | nil => exact ⟨by simpa using hm, rfl⟩
  | cons d children ih =>
      have hstep : (memoCaptureAdd m caps.length d).caps =
          caps ++ [{ cell with children := cell.children ++ [d] }] := by
        change m.caps.modify caps.length _ = _
        rw [hm, modify_length_append]
      obtain ⟨hcaps, hentries⟩ := ih hstep
      refine ⟨?_, hentries⟩
      rw [List.foldl_cons, hcaps]
      simp

theorem addCell_spec (h : Ok input ref p s) {children : List Nat} (cell : MemoCapture)
    (hment : cell.ment = none) (hnil : cell.children = [])
    (hkids : ∀ d ∈ children, d < s.mem.caps.length) :
    let m := freeAll (children.foldl (fun m child => memoCaptureAdd m s.mem.caps.length child)
      { s.mem with caps := s.mem.caps ++ [cell], refs := s.mem.refs ++ [1] }) children
    let s' := stackAddCapt { s with mem := m } [s.mem.caps.length]
    let s'' := { s' with mem := memoCaptureFree s'.mem s.mem.caps.length }
    Ok input ref p s'' ∧ absState ref p s'' = aAddCapt (absState ref p s)
      (if cell.dummy then forest (view s.mem p) children
        else .cons cell.id cell.off cell.length (forest (view s.mem p) children) .nil) ∧
      Extends s.mem s''.mem ∧ s''.tbl = s.tbl := by
  intro m s' s''
  obtain ⟨hcaps, hentries⟩ := foldl_memoCaptureAdd children
    (m := { s.mem with caps := s.mem.caps ++ [cell], refs := s.mem.refs ++ [1] })
    rfl
  rw [hnil, List.nil_append] at hcaps
  have hmcaps : m.caps = s.mem.caps ++ [{ cell with children := children }] := by
    simpa [m] using hcaps
  have hmentries : m.entries = s.mem.entries := by simpa [m] using hentries
  have hgrown := h.grow hmcaps hmentries hment hkids
  have habs := absState_grow h hmcaps hmentries
  have hold := olderView hgrown.memo.older p
  have hcell : (view m p)[s.mem.caps.length]? =
      some (vcell p { cell with children := children }) := by
    rw [view, hmcaps]
    simp
  have hkidsForest : forest (view m p) children = forest (view s.mem p) children := by
    rw [view_grow hmcaps, forest_grow (olderView h.memo.older p) (by simpa [view] using hkids)]
  have hforest : forest (view m p) [s.mem.caps.length] =
      if cell.dummy then forest (view s.mem p) children
      else .cons cell.id cell.off cell.length (forest (view s.mem p) children) .nil := by
    rw [forest_cons, forest_nil, append_nil, capTree_eq hold hcell]
    simp only [vcell, absStart, hment, hkidsForest]
  have hadd : Ok input ref p s' := hgrown.addCapt (by simp [hmcaps])
  refine ⟨hadd.mem rfl rfl, ?_, ?_, ?_⟩
  · have hfree : absState ref p s'' = absState ref p s' := absState_mem rfl rfl
    rw [hfree, absState_addCapt, habs, hforest]
  · change Extends s.mem (memoCaptureFree (stackAddCapt { s with mem := m } _).mem _)
    refine ⟨?_, ?_⟩
    · rw [memoCaptureFree_entries, stackAddCapt_entries]
      exact hmentries
    · rw [memoCaptureFree_caps, stackAddCapt_caps, hmcaps]
      exact List.prefix_append _ _
  · change (stackAddCapt { s with mem := m } [s.mem.caps.length]).tbl = _
    unfold stackAddCapt appendCapt
    split <;> rfl

theorem addNode_spec (h : Ok input ref p s) (id start length : Int) {children : List Nat}
    (hkids : ∀ d ∈ children, d < s.mem.caps.length) :
    Ok input ref p (addNode s id start length children) ∧
      absState ref p (addNode s id start length children) = aAddCapt (absState ref p s)
        (.cons id start length (forest (view s.mem p) children) .nil) ∧
      Extends s.mem (addNode s id start length children).mem ∧
      (addNode s id start length children).tbl = s.tbl :=
  addCell_spec h ⟨id, false, start, length, none, []⟩ rfl rfl hkids

theorem addDummy_spec (h : Ok input ref p s) (start length : Int) {children : List Nat}
    (hkids : ∀ d ∈ children, d < s.mem.caps.length) :
    Ok input ref p (addDummy s start length children) ∧
      absState ref p (addDummy s start length children) = aAddCapt (absState ref p s)
        (forest (view s.mem p) children) ∧
      Extends s.mem (addDummy s start length children).mem ∧
      (addDummy s start length children).tbl = s.tbl :=
  addCell_spec h ⟨0, true, start, length, none, []⟩ rfl rfl hkids

end Grow

/-- What the way from `m` to `m'` keeps: the entries, which were stored in the
order of their addresses, and what the captures read as. -/
structure Grown (m : Mem) (p : Nat → Int) (m' : Mem) (p' : Nat → Int)
    (ref ref' : List (RefIv Nat)) : Prop where
  ref : ∃ new, ref' = ref ++ new ∧
    new.map RefIv.value = List.range' m.entries.length new.length ∧
    m'.entries.length = m.entries.length + new.length
  entries : m.entries <+: m'.entries
  view : view m p <+: view m' p'

theorem Extends.grown {m m' : Mem} (h : Extends m m') (p : Nat → Int) : Grown m p m' p ref ref :=
  ⟨⟨[], by simp, rfl, by simp [h.entries]⟩, h.entries ▸ List.prefix_refl _, h.view p⟩

theorem Grown.trans {m m' m'' : Mem} {p p' p'' : Nat → Int} {ref' ref'' : List (RefIv Nat)}
    (h : Grown m p m' p' ref ref') (h' : Grown m' p' m'' p'' ref' ref'') :
    Grown m p m'' p'' ref ref'' := by
  obtain ⟨⟨new, rfl, hvals, hlen⟩, hentries, hview⟩ := h
  obtain ⟨⟨new', rfl, hvals', hlen'⟩, hentries', hview'⟩ := h'
  refine ⟨⟨new ++ new', by simp, ?_, by simp [hlen', hlen, Nat.add_assoc]⟩,
    hentries.trans hentries', hview.trans hview'⟩
  rw [List.map_append, hvals, hvals', hlen, List.length_append, List.range'_append_1]

theorem Grown.of_extends {m₀ m m' : Mem} {p p' : Nat → Int} {ref' : List (RefIv Nat)}
    (h : Grown m p m' p' ref ref') (hext : Extends m₀ m) : Grown m₀ p m' p' ref ref' :=
  (hext.grown p).trans h

/-- Only the entries that a step stores have addresses beyond those before it. -/
theorem Grown.mem_old {m m' : Mem} {p p' : Nat → Int} {ref' : List (RefIv Nat)} {q : RefIv Nat}
    (h : Grown m p m' p' ref ref') (hq : q ∈ ref') (hlt : q.value < m.entries.length) :
    q ∈ ref := by
  obtain ⟨new, rfl, hvals, -⟩ := h.ref
  rcases List.mem_append.mp hq with hq | hq
  · exact hq
  · have hmem : q.value ∈ List.range' m.entries.length new.length :=
      hvals ▸ List.mem_map_of_mem hq
    have := List.mem_range'_1.mp hmem
    omega

/-- The parts of a state that storing an entry leaves alone. -/
structure SameControl (s s' : VmState) : Prop where
  ip : s'.ip = s.ip
  src : s'.src = s.src
  stack : s'.stack = s.stack
  capt : s'.capt = s.capt
  errs : s'.errs = s.errs
  nchecks : s'.nchecks = s.nchecks

/-- What an entry stored now would have examined. -/
def examinedNow (s : VmState) (pos : Nat) : Int :=
  ((if s.src.furthest > vmInputPos s.src then s.src.furthest else vmInputPos s.src : Nat) : Int) -
    pos + 1

theorem memoize_store {a : VmArgs} {t : MemoTable} (ht : s.tbl = some t)
    (hw : a.windowed = false) (id : Int) (pos : Nat) (mlen count : Int) (cs : List Nat) :
    memoize a s id pos mlen count cs =
      { s with
        mem := (memoTablePut s.mem t id pos mlen (examinedNow s pos) count cs).1
        tbl := some (memoTablePut s.mem t id pos mlen (examinedNow s pos) count cs).2 } := by
  simp only [memoize, ht, hw]
  rfl

/-- `s'` is `s` after an entry may have been stored, and reads as `σ`. -/
def Memoized (input : List UInt8) (ref : List (RefIv Nat)) (p : Nat → Int) (s s' : VmState)
    (σ : AState) : Prop :=
  ∃ ref' p', Grown s.mem p s'.mem p' ref ref' ∧ Ok input ref' p' s' ∧
    absState ref' p' s' = σ ∧ view s'.mem p' = view s.mem p ∧ s'.mem.caps.length = s.mem.caps.length ∧ SameControl s s'

theorem memoize_spec (a : VmArgs) (h : Ok input ref p s) (id : Int) {pos : Nat} (mlen count : Int)
    {cs : List Nat} (hcs : ∀ c ∈ cs, c < s.mem.caps.length)
    (hpos : pos ≤ max s.src.furthest (vmInputPos s.src)) :
    Memoized input ref p s (memoize a s id pos mlen count cs)
      (aMemoize a (absState ref p s) id pos mlen count (forest (view s.mem p) cs)) := by
  have hdrop : memoize a s id pos mlen count cs = { s with mem := freeAll s.mem cs } →
      aMemoize a (absState ref p s) id pos mlen count (forest (view s.mem p) cs) =
        absState ref p s →
      Memoized input ref p s (memoize a s id pos mlen count cs)
        (aMemoize a (absState ref p s) id pos mlen count (forest (view s.mem p) cs)) := by
    intro heq habs
    rw [heq, habs]
    exact ⟨ref, p, Extends.grown (.of_eq (by simp) (by simp)) p, h.freeAll cs,
      absState_freeAll cs, view_congr (by simp),
      by simp, ⟨rfl, rfl, rfl, rfl, rfl, rfl⟩⟩
  cases ht : s.tbl with
  | none =>
      apply hdrop
      · simp only [memoize, ht]
      · simp [aMemoize, absState, ht]
  | some t =>
      have htbl : (absState ref p s).tbl = some (absTable s.mem ref p t) := by simp [absState, ht]
      have hmemo := h.memo
      rw [ht] at hmemo
      have hexam : 1 ≤ examinedNow s pos := by
        rw [examinedNow]
        split <;> omega
      cases hw : a.windowed with
      | true =>
          apply hdrop
          · simp only [memoize, ht, hw, if_true]
          · simp [aMemoize, htbl, hw]
      | false =>
          have habs : aMemoize a (absState ref p s) id pos mlen count (forest (view s.mem p) cs) =
              if t.threshold > 0 ∧ examinedNow s pos < t.threshold ∨ mlen = 0 then absState ref p s
              else { absState ref p s with
                tbl := some ⟨t.threshold, ref.map (absEntry s.mem p) ++ [⟨id, pos,
                  max (examinedNow s pos) mlen, mlen, count, forest (view s.mem p) cs⟩]⟩ } := by
            simp only [aMemoize, htbl, hw]
            rfl
          by_cases hskip : t.threshold > 0 ∧ examinedNow s pos < t.threshold ∨ mlen = 0
          · apply hdrop
            · rw [memoize_store ht hw, memoTablePut_skip hskip, ← ht]
              rfl
            · rw [habs, if_pos hskip]
          · obtain ⟨m', t', loc, heq, hthr, -, hents, hlen, hok, hview⟩ :=
              @MemoOk.put s.mem t ref p hmemo id pos mlen (examinedNow s pos) count cs hskip
                (le_max_of_le_left hexam) hcs
            rw [memoize_store ht hw, heq, habs, if_neg hskip]
            refine ⟨_, _, ⟨⟨[_], rfl, by simp, by simp [hents]⟩, hents ▸ List.prefix_append _ _,
              hview ▸ List.prefix_refl _⟩, ⟨hok, ?_, ?_, h.data⟩, ?_, hview,
              hlen, ⟨rfl, rfl, rfl, rfl, rfl, rfl⟩⟩
            · simp only [hlen]
              exact h.stack
            · simp only [hlen]
              exact h.capt
            · have hentry : (ref.map (absEntry m' (Function.update p s.mem.entries.length pos))) =
                  ref.map (absEntry s.mem p) := by
                refine List.map_congr_left fun r hr => ?_
                obtain ⟨e, he, -⟩ := hmemo.entry r hr
                have hlt := (List.getElem?_eq_some_iff.mp he).1
                simp only [absEntry, hents, hview, List.getElem?_append_left hlt]
              have hnew : absEntry m' (Function.update p s.mem.entries.length pos)
                  ⟨loc, id, pos, pos + max (examinedNow s pos) mlen, s.mem.entries.length⟩ =
                  ⟨id, pos, max (examinedNow s pos) mlen, mlen, count,
                    forest (view s.mem p) cs⟩ := by
                simp [absEntry, hents, hview]
              simp only [absState, hview, Option.map_some, absTable, hthr, List.map_append, hentry,
                List.map_cons, List.map_nil, hnew]

def foundEntry (p : Nat → Int) (s : VmState) (id : Int) (e : MemoEntry) : AEntry :=
  ⟨id, vmInputPos s.src, e.examined, e.length, e.count, forest (view s.mem p) e.captures⟩

theorem lookup_spec (h : Ok input ref p s) (id : Int) :
    Ok input ref p (lookup s id).1 ∧ absState ref p (lookup s id).1 = absState ref p s ∧
      (lookup s id).1.mem = s.mem ∧ SameControl s (lookup s id).1 ∧
      ∃ hit, IsHit (absState ref p s).tbl id (vmInputPos s.src) hit ∧
        hit = (lookup s id).2.map (foundEntry p s id) ∧
        ∀ e, (lookup s id).2 = some e → ∀ c ∈ e.captures, c < s.mem.caps.length := by
  cases ht : s.tbl with
  | none =>
      simp only [lookup, ht]
      refine ⟨h, trivial, trivial, ⟨rfl, rfl, rfl, rfl, rfl, rfl⟩, none, ?_, rfl, by simp⟩
      intro t hsome
      simp [absState, ht] at hsome
  | some t =>
      have hmemo := h.memo
      rw [ht] at hmemo
      obtain ⟨hok, hthr, -, hnone, hsome⟩ := hmemo.get id (vmInputPos s.src)
      have htbl : (absState ref p s).tbl = some (absTable s.mem ref p t) := by simp [absState, ht]
      simp only [lookup, ht]
      refine ⟨⟨hok, h.stack, h.capt, h.data⟩, ?_, trivial, ⟨rfl, rfl, rfl, rfl, rfl, rfl⟩, ?_⟩
      · simp only [absState, ht, Option.map_some, absTable, hthr]
      · rw [htbl]
        cases hget : (memoTableGet t id (vmInputPos s.src)).2 with
        | none =>
            refine ⟨none, ?_, rfl, by simp⟩
            rintro t' ⟨⟩ e he
            obtain ⟨r, hr, rfl⟩ := List.mem_map.mp he
            obtain ⟨entry, hentry, -⟩ := hmemo.entry r hr
            have := hnone hget r hr
            simpa only [absEntry, hentry] using this
        | some e =>
            obtain ⟨r, hr, rfl, hlow, rfl, hmax⟩ := hsome e hget
            obtain ⟨entry, hentry, -, hhigh⟩ := hmemo.entry r hr
            have habs : absEntry s.mem p r = ⟨r.id, vmInputPos s.src, entry.examined, entry.length,
                entry.count, forest (view s.mem p) entry.captures⟩ := by
              simp only [absEntry, hentry, hlow]
            refine ⟨some (absEntry s.mem p r), ?_, ?_, ?_⟩
            · refine ⟨_, rfl, List.mem_map_of_mem hr, by rw [habs], by rw [habs], ?_⟩
              intro d hd hid hdpos
              obtain ⟨q, hq, rfl⟩ := List.mem_map.mp hd
              obtain ⟨entry', hentry', -, hhigh'⟩ := hmemo.entry q hq
              simp only [absEntry, hentry'] at hid hdpos ⊢
              have := hmax q hq hid hdpos
              simp only [hentry]
              omega
            · simp only [Option.bind_some, hentry, Option.map_some, habs, foundEntry]
            · simp only [Option.bind_some, hentry, Option.some.injEq]
              rintro entry' rfl
              exact hmemo.captures entry (List.mem_of_getElem? hentry)

def entryPos : StEntry → Option Nat
  | .btrack _ off => some off
  | .memo _ pos => some pos
  | .memoTree _ pos _ => some pos
  | .check _ pos _ => some pos
  | _ => none

/-- Every entry was pushed at or before a position. -/
def PushedBefore (q : Nat) (stack : List StackEntry) : Prop :=
  ∀ e ∈ stack, ∀ x, entryPos e.entry = some x → x ≤ q

/-- `s'` is reached from a state with memory `m` and reads as `σ`. -/
def Sim (input : List UInt8) (ref : List (RefIv Nat)) (p : Nat → Int) (m : Mem) (s' : VmState)
    (σ : AState) : Prop :=
  ∃ ref' p', Grown m p s'.mem p' ref ref' ∧ Ok input ref' p' s' ∧ absState ref' p' s' = σ

theorem Ok.sim {s' : VmState} {m : Mem} (h : Ok input ref p s')
    (hext : Extends m s'.mem) : Sim input ref p m s' (absState ref p s') :=
  ⟨ref, p, hext.grown p, h, rfl⟩

@[simp] theorem popClear_src (b : Bool) (e : StackEntry) (rest : List StackEntry) :
    (popClear s b e rest).src = s.src := by
  unfold popClear stackPop stackAddCapt appendCapt
  cases b <;> simp only [if_true, Bool.false_eq_true, if_false]
  split <;> rfl

@[simp] theorem popClear_entries (b : Bool) (e : StackEntry) (rest : List StackEntry) :
    (popClear s b e rest).mem.entries = s.mem.entries := by
  cases b <;> simp [popClear, stackPop]

@[simp] theorem popClear_caps (b : Bool) (e : StackEntry) (rest : List StackEntry) :
    (popClear s b e rest).mem.caps = s.mem.caps := by
  cases b <;> simp [popClear, stackPop]

theorem appendCapt_entries (cs : List Nat) :
    (appendCapt s cs).stack.map StackEntry.entry = s.stack.map StackEntry.entry := by
  unfold appendCapt
  split
  · next h => simp [h]
  · next h => simp [h]

theorem popClear_stack (b : Bool) (e : StackEntry) (rest : List StackEntry) :
    (popClear s b e rest).stack.map StackEntry.entry = rest.map StackEntry.entry := by
  unfold popClear stackPop
  cases b
  · rfl
  · exact appendCapt_entries (s := { s with stack := rest, mem := refAll s.mem e.capt }) e.capt

theorem PushedBefore.of_map {q : Nat} {stack stack' : List StackEntry}
    (h : PushedBefore q stack)
    (heq : stack'.map StackEntry.entry = stack.map StackEntry.entry) : PushedBefore q stack' := by
  intro e he x hx
  have hmem : e.entry ∈ stack.map StackEntry.entry := heq ▸ List.mem_map_of_mem he
  obtain ⟨d, hd, hde⟩ := List.mem_map.mp hmem
  exact h d hd x (hde ▸ hx)

theorem PushedBefore.tail {q : Nat} {e : StackEntry} {rest : List StackEntry}
    (h : PushedBefore q (e :: rest)) : PushedBefore q rest :=
  fun d hd => h d (by simp [hd])

theorem PushedBefore.pop {q : Nat} {e : StackEntry} {rest : List StackEntry}
    (h : PushedBefore q s.stack) (hs : s.stack = e :: rest) (b : Bool) :
    PushedBefore q (popClear s b e rest).stack := by
  rw [hs] at h
  exact h.tail.of_map (popClear_stack b e rest)

theorem memoTreeClose_sim (id : Int) (fuel : Nat) (h : Ok input ref p s) :
    Ok input ref p (memoTreeClose id fuel s) ∧
      absState ref p (memoTreeClose id fuel s) = aTreeClose id fuel (absState ref p s) ∧
      Extends s.mem (memoTreeClose id fuel s).mem := by
  induction fuel generalizing s with
  | zero => exact ⟨h, rfl, .refl _⟩
  | succ fuel ih =>
      rw [memoTreeClose, aTreeClose]
      cases hs : s.stack with
      | nil => simp [absState, hs, h, Extends.refl]
      | cons e rest =>
          have hstack : (absState ref p s).stack = absFrame (view s.mem p) e ::
              rest.map (absFrame (view s.mem p)) := by simp [absState, hs]
          obtain ⟨hok, habs, hext⟩ := ih (h.pop hs)
          rw [absState_pop] at habs
          simp only [hstack, absFrame_entry]
          cases hentry : e.entry with
          | memoTree id' pos count =>
              simp only
              split
              · exact ⟨hok, habs, Extends.trans (.of_eq (by simp) (by simp)) hext⟩
              · exact ⟨h, rfl, .refl _⟩
          | _ => exact ⟨h, rfl, .refl _⟩

theorem popMany_sim (n : Nat) {q : Nat} (h : Ok input ref p s) (hbefore : PushedBefore q s.stack) :
    Ok input ref p (popMany n s) ∧
      absState ref p (popMany n s) = aPopMany n (absState ref p s) ∧
      Extends s.mem (popMany n s).mem ∧ (popMany n s).src = s.src ∧
      PushedBefore q (popMany n s).stack := by
  induction n generalizing s with
  | zero => exact ⟨h, rfl, .refl _, rfl, hbefore⟩
  | succ n ih =>
      cases hs : s.stack with
      | nil =>
          have hmany : popMany (n + 1) s = s := by simp [popMany, hs]
          have habs : aPopMany (n + 1) (absState ref p s) = absState ref p s := by
            simp [aPopMany, absState, hs]
          rw [hmany, habs]
          exact ⟨h, rfl, .refl _, rfl, hbefore⟩
      | cons e rest =>
          have hmany : popMany (n + 1) s = popMany n (popClear s true e rest) := by
            simp [popMany, hs]
          have hstack : (absState ref p s).stack = absFrame (view s.mem p) e ::
              rest.map (absFrame (view s.mem p)) := by simp [absState, hs]
          obtain ⟨hok, habs, hext, hsrc, hb⟩ := ih (h.pop hs) (hbefore.pop hs true)
          rw [absState_pop] at habs
          rw [hmany, aPopMany, hstack]
          exact ⟨hok, habs, Extends.trans (.of_eq (by simp) (by simp)) hext,
            hsrc.trans (by simp), hb⟩

theorem Sim.of_extends {m m' : Mem} {s' : VmState} {σ : AState} (h : Sim input ref p m s' σ)
    (hext : Extends m' m) : Sim input ref p m' s' σ := by
  obtain ⟨ref', p', hgrown, hok, habs⟩ := h
  exact ⟨ref', p', hgrown.of_extends hext, hok, habs⟩

theorem Memoized.sim {s' : VmState} {σ : AState} (h : Memoized input ref p s s' σ) :
    Sim input ref p s.mem s' σ := by
  obtain ⟨ref', p', hgrown, hok, habs, -⟩ := h
  exact ⟨ref', p', hgrown, hok, habs⟩

/-- Handing captures down with or without a dummy around them reads the same. -/
theorem handDown_sim (a : VmArgs) (h : Ok input ref p s) (start length : Int) (cs : List Nat)
    (hcs : ∀ c ∈ cs, c < s.mem.caps.length) :
    let s' := if cs = [] then s
      else if a.windowed then { stackAddCapt s cs with mem := freeAll (stackAddCapt s cs).mem cs }
      else addDummy s start length cs
    Ok input ref p s' ∧ absState ref p s' = aAddCapt (absState ref p s) (forest (view s.mem p) cs) ∧
      Extends s.mem s'.mem ∧ s'.src = s.src ∧
      s'.stack.map StackEntry.entry = s.stack.map StackEntry.entry := by
  intro s'
  have hsrc : ∀ t : VmState, ∀ cs, (stackAddCapt t cs).src = t.src := by
    intro t cs
    unfold stackAddCapt appendCapt
    split <;> rfl
  by_cases hnil : cs = []
  · have hs' : s' = s := if_pos hnil
    have hadd : aAddCapt (absState ref p s) .nil = absState ref p s := by
      unfold aAddCapt
      cases hstack : (absState ref p s).stack with
      | nil => simp [← hstack]
      | cons e rest => simp [← hstack]
    rw [hs', hnil, forest_nil, hadd]
    exact ⟨h, rfl, .refl _, rfl, rfl⟩
  · cases hw : a.windowed with
    | true =>
        have hs' : s' = { stackAddCapt s cs with mem := freeAll (stackAddCapt s cs).mem cs } := by
          simp [s', hnil, hw]
        rw [hs', absState_freeAll, absState_addCapt]
        exact ⟨(h.addCapt hcs).freeAll cs, rfl, .of_eq (by simp) (by simp), hsrc s cs,
          appendCapt_entries cs⟩
    | false =>
        have hs' : s' = addDummy s start length cs := by simp [s', hnil, hw]
        obtain ⟨hok, habs, hent, -⟩ := addDummy_spec h start length hcs
        rw [hs']
        exact ⟨hok, habs, hent, hsrc _ _, appendCapt_entries _⟩

theorem storeTree_sim (a : VmArgs) (h : Ok input ref p s) {id : Int} {pos : Nat} {count : Int}
    {cs : List Nat} {rest : List StackEntry} (hs : s.stack = ⟨.memoTree id pos count, cs⟩ :: rest)
    (hbefore : PushedBefore (vmInputPos s.src) s.stack) (count' : Int) :
    let s₁ := { s with stack := ⟨.memoTree id pos count', cs⟩ :: rest }
    let s' := memoize a { s₁ with mem := refAll s₁.mem cs } id pos
      ((vmInputPos s.src : Int) - pos) count' cs
    let top : AFrame := ⟨.memoTree id pos count', forest (view s.mem p) cs⟩
    let σ := { absState ref p s with stack := top :: rest.map (absFrame (view s.mem p)) }
    Sim input ref p s.mem s'
        (aMemoize a σ id pos ((σ.pos : Int) - pos) count' (forest (view s.mem p) cs)) ∧
      s'.src = s.src ∧ PushedBefore (vmInputPos s.src) s'.stack := by
  intro s₁ s' top σ
  have hcs : ∀ c ∈ cs, c < s.mem.caps.length := h.stack _ (hs ▸ List.mem_cons_self)
  have hpos : pos ≤ vmInputPos s.src := hbefore _ (hs ▸ List.mem_cons_self) pos rfl
  have hs₁ : Ok input ref p s₁ := by
    refine h.setStack fun e he c hc => ?_
    rcases List.mem_cons.mp he with rfl | he
    · exact hcs c hc
    · exact h.stack e (by simp [hs, he]) c hc
  have hb : PushedBefore (vmInputPos s.src) s₁.stack := by
    intro e he x hx
    rcases List.mem_cons.mp he with rfl | he
    · cases hx
      exact hpos
    · exact hbefore e (by simp [hs, he]) x hx
  have hok := hs₁.mem (m := refAll s₁.mem cs) (by simp) (by simp)
  have habs : absState ref p { s₁ with mem := refAll s₁.mem cs } = absState ref p s₁ :=
    absState_mem (by simp) (by simp)
  have hmemo := memoize_spec a hok id ((vmInputPos s.src : Int) - pos) count'
    (show ∀ c ∈ cs, c < (refAll s₁.mem cs).caps.length by simpa using hcs)
    (show pos ≤ max s.src.furthest (vmInputPos s.src) from le_max_of_le_right hpos)
  rw [habs, view_congr (m := s.mem) (by simp [s₁])] at hmemo
  obtain ⟨ref', p', hgrown, hok', habs', -, -, hctl⟩ := hmemo
  refine ⟨⟨ref', p', hgrown.of_extends (.of_eq (by simp [s₁]) (by simp [s₁])), hok', habs'⟩,
    hctl.src, ?_⟩
  · rw [hctl.stack]
    exact hb

theorem memoTreeMerge_sim (a : VmArgs) (seen : Nat) (accum : Int) (h : Ok input ref p s)
    (hbefore : PushedBefore (vmInputPos s.src) s.stack) :
    Sim input ref p s.mem (memoTreeMerge a seen accum s)
        (aTreeMerge a seen accum (absState ref p s)) ∧
      (memoTreeMerge a seen accum s).src = s.src ∧
      PushedBefore (vmInputPos s.src) (memoTreeMerge a seen accum s).stack := by
  obtain ⟨hok, habs, hent, hsrc, hb⟩ := popMany_sim (seen - 1) h hbefore
  rw [memoTreeMerge, aTreeMerge, ← habs]
  generalize popMany (seen - 1) s = t at hok hent hsrc hb
  have hsame : Sim input ref p s.mem t (absState ref p t) ∧ t.src = s.src ∧
      PushedBefore (vmInputPos s.src) t.stack := ⟨hok.sim hent, hsrc, hb⟩
  rcases hstack : t.stack with _ | ⟨⟨entry, cs⟩, rest⟩
  · simpa [absState, hstack] using hsame
  · have htop : (absState ref p t).stack = ⟨entry, forest (view t.mem p) cs⟩ ::
        rest.map (absFrame (view t.mem p)) := by simp [absState, hstack, absFrame]
    cases entry with
    | memoTree id pos count =>
        simp only [htop]
        obtain ⟨hok₂, habs₂, hent₂, hsrc₂, hentries₂⟩ := handDown_sim a (hok.tail hstack) pos
          ((vmInputPos t.src : Int) - pos) cs (hok.stack ⟨.memoTree id pos count, cs⟩ (by simp [hstack]))
        have hb₂ := (hstack ▸ hb).tail.of_map hentries₂
        have hpop : aPop (absState ref p t) ⟨.memoTree id pos count, forest (view t.mem p) cs⟩
            (rest.map (absFrame (view t.mem p))) = _ := habs₂.symm
        rw [hpop]
        generalize (if cs = [] then _ else _ : VmState) = u at hok₂ hent₂ hsrc₂ hb₂
        have hsame₂ : Sim input ref p s.mem u (absState ref p u) ∧ u.src = s.src ∧
            PushedBefore (vmInputPos s.src) u.stack :=
          ⟨hok₂.sim (hent.trans hent₂), hsrc₂.trans hsrc, hb₂⟩
        rcases hstack₂ : u.stack with _ | ⟨⟨entry₂, cs₂⟩, rest₂⟩
        · simpa [absState, hstack₂] using hsame₂
        · have htop₂ : (absState ref p u).stack = ⟨entry₂, forest (view u.mem p) cs₂⟩ ::
              rest₂.map (absFrame (view u.mem p)) := by simp [absState, hstack₂, absFrame]
          cases entry₂ with
          | memoTree id₂ pos₂ count₂ =>
              have husrc : u.src = t.src := hsrc₂
              have hsim := storeTree_sim a hok₂ hstack₂
                (by rw [husrc, hsrc]; exact hb₂) (accum + count₂)
              simp only [htop₂]
              rw [← husrc]
              obtain ⟨hsim, hsrc', hb'⟩ := hsim
              exact ⟨hsim.of_extends (hent.trans hent₂), hsrc'.trans (hsrc₂.trans hsrc),
                hsrc ▸ husrc ▸ hb'⟩
          | _ => simpa [htop₂, hstack₂] using hsame₂
    | _ => simpa [htop, hstack] using hsame

theorem Sim.trans {m m' : Mem} {s' s'' : VmState} {σ σ' : AState} (h : Sim input ref p m s' σ)
    (hm : s'.mem = m')
    (h' : ∀ ref' p', Ok input ref' p' s' → absState ref' p' s' = σ → Sim input ref' p' m' s'' σ') :
    Sim input ref p m s'' σ' := by
  obtain ⟨ref', p', hgrown, hok, habs⟩ := h
  obtain ⟨ref'', p'', hgrown', hok', habs'⟩ := h' ref' p' hok habs
  exact ⟨ref'', p'', hgrown.trans (hm ▸ hgrown'), hok', habs'⟩

theorem memoTreeLoop_sim (a : VmArgs) (fuel seen : Nat) (accum : Int) (h : Ok input ref p s)
    (hbefore : PushedBefore (vmInputPos s.src) s.stack) :
    Sim input ref p s.mem (memoTreeLoop a fuel seen accum s)
        (aTreeLoop a fuel seen accum (absState ref p s)) ∧
      (memoTreeLoop a fuel seen accum s).src = s.src := by
  induction fuel generalizing seen accum s ref p with
  | zero => exact ⟨h.sim (.refl _), rfl⟩
  | succ fuel ih =>
      have hstack : ∀ i : Nat, (absState ref p s).stack[i]? =
          s.stack[i]?.map (absFrame (view s.mem p)) := by simp [absState]
      have hsame : Sim input ref p s.mem s (absState ref p s) ∧ s.src = s.src := ⟨h.sim (.refl _), rfl⟩
      rw [memoTreeLoop, aTreeLoop, hstack, hstack]
      rcases hi : s.stack[seen]? with _ | ⟨entry, cs⟩
      · exact hsame
      · cases entry with
        | memoTree id pos count =>
            rcases hj : s.stack[seen + 1]? with _ | ⟨entry', cs'⟩
            · exact hsame
            · cases entry' with
              | memoTree id' pos' next =>
                  simp only [Option.map_some, absFrame]
                  split
                  · exact ih _ _ h hbefore
                  · obtain ⟨hmerge, hsrc, hb⟩ := memoTreeMerge_sim a (seen + 1) (accum + count) h
                      hbefore
                    refine ⟨hmerge.trans rfl fun ref' p' hok habs => ?_, ?_⟩
                    · rw [← habs]
                      exact (ih 0 0 hok (hsrc ▸ hb)).1
                    · obtain ⟨ref', p', -, hok, -⟩ := hmerge
                      exact (ih 0 0 hok (hsrc ▸ hb)).2.trans hsrc
              | _ => exact hsame
        | _ => exact hsame

/-- The state that the result of an instruction holds. -/
def nextState : VmNext → Option VmState
  | .running s => some s
  | .done s _ => some s
  | .failed s => some s
  | .aborted _ => none

/-- The result of an instruction on a state with memory `m` reads as `ρ`. -/
def NextSim (input : List UInt8) (ref : List (RefIv Nat)) (p : Nat → Int) (m : Mem) (r : VmNext)
    (ρ : ANext) : Prop :=
  ∃ ref' p', absNext ref' p' r = ρ ∧
    ∀ s', nextState r = some s' → Ok input ref' p' s' ∧ Grown m p s'.mem p' ref ref'

theorem NextSim.of_extends {m m' : Mem} {r : VmNext} {ρ : ANext} (h : NextSim input ref p m r ρ)
    (hext : Extends m' m) : NextSim input ref p m' r ρ := by
  obtain ⟨ref', p', habs, hok⟩ := h
  refine ⟨ref', p', habs, fun s' hs' => ?_⟩
  obtain ⟨hok, hgrown⟩ := hok s' hs'
  exact ⟨hok, hgrown.of_extends hext⟩

theorem vmFail_sim (a : VmArgs) (h : Ok input ref p s) (stack : List StackEntry)
    (hstack : ∀ e ∈ stack, ∀ c ∈ e.capt, c < s.mem.caps.length)
    (hbefore : PushedBefore (vmInputPos s.src) stack) :
    NextSim input ref p s.mem (vmFail a stack s)
      (aFail a (stack.map (absFrame (view s.mem p))) (absState ref p s)) := by
  induction stack generalizing s ref p with
  | nil =>
      refine ⟨ref, p, rfl, ?_⟩
      rintro s' ⟨⟩
      exact ⟨h.setStack (by simp), Extends.grown (.refl _) p⟩
  | cons e stack ih =>
      have htail : ∀ d ∈ stack, ∀ c ∈ d.capt, c < s.mem.caps.length :=
        fun d hd => hstack d (by simp [hd])
      have hfree : NextSim input ref p s.mem (vmFail a stack { s with mem := freeAll s.mem e.capt })
          (aFail a (stack.map (absFrame (view s.mem p))) (absState ref p s)) := by
        have := ih (h.freeAll e.capt) (by simpa using htail) hbefore.tail
        rw [absState_freeAll, view_congr (m := s.mem) (by simp)] at this
        exact this.of_extends (.of_eq (by simp) (by simp))
      rw [vmFail, List.map_cons, aFail]
      simp only [absFrame_entry]
      cases hentry : e.entry with
      | btrack ip off =>
          have hbase : Ok input ref p
              { s with stack := stack, ip := ip, src := inputSeekTo s.src off } :=
            ⟨h.memo, htail, h.capt, (inputSeekTo_data ..).trans h.data⟩
          refine ⟨ref, p, ?_, ?_⟩
          · have habs : absState ref p _ = absState ref p
                { s with stack := stack, ip := ip, src := inputSeekTo s.src off } :=
              absState_mem (m := freeAll s.mem e.capt) (by simp) (by simp)
            simp only [absNext, habs]
            simp [absState]
          · rintro s' ⟨⟩
            exact ⟨hbase.mem (by simp) (by simp), Extends.grown (.of_eq (by simp) (by simp)) p⟩
      | memo id pos =>
          have hpos : pos ≤ max s.src.furthest (vmInputPos s.src) :=
            le_max_of_le_right (hbefore e (by simp) pos (by rw [hentry]; rfl))
          obtain ⟨ref', p', hgrown, hok, habs, hview, hlen, hctl⟩ :=
            memoize_spec a h id (-1) 0 (hstack e (by simp)) hpos
          have hnext := ih hok (by simpa only [hlen] using htail)
            (by rw [hctl.src]; exact hbefore.tail)
          rw [habs, hview] at hnext
          obtain ⟨ref'', p'', habs', hok'⟩ := hnext
          refine ⟨ref'', p'', habs', fun s' hs' => ?_⟩
          obtain ⟨hok'', hgrown'⟩ := hok' s' hs'
          exact ⟨hok'', hgrown.trans hgrown'⟩
      | _ => exact hfree

theorem PushedBefore.mono {q q' : Nat} {stack : List StackEntry} (h : PushedBefore q stack)
    (hle : q ≤ q') : PushedBefore q' stack :=
  fun e he x hx => (h e he x hx).trans hle

theorem goFail_sim (a : VmArgs) (h : Ok input ref p s)
    (hbefore : PushedBefore (vmInputPos s.src) s.stack) :
    NextSim input ref p s.mem (goFail a s) (aGoFail a (absState ref p s)) :=
  vmFail_sim a h s.stack h.stack hbefore

theorem Sim.running {m : Mem} {s' : VmState} {σ : AState} (h : Sim input ref p m s' σ) :
    NextSim input ref p m (.running s') (.running σ) := by
  obtain ⟨ref', p', hgrown, hok, rfl⟩ := h
  refine ⟨ref', p', rfl, ?_⟩
  rintro s'' ⟨⟩
  exact ⟨hok, hgrown⟩

theorem Sim.jumpTo {m : Mem} {s' : VmState} {σ : AState} (h : Sim input ref p m s' σ) (l : Nat) :
    NextSim input ref p m (jumpTo s' l) (aJumpTo σ l) := by
  obtain ⟨ref', p', hgrown, hok, rfl⟩ := h
  exact Sim.running ⟨ref', p', hgrown, ⟨hok.memo, hok.stack, hok.capt, hok.data⟩, rfl⟩

theorem Sim.nextIp {m : Mem} {s' : VmState} {σ : AState} (h : Sim input ref p m s' σ) :
    NextSim input ref p m (nextIp s') (aNextIp σ) := by
  obtain ⟨ref', p', hgrown, hok, rfl⟩ := h
  exact Sim.running ⟨ref', p', hgrown, ⟨hok.memo, hok.stack, hok.capt, hok.data⟩, rfl⟩

theorem nextSim_aborted {m : Mem} (msg : String) :
    NextSim input ref p m (.aborted msg) (.aborted msg) :=
  ⟨ref, p, rfl, by simp [nextState]⟩

theorem Ok.setSrc {src : VmInput} (h : Ok input ref p s) (hdata : src.data = s.src.data) :
    Ok input ref p { s with src := src } :=
  ⟨h.memo, h.stack, h.capt, hdata.trans h.data⟩

theorem absState_setSrc (src : VmInput) :
    absState ref p { s with src := src } =
      { absState ref p s with pos := vmInputPos src, furthest := src.furthest } :=
  rfl

theorem testByte_sim (h : Ok input ref p s) (a : VmArgs) (hin : a.input = input)
    (f : UInt8 → Bool) :
    Ok input ref p (testByte s f).1 ∧
      absState ref p (testByte s f).1 = aPeek (absState ref p s) ∧
      (testByte s f).2 = aTest a (absState ref p s) f ∧ (testByte s f).1.mem = s.mem ∧
      (testByte s f).1.stack = s.stack ∧ vmInputPos (testByte s f).1.src = vmInputPos s.src := by
  refine ⟨h.setSrc (inputPeek_data s.src), rfl, ?_, rfl, rfl, rfl⟩
  simp only [testByte, aTest, inputPeek_byte, h.data, hin]
  rfl

theorem stepByte_sim (h : Ok input ref p s) :
    Ok input ref p (stepByte s) ∧ absState ref p (stepByte s) = aAdvance (absState ref p s) 1 := by
  refine ⟨h.setSrc (inputAdvance_data ..), ?_⟩
  rw [stepByte, absState_setSrc]
  simp [aAdvance, absState]

theorem Sim.seekTo {m : Mem} {s' : VmState} {σ : AState} (h : Sim input ref p m s' σ) (off : Nat) :
    Sim input ref p m { s' with src := inputSeekTo s'.src off } { σ with pos := off } := by
  obtain ⟨ref', p', hgrown, hok, rfl⟩ := h
  refine ⟨ref', p', hgrown, hok.setSrc (inputSeekTo_data ..), ?_⟩
  rw [absState_setSrc, inputSeekTo_pos, inputSeekTo_furthest]
  rfl

theorem Sim.advance {m : Mem} {s' : VmState} {σ : AState} (h : Sim input ref p m s' σ) (n : Nat) :
    Sim input ref p m { s' with src := (inputAdvance s'.src n).1 } (aAdvance σ n) := by
  obtain ⟨ref', p', hgrown, hok, rfl⟩ := h
  refine ⟨ref', p', hgrown, hok.setSrc (inputAdvance_data ..), ?_⟩
  rw [absState_setSrc, inputAdvance_pos, inputAdvance_furthest]
  rfl

theorem Sim.touch {m : Mem} {s' : VmState} {σ : AState} (h : Sim input ref p m s' σ) :
    Sim input ref p m { s' with src := inputTouch s'.src } (aPeek σ) := by
  obtain ⟨ref', p', hgrown, hok, rfl⟩ := h
  exact ⟨ref', p', hgrown, hok.setSrc rfl, rfl⟩

section Fuel

variable {a : VmArgs}

theorem vmClear_mono {fuel fuel' : Nat} (hle : fuel ≤ fuel') {m : Mem} {tbl : Option MemoTable}
    {x : Mem × Option MemoTable} (h : vmClear fuel a m tbl = some x) :
    vmClear fuel' a m tbl = some x := by
  cases tbl with
  | none => exact h
  | some t =>
      rw [vmClear] at h ⊢
      split at h
      · next hw =>
          obtain ⟨y, hedit, h⟩ := Option.bind_eq_some_iff.mp h
          rw [if_pos hw, memoTableApplyEdit_mono hle hedit]
          exact h
      · next hw => rwa [if_neg hw]

theorem vmClear_unique {fuel fuel' : Nat} {m : Mem} {tbl : Option MemoTable}
    {x y : Mem × Option MemoTable} (h : vmClear fuel a m tbl = some x)
    (h' : vmClear fuel' a m tbl = some y) : x = y := by
  have hx := vmClear_mono (Nat.le_max_left fuel fuel') h
  rw [vmClear_mono (Nat.le_max_right fuel fuel') h'] at hx
  exact (Option.some.inj hx).symm

theorem vmLoop_mono {fuel fuel' : Nat} (hle : fuel ≤ fuel') {s : VmState} {r : VmNext}
    (h : vmLoop a fuel s = some r) : vmLoop a fuel' s = some r := by
  induction fuel generalizing s fuel' with
  | zero => cases h
  | succ fuel ih =>
      obtain ⟨fuel', rfl⟩ : ∃ k, fuel' = k + 1 := ⟨fuel' - 1, by omega⟩
      rw [vmLoop] at h ⊢
      cases hstep : vmStep a s with
      | running s' =>
          rw [hstep] at h
          exact ih (by omega) h
      | _ =>
          rw [hstep] at h
          exact h

/-- The two parts of a run, which share their fuel, may each have their own. -/
theorem exists_clear {β : Type} (loop : Nat → Mem × Option MemoTable → Option β)
    (hmono : ∀ n n' x r, n ≤ n' → loop n x = some r → loop n' x = some r) {m : Mem}
    {tbl : Option MemoTable} {r : β} :
    (∃ fuel, (vmClear fuel a m tbl).bind (loop fuel) = some r) ↔
      ∃ x, (∃ fuel, vmClear fuel a m tbl = some x) ∧ ∃ fuel, loop fuel x = some r := by
  constructor
  · rintro ⟨fuel, h⟩
    obtain ⟨x, hclear, hloop⟩ := Option.bind_eq_some_iff.mp h
    exact ⟨x, ⟨fuel, hclear⟩, fuel, hloop⟩
  · rintro ⟨x, ⟨fuel, hclear⟩, fuel', hloop⟩
    refine ⟨max fuel fuel', ?_⟩
    rw [vmClear_mono (Nat.le_max_left _ _) hclear, Option.bind_some]
    exact hmono _ _ _ _ (Nat.le_max_right _ _) hloop

theorem vmExec_loops {m : Mem} {tbl : Option MemoTable} {nchecks : Nat}
    {r : Except String (VmResult × VmAfter)} (hwindow : ¬(a.windowed ∧ tbl.isNone))
    (hprog : a.code.prog ≠ []) :
    (∃ fuel, vmExec fuel a m tbl nchecks = some r) ↔
      ∃ x, (∃ fuel, vmClear fuel a m tbl = some x) ∧
        ∃ fuel, (vmLoop a fuel (vmStart a x.1 x.2 nchecks)).map (vmFinish a) = some r := by
  simp only [vmExec, if_neg hwindow, if_neg hprog]
  refine exists_clear (fun fuel x => (vmLoop a fuel (vmStart a x.1 x.2 nchecks)).map (vmFinish a))
    fun n n' x r hle h => ?_
  obtain ⟨res, hres, rfl⟩ := Option.map_eq_some_iff.mp h
  rw [vmLoop_mono hle hres]
  rfl

end Fuel

end Libpeg.Simulation
