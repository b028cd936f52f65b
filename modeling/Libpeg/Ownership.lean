import Libpeg.Anchoring
import Libpeg.RefCount

namespace Libpeg.Ownership

open Libpeg.Charset Libpeg.Opcode Libpeg.Code Libpeg.Pattern Libpeg.Compile
open Libpeg.IntervalTree Libpeg.IntervalRefinement Libpeg.Memo Libpeg.Input Libpeg.Vm
open Libpeg.MemoView Libpeg.Simulation Libpeg.Positions Libpeg.RunSimulation Libpeg.Relocation
open Libpeg.Session Libpeg.Anchoring Libpeg.RefCount

/-- The count of every capture is the number of times it is in `roots` or in the
children array of a live capture. -/
def Counted (m : Mem) (roots : List Nat) : Prop :=
  Exact (kids m) m.refs roots

theorem captureFreeLoop_eq (caps : List MemoCapture) (fuel : Nat) (refs : List Nat) (c : Nat) :
    captureFreeLoop caps fuel refs c = release (caps.map MemoCapture.children) fuel refs c := by
  induction fuel generalizing refs c with
  | zero => rfl
  | succ fuel ih =>
      have hloop : captureFreeLoop caps fuel = release (caps.map MemoCapture.children) fuel := by
        funext refs c
        exact ih refs c
      rw [captureFreeLoop, release, hloop]
      cases hc : caps[c]? <;> simp [hc]

section Memory

variable {m : Mem} {roots : List Nat}

theorem Counted.congr {m' : Mem} (h : Counted m roots) (hsame : SameHolders m m') :
    Counted m' roots := by
  rw [Counted, hsame.kids, hsame.refs]
  exact h

theorem Counted.perm {roots' : List Nat} (h : Counted m roots) (hperm : roots.Perm roots') :
    Counted m roots' :=
  Exact.perm h hperm

theorem Counted.refAll {cs : List Nat} (h : Counted m roots) (hcs : cs ⊆ roots) :
    Counted (refAll m cs) (cs ++ roots) := by
  induction cs generalizing m roots with
  | nil => exact h
  | cons c cs ih =>
      have hc : Counted (memoCaptureRef m c) (c :: roots) :=
        Exact.ref h (hcs List.mem_cons_self)
      have hrest := ih hc fun d hd => List.mem_cons_of_mem c (hcs (List.mem_cons_of_mem c hd))
      exact hrest.perm List.perm_middle

theorem Counted.free {c : Nat} (h : Counted m (c :: roots)) :
    Counted (memoCaptureFree m c) roots := by
  have hlt : c < m.caps.length := by simpa [kids] using Exact.lt h List.mem_cons_self
  have hone := Exact.releaseOne m.caps.length h hlt
  rw [Counted, memoCaptureFree, captureFreeLoop_eq]
  exact hone

theorem Counted.freeAll {cs : List Nat} (h : Counted m (cs ++ roots)) :
    Counted (freeAll m cs) roots := by
  induction cs generalizing m with
  | nil => exact h
  | cons c cs ih => exact ih (Counted.free h)

theorem Counted.alloc (h : Counted m roots) (cell : MemoCapture) (hcell : cell.children = []) :
    Counted { m with caps := m.caps ++ [cell], refs := m.refs ++ [1] }
      (m.caps.length :: roots) := by
  have hnew := Exact.alloc h
  simp only [Counted, kids, List.map_append, List.map_cons, List.map_nil, hcell]
  simpa [kids] using hnew

theorem Counted.add {c child : Nat} (h : Counted m roots) (hc : c ∈ roots) (hchild : child ∈ roots)
    (hlt : child < c) : Counted (memoCaptureAdd m c child) roots := by
  have hadd := Exact.addPointer h hc hchild hlt
  have hkids : kids (memoCaptureAdd m c child) = (kids m).modify c (· ++ [child]) :=
    map_modify_comm (by intro _; rfl) m.caps c
  rw [Counted, hkids]
  exact hadd

theorem Counted.addAll {c : Nat} (h : Counted m roots) (hc : c ∈ roots) {cs : List Nat}
    (hcs : cs ⊆ roots) (hlt : ∀ d ∈ cs, d < c) :
    Counted (cs.foldl (fun m child => memoCaptureAdd m c child) m) roots ∧
      (cs.foldl (fun m child => memoCaptureAdd m c child) m).entries = m.entries := by
  induction cs generalizing m with
  | nil => exact ⟨h, rfl⟩
  | cons d cs ih =>
      have hd := h.add hc (hcs List.mem_cons_self) (hlt d List.mem_cons_self)
      exact ih hd (fun x hx => hcs (List.mem_cons_of_mem d hx))
        fun x hx => hlt x (List.mem_cons_of_mem d hx)

end Memory

/-- The captures of the entries from the `n`th on. -/
def newCaptures (m : Mem) (n : Nat) : List Nat :=
  (m.entries.drop n).flatMap MemoEntry.captures

/-- What is held in a state: by the machine, by the entries from the `n`th on, and
by others. -/
def held (n : Nat) (others : List Nat) (s : VmState) : List Nat :=
  machineCaptures s ++ newCaptures s.mem n ++ others

/-- The counts are right, and the first `n` entries are still there. -/
def Balanced (n : Nat) (others : List Nat) (s : VmState) : Prop :=
  Counted s.mem (held n others s) ∧ n ≤ s.mem.entries.length

section Machine

variable {a : VmArgs} {n : Nat} {others cs : List Nat} {s : VmState}

theorem Counted.balanced {roots : List Nat} (h : Counted s.mem roots)
    (hentries : n ≤ s.mem.entries.length)
    (hcount : ∀ c, roots.count c = (held n others s).count c) : Balanced n others s :=
  ⟨h.perm (List.perm_iff_count.mpr hcount), hentries⟩

theorem Balanced.pop {e : StackEntry} {rest : List StackEntry} (h : Balanced n others s)
    (hs : s.stack = e :: rest) : Balanced n (e.capt ++ others) { s with stack := rest } := by
  refine Counted.balanced h.1 h.2 fun c => ?_
  simp only [held, machineCaptures, hs, List.flatMap_cons, List.count_append]
  omega

theorem Balanced.putBack {e : StackEntry} (h : Balanced n (e.capt ++ others) s) :
    Balanced n others { s with stack := e :: s.stack } := by
  refine Counted.balanced h.1 h.2 fun c => ?_
  simp only [held, machineCaptures, List.flatMap_cons, List.count_append]
  omega

theorem Balanced.setSrc (h : Balanced n others s) (src : VmInput) :
    Balanced n others { s with src := src } :=
  h

theorem Balanced.push (h : Balanced n others s) (e : StEntry) : Balanced n others (push s e) :=
  Balanced.putBack (e := ⟨e, []⟩) h

theorem Balanced.freeAll (h : Balanced n (cs ++ others) s) :
    Balanced n others { s with mem := freeAll s.mem cs } := by
  have hperm : (held n (cs ++ others) s).Perm (cs ++ held n others s) := by
    refine List.perm_iff_count.mpr fun c => ?_
    simp only [held, List.count_append]
    omega
  refine Counted.balanced (h.1.perm hperm).freeAll (by simpa using h.2) fun c => ?_
  simp only [held, machineCaptures, newCaptures, freeAll_entries]

@[simp] theorem appendCapt_mem (s : VmState) (cs : List Nat) : (appendCapt s cs).mem = s.mem := by
  unfold appendCapt
  split <;> rfl

theorem count_appendCapt (s : VmState) (cs : List Nat) (c : Nat) :
    (machineCaptures (appendCapt s cs)).count c = (machineCaptures s).count c + cs.count c := by
  unfold appendCapt machineCaptures
  split
  · next hs =>
      simp only [hs, List.flatMap_nil, List.nil_append, List.count_append]
  · next e rest hs =>
      simp only [hs, List.flatMap_cons, List.count_append]
      omega

theorem Balanced.appendCapt (h : Balanced n (cs ++ others) s) :
    Balanced n others (appendCapt s cs) := by
  have hcounted : Counted (Vm.appendCapt s cs).mem (held n (cs ++ others) s) := by
    rw [appendCapt_mem]
    exact h.1
  refine Counted.balanced hcounted (by simpa using h.2) fun c => ?_
  simp only [held, List.count_append, count_appendCapt, appendCapt_mem]
  omega

theorem Balanced.refAll (h : Balanced n others s) (hcs : cs ⊆ held n others s) :
    Balanced n (cs ++ others) { s with mem := refAll s.mem cs } := by
  refine Counted.balanced (h.1.refAll hcs) (by simpa using h.2) fun c => ?_
  simp only [held, machineCaptures, newCaptures, refAll_entries, List.count_append]
  omega

theorem Balanced.stackAddCapt (h : Balanced n others s) (hcs : cs ⊆ held n others s) :
    Balanced n others (stackAddCapt s cs) :=
  (h.refAll hcs).appendCapt

theorem subset_held_append (others : List Nat) (s : VmState) :
    cs ⊆ held n (cs ++ others) s := by
  intro c hc
  simp [held, hc]

theorem Balanced.popClear {e : StackEntry} {rest : List StackEntry} (h : Balanced n others s)
    (hs : s.stack = e :: rest) (b : Bool) : Balanced n others (popClear s b e rest) := by
  have hpop := h.pop hs
  cases b with
  | false => exact hpop.freeAll
  | true => exact (hpop.stackAddCapt (subset_held_append _ _)).freeAll

theorem Balanced.stackPropCapt (h : Balanced n others s) : Balanced n others (stackPropCapt s) := by
  unfold Vm.stackPropCapt
  split
  · exact h
  · next e rest hs =>
      exact Balanced.putBack (e := { e with capt := [] }) (h.pop hs).appendCapt

theorem Balanced.addCell (h : Balanced n (cs ++ others) s) (cell : MemoCapture)
    (hcell : cell.children = []) :
    Balanced n others
      (let m := cs.foldl (fun m child => memoCaptureAdd m s.mem.caps.length child)
        { s.mem with caps := s.mem.caps ++ [cell], refs := s.mem.refs ++ [1] }
      let s' := Vm.stackAddCapt { s with mem := Vm.freeAll m cs } [s.mem.caps.length]
      { s' with mem := memoCaptureFree s'.mem s.mem.caps.length }) := by
  have halloc := h.1.alloc cell hcell
  have hlt : ∀ c ∈ cs, c < s.mem.caps.length := by
    intro c hc
    have hin : c ∈ held n (cs ++ others) s := by simp [held, hc]
    simpa [kids] using Exact.lt h.1 hin
  have hcs : cs ⊆ s.mem.caps.length :: held n (cs ++ others) s :=
    fun c hc => List.mem_cons_of_mem _ (subset_held_append _ _ hc)
  obtain ⟨hkids, hents⟩ := halloc.addAll List.mem_cons_self hcs hlt
  simp only
  generalize cs.foldl (fun m child => memoCaptureAdd m s.mem.caps.length child)
    { s.mem with caps := s.mem.caps ++ [cell], refs := s.mem.refs ++ [1] } = m at hkids hents
  simp only at hents
  -- the new cell is held by this function until it is on the stack
  have hheld : Balanced n (cs ++ s.mem.caps.length :: others) { s with mem := m } := by
    refine Counted.balanced hkids (by simpa [hents] using h.2) fun c => ?_
    simp only [held, newCaptures, machineCaptures, hents, List.count_append, List.count_cons]
    omega
  have hdrop : Balanced n (s.mem.caps.length :: others) { s with mem := Vm.freeAll m cs } :=
    hheld.freeAll
  have hnew : [s.mem.caps.length] ⊆
      held n ([s.mem.caps.length] ++ others) { s with mem := Vm.freeAll m cs } :=
    subset_held_append _ _
  have hput : Balanced n ([s.mem.caps.length] ++ others)
      (Vm.stackAddCapt { s with mem := Vm.freeAll m cs } [s.mem.caps.length]) :=
    Balanced.stackAddCapt hdrop hnew
  exact hput.freeAll

theorem Balanced.addNode (h : Balanced n (cs ++ others) s) (id start length : Int) :
    Balanced n others (addNode s id start length cs) :=
  h.addCell ⟨id, false, start, length, none, []⟩ rfl

theorem Balanced.addDummy (h : Balanced n (cs ++ others) s) (start length : Int) :
    Balanced n others (addDummy s start length cs) :=
  h.addCell ⟨0, true, start, length, none, []⟩ rfl

theorem Balanced.congr {m : Mem} (h : Balanced n others s) (hsame : SameHolders s.mem m)
    (tbl : Option MemoTable) : Balanced n others { s with mem := m, tbl := tbl } := by
  refine Counted.balanced (h.1.congr hsame) ?_ fun c => ?_
  · rw [hsame.entries]
    exact h.2
  · simp only [held, machineCaptures, newCaptures, hsame.entries]

theorem Balanced.memoize (h : Balanced n (cs ++ others) s) (id : Int) (pos : Nat)
    (mlen count : Int) : Balanced n others (memoize a s id pos mlen count cs) := by
  unfold Vm.memoize
  split
  · exact h.freeAll
  · next t ht =>
      split
      · exact h.freeAll
      · dsimp only
        generalize ((if s.src.furthest > vmInputPos s.src then s.src.furthest
          else vmInputPos s.src : Nat) : Int) - pos + 1 = mexam
        by_cases hskip : t.threshold > 0 ∧ mexam < t.threshold ∨ mlen = 0
        · rw [memoTablePut_skip hskip]
          exact h.freeAll
        · obtain ⟨entry, hcapt, -, hsame, -⟩ :=
            memoTablePut_stores s.mem t id pos mlen mexam count cs hskip
          have hstored : Balanced n others
              { s with mem := { s.mem with entries := s.mem.entries ++ [entry] } } := by
            have hcounted : Counted { s.mem with entries := s.mem.entries ++ [entry] }
                (held n (cs ++ others) s) := h.1
            refine Counted.balanced (s := { s with mem := _ }) hcounted ?_ fun c => ?_
            · have := h.2
              simp only [List.length_append, List.length_singleton]
              omega
            · simp only [held, machineCaptures, newCaptures, List.drop_append_of_le_length h.2,
                List.flatMap_append, List.flatMap_cons, List.flatMap_nil, hcapt, List.count_append,
                List.append_nil]
              omega
          exact hstored.congr hsame _

/-- The state that a step leads to is balanced, and a failed match has no stack
left. -/
def NextBalanced (n : Nat) (others : List Nat) (r : VmNext) : Prop :=
  (∀ s, nextState r = some s → Balanced n others s) ∧ ∀ s, r = .failed s → s.stack = []

theorem Balanced.running (h : Balanced n others s) : NextBalanced n others (.running s) := by
  constructor
  · rintro _ ⟨⟩
    exact h
  · rintro _ ⟨⟩

theorem Balanced.nextIp (h : Balanced n others s) : NextBalanced n others (nextIp s) :=
  Balanced.running (s := { s with ip := _ }) h

theorem Balanced.jumpTo (h : Balanced n others s) (l : Nat) :
    NextBalanced n others (jumpTo s l) :=
  Balanced.running (s := { s with ip := l }) h

theorem nextBalanced_aborted (msg : String) : NextBalanced n others (.aborted msg) := by
  constructor <;> rintro _ ⟨⟩

theorem memoize_setStack (stack : List StackEntry) (id : Int) (pos : Nat) (mlen count : Int) :
    memoize a { s with stack := stack } id pos mlen count cs =
      { memoize a s id pos mlen count cs with stack := stack } := by
  unfold Vm.memoize
  dsimp only
  cases s.tbl with
  | none => rfl
  | some t =>
      cases a.windowed with
      | true => rfl
      | false => rfl

theorem vmFail_balanced (stack : List StackEntry)
    (h : Balanced n (stack.flatMap StackEntry.capt ++ others) { s with stack := [] }) :
    NextBalanced n others (vmFail a stack s) := by
  induction stack generalizing s with
  | nil =>
      constructor
      · rintro _ ⟨⟩
        exact h
      · rintro _ ⟨⟩
        rfl
  | cons e rest ih =>
      have htop : Balanced n (e.capt ++ (rest.flatMap StackEntry.capt ++ others))
          { s with stack := [] } := by
        rw [List.flatMap_cons, List.append_assoc] at h
        exact h
      rw [vmFail]
      split
      · refine Balanced.running ?_
        have hfree := htop.freeAll
        refine Counted.balanced hfree.1 hfree.2 fun c => ?_
        simp only [held, machineCaptures, newCaptures, List.flatMap_nil, List.nil_append,
          List.count_append]
        omega
      · next id pos _ =>
          have hstore := htop.memoize (a := a) id pos (-1) 0
          rw [memoize_setStack] at hstore
          exact ih hstore
      · exact ih htop.freeAll

theorem Balanced.goFail (h : Balanced n others s) : NextBalanced n others (goFail a s) := by
  refine vmFail_balanced s.stack (Counted.balanced h.1 h.2 fun c => ?_)
  simp only [held, machineCaptures, List.flatMap_nil, List.nil_append, List.count_append]
  omega

theorem Balanced.memoTreeClose (h : Balanced n others s) (id : Int) (fuel : Nat) :
    Balanced n others (memoTreeClose id fuel s) := by
  induction fuel generalizing s with
  | zero => exact h
  | succ fuel ih =>
      rw [Vm.memoTreeClose]
      split
      · next e rest hs =>
          split
          · split
            · exact ih (h.popClear hs true)
            · exact h
          · exact h
      · exact h

theorem Balanced.popMany (h : Balanced n others s) (k : Nat) : Balanced n others (popMany k s) := by
  induction k generalizing s with
  | zero => exact h
  | succ k ih =>
      rw [Vm.popMany]
      split
      · next e rest hs => exact ih (h.popClear hs true)
      · exact h

theorem Balanced.handDown (h : Balanced n (cs ++ others) s) (start length : Int) :
    Balanced n others
      (if cs = [] then s
        else if a.windowed then
          { Vm.stackAddCapt s cs with mem := Vm.freeAll (Vm.stackAddCapt s cs).mem cs }
        else Vm.addDummy s start length cs) := by
  split
  · next hnil =>
      rw [hnil] at h
      exact h
  · split
    · exact (h.stackAddCapt (subset_held_append _ _)).freeAll
    · exact h.addDummy start length

theorem Balanced.memoizeTop {e e' : StEntry} {rest : List StackEntry} (h : Balanced n others s)
    (hs : s.stack = ⟨e, cs⟩ :: rest) (id : Int) (pos : Nat) (mlen count : Int) :
    Balanced n others (Vm.memoize a
      { s with stack := ⟨e', cs⟩ :: rest, mem := Vm.refAll s.mem cs } id pos mlen count cs) := by
  have hpop : Balanced n (cs ++ others) { s with stack := rest } := h.pop hs
  have hset : Balanced n others { s with stack := ⟨e', cs⟩ :: rest } :=
    Balanced.putBack (e := ⟨e', cs⟩) hpop
  have hin : cs ⊆ held n others { s with stack := ⟨e', cs⟩ :: rest } := fun c hc => by
    simp [held, machineCaptures, hc]
  exact (hset.refAll hin).memoize id pos mlen count

theorem Balanced.memoTreeMerge (h : Balanced n others s) (seen : Nat) (accum : Int) :
    Balanced n others (memoTreeMerge a seen accum s) := by
  have hpop := h.popMany (seen - 1)
  unfold Vm.memoTreeMerge
  generalize Vm.popMany (seen - 1) s = s₁ at hpop
  dsimp only
  split
  · next pos _ capt rest hs =>
      have hdown := (hpop.pop hs).handDown (a := a) pos ((vmInputPos s₁.src : Int) - pos)
      dsimp only at hdown
      split
      · next id pos' count capt' rest' hs' =>
          exact hdown.memoizeTop hs' id pos' _ _
      · exact hdown
  · exact hpop

theorem Balanced.memoTreeLoop (h : Balanced n others s) (fuel seen : Nat) (accum : Int) :
    Balanced n others (memoTreeLoop a fuel seen accum s) := by
  induction fuel generalizing seen accum s with
  | zero => exact h
  | succ fuel ih =>
      rw [Vm.memoTreeLoop]
      split
      · split
        · exact ih h _ _
        · exact ih (h.memoTreeMerge _ _) _ _
      · exact h

theorem Balanced.addEach (h : Balanced n others s) (hcs : cs ⊆ held n others s) :
    Balanced n others (addEach s cs) := by
  induction cs generalizing s with
  | nil => exact h
  | cons c cs ih =>
      have hc : [c] ⊆ held n others s := by
        simpa using hcs List.mem_cons_self
      refine ih (h.stackAddCapt hc) fun d hd => ?_
      have hold := hcs (List.mem_cons_of_mem c hd)
      have hcount := List.count_pos_iff.mpr hold
      have hmore := count_appendCapt { s with mem := Vm.refAll s.mem [c] } [c] d
      have hsame : machineCaptures { s with mem := Vm.refAll s.mem [c] } = machineCaptures s := rfl
      refine List.count_pos_iff.mp ?_
      simp only [held, Vm.stackAddCapt, List.count_append, appendCapt_mem, newCaptures,
        refAll_entries, hmore, hsame] at hcount ⊢
      omega

theorem lookup_eq (s : VmState) (id : Int) : ∃ tbl, (lookup s id).1 = { s with tbl := tbl } := by
  unfold lookup
  split
  · exact ⟨s.tbl, rfl⟩
  · exact ⟨_, rfl⟩

theorem Balanced.lookup (h : Balanced n others s) (id : Int) :
    Balanced n others (lookup s id).1 := by
  obtain ⟨tbl, heq⟩ := lookup_eq s id
  rw [heq]
  exact h

theorem Balanced.match (h : Balanced n others s) (f : UInt8 → Bool) :
    NextBalanced n others
      (if (testByte s f).2 then Vm.nextIp (stepByte (testByte s f).1)
        else Vm.goFail a (testByte s f).1) := by
  split
  · exact Balanced.nextIp (s := stepByte (testByte s f).1) h
  · exact Balanced.goFail (s := (testByte s f).1) h

theorem Balanced.testInsn (h : Balanced n others s) (f : UInt8 → Bool) (choice : Bool)
    (l : Nat) : NextBalanced n others (testInsn s f choice l) := by
  unfold Vm.testInsn
  dsimp only
  split
  · cases choice with
    | false => exact Balanced.nextIp (s := stepByte (testByte s f).1) h
    | true =>
        have hpush := Balanced.push (s := (testByte s f).1) h
          (.btrack l (vmInputPos (testByte s f).1.src))
        exact Balanced.nextIp (s := stepByte (Vm.push (testByte s f).1 _)) hpush
  · exact Balanced.jumpTo (s := (testByte s f).1) h l

theorem Balanced.widen (h : Balanced n others s) (low high : Int) :
    Balanced n others (widen a s low high) := by
  unfold Vm.widen
  split <;> exact h

theorem Balanced.captureEnd (h : Balanced n others s) :
    NextBalanced n others (vmInsn a s .captureEnd) := by
  simp only [vmInsn]
  split
  · next id pos capt rest hs =>
      have hpop : Balanced n (capt ++ others) { s with stack := rest } := h.pop hs
      split
      · exact ((hpop.widen _ _).addNode _ _ _).nextIp
      · exact hpop.freeAll.nextIp
  · exact nextBalanced_aborted _

theorem Balanced.checkEnd (h : Balanced n others s) (k : Nat) :
    NextBalanced n others (vmInsn a s (.checkEnd k)) := by
  simp only [vmInsn]
  split
  · next id pos flag capt rest hs =>
      have hpop := h.popClear hs true
      split
      · exact hpop.nextIp
      · split
        · exact Balanced.goFail (s := { Vm.popClear s true _ rest with nchecks := _ }) hpop
        · split
          · exact Balanced.goFail (s := { Vm.popClear s true _ rest with nchecks := _ }) hpop
          · exact Balanced.nextIp (s := { Vm.popClear s true _ rest with src := _, nchecks := _ })
              hpop
  · exact nextBalanced_aborted _

theorem Balanced.memoOpen (h : Balanced n others s)
    (hhit : ∀ id e, (Vm.lookup s id).2 = some e → e.captures ⊆ held n others s) (l : Nat) (id : Int) :
    NextBalanced n others (vmInsn a s (.memoOpen l id)) := by
  have hlook := h.lookup id
  obtain ⟨tbl, heq⟩ := lookup_eq s id
  simp only [vmInsn]
  split
  · next s₁ e he =>
      rw [he] at hlook heq
      dsimp only at hlook heq
      have hcs : e.captures ⊆ held n others s₁ := by
        rw [heq]
        exact hhit id e (by rw [he])
      split
      · exact hlook.goFail
      · exact ((hlook.addEach hcs).setSrc _).jumpTo l
  · next s₁ he =>
      rw [he] at hlook
      exact (hlook.push _).nextIp

theorem Balanced.memoTreeOpen (h : Balanced n others s)
    (hhit : ∀ id e, (Vm.lookup s id).2 = some e → e.captures ⊆ held n others s) (l : Nat) (id : Int) :
    NextBalanced n others (vmInsn a s (.memoTreeOpen l id)) := by
  have hlook := h.lookup id
  obtain ⟨tbl, heq⟩ := lookup_eq s id
  simp only [vmInsn]
  split
  · next s₁ e he =>
      rw [he] at hlook heq
      dsimp only at hlook heq
      have hcs : e.captures ⊆ held n others
          (Vm.push s₁ (.memoTree id (vmInputPos s₁.src) e.count)) := by
        rw [heq]
        exact hhit id e (by rw [he])
      split
      · exact hlook.goFail
      · exact (((hlook.push _).addEach hcs).setSrc _).jumpTo l
  · next s₁ he =>
      rw [he] at hlook
      exact (hlook.push _).nextIp

theorem vmInsn_balanced (h : Balanced n others s)
    (hhit : ∀ id e, (Vm.lookup s id).2 = some e → e.captures ⊆ held n others s) (i : VmInsn) :
    NextBalanced n others (vmInsn a s i) := by
  cases i with
  | char b => exact h.match (isByte b)
  | jump l => exact h.jumpTo l
  | choice l => exact (h.push _).nextIp
  | call l => exact (h.push _).jumpTo l
  | commit l =>
      simp only [vmInsn]
      split
      · exact nextBalanced_aborted _
      · next e rest hs => exact (h.popClear hs true).jumpTo l
  | ret =>
      simp only [vmInsn]
      split
      · next ip capt rest hs => exact (h.popClear hs true).jumpTo ip
      · exact nextBalanced_aborted _
  | fail => exact h.goFail
  | set cs => exact h.match cs.has
  | any k =>
      simp only [vmInsn]
      split
      · exact (h.setSrc _).nextIp
      · exact (h.setSrc _).goFail
  | partialCommit l =>
      simp only [vmInsn]
      split
      · next ip off capt rest hs =>
          have hpop : Balanced n (capt ++ others) { s with stack := rest } := h.pop hs
          have hset := Balanced.putBack (e := ⟨.btrack ip (vmInputPos s.src), capt⟩) hpop
          exact hset.stackPropCapt.jumpTo l
      · exact nextBalanced_aborted _
  | span cs => exact (h.setSrc _).nextIp
  | backCommit l =>
      simp only [vmInsn]
      split
      · next ip off capt rest hs =>
          exact ((h.popClear hs true).setSrc _).jumpTo l
      · exact nextBalanced_aborted _
  | failTwice =>
      simp only [vmInsn]
      split
      · exact h.goFail
      · next e rest hs => exact (h.popClear hs false).goFail
  | empty mask =>
      simp only [vmInsn]
      generalize emptyOpContext _ _ &&& mask.toNat = context
      split
      · exact h.nextIp
      · exact h.goFail
  | testChar b l => exact h.testInsn _ true l
  | testCharNoChoice b l => exact h.testInsn _ false l
  | testSet cs l => exact h.testInsn _ true l
  | testSetNoChoice cs l => exact h.testInsn _ false l
  | testAny k l =>
      simp only [vmInsn]
      split
      · exact ((h.setSrc _).push _).nextIp
      · exact (h.setSrc _).jumpTo l
  | endOp b =>
      constructor
      · rintro _ ⟨⟩
        exact h
      · rintro _ ⟨⟩
  | nop => exact nextBalanced_aborted _
  | captureBegin id => exact (h.push _).nextIp
  | captureLate back id => exact (h.push _).nextIp
  | captureEnd => exact h.captureEnd
  | captureFull back id =>
      simp only [vmInsn]
      split
      · have hnone : ∀ low high, Balanced n ([] ++ others) (Vm.widen a s low high) := h.widen
        exact ((hnone _ _).addNode _ _ _).nextIp
      · exact h.nextIp
  | checkBegin id flag => exact (h.push _).nextIp
  | checkEnd k => exact h.checkEnd k
  | memoOpen l id => exact h.memoOpen hhit l id
  | memoClose =>
      simp only [vmInsn]
      split
      · next id pos capt rest hs =>
          have hpop : Balanced n (capt ++ others) { s with stack := rest } := h.pop hs
          exact ((hpop.stackAddCapt (subset_held_append _ _)).memoize id pos _ 1).nextIp
      · exact nextBalanced_aborted _
  | memoTreeOpen l id => exact h.memoTreeOpen hhit l id
  | memoTreeInsert =>
      simp only [vmInsn]
      split
      · next id pos count capt rest hs => exact (h.memoizeTop hs id pos _ _).nextIp
      · exact nextBalanced_aborted _
  | memoTree => exact (h.memoTreeLoop _ 0 0).nextIp
  | memoTreeClose id => exact (h.memoTreeClose id _).nextIp
  | error k => exact Balanced.nextIp (s := { s with errs := _ }) h

end Machine

end Libpeg.Ownership
