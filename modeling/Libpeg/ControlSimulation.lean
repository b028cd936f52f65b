import Libpeg.Ownership
import Libpeg.ControlMachine

namespace Libpeg.ControlSimulation

open Libpeg.Charset Libpeg.Opcode Libpeg.Code Libpeg.Memo Libpeg.Input Libpeg.Vm Libpeg.MemoView
open Libpeg.Simulation Libpeg.Control Libpeg.ControlMachine Libpeg.Ownership

/-- The number of bytes that a stored entry has examined. -/
def storedLength : Event → Option Int
  | .stored x => some (x.stop - x.start)
  | _ => none

def storedLengths (trace : List Event) : List Int :=
  trace.filterMap storedLength

/-- The control is the one of the machine, and the trace has what the machine has
stored since the first entries `base`. -/
structure Tracks (a : VmArgs) (thr : Option Int) (base : List Int) (s : VmState) (c : Ctl) :
    Prop where
  ip : c.ip = s.ip
  pos : c.pos = vmInputPos s.src
  furthest : c.furthest = s.src.furthest
  stack : c.stack = s.stack.map StackEntry.entry
  nchecks : c.nchecks = s.nchecks
  data : s.src.data = a.input
  threshold : s.tbl.map MemoTable.threshold = thr
  entries : s.mem.entries.map MemoEntry.examined = base ++ storedLengths c.trace

/-- Only captures and the shape of the table differ. -/
structure SameTrack (s s' : VmState) : Prop where
  ip : s'.ip = s.ip
  src : s'.src = s.src
  stack : s'.stack.map StackEntry.entry = s.stack.map StackEntry.entry
  nchecks : s'.nchecks = s.nchecks
  threshold : s'.tbl.map MemoTable.threshold = s.tbl.map MemoTable.threshold
  entries : s'.mem.entries = s.mem.entries

section Track

variable {a : VmArgs} {thr : Option Int} {base : List Int} {s s' : VmState} {c : Ctl}

theorem SameTrack.trans {s'' : VmState} (h : SameTrack s s') (h' : SameTrack s' s'') :
    SameTrack s s'' :=
  ⟨h'.ip.trans h.ip, h'.src.trans h.src, h'.stack.trans h.stack, h'.nchecks.trans h.nchecks,
    h'.threshold.trans h.threshold, h'.entries.trans h.entries⟩

theorem Tracks.of_same (h : Tracks a thr base s c) (hsame : SameTrack s s') :
    Tracks a thr base s' c :=
  ⟨h.ip.trans hsame.ip.symm, by rw [hsame.src]; exact h.pos, by rw [hsame.src]; exact h.furthest,
    h.stack.trans hsame.stack.symm, h.nchecks.trans hsame.nchecks.symm,
    by rw [hsame.src]; exact h.data, hsame.threshold.trans h.threshold,
    by rw [hsame.entries]; exact h.entries⟩

theorem sameTrack_mem {m : Mem} (h : m.entries = s.mem.entries) :
    SameTrack s { s with mem := m } :=
  ⟨rfl, rfl, rfl, rfl, rfl, h⟩

theorem sameTrack_appendCapt (cs : List Nat) : SameTrack s (appendCapt s cs) := by
  have hstack := appendCapt_entries (s := s) cs
  unfold appendCapt at hstack ⊢
  split
  · exact ⟨rfl, rfl, rfl, rfl, rfl, rfl⟩
  · next e rest hs =>
      rw [hs] at hstack
      exact ⟨rfl, rfl, by rw [hs]; exact hstack, rfl, rfl, rfl⟩

theorem sameTrack_addCapt (cs : List Nat) : SameTrack s (stackAddCapt s cs) :=
  (sameTrack_mem (refAll_entries s.mem cs)).trans (sameTrack_appendCapt cs)

theorem sameTrack_addEach (cs : List Nat) : SameTrack s (addEach s cs) := by
  induction cs generalizing s with
  | nil => exact ⟨rfl, rfl, rfl, rfl, rfl, rfl⟩
  | cons d cs ih => exact (sameTrack_addCapt [d]).trans ih

theorem foldl_memoCaptureAdd_entries (d : Nat) (cs : List Nat) (m : Mem) :
    (cs.foldl (fun m child => memoCaptureAdd m d child) m).entries = m.entries := by
  induction cs generalizing m with
  | nil => rfl
  | cons c cs ih => exact ih _

theorem sameTrack_addNode (id start length : Int) (cs : List Nat) :
    SameTrack s (addNode s id start length cs) := by
  have hmem := sameTrack_mem (s := s)
    (m := freeAll (cs.foldl (fun m child => memoCaptureAdd m (memoCaptureNode s.mem id start
      length).1 child) (memoCaptureNode s.mem id start length).2) cs)
    (by rw [freeAll_entries, foldl_memoCaptureAdd_entries]; rfl)
  exact hmem.trans ((sameTrack_addCapt _).trans (sameTrack_mem rfl))

theorem sameTrack_addDummy (start length : Int) (cs : List Nat) :
    SameTrack s (addDummy s start length cs) := by
  have hmem := sameTrack_mem (s := s)
    (m := freeAll (cs.foldl (fun m child => memoCaptureAdd m (memoCaptureDummy s.mem start
      length).1 child) (memoCaptureDummy s.mem start length).2) cs)
    (by rw [freeAll_entries, foldl_memoCaptureAdd_entries]; rfl)
  exact hmem.trans ((sameTrack_addCapt _).trans (sameTrack_mem rfl))

theorem sameTrack_widen (low high : Int) : SameTrack s (widen a s low high) := by
  unfold widen
  split <;> exact ⟨rfl, rfl, rfl, rfl, rfl, rfl⟩

theorem storedLengths_record (trace : List Event) {e : Event} (he : storedLength e = none) :
    storedLengths (trace ++ [e]) = storedLengths trace := by
  simp [storedLengths, he]

theorem Tracks.record (h : Tracks a thr base s c) {e : Event} (he : storedLength e = none) :
    Tracks a thr base s (record c e) :=
  ⟨h.ip, h.pos, h.furthest, h.stack, h.nchecks, h.data, h.threshold,
    h.entries.trans (congrArg (base ++ ·) (storedLengths_record c.trace he).symm)⟩

theorem Tracks.setStack (h : Tracks a thr base s c) (stack : List StackEntry) :
    Tracks a thr base { s with stack := stack } { c with stack := stack.map StackEntry.entry } :=
  ⟨h.ip, h.pos, h.furthest, rfl, h.nchecks, h.data, h.threshold, h.entries⟩

theorem Tracks.setIp (h : Tracks a thr base s c) (ip : Nat) :
    Tracks a thr base { s with ip := ip } { c with ip := ip } :=
  ⟨rfl, h.pos, h.furthest, h.stack, h.nchecks, h.data, h.threshold, h.entries⟩

theorem Tracks.setSrc (h : Tracks a thr base s c) (src : VmInput) (pos furthest : Nat)
    (hpos : pos = vmInputPos src) (hfurthest : furthest = src.furthest)
    (hdata : src.data = s.src.data) :
    Tracks a thr base { s with src := src } { c with pos := pos, furthest := furthest } :=
  ⟨h.ip, hpos, hfurthest, h.stack, h.nchecks, hdata.trans h.data, h.threshold, h.entries⟩

theorem Tracks.push (h : Tracks a thr base s c) (e : StEntry) :
    Tracks a thr base (push s e) (cPush c e) := by
  have hset := h.setStack (⟨e, []⟩ :: s.stack)
  rw [List.map_cons, ← h.stack] at hset
  unfold cPush
  dsimp only
  split
  · exact hset.record rfl
  · exact hset

theorem Tracks.pop (h : Tracks a thr base s c) (e : StEntry) (rest : List StackEntry) :
    Tracks a thr base { s with stack := rest } (cPop c e (rest.map StackEntry.entry)) := by
  have hset := h.setStack rest
  unfold cPop
  dsimp only
  split
  · exact hset.record rfl
  · exact hset

theorem Tracks.popClear (h : Tracks a thr base s c) (b : Bool) (e : StackEntry)
    (rest : List StackEntry) :
    Tracks a thr base (popClear s b e rest) (cPop c e.entry (rest.map StackEntry.entry)) := by
  have hpop := h.pop e.entry rest
  cases b with
  | false => exact hpop.of_same (sameTrack_mem (freeAll_entries _ _))
  | true => exact hpop.of_same ((sameTrack_addCapt e.capt).trans (sameTrack_mem (freeAll_entries _ _)))

/-- An entry that is stored is recorded, and one that is not stored is not. -/
theorem Tracks.memoize (h : Tracks a thr base s c) (id : Int) (pos : Nat) (mlen count : Int)
    (cs : List Nat) :
    Tracks a thr base (memoize a s id pos mlen count cs) (cMemoize a thr c pos mlen) := by
  have hfree : Tracks a thr base { s with mem := freeAll s.mem cs } c :=
    h.of_same (sameTrack_mem (freeAll_entries s.mem cs))
  have hthr := h.threshold
  cases ht : s.tbl with
  | none =>
      rw [ht] at hthr
      have hc : cMemoize a thr c pos mlen = c := by
        rw [← hthr]
        rfl
      have hs : Vm.memoize a s id pos mlen count cs = { s with mem := freeAll s.mem cs } := by
        simp only [Vm.memoize, ht]
      rw [hc, hs]
      exact hfree
  | some t =>
      rw [ht] at hthr
      cases hw : a.windowed with
      | true =>
          have hc : cMemoize a thr c pos mlen = c := by
            rw [← hthr]
            simp only [cMemoize, Option.map_some, hw, if_true]
          have hs : Vm.memoize a s id pos mlen count cs = { s with mem := freeAll s.mem cs } := by
            simp only [Vm.memoize, ht, hw, if_true]
          rw [hc, hs]
          exact hfree
      | false =>
          have hnow : examinedNow s pos = ((if c.furthest > c.pos then c.furthest else c.pos : Nat) :
              Int) - pos + 1 := by
            rw [examinedNow, h.furthest, h.pos]
          have hc : cMemoize a thr c pos mlen =
              if t.threshold > 0 ∧ examinedNow s pos < t.threshold ∨ mlen = 0 then c
              else ControlMachine.record c (.stored ⟨pos, pos + max (examinedNow s pos) mlen⟩) := by
            rw [← hthr, hnow]
            simp only [cMemoize, Option.map_some, hw, Bool.false_eq_true, if_false, extentNow]
          rw [hc, memoize_store ht hw]
          by_cases hskip : t.threshold > 0 ∧ examinedNow s pos < t.threshold ∨ mlen = 0
          · rw [if_pos hskip, memoTablePut_skip hskip]
            exact hfree.of_same ⟨rfl, rfl, rfl, rfl, by rw [ht], rfl⟩
          · rw [if_neg hskip]
            obtain ⟨entry, -, hexam, hsame, hth⟩ :=
              memoTablePut_stores s.mem t id pos mlen (examinedNow s pos) count cs hskip
            refine ⟨h.ip, h.pos, h.furthest, h.stack, h.nchecks, h.data,
              (congrArg some hth).trans hthr, ?_⟩
            rw [hsame.entries, List.map_append, h.entries]
            simp [ControlMachine.record, storedLengths, storedLength, hexam]

end Track

def NextTracks (a : VmArgs) (thr : Option Int) (base : List Int) : VmNext → CNext → Prop
  | .running s, .running c => Tracks a thr base s c
  | .done s b, .done c b' => b = b' ∧ Tracks a thr base s c
  | .failed s, .failed c => Tracks a thr base s c
  | .aborted msg, .aborted msg' => msg = msg'
  | _, _ => False

section Step

variable {a : VmArgs} {thr : Option Int} {base : List Int} {s : VmState} {c : Ctl}

theorem Tracks.nextIp (h : Tracks a thr base s c) :
    NextTracks a thr base (nextIp s) (cNextIp c) := by
  have hset := h.setIp (s.ip + 1)
  unfold cNextIp
  rw [h.ip]
  exact hset

theorem Tracks.jumpTo (h : Tracks a thr base s c) (l : Nat) :
    NextTracks a thr base (jumpTo s l) (cJumpTo c l) :=
  h.setIp l

theorem vmFail_tracks (stack : List StackEntry)
    (h : Tracks a thr base { s with stack := stack } c) :
    NextTracks a thr base (vmFail a stack s) (cFail a thr (stack.map StackEntry.entry) c) := by
  induction stack generalizing s c with
  | nil => exact h.setStack []
  | cons e rest ih =>
      have hpop (s' : VmState) (c' : Ctl) (h' : Tracks a thr base s' c') :=
        h'.pop e.entry rest
      rw [vmFail, List.map_cons]
      split
      · next ip off he =>
          rw [he, cFail]
          have hfree := (h.setStack rest).of_same (sameTrack_mem (freeAll_entries s.mem e.capt))
          have hseek := hfree.setSrc (inputSeekTo s.src off) off c.furthest (by simp)
            (by simp [h.furthest]) (by simp)
          exact hseek.setIp ip
      · next id pos he =>
          have hstore := hpop _ _ (h.memoize id pos (-1) 0 e.capt)
          rw [memoize_setStack] at hstore
          rw [he] at hstore ⊢
          rw [cFail]
          exact ih hstore
      · next hbtrack hmemo =>
          have hfree := hpop _ _ (h.of_same (sameTrack_mem (freeAll_entries s.mem e.capt)))
          have hfail : cFail a thr (e.entry :: rest.map StackEntry.entry) c =
              cFail a thr (rest.map StackEntry.entry)
                (cPop c e.entry (rest.map StackEntry.entry)) := by
            cases he : e.entry with
            | btrack ip off => exact absurd he (hbtrack ip off)
            | memo id pos => exact absurd he (hmemo id pos)
            | ret | memoTree | capt | check => rfl
          rw [hfail]
          exact ih hfree

theorem Tracks.goFail (h : Tracks a thr base s c) :
    NextTracks a thr base (goFail a s) (cGoFail a thr c) := by
  unfold cGoFail
  rw [h.stack]
  exact vmFail_tracks s.stack h

theorem Tracks.memoTreeClose (h : Tracks a thr base s c) (id : Int) (fuel : Nat) :
    Tracks a thr base (memoTreeClose id fuel s) (cTreeClose id fuel c) := by
  induction fuel generalizing s c with
  | zero => exact h
  | succ fuel ih =>
      rw [Vm.memoTreeClose, cTreeClose, h.stack]
      cases s.stack with
      | nil => exact h
      | cons e rest =>
          simp only [List.map_cons]
          cases he : e.entry with
          | memoTree id' pos count =>
              simp only
              split
              · have hpop := h.popClear true e rest
                rw [he] at hpop
                exact ih hpop
              · exact h
          | ret | btrack | memo | capt | check => exact h

theorem Tracks.popMany (h : Tracks a thr base s c) (n : Nat) :
    Tracks a thr base (popMany n s) (cPopMany n c) := by
  induction n generalizing s c with
  | zero => exact h
  | succ n ih =>
      rw [Vm.popMany, cPopMany, h.stack]
      cases s.stack with
      | nil => exact h
      | cons e rest => exact ih (h.popClear true e rest)

theorem sameTrack_handDown (cs : List Nat) (start length : Int) :
    SameTrack s
      (if cs = [] then s
        else if a.windowed then
          { stackAddCapt s cs with mem := freeAll (stackAddCapt s cs).mem cs }
        else addDummy s start length cs) := by
  split
  · exact ⟨rfl, rfl, rfl, rfl, rfl, rfl⟩
  · split
    · exact (sameTrack_addCapt cs).trans (sameTrack_mem (freeAll_entries _ cs))
    · exact sameTrack_addDummy start length cs

theorem Tracks.memoizeTop {e : StEntry} {cs : List Nat} {rest : List StackEntry}
    (h : Tracks a thr base s c) (id : Int) (pos : Nat) (mlen count : Int) :
    Tracks a thr base
      (Vm.memoize a { s with stack := ⟨e, cs⟩ :: rest, mem := refAll s.mem cs } id pos mlen count cs)
      (cMemoize a thr { c with stack := e :: rest.map StackEntry.entry } pos mlen) :=
  Tracks.memoize ((h.setStack (⟨e, cs⟩ :: rest)).of_same (sameTrack_mem (refAll_entries s.mem cs)))
    id pos mlen count cs

theorem Tracks.memoTreeMerge (h : Tracks a thr base s c) (seen : Nat) (accum : Int) :
    Tracks a thr base (memoTreeMerge a seen accum s) (cTreeMerge a thr seen accum c) := by
  have hpop := h.popMany (seen - 1)
  unfold Vm.memoTreeMerge cTreeMerge
  generalize Vm.popMany (seen - 1) s = s₁ at hpop
  generalize cPopMany (seen - 1) c = c₁ at hpop
  dsimp only
  rw [hpop.stack]
  cases hs : s₁.stack with
  | nil => exact hpop
  | cons top rest =>
      obtain ⟨e, capt⟩ := top
      cases e with
      | memoTree id pos count =>
          have hsame := sameTrack_handDown (a := a) (s := { s₁ with stack := rest }) capt pos
            ((vmInputPos s₁.src : Int) - pos)
          have hdown := (hpop.pop (.memoTree id pos count) rest).of_same hsame
          have hsrc := hsame.src
          simp only [List.map_cons]
          dsimp only at hdown hsrc
          generalize (if capt = [] then _ else _ : VmState) = s₂ at hdown hsrc ⊢
          generalize cPop c₁ (.memoTree id pos count) (rest.map StackEntry.entry) = c₂ at hdown ⊢
          rw [hdown.stack]
          cases hs₂ : s₂.stack with
          | nil => exact hdown
          | cons top rest' =>
              obtain ⟨e, capt'⟩ := top
              cases e with
              | memoTree id' pos' count' =>
                  simp only [List.map_cons]
                  have hpos : vmInputPos s₁.src = c₂.pos := by
                    rw [hdown.pos, hsrc]
                  rw [hpos]
                  exact hdown.memoizeTop id' pos' _ _
              | ret | btrack | memo | capt | check => exact hdown
      | ret | btrack | memo | capt | check => exact hpop

theorem Tracks.memoTreeLoop (h : Tracks a thr base s c) (fuel seen : Nat) (accum : Int) :
    Tracks a thr base (memoTreeLoop a fuel seen accum s) (cTreeLoop a thr fuel seen accum c) := by
  induction fuel generalizing seen accum s c with
  | zero => exact h
  | succ fuel ih =>
      rw [Vm.memoTreeLoop, cTreeLoop, h.stack, List.getElem?_map, List.getElem?_map]
      split
      · next count _ next _ htop hbelow =>
          rw [htop, hbelow]
          simp only [Option.map_some]
          split
          · exact ih h _ _
          · exact ih (h.memoTreeMerge _ _) _ _
      · next hnone =>
          split
          · next count _ _ next htop hbelow =>
              obtain ⟨⟨_, cs⟩, htop', rfl⟩ := Option.map_eq_some_iff.mp htop
              obtain ⟨⟨_, cs'⟩, hbelow', rfl⟩ := Option.map_eq_some_iff.mp hbelow
              exact absurd hbelow' (hnone _ _ _ _ _ _ _ _ htop')
          · exact h

theorem Tracks.memoTree (h : Tracks a thr base s c) :
    Tracks a thr base (memoTree a s) (cTree a thr c) := by
  have hlen : c.stack.length = s.stack.length := by
    rw [h.stack, List.length_map]
  unfold Vm.memoTree cTree
  rw [hlen]
  exact h.memoTreeLoop _ 0 0

theorem Tracks.peek (h : Tracks a thr base s c) (f : UInt8 → Bool) :
    Tracks a thr base (testByte s f).1 (cPeek c) :=
  h.setSrc (inputPeek s.src).1 _ _ (by simp [h.pos]) (by simp [h.furthest, h.pos]) (by simp)

theorem Tracks.test_eq (h : Tracks a thr base s c) (f : UInt8 → Bool) :
    (testByte s f).2 = cTest a c f := by
  simp [testByte, cTest, h.pos, h.data]

theorem Tracks.advance (h : Tracks a thr base s c) (n : Nat) :
    Tracks a thr base { s with src := (inputAdvance s.src n).1 } (cAdvance c n) :=
  h.setSrc _ _ c.furthest (by simp [h.pos]) (by simp [h.furthest]) (by simp)

theorem Tracks.match (h : Tracks a thr base s c) (f : UInt8 → Bool) :
    NextTracks a thr base
      (if (testByte s f).2 then Vm.nextIp (stepByte (testByte s f).1)
        else Vm.goFail a (testByte s f).1) (cMatch a (cGoFail a thr) c f) := by
  unfold cMatch
  rw [h.test_eq]
  split
  · exact ((h.peek f).advance 1).nextIp
  · exact (h.peek f).goFail

theorem Tracks.testInsn (h : Tracks a thr base s c) (f : UInt8 → Bool) (choice : Bool) (l : Nat) :
    NextTracks a thr base (testInsn s f choice l) (cTestInsn a c f choice l) := by
  unfold Vm.testInsn cTestInsn
  dsimp only
  rw [h.test_eq]
  split
  · cases choice with
    | false => exact ((h.peek f).advance 1).nextIp
    | true =>
        have hpush := (h.peek f).push (.btrack l c.pos)
        have hpos : vmInputPos (testByte s f).1.src = c.pos := by
          simp [testByte, h.pos]
        simp only [if_true]
        rw [hpos]
        exact (hpush.advance 1).nextIp
  · exact (h.peek f).jumpTo l

theorem Tracks.lookup (h : Tracks a thr base s c) (id : Int) :
    Tracks a thr base (lookup s id).1 c := by
  have hthr : (Vm.lookup s id).1.tbl.map MemoTable.threshold = s.tbl.map MemoTable.threshold := by
    unfold Vm.lookup
    split
    · rfl
    · next t ht =>
        rw [ht]
        rfl
  obtain ⟨tbl, heq⟩ := lookup_eq s id
  refine h.of_same ⟨?_, ?_, ?_, ?_, hthr, ?_⟩
  all_goals rw [heq]

theorem Tracks.checkEnd (h : Tracks a thr base s c) (hit : Option MemoEntry) (k : Nat) :
    NextTracks a thr base (vmInsn a s (.checkEnd k)) (cInsn a thr hit (cGoFail a thr) c (.checkEnd k)) := by
  simp only [vmInsn, cInsn]
  rw [h.stack]
  cases s.stack with
  | nil => rfl
  | cons top rest =>
      obtain ⟨e, capt⟩ := top
      cases e with
      | check id pos flag =>
          simp only [List.map_cons]
          have hpop := h.popClear true ⟨.check id pos flag, capt⟩ rest
          generalize Vm.popClear s true ⟨.check id pos flag, capt⟩ rest = s₁ at hpop ⊢
          generalize cPop c (.check id pos flag) (rest.map StackEntry.entry) = c₁ at hpop ⊢
          cases (a.code.checkers[k]?).join with
          | none => exact hpop.nextIp
          | some fn =>
              have hcount : Tracks a thr base { s₁ with nchecks := c₁.nchecks + 1 }
                  { c₁ with nchecks := c₁.nchecks + 1 } :=
                ⟨hpop.ip, hpop.pos, hpop.furthest, hpop.stack, rfl, hpop.data, hpop.threshold,
                  hpop.entries⟩
              simp only [← hpop.pos, ← hpop.nchecks]
              split
              · exact hcount.goFail
              · split
                · exact hcount.goFail
                · exact (hcount.advance _).nextIp
      | ret | btrack | memo | memoTree | capt => rfl

theorem Tracks.memoOpen (h : Tracks a thr base s c) (l : Nat) (id : Int) :
    NextTracks a thr base (vmInsn a s (.memoOpen l id))
      (cInsn a thr (Vm.lookup s id).2 (cGoFail a thr) c (.memoOpen l id)) := by
  have hlook := h.lookup id
  simp only [vmInsn, cInsn]
  generalize Vm.lookup s id = r at hlook
  obtain ⟨s₁, hit⟩ := r
  cases hit with
  | none =>
      have hpush := hlook.push (.memo id c.pos)
      rw [hlook.pos] at hpush ⊢
      exact hpush.nextIp
  | some e =>
      have hrec := hlook.record (e := .hit (hitExtent c e)) rfl
      simp only
      split
      · exact hrec.goFail
      · exact ((hrec.of_same (sameTrack_addEach e.captures)).advance _).jumpTo l

theorem Tracks.memoTreeOpen (h : Tracks a thr base s c) (l : Nat) (id : Int) :
    NextTracks a thr base (vmInsn a s (.memoTreeOpen l id))
      (cInsn a thr (Vm.lookup s id).2 (cGoFail a thr) c (.memoTreeOpen l id)) := by
  have hlook := h.lookup id
  simp only [vmInsn, cInsn]
  generalize Vm.lookup s id = r at hlook
  obtain ⟨s₁, hit⟩ := r
  cases hit with
  | none =>
      have hpush := hlook.push (.memoTree id c.pos 0)
      rw [hlook.pos] at hpush ⊢
      exact hpush.nextIp
  | some e =>
      simp only
      split
      · exact (hlook.record (e := .hit (hitExtent c e)) rfl).goFail
      · have hpush := (hlook.push (.memoTree id c.pos e.count)).record
          (e := .hit (hitExtent c e)) rfl
        have hadd := (hpush.of_same (sameTrack_addEach e.captures)).advance e.length.toNat
        rw [← hlook.pos]
        exact (hadd.peek fun _ => true).jumpTo l

theorem cPop_cMemoize (id : Int) (pos : Nat) (mlen : Int) (rest : List StEntry) :
    cPop (cMemoize a thr c pos mlen) (.memo id pos) rest =
      ControlMachine.record (cMemoize a thr { c with stack := rest } pos mlen) .closed := by
  unfold cMemoize
  cases thr with
  | none => rfl
  | some th =>
      dsimp only
      split
      · rfl
      · generalize ((if c.furthest > c.pos then c.furthest else c.pos : Nat) : Int) - pos + 1 = exam
        split <;> rfl

/-- The answer of the lookup that an instruction makes. -/
def hitOf (s : VmState) : VmInsn → Option MemoEntry
  | .memoOpen _ id | .memoTreeOpen _ id => (lookup s id).2
  | _ => none

theorem vmInsn_tracks (h : Tracks a thr base s c) (i : VmInsn) :
    NextTracks a thr base (vmInsn a s i) (cInsn a thr (hitOf s i) (cGoFail a thr) c i) := by
  have hstack := h.stack
  cases i with
  | char b => exact h.match (isByte b)
  | jump l => exact h.jumpTo l
  | choice l =>
      simp only [vmInsn, cInsn, ← h.pos]
      exact (h.push _).nextIp
  | call l =>
      simp only [vmInsn, cInsn, ← h.ip]
      exact (h.push _).jumpTo l
  | commit l =>
      simp only [vmInsn, cInsn]
      rw [hstack]
      cases s.stack with
      | nil => rfl
      | cons e rest => exact (h.popClear true e rest).jumpTo l
  | ret =>
      simp only [vmInsn, cInsn]
      rw [hstack]
      cases s.stack with
      | nil => rfl
      | cons top rest =>
          obtain ⟨e, capt⟩ := top
          cases e with
          | ret ip => exact (h.popClear true ⟨.ret ip, capt⟩ rest).jumpTo ip
          | btrack | memo | memoTree | capt | check => rfl
  | fail => exact h.goFail
  | set cs => exact h.match cs.has
  | any n =>
      have hadv := h.advance n.toNat
      simp only [vmInsn, cInsn, inputAdvance_ok, decide_eq_true_eq, h.pos, h.data]
      split
      · exact hadv.nextIp
      · exact hadv.goFail
  | partialCommit l =>
      simp only [vmInsn, cInsn]
      rw [hstack]
      cases s.stack with
      | nil => rfl
      | cons top rest =>
          obtain ⟨e, capt⟩ := top
          cases e with
          | btrack ip off =>
              simp only [List.map_cons, ← h.pos]
              have hset := h.setStack (⟨.btrack ip c.pos, capt⟩ :: rest)
              refine Tracks.jumpTo (s := stackPropCapt _) (hset.of_same ?_) l
              have hmove := sameTrack_appendCapt
                (s := { s with stack := rest }) capt
              exact ⟨hmove.ip, hmove.src, congrArg (_ :: ·) hmove.stack, hmove.nchecks,
                hmove.threshold, hmove.entries⟩
          | ret | memo | memoTree | capt | check => rfl
  | span cs =>
      have hset := h.setSrc (inputSpan s.src cs) (c.pos + spanLength a.input cs c.pos)
        (max c.furthest (c.pos + spanLength a.input cs c.pos))
        (by simp [h.pos, h.data]) (by simp [h.pos, h.furthest, h.data]) (by simp)
      exact hset.nextIp
  | backCommit l =>
      simp only [vmInsn, cInsn]
      rw [hstack]
      cases s.stack with
      | nil => rfl
      | cons top rest =>
          obtain ⟨e, capt⟩ := top
          cases e with
          | btrack ip off =>
              have hpop := h.popClear true ⟨.btrack ip off, capt⟩ rest
              have hseek := hpop.setSrc (inputSeekTo _ off) off _
                (inputSeekTo_pos _ off).symm (hpop.furthest.trans (inputSeekTo_furthest _ off).symm)
                (inputSeekTo_data _ off)
              exact hseek.jumpTo l
          | ret | memo | memoTree | capt | check => rfl
  | failTwice =>
      simp only [vmInsn, cInsn]
      rw [hstack]
      cases hs : s.stack with
      | nil => exact h.goFail
      | cons e rest => exact (h.popClear false e rest).goFail
  | empty mask =>
      simp only [vmInsn, cInsn, ← h.pos]
      generalize emptyOpContext _ _ &&& mask.toNat = context
      split
      · exact h.nextIp
      · exact h.goFail
  | testChar b l => exact h.testInsn _ true l
  | testCharNoChoice b l => exact h.testInsn _ false l
  | testSet cs l => exact h.testInsn _ true l
  | testSetNoChoice cs l => exact h.testInsn _ false l
  | testAny n l =>
      have hadv := h.advance n.toNat
      simp only [vmInsn, cInsn, inputAdvance_ok, decide_eq_true_eq, ← h.pos, h.data]
      split
      · exact (hadv.push _).nextIp
      · have hseek := hadv.setSrc (inputSeekTo (inputAdvance s.src n.toNat).1 c.pos) c.pos
          c.furthest (by simp)
          (by simp [h.furthest]) (by simp)
        exact hseek.jumpTo l
  | endOp b => exact ⟨rfl, h⟩
  | nop => rfl
  | captureBegin id =>
      simp only [vmInsn, cInsn, ← h.pos]
      exact (h.push _).nextIp
  | captureLate back id =>
      simp only [vmInsn, cInsn, ← h.pos]
      exact (h.push _).nextIp
  | captureEnd =>
      simp only [vmInsn, cInsn]
      rw [hstack]
      cases s.stack with
      | nil => rfl
      | cons top rest =>
          obtain ⟨e, capt⟩ := top
          cases e with
          | capt id pos =>
              have hpop := h.pop (.capt id pos) rest
              simp only [List.map_cons]
              split
              · exact (hpop.of_same ((sameTrack_widen _ _).trans
                  (sameTrack_addNode _ _ _ _))).nextIp
              · exact (hpop.of_same (sameTrack_mem (freeAll_entries _ _))).nextIp
          | ret | btrack | memo | memoTree | check => rfl
  | captureFull back id =>
      simp only [vmInsn, cInsn]
      split
      · exact (h.of_same ((sameTrack_widen _ _).trans (sameTrack_addNode _ _ _ _))).nextIp
      · exact h.nextIp
  | checkBegin id flag =>
      simp only [vmInsn, cInsn, ← h.pos]
      exact (h.push _).nextIp
  | checkEnd k => exact h.checkEnd none k
  | memoOpen l id => exact h.memoOpen l id
  | memoClose =>
      simp only [vmInsn, cInsn]
      rw [hstack]
      cases s.stack with
      | nil => rfl
      | cons top rest =>
          obtain ⟨e, capt⟩ := top
          cases e with
          | memo id pos =>
              have hpop := (h.setStack rest).of_same (sameTrack_addCapt capt)
              have hstore := hpop.memoize id pos ((c.pos : Int) - pos) 1 capt
              have hclose := hstore.record (e := .closed) rfl
              rw [← cPop_cMemoize] at hclose
              have hpos : (stackAddCapt { s with stack := rest } capt).src = s.src :=
                (sameTrack_addCapt capt).src
              simp only [List.map_cons, stackPop, if_true, hpos, ← h.pos]
              exact hclose.nextIp
          | ret | btrack | memoTree | capt | check => rfl
  | memoTreeOpen l id => exact h.memoTreeOpen l id
  | memoTreeInsert =>
      simp only [vmInsn, cInsn]
      rw [hstack]
      cases s.stack with
      | nil => rfl
      | cons top rest =>
          obtain ⟨e, capt⟩ := top
          cases e with
          | memoTree id pos count =>
              simp only [List.map_cons, ← h.pos]
              exact (h.memoizeTop id pos _ _).nextIp
          | ret | btrack | memo | capt | check => rfl
  | memoTree => exact h.memoTree.nextIp
  | memoTreeClose id =>
      have hclose := h.memoTreeClose id c.stack.length
      simp only [vmInsn, cInsn]
      rw [show s.stack.length = c.stack.length by rw [hstack, List.length_map]]
      exact hclose.nextIp
  | error k => exact Tracks.nextIp (s := { s with errs := _ }) ⟨h.ip, h.pos, h.furthest, h.stack,
      h.nchecks, h.data, h.threshold, h.entries⟩

/-- The instruction that comes next, and what its lookup finds. -/
def lookupNow (a : VmArgs) (s : VmState) : Option MemoEntry :=
  (a.code.prog[s.ip]?).bind (hitOf s)

theorem vmStep_tracks (h : Tracks a thr base s c) :
    NextTracks a thr base (vmStep a s) (cStep a thr (lookupNow a s) c) := by
  unfold vmStep cStep lookupNow
  rw [h.ip]
  cases a.code.prog[s.ip]? with
  | none => rfl
  | some i => exact vmInsn_tracks h i

theorem vmStart_tracks (a : VmArgs) (mem : Mem) (tbl : Option MemoTable) (nchecks : Nat) :
    Tracks a ((vmStart a mem tbl nchecks).tbl.map MemoTable.threshold)
      ((vmStart a mem tbl nchecks).mem.entries.map MemoEntry.examined)
      (vmStart a mem tbl nchecks) ⟨0, 0, 0, [], nchecks, []⟩ :=
  ⟨rfl, rfl, rfl, rfl, rfl, rfl, rfl, by simp [storedLengths]⟩

end Step

end Libpeg.ControlSimulation
