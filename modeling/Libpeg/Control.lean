import Libpeg.Simulation

namespace Libpeg.Control

open Libpeg.Charset Libpeg.Opcode Libpeg.Code Libpeg.Memo Libpeg.Input Libpeg.Vm
open Libpeg.Simulation

def entryIp : StEntry → Option Nat
  | .ret ip => some ip
  | .btrack ip _ => some ip
  | _ => none

def addresses (stack : List StackEntry) : List Nat :=
  (stack.map StackEntry.entry).filterMap entryIp

variable {a : VmArgs} {s s' : VmState}

section Entries

theorem addresses_of_entries {stack stack' : List StackEntry}
    (h : stack'.map StackEntry.entry = stack.map StackEntry.entry) :
    addresses stack' = addresses stack := by
  rw [addresses, h, addresses]

@[simp] theorem stackAddCapt_addresses (cs : List Nat) :
    addresses (stackAddCapt s cs).stack = addresses s.stack :=
  addresses_of_entries (appendCapt_entries (s := { s with mem := refAll s.mem cs }) cs)

@[simp] theorem stackAddCapt_ip (cs : List Nat) : (stackAddCapt s cs).ip = s.ip := by
  unfold stackAddCapt appendCapt
  split <;> rfl

@[simp] theorem popClear_addresses (b : Bool) (e : StackEntry) (rest : List StackEntry) :
    addresses (popClear s b e rest).stack = addresses rest :=
  addresses_of_entries (popClear_stack b e rest)

@[simp] theorem popClear_ip (b : Bool) (e : StackEntry) (rest : List StackEntry) :
    (popClear s b e rest).ip = s.ip := by
  cases b <;> simp [popClear, stackPop]

theorem memoize_eq (id : Int) (pos : Nat) (mlen count : Int) (cs : List Nat) :
    ∃ mem tbl, memoize a s id pos mlen count cs = { s with mem := mem, tbl := tbl } := by
  unfold memoize
  cases s.tbl with
  | none => exact ⟨freeAll s.mem cs, none, by simp⟩
  | some t =>
      cases a.windowed with
      | true => exact ⟨freeAll s.mem cs, some t, by simp⟩
      | false => exact ⟨_, _, rfl⟩

theorem memoize_setIp (ip : Nat) (id : Int) (pos : Nat) (mlen count : Int) (cs : List Nat) :
    memoize a { s with ip := ip } id pos mlen count cs =
      { memoize a s id pos mlen count cs with ip := ip } := by
  unfold memoize
  dsimp only
  cases s.tbl with
  | none => rfl
  | some t =>
      cases a.windowed with
      | true => rfl
      | false => rfl

theorem appendCapt_setIp (ip : Nat) (cs : List Nat) :
    appendCapt { s with ip := ip } cs = { appendCapt s cs with ip := ip } := by
  unfold appendCapt
  cases s.stack with
  | nil => rfl
  | cons e rest => rfl

theorem popClear_setIp (ip : Nat) (stack : List StackEntry) (b : Bool) (e : StackEntry)
    (rest : List StackEntry) :
    popClear { s with ip := ip, stack := stack } b e rest =
      { popClear s b e rest with ip := ip } := by
  cases b with
  | false => rfl
  | true =>
      have happ := appendCapt_setIp (s := { s with stack := rest, mem := refAll s.mem e.capt }) ip
        e.capt
      simp only [popClear, stackPop, if_true, stackAddCapt]
      rw [happ]

@[simp] theorem memoize_stack (id : Int) (pos : Nat) (mlen count : Int) (cs : List Nat) :
    (memoize a s id pos mlen count cs).stack = s.stack := by
  obtain ⟨mem, tbl, h⟩ := memoize_eq (a := a) (s := s) id pos mlen count cs
  rw [h]

@[simp] theorem memoize_ip (id : Int) (pos : Nat) (mlen count : Int) (cs : List Nat) :
    (memoize a s id pos mlen count cs).ip = s.ip := by
  obtain ⟨mem, tbl, h⟩ := memoize_eq (a := a) (s := s) id pos mlen count cs
  rw [h]

@[simp] theorem addNode_addresses (id start length : Int) (cs : List Nat) :
    addresses (addNode s id start length cs).stack = addresses s.stack := by
  simp [addNode]

@[simp] theorem addNode_ip (id start length : Int) (cs : List Nat) :
    (addNode s id start length cs).ip = s.ip := by
  simp [addNode]

@[simp] theorem addDummy_addresses (start length : Int) (cs : List Nat) :
    addresses (addDummy s start length cs).stack = addresses s.stack := by
  simp [addDummy]

@[simp] theorem addDummy_ip (start length : Int) (cs : List Nat) :
    (addDummy s start length cs).ip = s.ip := by
  simp [addDummy]

@[simp] theorem widen_stack (low high : Int) : (widen a s low high).stack = s.stack := by
  unfold widen
  split <;> rfl

@[simp] theorem widen_ip (low high : Int) : (widen a s low high).ip = s.ip := by
  unfold widen
  split <;> rfl

theorem addEach_control (cs : List Nat) :
    addresses (addEach s cs).stack = addresses s.stack ∧ (addEach s cs).ip = s.ip := by
  induction cs generalizing s with
  | nil => exact ⟨rfl, rfl⟩
  | cons c cs ih =>
      obtain ⟨haddr, hip⟩ := ih (s := stackAddCapt s [c])
      exact ⟨haddr.trans (stackAddCapt_addresses [c]), hip.trans (stackAddCapt_ip [c])⟩

theorem lookup_control (id : Int) :
    (lookup s id).1.stack = s.stack ∧ (lookup s id).1.ip = s.ip := by
  unfold lookup
  split <;> exact ⟨rfl, rfl⟩

end Entries

def Popped (s s' : VmState) : Prop :=
  s'.ip = s.ip ∧ addresses s'.stack ⊆ addresses s.stack

theorem Popped.refl (s : VmState) : Popped s s :=
  ⟨rfl, fun _ h => h⟩

theorem Popped.trans {s'' : VmState} (h : Popped s s') (h' : Popped s' s'') : Popped s s'' :=
  ⟨h'.1.trans h.1, fun _ hk => h.2 (h'.2 hk)⟩

theorem addresses_tail {e : StackEntry} {rest : List StackEntry} (hs : s.stack = e :: rest) :
    addresses rest ⊆ addresses s.stack := by
  rw [hs]
  exact (((List.sublist_cons_self e rest).map _).filterMap _).subset

theorem popped_popClear {e : StackEntry} {rest : List StackEntry} (hs : s.stack = e :: rest)
    (b : Bool) : Popped s (popClear s b e rest) :=
  ⟨popClear_ip b e rest, by rw [popClear_addresses]; exact addresses_tail hs⟩

theorem memoTreeClose_popped (id : Int) (fuel : Nat) (s : VmState) :
    Popped s (memoTreeClose id fuel s) := by
  induction fuel generalizing s with
  | zero => exact .refl s
  | succ fuel ih =>
      rw [memoTreeClose]
      split
      · next e rest hs =>
          split
          · split
            · exact (popped_popClear hs true).trans (ih _)
            · exact .refl s
          · exact .refl s
      · exact .refl s

theorem popMany_popped (n : Nat) (s : VmState) : Popped s (popMany n s) := by
  induction n generalizing s with
  | zero => exact .refl s
  | succ n ih =>
      rw [popMany]
      split
      · next e rest hs => exact (popped_popClear hs true).trans (ih _)
      · exact .refl s

theorem handDown_popped (a : VmArgs) (capt : List Nat) (start length : Int) (s : VmState) :
    Popped s (if capt = [] then s
      else if a.windowed then
        { stackAddCapt s capt with mem := freeAll (stackAddCapt s capt).mem capt }
      else addDummy s start length capt) := by
  split
  · exact .refl s
  · split
    · exact ⟨by simp, by simp⟩
    · exact ⟨by simp, by simp⟩

theorem memoTreeMerge_popped (seen : Nat) (accum : Int) (s : VmState) :
    Popped s (memoTreeMerge a seen accum s) := by
  refine (popMany_popped (seen - 1) s).trans ?_
  rw [memoTreeMerge]
  generalize popMany (seen - 1) s = t
  dsimp only
  split
  · next id pos count capt rest ht =>
      have htail : Popped t { t with stack := rest } := ⟨rfl, addresses_tail ht⟩
      have hdown := handDown_popped a capt pos ((vmInputPos t.src : Int) - pos)
        { t with stack := rest }
      refine htail.trans (hdown.trans ?_)
      dsimp only
      generalize (if capt = [] then { t with stack := rest } else _ : VmState) = u
      split
      · next id pos count capt rest hu =>
          refine ⟨by simp, ?_⟩
          simp [addresses, hu, entryIp, List.filterMap_cons]
      · exact .refl u
  · exact .refl t

theorem memoTreeLoop_popped (fuel seen : Nat) (accum : Int) (s : VmState) :
    Popped s (memoTreeLoop a fuel seen accum s) := by
  induction fuel generalizing seen accum s with
  | zero => exact .refl s
  | succ fuel ih =>
      rw [memoTreeLoop]
      split
      · split
        · exact ih _ _ s
        · exact (memoTreeMerge_popped _ _ s).trans (ih _ _ _)
      · exact .refl s

/-- Control stays at the addresses that satisfy `G`. -/
structure Confined (G : Nat → Prop) (s : VmState) : Prop where
  ip : G s.ip
  stack : ∀ k ∈ addresses s.stack, G k

def NextConfined (G : Nat → Prop) (r : VmNext) : Prop :=
  ∀ s', r = .running s' → Confined G s'

variable {G : Nat → Prop}

theorem nextConfined_jump {k : Nat} (hk : G k) (hs : ∀ j ∈ addresses s.stack, G j) :
    NextConfined G (jumpTo s k) := by
  rintro s' ⟨⟩
  exact ⟨hk, hs⟩

theorem nextConfined_next (hip : G (s.ip + 1)) (hs : ∀ j ∈ addresses s.stack, G j) :
    NextConfined G (nextIp s) := by
  rintro s' ⟨⟩
  exact ⟨hip, hs⟩

theorem vmFail_confined (stack : List StackEntry) (s : VmState)
    (hs : ∀ k ∈ addresses stack, G k) : NextConfined G (vmFail a stack s) := by
  induction stack generalizing s with
  | nil => rintro s' ⟨⟩
  | cons e rest ih =>
      have hrest : ∀ k ∈ addresses rest, G k := fun k hk =>
        hs k ((((List.sublist_cons_self e rest).map _).filterMap _).subset hk)
      rw [vmFail]
      split
      · next ip off he =>
          rintro s' ⟨⟩
          exact ⟨hs ip (by simp [addresses, he, entryIp]), hrest⟩
      · exact ih _ hrest
      · exact ih _ hrest

theorem goFail_confined (hs : ∀ k ∈ addresses s.stack, G k) : NextConfined G (goFail a s) :=
  vmFail_confined s.stack s hs

theorem push_confined {e : StEntry} (he : ∀ k, entryIp e = some k → G k)
    (hs : ∀ k ∈ addresses s.stack, G k) : ∀ k ∈ addresses (push s e).stack, G k := by
  intro k hk
  simp only [addresses, push, List.map_cons, List.mem_filterMap, List.mem_cons] at hk
  obtain ⟨d, rfl | hd, hdk⟩ := hk
  · exact he k hdk
  · exact hs k (List.mem_filterMap.mpr ⟨d, hd, hdk⟩)

theorem testInsn_confined {l : Nat} (hnext : G (s.ip + 1)) (hl : G l)
    (hs : ∀ k ∈ addresses s.stack, G k) (p : UInt8 → Bool) (choice : Bool) :
    NextConfined G (testInsn s p choice l) := by
  simp only [testInsn]
  split
  · cases choice with
    | true =>
        refine nextConfined_next hnext (push_confined ?_ hs)
        rintro k ⟨⟩
        exact hl
    | false => exact nextConfined_next hnext hs
  · exact nextConfined_jump hl hs

theorem pop_confined {e : StackEntry} {rest : List StackEntry} (hs : s.stack = e :: rest)
    (h : ∀ k ∈ addresses s.stack, G k) (b : Bool) :
    ∀ k ∈ addresses (popClear s b e rest).stack, G k :=
  fun k hk => h k ((popped_popClear hs b).2 hk)

/-- An instruction keeps control confined when its targets and the next
instruction are. -/
theorem vmInsn_confined (hstack : ∀ k ∈ addresses s.stack, G k) (i : VmInsn)
    (hnext : G (s.ip + 1)) (htarget : ∀ l, i.target = some l → G l) :
    NextConfined G (vmInsn a s i) := by
  have htop : ∀ {e : StackEntry} {rest : List StackEntry}, s.stack = e :: rest →
      ∀ k, entryIp e.entry = some k → G k := by
    intro e rest hs k hk
    refine hstack k (List.mem_filterMap.mpr ⟨e.entry, ?_, hk⟩)
    simp [hs]
  have hrest : ∀ {e : StackEntry} {rest : List StackEntry}, s.stack = e :: rest →
      ∀ k ∈ addresses rest, G k :=
    fun hs k hk => hstack k (addresses_tail hs hk)
  cases i with
  | char b =>
      simp only [vmInsn]
      split
      · exact nextConfined_next hnext hstack
      · exact goFail_confined hstack
  | set set =>
      simp only [vmInsn]
      split
      · exact nextConfined_next hnext hstack
      · exact goFail_confined hstack
  | jump l => exact nextConfined_jump (htarget l rfl) hstack
  | choice l =>
      refine nextConfined_next hnext (push_confined ?_ hstack)
      rintro k ⟨⟩
      exact htarget l rfl
  | call l =>
      refine nextConfined_jump (htarget l rfl) (push_confined ?_ hstack)
      rintro k ⟨⟩
      exact hnext
  | commit l =>
      simp only [vmInsn]
      split
      · rintro s' ⟨⟩
      · next e rest hs => exact nextConfined_jump (htarget l rfl) (pop_confined hs hstack true)
  | ret =>
      simp only [vmInsn]
      split
      · next ip capt rest hs =>
          exact nextConfined_jump (htop hs ip rfl) (pop_confined hs hstack true)
      · rintro s' ⟨⟩
  | fail => exact goFail_confined hstack
  | any n =>
      simp only [vmInsn]
      split
      · exact nextConfined_next hnext hstack
      · exact goFail_confined hstack
  | partialCommit l =>
      simp only [vmInsn]
      split
      · next ip off capt rest hs =>
          refine nextConfined_jump (htarget l rfl) ?_
          have hprop : addresses (stackPropCapt { s with
              stack := ⟨.btrack ip (vmInputPos s.src), capt⟩ :: rest }).stack =
              ip :: addresses rest := by
            have happ := appendCapt_entries (s := { s with stack := rest }) capt
            simp only [stackPropCapt, addresses, List.map_cons]
            rw [happ]
            rfl
          rw [hprop]
          intro k hk
          rcases List.mem_cons.mp hk with rfl | hk
          · exact htop hs k rfl
          · exact hrest hs k hk
      · rintro s' ⟨⟩
  | span set => exact nextConfined_next hnext hstack
  | backCommit l =>
      simp only [vmInsn]
      split
      · next ip off capt rest hs =>
          exact nextConfined_jump (htarget l rfl) (pop_confined hs hstack true)
      · rintro s' ⟨⟩
  | failTwice =>
      simp only [vmInsn]
      split
      · exact goFail_confined hstack
      · next e rest hs => exact goFail_confined (pop_confined hs hstack false)
  | empty mask =>
      simp only [vmInsn]
      generalize emptyOpContext _ _ &&& mask.toNat = n
      split
      · exact nextConfined_next hnext hstack
      · exact goFail_confined hstack
  | testChar b l => exact testInsn_confined hnext (htarget l rfl) hstack _ _
  | testCharNoChoice b l => exact testInsn_confined hnext (htarget l rfl) hstack _ _
  | testSet set l => exact testInsn_confined hnext (htarget l rfl) hstack _ _
  | testSetNoChoice set l => exact testInsn_confined hnext (htarget l rfl) hstack _ _
  | testAny n l =>
      simp only [vmInsn]
      split
      · refine nextConfined_next hnext (push_confined ?_ hstack)
        rintro k ⟨⟩
        exact htarget l rfl
      · exact nextConfined_jump (htarget l rfl) hstack
  | endOp b => rintro s' ⟨⟩
  | nop => rintro s' ⟨⟩
  | captureBegin id => exact nextConfined_next hnext (push_confined (by rintro k ⟨⟩) hstack)
  | captureLate back id => exact nextConfined_next hnext (push_confined (by rintro k ⟨⟩) hstack)
  | captureEnd =>
      simp only [vmInsn]
      split
      · next id pos capt rest hs =>
          split
          · refine nextConfined_next (by simpa using hnext) ?_
            simp only [addNode_addresses, widen_stack]
            exact hrest hs
          · exact nextConfined_next hnext (hrest hs)
      · rintro s' ⟨⟩
  | captureFull back id =>
      simp only [vmInsn]
      split
      · refine nextConfined_next (by simpa using hnext) ?_
        simp only [addNode_addresses, widen_stack]
        exact hstack
      · exact nextConfined_next hnext hstack
  | checkBegin id flag => exact nextConfined_next hnext (push_confined (by rintro k ⟨⟩) hstack)
  | checkEnd k =>
      simp only [vmInsn]
      split
      · next id pos flag capt rest hs =>
          have hpop := pop_confined hs hstack true
          have hip : G ((popClear s true ⟨.check id pos flag, capt⟩ rest).ip + 1) := by
            simpa using hnext
          split
          · exact nextConfined_next hip hpop
          · split
            · exact goFail_confined hpop
            · split
              · exact goFail_confined hpop
              · exact nextConfined_next hip hpop
      · rintro s' ⟨⟩
  | memoOpen l id =>
      obtain ⟨hst, hip⟩ := lookup_control (s := s) id
      simp only [vmInsn]
      generalize lookup s id = res at hst hip
      obtain ⟨t, found⟩ := res
      have hstack' : ∀ k ∈ addresses t.stack, G k := hst ▸ hstack
      cases found with
      | none =>
          exact nextConfined_next (hip ▸ hnext) (push_confined (by rintro k ⟨⟩) hstack')
      | some e =>
          simp only
          split
          · exact goFail_confined hstack'
          · refine nextConfined_jump (htarget l rfl) ?_
            rw [(addEach_control e.captures).1]
            exact hstack'
  | memoClose =>
      simp only [vmInsn]
      split
      · next id pos capt rest hs =>
          refine nextConfined_next ?_ ?_
          · simpa [stackPop] using hnext
          · simp only [memoize_stack, stackPop, if_true, stackAddCapt_addresses]
            exact hrest hs
      · rintro s' ⟨⟩
  | memoTreeOpen l id =>
      obtain ⟨hst, hip⟩ := lookup_control (s := s) id
      simp only [vmInsn]
      generalize lookup s id = res at hst hip
      obtain ⟨t, found⟩ := res
      have hstack' : ∀ k ∈ addresses t.stack, G k := hst ▸ hstack
      cases found with
      | none =>
          exact nextConfined_next (hip ▸ hnext) (push_confined (by rintro k ⟨⟩) hstack')
      | some e =>
          simp only
          split
          · exact goFail_confined hstack'
          · refine nextConfined_jump (htarget l rfl) ?_
            rw [(addEach_control e.captures).1]
            exact push_confined (by rintro k ⟨⟩) hstack'
  | memoTreeInsert =>
      simp only [vmInsn]
      split
      · next id pos count capt rest hs =>
          refine nextConfined_next (by simpa using hnext) ?_
          simp only [memoize_stack]
          simpa [addresses, entryIp, List.filterMap_cons] using hrest hs
      · rintro s' ⟨⟩
  | memoTree =>
      obtain ⟨hip, hsub⟩ := memoTreeLoop_popped (a := a) (2 * s.stack.length + 1) 0 0 s
      exact nextConfined_next (by rw [memoTree, hip]; exact hnext) fun k hk => hstack k (hsub hk)
  | memoTreeClose id =>
      obtain ⟨hip, hsub⟩ := memoTreeClose_popped id s.stack.length s
      exact nextConfined_next (by rw [hip]; exact hnext) fun k hk => hstack k (hsub hk)
  | error k => exact nextConfined_next hnext hstack

end Libpeg.Control
