import Libpeg.Ownership

namespace Libpeg.ReferenceCounts

open Libpeg.Charset Libpeg.Opcode Libpeg.Code Libpeg.Pattern Libpeg.Compile
open Libpeg.IntervalTree Libpeg.IntervalOps Libpeg.IntervalRefinement Libpeg.Memo Libpeg.Input
open Libpeg.IntervalHandles Libpeg.Vm Libpeg.MemoView Libpeg.Simulation Libpeg.Positions Libpeg.RunSimulation
open Libpeg.Relocation Libpeg.Session Libpeg.Anchoring Libpeg.RefCount Libpeg.Ownership

def entryCaptures (m : Mem) (l : List Nat) : List Nat :=
  l.flatMap fun e => (m.entries[e]?.map MemoEntry.captures).getD []

/-- The memory, a table if there is one, and the results that were not freed. -/
structure Store where
  mem : Mem
  tbl : Option MemoTable
  kept : List VmResult

inductive StoreOp where
  | tableNew (threshold : Int)
  | exec (a : VmArgs) (fuel nchecks : Nat)
  | applyEdit (fuel : Nat) (edit : MemoEdit)
  | tableFree
  | resultFree (i : Nat)

def storeCall (s : Store) : StoreOp → Option Store
  | .tableNew threshold =>
      match s.tbl with
      | none => some { s with tbl := some (memoTableNew threshold) }
      | some _ => none
  | .exec a fuel nchecks =>
      match vmExec fuel a s.mem s.tbl nchecks with
      | some (.ok (r, after)) => some ⟨after.mem, after.tbl, s.kept ++ [r]⟩
      | _ => none
  | .applyEdit fuel edit => do
      let t ← s.tbl
      let (mem, t) ← memoTableApplyEdit fuel s.mem t edit
      return ⟨mem, some t, s.kept⟩
  | .tableFree => s.tbl.map fun t => ⟨memoTableFree s.mem t, none, s.kept⟩
  | .resultFree i => s.kept[i]?.map fun r => ⟨vmResultFree s.mem r, s.tbl, s.kept.eraseIdx i⟩

/-- Programs come from the compiler, and an edit replaces a range by some bytes. -/
def Legal : StoreOp → Prop
  | .exec a _ _ => ∃ (fuel : Nat) (memoCounter : Int) (pat : Pat),
      patCompile fuel memoCounter pat = some (.ok a.code)
  | .applyEdit _ edit => edit.start ≤ edit.stop ∧ 0 ≤ edit.len
  | _ => True

inductive StoreRun (P : Store → StoreOp → Prop) : Store → Prop
  | empty : StoreRun P ⟨Mem.empty, none, []⟩
  | call {s s' : Store} {op : StoreOp} (h : StoreRun P s) (hlegal : Legal op) (hP : P s op)
      (hcall : storeCall s op = some s') : StoreRun P s'

/-- The captures that the table holds, if there is one. -/
def tblCaptures (m : Mem) (tbl : Option MemoTable) : List Nat :=
  (tbl.map (tableCaptures m)).getD []

/-- The bounds of the interval tree hold before a call that uses the table. -/
def BoundsIntact (s : Store) : StoreOp → Prop
  | .resultFree _ => True
  | _ => ∀ t, s.tbl = some t → Bounded t

section Table

variable {m : Mem} {t : MemoTable} {ref : List (RefIv Nat)} {p : Nat → Int} {roots : List Nat}

theorem tableFreeEntry_counted {i : IvIns Nat}
    (h : Counted m (entryCaptures m [i.value] ++ roots)) :
    Counted (tableFreeEntry m i) roots ∧ (tableFreeEntry m i).entries = m.entries := by
  unfold tableFreeEntry
  split
  · next hnone =>
      simp only [entryCaptures, List.flatMap_cons, List.flatMap_nil, hnone, Option.map_none,
        Option.getD_none, List.nil_append] at h
      exact ⟨h, rfl⟩
  · next entry hentry =>
      simp only [entryCaptures, List.flatMap_cons, List.flatMap_nil, hentry, Option.map_some,
        Option.getD_some, List.append_nil] at h
      have hsame := foldl_absolutize_sameHolders i.value i.low entry.captures m
      refine ⟨(h.congr hsame).freeAll, ?_⟩
      rw [(foldl_memoCaptureFree _ _).2]
      exact hsame.entries

theorem evict_counted {evicted : List (IvIns Nat)}
    (h : Counted m (entryCaptures m (evicted.map IvIns.value) ++ roots)) :
    Counted (evicted.foldl tableFreeEntry m) roots := by
  induction evicted generalizing m with
  | nil => exact h
  | cons i evicted ih =>
      have hsplit : Counted m (entryCaptures m [i.value] ++
          (entryCaptures m (evicted.map IvIns.value) ++ roots)) := by
        simpa [entryCaptures] using h
      obtain ⟨hnext, hents⟩ := tableFreeEntry_counted hsplit
      refine ih ?_
      simpa only [entryCaptures, hents] using hnext

theorem memoTableFree_counted (h : Counted m (tableCaptures m t ++ roots)) :
    Counted (memoTableFree m t) roots := by
  refine evict_counted ?_
  rw [List.map_map]
  exact h

theorem entryCaptures_append (l l' : List Nat) :
    entryCaptures m (l ++ l') = entryCaptures m l ++ entryCaptures m l' :=
  List.flatMap_append

theorem entryCaptures_perm {l l' : List Nat} (h : l.Perm l') :
    (entryCaptures m l).Perm (entryCaptures m l') :=
  h.flatMap_right _

theorem applyEdit_counted (h : MemoOk m (some t) ref p) {edit : MemoEdit}
    (hle : edit.start ≤ edit.stop) (hlen : 0 ≤ edit.len)
    (hcount : Counted m (tableCaptures m t ++ roots)) {fuel : Nat} {m' : Mem} {t' : MemoTable}
    (hedit : memoTableApplyEdit fuel m t edit = some (m', t')) :
    Counted m' (tableCaptures m' t' ++ roots) := by
  obtain ⟨tree, evicted, hremove, hevicted, hinv⟩ := h.edit_evict hle hlen
  cases memoTableApplyEdit_unique hedit
    (memoTableApplyEdit_of_remove (hremove _ (Nat.lt_succ_self _)))
  have hents : (evicted.foldl tableFreeEntry m).entries = m.entries := (h.evict hevicted).1.entries
  have hshift : (editRef ref edit).map RefIv.value =
      (ref.filter fun r => !ivOverlaps r.ins edit.start (editHigh edit)).map RefIv.value := by
    rw [editRef, List.map_map]
    congr 1
    funext r
    simp only [Function.comp, RefIv.shift]
    split <;> rfl
  -- the entries before the edit are those evicted and those left
  have hall : (storedEntries t).Perm
      (evicted.map IvIns.value ++ storedEntries { t with tree := tree }) := by
    refine (storedEntries_perm (h.tree t rfl).toInv).trans ?_
    have hleft : (storedEntries { t with tree := tree }).Perm
        ((ref.filter fun r => !ivOverlaps r.ins edit.start (editHigh edit)).map RefIv.value) := by
      rw [← hshift]
      exact storedEntries_perm hinv
    have hout := hevicted.map IvIns.value
    rw [List.map_map] at hout
    refine List.Perm.trans ?_ (hout.symm.append hleft.symm)
    refine List.Perm.trans ?_ (List.Perm.of_eq (List.map_append))
    exact ((List.filter_append_perm _ ref).map RefIv.value).symm
  have hsplit : Counted m (entryCaptures m (evicted.map IvIns.value) ++
      (entryCaptures m (storedEntries { t with tree := tree }) ++ roots)) := by
    refine hcount.perm ?_
    rw [← List.append_assoc]
    refine List.Perm.append_right _ ?_
    rw [← entryCaptures_append]
    exact entryCaptures_perm hall
  have hfree := evict_counted hsplit
  simp only [tableCaptures, hents]
  exact hfree

end Table

section Run

variable {a : VmArgs} {ref ref₀ : List (RefIv Nat)} {p p₀ : Nat → Int} {s : VmState} {m₀ : Mem}
  {kept : List Nat}

theorem entryCaptures_range (m : Mem) {n k : Nat} (h : m.entries.length = n + k) :
    entryCaptures m (List.range' n k) = newCaptures m n := by
  induction k generalizing n with
  | zero =>
      have hdrop : m.entries.drop n = [] := List.drop_eq_nil_of_le (by omega)
      simp [entryCaptures, newCaptures, hdrop]
  | succ k ih =>
      have hlt : n < m.entries.length := by omega
      have hrest := ih (n := n + 1) (by omega)
      rw [newCaptures, List.drop_eq_getElem_cons hlt, List.flatMap_cons]
      rw [List.range'_succ, entryCaptures, List.flatMap_cons, List.getElem?_eq_getElem hlt]
      congr 1

theorem tblCaptures_perm {m : Mem} {tbl : Option MemoTable} (h : MemoOk m tbl ref p) :
    (tblCaptures m tbl).Perm (entryCaptures m (ref.map RefIv.value)) := by
  cases tbl with
  | none =>
      rw [h.none rfl]
      exact .refl _
  | some t => exact entryCaptures_perm (storedEntries_perm (h.tree t rfl).toInv)

/-- The captures of the entries that are there after a run: those that were there
before, and those of the new ones. -/
theorem entryCaptures_grown {m' : Mem} {p' : Nat → Int} (hgrown : Grown m₀ p₀ m' p' ref₀ ref)
    (hlt : ∀ r ∈ ref₀, r.value < m₀.entries.length) :
    entryCaptures m' (ref.map RefIv.value) =
      entryCaptures m₀ (ref₀.map RefIv.value) ++ newCaptures m' m₀.entries.length := by
  obtain ⟨new, rfl, hvals, hlen⟩ := hgrown.ref
  rw [List.map_append, entryCaptures_append, hvals, entryCaptures_range m' hlen]
  congr 1
  refine List.flatMap_congr fun e he => ?_
  obtain ⟨r, hr, rfl⟩ := List.mem_map.mp he
  obtain ⟨tail, htail⟩ := hgrown.entries
  rw [← htail, List.getElem?_append_left (hlt r hr)]

/-- A state of a run that started with the entries `ref₀`, while the caller holds
`kept`. -/
structure Tracked (a : VmArgs) (m₀ : Mem) (p₀ : Nat → Int) (ref₀ : List (RefIv Nat))
    (kept : List Nat) (s : VmState) (ref : List (RefIv Nat)) (p : Nat → Int) : Prop where
  ok : Ok a.input ref p s
  grown : Grown m₀ p₀ s.mem p ref₀ ref
  balanced : Balanced m₀.entries.length (entryCaptures m₀ (ref₀.map RefIv.value) ++ kept) s
  old : ∀ r ∈ ref₀, r.value < m₀.entries.length

theorem Tracked.counted (h : Tracked a m₀ p₀ ref₀ kept s ref p) :
    Counted s.mem (machineCaptures s ++ tblCaptures s.mem s.tbl ++ kept) := by
  refine h.balanced.1.perm (List.perm_iff_count.mpr fun c => ?_)
  have htbl := (tblCaptures_perm h.ok.memo).count_eq c
  rw [entryCaptures_grown h.grown h.old, List.count_append] at htbl
  simp only [held, List.count_append, htbl]
  omega

theorem Tracked.hit (h : Tracked a m₀ p₀ ref₀ kept s ref p) (id : Int) (e : MemoEntry)
    (he : (lookup s id).2 = some e) : e.captures ⊆
      held m₀.entries.length (entryCaptures m₀ (ref₀.map RefIv.value) ++ kept) s := by
  intro c hc
  have hin : c ∈ entryCaptures s.mem (ref.map RefIv.value) := by
    cases ht : s.tbl with
    | none => simp [lookup, ht] at he
    | some t =>
        have hmemo := h.ok.memo
        rw [ht] at hmemo
        simp only [lookup, ht, Option.bind_eq_some_iff] at he
        obtain ⟨i, hget, hentry⟩ := he
        obtain ⟨-, -, -, -, hsome⟩ := hmemo.get id (vmInputPos s.src)
        obtain ⟨r, hr, -, -, rfl, -⟩ := hsome i hget
        refine List.mem_flatMap.mpr ⟨r.value, List.mem_map_of_mem hr, ?_⟩
        rw [hentry]
        exact hc
  rw [entryCaptures_grown h.grown h.old] at hin
  simp only [held, List.mem_append] at hin ⊢
  tauto

theorem Tracked.step (h : Tracked a m₀ p₀ ref₀ kept s ref p) (hplaced : Placed (absState ref p s))
    {s' : VmState} (hs' : nextState (vmStep a s) = some s') :
    ∃ ref' p', Tracked a m₀ p₀ ref₀ kept s' ref' p' ∧
      (vmStep a s = .running s' → Placed (absState ref' p' s')) := by
  obtain ⟨ρ, -, hnext, -, ref', p', habs, hok⟩ := vmStep_sim h.ok hplaced
  obtain ⟨hok, hgrown⟩ := hok s' hs'
  have hbalanced : Balanced m₀.entries.length (entryCaptures m₀ (ref₀.map RefIv.value) ++ kept) s' := by
    cases hi : a.code.prog[s.ip]? with
    | none =>
        rw [vmStep, hi] at hs'
        cases hs'
    | some i =>
        rw [vmStep, hi] at hs'
        exact (vmInsn_balanced h.balanced h.hit i).1 s' hs'
  refine ⟨ref', p', ⟨hok, h.grown.trans hgrown, hbalanced, h.old⟩, fun hrun => ?_⟩
  rw [hrun] at habs
  exact hnext _ habs.symm

theorem Tracked.failed (h : Tracked a m₀ p₀ ref₀ kept s ref p) {s' : VmState}
    (hs' : vmStep a s = .failed s') : s'.stack = [] := by
  cases hi : a.code.prog[s.ip]? with
  | none =>
      rw [vmStep, hi] at hs'
      cases hs'
  | some i =>
      rw [vmStep, hi] at hs'
      exact (vmInsn_balanced h.balanced h.hit i).2 s' hs'

theorem Tracked.boundary (h : Tracked a m₀ p₀ ref₀ kept s ref p)
    (hplaced : Placed (absState ref p s)) {s' : VmState} (hb : Boundary a s s') :
    ∃ ref' p', Tracked a m₀ p₀ ref₀ kept s' ref' p' ∧ Placed (absState ref' p' s') := by
  induction hb with
  | start => exact ⟨ref, p, h, hplaced⟩
  | step hb hstep ih =>
      obtain ⟨ref', p', htracked, hpl⟩ := ih
      obtain ⟨ref'', p'', htracked', hpl'⟩ := htracked.step hpl (by rw [hstep]; rfl)
      exact ⟨ref'', p'', htracked', hpl' hstep⟩

theorem freeStack_counted {m : Mem} {roots : List Nat} (stack : List StackEntry)
    (h : Counted m (stack.flatMap StackEntry.capt ++ roots)) :
    Counted (stack.foldl (fun m e => freeAll m e.capt) m) roots := by
  induction stack generalizing m with
  | nil => exact h
  | cons e stack ih =>
      rw [List.flatMap_cons, List.append_assoc] at h
      exact ih h.freeAll

/-- The end of a run: the root of the result takes over the captures, and the
machine gives back what it holds. -/
theorem vmFinish_counted {r : VmNext} {s' : VmState} {roots : List Nat}
    (h : Counted s'.mem (machineCaptures s' ++ roots)) (hs' : nextState r = some s')
    (hstack : ∀ s, r = .failed s → s.stack = []) {res : VmResult} {after : VmAfter}
    (hfin : vmFinish a r = .ok (res, after)) :
    Counted after.mem (res.captures.toList ++ roots) := by
  cases r with
  | running s => cases hfin
  | aborted msg => cases hfin
  | failed s =>
      cases hs'
      cases hfin
      have hnil := hstack s' rfl
      rw [machineCaptures, hnil] at h
      exact h.freeAll
  | done s success =>
      cases hs'
      have hroot : ∀ cell : MemoCapture, cell.children = [] →
          Counted (freeAll (s'.stack.reverse.foldl (fun m e => freeAll m e.capt)
            (s'.capt.foldl (fun m c => memoCaptureAdd m s'.mem.caps.length c)
              { s'.mem with caps := s'.mem.caps ++ [cell], refs := s'.mem.refs ++ [1] })) s'.capt)
            (s'.mem.caps.length :: roots) := by
        intro cell hcell
        have hsub : ∀ c ∈ s'.capt, c ∈ machineCaptures s' ++ roots := by
          intro c hc
          simp [machineCaptures, hc]
        have hlt : ∀ c ∈ s'.capt, c < s'.mem.caps.length := by
          intro c hc
          simpa [kids] using Exact.lt h (hsub c hc)
        have hcs : s'.capt ⊆ s'.mem.caps.length :: (machineCaptures s' ++ roots) :=
          fun c hc => List.mem_cons_of_mem _ (hsub c hc)
        have hadd := ((h.alloc cell hcell).addAll List.mem_cons_self hcs hlt).1
        have hperm : (s'.mem.caps.length :: (machineCaptures s' ++ roots)).Perm
            (s'.stack.reverse.flatMap StackEntry.capt ++
              (s'.capt ++ s'.mem.caps.length :: roots)) := by
          refine List.perm_iff_count.mpr fun c => ?_
          have hrev := ((List.reverse_perm s'.stack).flatMap_right StackEntry.capt).count_eq c
          simp only [machineCaptures, List.count_append, List.count_cons, hrev]
          omega
        exact (freeStack_counted _ (hadd.perm hperm)).freeAll
      simp only [vmFinish] at hfin
      cases hw : a.windowed with
      | true =>
          simp only [hw, if_true] at hfin
          cases hfin
          exact hroot _ rfl
      | false =>
          simp only [hw, Bool.false_eq_true, if_false] at hfin
          cases hfin
          exact hroot _ rfl

theorem vmClear_counted {m m' : Mem} {tbl tbl' : Option MemoTable} {fuel : Nat}
    (h : MemoOk m tbl ref p) (hcount : Counted m (tblCaptures m tbl ++ kept))
    (hclear : vmClear fuel a m tbl = some (m', tbl')) :
    Counted m' (tblCaptures m' tbl' ++ kept) := by
  cases tbl with
  | none =>
      cases hclear
      exact hcount
  | some t =>
      rw [vmClear] at hclear
      split at hclear
      · next hw =>
          obtain ⟨⟨m₁, t₁⟩, hedit, hclear⟩ := Option.bind_eq_some_iff.mp hclear
          cases hclear
          exact applyEdit_counted h (by dsimp only; omega) (by dsimp only; omega) hcount hedit
      · cases hclear
        exact hcount

theorem vmStart_tracked {m m' : Mem} {tbl tbl' : Option MemoTable} {fuel : Nat}
    (h : MemoOk m tbl ref p) (hcount : Counted m (tblCaptures m tbl ++ kept))
    (hclear : vmClear fuel a m tbl = some (m', tbl')) (nchecks : Nat) :
    ∃ ref₀, Tracked a m' p ref₀ kept (vmStart a m' tbl' nchecks) ref₀ p ∧
      Placed (absState ref₀ p (vmStart a m' tbl' nchecks)) := by
  have hcounted := vmClear_counted h hcount hclear
  obtain ⟨m₁, tbl₁, ⟨depth, heq⟩, hmemo, -, -⟩ := vmClear_ok h a
  cases vmClear_unique hclear (heq _ (Nat.lt_succ_self _))
  obtain ⟨hok, habs⟩ := vmStart_ok (a := a) hmemo nchecks
  refine ⟨startRef a ref, ⟨hok, Extends.grown (.refl _) p, ?_, ?_⟩, habs ▸ aStart_placed _ _⟩
  · refine Counted.balanced hcounted le_rfl fun c => ?_
    have htbl := (tblCaptures_perm hmemo).count_eq c
    have hmachine : machineCaptures (vmStart a m' tbl' nchecks) = [] := rfl
    have hnew : newCaptures (vmStart a m' tbl' nchecks).mem m'.entries.length = [] := by
      rw [newCaptures]
      exact List.flatMap_eq_nil_iff.mpr (by simp [vmStart])
    simp only [held, hmachine, hnew, List.count_append, htbl, List.count_nil, Nat.zero_add]
  · intro r hr
    obtain ⟨e, he, -⟩ := hmemo.entry r hr
    exact (List.getElem?_eq_some_iff.mp he).1

end Run

section Store

def storeHeld (s : Store) : List Nat :=
  resultCaptures s.kept ++ tblCaptures s.mem s.tbl

/-- The counts are right, and the memory is well formed whenever the bounds of the
interval tree hold. -/
def StoreOk (s : Store) : Prop :=
  Counted s.mem (storeHeld s) ∧
    ((∀ t, s.tbl = some t → Bounded t) → ∃ ref p, MemoOk s.mem s.tbl ref p)

variable {s s' : Store}

theorem StoreOk.comm (h : StoreOk s) :
    Counted s.mem (tblCaptures s.mem s.tbl ++ resultCaptures s.kept) :=
  h.1.perm List.perm_append_comm

theorem tblCaptures_entries {m m' : Mem} (h : m'.entries = m.entries) (tbl : Option MemoTable) :
    tblCaptures m' tbl = tblCaptures m tbl := by
  cases tbl with
  | none => rfl
  | some t => simp only [tblCaptures, Option.map_some, tableCaptures, h]

theorem resultCaptures_snoc (kept : List VmResult) (r : VmResult) :
    resultCaptures (kept ++ [r]) = resultCaptures kept ++ r.captures.toList := by
  simp [resultCaptures]

theorem memoOk_new_table {m : Mem} {p : Nat → Int} {ref : List (RefIv Nat)}
    (h : MemoOk m none ref p) (threshold : Int) :
    MemoOk m (some (memoTableNew threshold)) [] p := by
  have hnil := h.none rfl
  subst hnil
  refine ⟨by simp, ?_, h.entry, h.values, h.pos, h.older, h.owned, h.captures⟩
  rintro t ⟨⟩
  exact boundedInv_new

theorem memoOk_no_table {m : Mem} {p : Nat → Int} {tbl : Option MemoTable}
    (h : MemoOk m tbl [] p) : MemoOk m none [] p :=
  ⟨fun _ => rfl, by simp, h.entry, h.values, h.pos, h.older, h.owned, h.captures⟩

theorem StoreOk.exec (h : StoreOk s) (hbounded : ∀ t, s.tbl = some t → Bounded t) {a : VmArgs}
    {fuel nchecks : Nat} {r : VmResult} {after : VmAfter}
    (hrun : vmExec fuel a s.mem s.tbl nchecks = some (.ok (r, after))) :
    StoreOk ⟨after.mem, after.tbl, s.kept ++ [r]⟩ := by
  obtain ⟨ref, p, hok⟩ := h.2 hbounded
  rw [vmExec] at hrun
  split at hrun
  · cases hrun
  · split at hrun
    · cases hrun
      have hcaps : (memoCaptureDummy s.mem 0 0).2.caps =
          s.mem.caps ++ [⟨0, true, 0, 0, none, []⟩] := rfl
      refine ⟨?_, fun _ => ⟨ref, p, memoOk_grow hok hcaps rfl rfl (by simp)⟩⟩
      refine (h.1.alloc ⟨0, true, 0, 0, none, []⟩ rfl).perm (List.perm_iff_count.mpr fun c => ?_)
      have hsame : tblCaptures (memoCaptureDummy s.mem 0 0).2 s.tbl = tblCaptures s.mem s.tbl :=
        tblCaptures_entries rfl s.tbl
      change _ = (resultCaptures (s.kept ++ [⟨true, 0, some s.mem.caps.length, []⟩]) ++
        tblCaptures (memoCaptureDummy s.mem 0 0).2 s.tbl).count c
      simp only [storeHeld, hsame, resultCaptures_snoc, List.count_append, List.count_cons,
        Option.toList_some, List.count_nil]
      omega
    · obtain ⟨⟨m₁, tbl₁⟩, hclear, hloop⟩ := Option.bind_eq_some_iff.mp hrun
      obtain ⟨n, hn, hfin⟩ := Option.map_eq_some_iff.mp hloop
      obtain ⟨st, hb, rfl⟩ := vmLoop_boundary hn
      obtain ⟨ref₀, htracked, hplaced⟩ := vmStart_tracked hok h.comm hclear nchecks
      obtain ⟨ref₁, p₁, htracked₁, hplaced₁⟩ := htracked.boundary hplaced hb
      obtain ⟨s', hs'⟩ : ∃ s', nextState (vmStep a st) = some s' := by
        cases hstep : vmStep a st with
        | aborted msg =>
            rw [hstep] at hfin
            cases hfin
        | _ => exact ⟨_, rfl⟩
      obtain ⟨ref₂, p₂, htracked₂, -⟩ := htracked₁.step hplaced₁ hs'
      obtain ⟨hmemo, hext, htbl⟩ := vmFinish_ok htracked₂.ok hs' hfin
      have hcounted := htracked₂.counted
      rw [List.append_assoc] at hcounted
      have hfinal := vmFinish_counted hcounted hs' (fun s hs => htracked₁.failed hs) hfin
      refine ⟨hfinal.perm (List.perm_iff_count.mpr fun c => ?_), fun _ => ⟨ref₂, p₂, ?_⟩⟩
      · have hsame : tblCaptures after.mem after.tbl = tblCaptures s'.mem s'.tbl := by
          rw [htbl, tblCaptures_entries hext.entries]
        simp only [storeHeld, resultCaptures_snoc, hsame, List.count_append]
        omega
      · rw [htbl]
        exact hmemo

theorem resultFree_counted {i : Nat} {r : VmResult} (h : StoreOk s) (hr : s.kept[i]? = some r) :
    Counted (vmResultFree s.mem r)
      (resultCaptures (s.kept.eraseIdx i) ++ tblCaptures s.mem s.tbl) := by
  obtain ⟨hlt, rfl⟩ := List.getElem?_eq_some_iff.mp hr
  have hperm := (List.getElem_cons_eraseIdx_perm hlt).flatMap_right fun r => r.captures.toList
  refine Counted.freeAll (h.1.perm (List.perm_iff_count.mpr fun c => ?_))
  have hcount := hperm.count_eq c
  simp only [List.flatMap_cons, List.count_append] at hcount
  simp only [storeHeld, resultCaptures, List.count_append]
  omega

theorem StoreOk.call {op : StoreOp} (h : StoreOk s) (hlegal : Legal op) (hP : BoundsIntact s op)
    (hcall : storeCall s op = some s') : StoreOk s' := by
  cases op with
  | tableNew threshold =>
      simp only [storeCall] at hcall
      split at hcall
      · next hnone =>
          cases hcall
          obtain ⟨ref, p, hok⟩ := h.2 hP
          rw [hnone] at hok
          refine ⟨?_, fun _ => ⟨[], p, memoOk_new_table hok threshold⟩⟩
          have hheld := h.1
          rw [storeHeld, hnone] at hheld
          exact hheld
      · cases hcall
  | exec a fuel nchecks =>
      simp only [storeCall] at hcall
      split at hcall
      · next hrun =>
          cases hcall
          exact h.exec hP hrun
      · cases hcall
  | applyEdit fuel edit =>
      obtain ⟨t, ht, hcall⟩ := Option.bind_eq_some_iff.mp hcall
      obtain ⟨⟨m₁, t₁⟩, hedit, hcall⟩ := Option.bind_eq_some_iff.mp hcall
      cases hcall
      obtain ⟨ref, p, hok⟩ := h.2 hP
      rw [ht] at hok
      have hcomm := h.comm
      rw [ht] at hcomm
      refine ⟨(applyEdit_counted hok hlegal.1 hlegal.2 hcomm hedit).perm List.perm_append_comm, ?_⟩
      obtain ⟨m', t', heq, -, -, -, -, -, -, hok'⟩ := hok.edit hlegal.1 hlegal.2
      cases memoTableApplyEdit_unique hedit (heq _ (Nat.lt_succ_self _))
      exact fun hmax => ⟨_, _, hok' (hmax t₁ rfl)⟩
  | tableFree =>
      obtain ⟨t, ht, rfl⟩ := Option.map_eq_some_iff.mp hcall
      obtain ⟨ref, p, hok⟩ := h.2 hP
      rw [ht] at hok
      have hcomm := h.comm
      rw [ht] at hcomm
      refine ⟨?_, fun _ => ⟨[], p, memoOk_no_table (hok.free 0).1⟩⟩
      have hfree := memoTableFree_counted hcomm
      simpa [storeHeld, tblCaptures] using hfree
  | resultFree i =>
      obtain ⟨r, hr, rfl⟩ := Option.map_eq_some_iff.mp hcall
      obtain ⟨hcaps, hentries⟩ := foldl_memoCaptureFree r.captures.toList s.mem
      have hfree := resultFree_counted h hr
      refine ⟨?_, fun hmax => ?_⟩
      · rw [← tblCaptures_entries hentries] at hfree
        exact hfree
      · obtain ⟨ref, p, hok⟩ := h.2 hmax
        exact ⟨ref, p, hok.congr hcaps hentries⟩

theorem StoreRun.ok (h : StoreRun BoundsIntact s) : StoreOk s := by
  induction h with
  | empty =>
      refine ⟨⟨rfl, by simp [kids, Mem.empty], fun c => rfl⟩, fun _ => ⟨[], fun _ => 0, ?_⟩⟩
      exact memoOk_no_table (memoOk_new 0)
  | call h hlegal hP hcall ih => exact ih.call hlegal hP hcall

/-- The reference counts are exact between calls and between the instructions of a
call, in every run whose calls find the bounds of the interval tree intact: what is
held is not released, and when nothing is held everything is. -/
theorem reference_counts_exact (h : StoreRun BoundsIntact s) :
    Counted s.mem (storeHeld s) ∧
      (∀ c ∈ storeHeld s, s.mem.refs.getD c 0 ≠ 0) ∧
      (storeHeld s = [] → ∀ c, s.mem.refs.getD c 0 = 0) ∧
      ((∀ t, s.tbl = some t → Bounded t) → ∀ (a : VmArgs) (fuel : Nat) (m : Mem)
        (tbl : Option MemoTable), vmClear fuel a s.mem s.tbl = some (m, tbl) →
        ∀ (nchecks : Nat) (st : VmState), Boundary a (vmStart a m tbl nchecks) st →
          Counted st.mem
            (machineCaptures st ++ tblCaptures st.mem st.tbl ++ resultCaptures s.kept)) := by
  have hok := StoreRun.ok h
  refine ⟨hok.1, fun c hc => Exact.live hok.1 hc, fun hnone => ?_, ?_⟩
  · have hcounted := hok.1
    rw [hnone] at hcounted
    exact Exact.all_zero hcounted
  · intro hbounded a fuel m tbl hclear nchecks st hst
    obtain ⟨ref, p, hmemo⟩ := hok.2 hbounded
    obtain ⟨ref₀, htracked, hplaced⟩ := vmStart_tracked hmemo hok.comm hclear nchecks
    obtain ⟨ref₁, p₁, htracked₁, -⟩ := htracked.boundary hplaced hst
    exact htracked₁.counted

end Store

instance (s : Store) (op : StoreOp) : Decidable (BoundsIntact s op) :=
  have : Decidable (∀ t, s.tbl = some t → Bounded t) :=
    match htbl : s.tbl with
    | none => .isTrue (by simp)
    | some t => decidable_of_iff (Bounded t) (by simp)
  match op with
  | .resultFree _ => .isTrue trivial
  | .tableNew _ | .exec _ _ _ | .applyEdit _ _ | .tableFree => this

/-- Some calls, each with `P` before it. -/
def storePlay (P : Store → StoreOp → Prop) [∀ s op, Decidable (P s op)] :
    List StoreOp → Store → Option Store
  | [], s => some s
  | op :: ops, s => if P s op then (storeCall s op).bind (storePlay P ops) else none

theorem storePlay_run {P : Store → StoreOp → Prop} [∀ s op, Decidable (P s op)]
    {ops : List StoreOp} {s s' : Store} (h : StoreRun P s) (hlegal : ∀ op ∈ ops, Legal op)
    (hplay : storePlay P ops s = some s') : StoreRun P s' := by
  induction ops generalizing s with
  | nil =>
      cases hplay
      exact h
  | cons op ops ih =>
      rw [storePlay] at hplay
      split at hplay
      · next hP =>
          obtain ⟨s₁, hcall, hrest⟩ := Option.bind_eq_some_iff.mp hplay
          exact ih (h.call (hlegal op List.mem_cons_self) hP hcall)
            (fun op' hop => hlegal op' (List.mem_cons_of_mem op hop)) hrest
      · cases hplay

/-- The calls that make the table lose an entry, and then everything is freed. -/
def lostOps : List StoreOp :=
  [.tableNew 0, .exec ⟨compiledCode 20 lostPat, List.replicate 90 97, -1, -1⟩ 100 0,
    .applyEdit 20 ⟨40, 87, 0⟩, .applyEdit 20 ⟨5, 5, 10⟩, .applyEdit 20 ⟨20, 21, 1⟩,
    .resultFree 0, .tableFree]

theorem lostOps_legal : ∀ op ∈ lostOps, Legal op := by
  have hcode := @patCompile_compiledCode 20 lostPat (by decide +kernel)
  simp only [lostOps, List.forall_mem_cons, Legal]
  exact ⟨trivial, ⟨20, 0, lostPat, hcode⟩, by decide, by decide, by decide, trivial, trivial,
    by simp⟩

/-- The first four of these calls find the bounds intact. -/
theorem reference_counts_exact_lostOps : ∃ s : Store, StoreRun BoundsIntact s ∧
    resultCaptures s.kept ≠ [] ∧ Counted s.mem (storeHeld s) := by
  have hplay : (storePlay BoundsIntact (lostOps.take 4) ⟨Mem.empty, none, []⟩).any
      (fun s => decide (resultCaptures s.kept ≠ [])) = true := by decide +kernel
  obtain ⟨s, hs, hkept⟩ := (Option.any_eq_true _ _).mp hplay
  have hrun := storePlay_run .empty (fun op hop => lostOps_legal op (List.mem_of_mem_take hop)) hs
  exact ⟨s, hrun, of_decide_eq_true hkept, (reference_counts_exact hrun).1⟩

/-- The table gives back the captures of the entries it has, and the one it lost
keeps its reference for ever. -/
theorem reference_count_leaks :
    ¬∀ s : Store, StoreRun (fun _ _ => True) s →
      Counted s.mem (storeHeld s) ∧ (storeHeld s = [] → ∀ c, s.mem.refs.getD c 0 = 0) := by
  intro h
  have hplay : (storePlay (fun _ _ => True) lostOps ⟨Mem.empty, none, []⟩).any
      (fun s => decide (storeHeld s = [] ∧ s.mem.refs.getD 0 0 ≠ 0)) = true := by decide +kernel
  obtain ⟨s, hs, hfacts⟩ := (Option.any_eq_true _ _).mp hplay
  obtain ⟨hnone, hlive⟩ := of_decide_eq_true hfacts
  have hrun : StoreRun (fun _ _ => True) s := storePlay_run .empty lostOps_legal hs
  exact hlive ((h s hrun).2 hnone 0)

end Libpeg.ReferenceCounts
