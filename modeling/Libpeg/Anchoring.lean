import Libpeg.Session

namespace Libpeg.Anchoring

open Libpeg.Charset Libpeg.Opcode Libpeg.Code Libpeg.Pattern Libpeg.Compile
open Libpeg.IntervalTree Libpeg.IntervalCells Libpeg.IntervalOps Libpeg.IntervalRefinement
open Libpeg.IntervalHandles Libpeg.Memo Libpeg.Input Libpeg.Vm Libpeg.Peg Libpeg.MemoView
open Libpeg.Simulation Libpeg.RunSimulation Libpeg.Relocation Libpeg.Session

def storedEntries (t : MemoTable) : List Nat :=
  (itreeEach t.tree).2.map fun x => x.2.value

/-- The captures in the lists of the stored entries. -/
def tableCaptures (m : Mem) (t : MemoTable) : List Nat :=
  (storedEntries t).flatMap fun e => (m.entries[e]?.map MemoEntry.captures).getD []

def machineCaptures (s : VmState) : List Nat :=
  s.stack.flatMap StackEntry.capt ++ s.capt

def resultCaptures (kept : List VmResult) : List Nat :=
  kept.flatMap fun r => r.captures.toList

/-- A capture reachable from `roots` belongs to no entry, or to a stored entry
whose captures it is below. -/
def Anchored (m : Mem) (t : MemoTable) (roots : List Nat) : Prop :=
  ∀ d ∈ roots, ∀ c, Reaches m.caps d c → ∀ e, (m.cap c).ment = some e →
    e ∈ storedEntries t ∧
      ∃ entry, m.entries[e]? = some entry ∧ ∃ b ∈ entry.captures, Reaches m.caps b c

theorem ivEach_values (shifts : List IvShift) (t : IvTree Nat) :
    (ivEach shifts t).2.map (fun x => x.2.value) =
      (live (cells shifts t)).map fun x => x.ins.value := by
  induction t with
  | nil => rfl
  | node n l r ihl ihr =>
      have hsame := ivApplyShifts_same shifts n (ivEach shifts l).1 r
      have hgroup := (ivReplay_replayed shifts n).group
      simp only [ivEach, List.map_append, ihl, ihr, cells, live_append, live_cons,
        List.map_map, Function.comp_def, cell, ivGroupShift, hsame.iv, hgroup, List.append_assoc]

theorem storedEntries_perm {t : MemoTable} {ref : List (RefIv Nat)}
    (h : IntervalRefinement.Inv t.tree ref) : (storedEntries t).Perm (ref.map RefIv.value) := by
  have hvals : storedEntries t = (live (cells t.tree.shifts t.tree.root)).map
      fun x => x.ins.value := ivEach_values _ _
  have hperm := h.ref.map RefIv.value
  rw [List.map_map] at hperm
  rw [hvals]
  exact hperm

theorem mem_storedEntries {t : MemoTable} {ref : List (RefIv Nat)}
    (h : IntervalRefinement.Inv t.tree ref) {e : Nat} :
    e ∈ storedEntries t ↔ ∃ r ∈ ref, r.value = e := by
  rw [(storedEntries_perm h).mem_iff, List.mem_map]

theorem anchored_of_owned {m : Mem} {t : MemoTable} {ref : List (RefIv Nat)}
    (htree : IntervalRefinement.Inv t.tree ref)
    (howned : ∀ (i : Nat) (c : MemoCapture), m.caps[i]? = some c → ∀ e, c.ment = some e →
      (∃ r ∈ ref, r.value = e) ∧
        ∃ entry, m.entries[e]? = some entry ∧ ∃ d ∈ entry.captures, Reaches m.caps d i)
    (roots : List Nat) : Anchored m t roots := by
  intro d _ c _ e he
  cases hc : m.caps[c]? with
  | none => simp [Mem.cap, List.getD, hc] at he
  | some cell =>
      have hment : cell.ment = some e := by simpa [Mem.cap, List.getD, hc] using he
      obtain ⟨hr, hentry⟩ := howned c cell hc e hment
      exact ⟨(mem_storedEntries htree).mpr hr, hentry⟩

theorem MemoOk.anchored {m : Mem} {t : MemoTable} {ref : List (RefIv Nat)} {p : Nat → Int}
    (h : MemoOk m (some t) ref p) (roots : List Nat) : Anchored m t roots :=
  anchored_of_owned (h.tree t rfl).toInv h.owned roots

/-- The bounds of the interval tree hold before a call. -/
def BoundedBefore (g : Peg) (_ : PegOp) : Prop :=
  Bounded g.tbl

section Session

variable {code : VmCode} {threshold : Int} {s : PegSession}

theorem execArgs_ok {g g' : Peg} {op : PegOp} {low high : Int} {ref : List (RefIv Nat)}
    {p : Nat → Int} (h : MemoOk g.mem (some g.tbl) ref p)
    (hop : execArgs g op = some (g', low, high)) :
    ∃ ref', MemoOk g'.mem (some g'.tbl) ref' p ∧ g'.mem.entries = g.mem.entries ∧
      view g'.mem p = view g.mem p ∧ (ref' = [] ∨ g' = g ∧ ref' = ref) := by
  cases op with
  | parse data =>
      cases hop
      obtain ⟨hok, hentries, hview⟩ := h.free g.threshold
      exact ⟨[], hok, hentries, hview, .inl rfl⟩
  | edit start stop text => cases hop
  | reparse =>
      cases hop
      exact ⟨ref, h, rfl, rfl, .inr ⟨rfl, rfl⟩⟩
  | captureInterval low high =>
      cases hop
      exact ⟨ref, h, rfl, rfl, .inr ⟨rfl, rfl⟩⟩

theorem pegEdit_cases {fuel : Nat} {g g' : Peg} {start stop : Int} {text : List UInt8}
    (h : pegEdit fuel g start stop text = some (.ok g')) :
    0 ≤ start ∧ start ≤ stop ∧ stop ≤ g.buf.length ∧ ∃ m t,
      memoTableApplyEdit fuel g.mem g.tbl ⟨start, stop, text.length⟩ = some (m, t) ∧
        g' = { g with buf := splice g.buf start.toNat stop.toNat text, mem := m, tbl := t } := by
  unfold pegEdit at h
  split at h
  · cases h
  · next hrange =>
      obtain ⟨⟨m, t⟩, hedit, h⟩ := Option.bind_eq_some_iff.mp h
      cases h
      exact ⟨by omega, by omega, by omega, m, t, hedit, rfl⟩

/-- As long as the bounds hold before every call, nothing dangles, and the memory
is well formed whenever they hold. -/
theorem session_ok (h : SessionRun BoundedBefore code threshold s) :
    (∀ roots, Anchored s.peg.mem s.peg.tbl roots) ∧
      (Bounded s.peg.tbl → ∃ ref p, MemoOk s.peg.mem (some s.peg.tbl) ref p) := by
  induction h with
  | new =>
      have hok := memoOk_new (p := fun _ => 0) threshold
      exact ⟨MemoOk.anchored hok, fun _ => ⟨_, _, hok⟩⟩
  | exec h hP hop hrun ih =>
      obtain ⟨ref, p, hok⟩ := ih.2 hP
      obtain ⟨ref', hok', -⟩ := execArgs_ok hok hop
      obtain ⟨-, ref'', p'', hok'', -⟩ := pegExec_ok hok' hrun
      exact ⟨MemoOk.anchored hok'', fun _ => ⟨_, _, hok''⟩⟩
  | @edit s start stop text fuel g h hP hedit ih =>
      obtain ⟨ref, p, hok⟩ := ih.2 hP
      obtain ⟨-, hle, -, m, t, happly, rfl⟩ := pegEdit_cases hedit
      have hlen : 0 ≤ (⟨start, stop, text.length⟩ : MemoEdit).len := Int.natCast_nonneg _
      obtain ⟨m', t', heq, -, hinv, -, -, -, howned, hok'⟩ := hok.edit hle hlen
      cases memoTableApplyEdit_unique happly (heq _ (Nat.lt_succ_self _))
      exact ⟨anchored_of_owned hinv howned, fun hmax => ⟨_, _, hok' hmax⟩⟩
  | @free s i r h hr ih =>
      have hcaps : (vmResultFree s.peg.mem r).caps = s.peg.mem.caps :=
        (foldl_memoCaptureFree _ _).1
      have hentries : (vmResultFree s.peg.mem r).entries = s.peg.mem.entries :=
        (foldl_memoCaptureFree _ _).2
      refine ⟨?_, fun hmax => ?_⟩
      · intro roots
        have hold := ih.1 roots
        simp only [Anchored, Mem.cap, hcaps, hentries] at hold ⊢
        exact hold
      · obtain ⟨ref, p, hok⟩ := ih.2 hmax
        exact ⟨ref, p, hok.congr hcaps hentries⟩

/-- Weak references do not dangle, between calls and between the instructions of
a call, in every session whose calls find the bounds of the interval tree intact. -/
theorem weak_references_anchored (h : SessionRun BoundedBefore code threshold s) :
    Anchored s.peg.mem s.peg.tbl (resultCaptures s.kept ++ tableCaptures s.peg.mem s.peg.tbl) ∧
      (Bounded s.peg.tbl → ∀ (op : PegOp) (g : Peg) (low high : Int),
        execArgs s.peg op = some (g, low, high) → ∀ (fuel : Nat) (start : VmState),
        pegStart fuel g low high = some start → ∀ st : VmState,
        Boundary (g.args low high) start st → ∃ t, st.tbl = some t ∧
          Anchored st.mem t
            (resultCaptures s.kept ++ machineCaptures st ++ tableCaptures st.mem t)) := by
  obtain ⟨hanchored, hbounded⟩ := session_ok h
  refine ⟨hanchored _, fun hmax op g low high hop fuel start hs st hst => ?_⟩
  obtain ⟨ref, p, hok⟩ := hbounded hmax
  obtain ⟨ref', hok', -⟩ := execArgs_ok hok hop
  obtain ⟨hstart, habs, -⟩ := pegStart_started hok' hs
  obtain ⟨hplaced, hsome⟩ := started_placed habs
  obtain ⟨ref'', p'', hok'', -, hsome', -⟩ := hst.ok hstart hplaced
  obtain ⟨t, ht⟩ := Option.isSome_iff_exists.mp (hsome'.trans hsome)
  have hmemo := hok''.memo
  rw [ht] at hmemo
  exact ⟨t, ht, MemoOk.anchored hmemo _⟩

end Session

instance (g : Peg) (op : PegOp) : Decidable (BoundedBefore g op) :=
  inferInstanceAs (Decidable (Bounded g.tbl))

def ahead (n : UInt8) (id : Int) (p : Pat) : Pat :=
  .and (.seq (.dot n) (.memo p id))

/-- Entries at 10, 0, 30, 20 and 35, stored in this order; those at 30 and 20 hold
a capture. -/
def lostPat : Pat :=
  .seq (ahead 10 2 (.dot 1)) (.seq (.and (.memo (.dot 1) 2))
    (.seq (ahead 30 1 (.cap (.dot 1) 7)) (.seq (ahead 20 1 (.cap (.dot 1) 7))
      (ahead 35 3 (.dot 15)))))

/-- The first edit evicts the entry at 35 and leaves the maximum of the node at 30
too large, the second is skipped there, and the third deletes the node at 10,
whose successor then has the key of the node at 30. -/
def lostCalls : List (Nat × PegOp) :=
  [(100, .parse (List.replicate 90 97)), (20, .edit 40 87 []),
    (20, .edit 5 5 (List.replicate 10 98)), (20, .edit 20 21 [97])]

/-- The first two of these calls find the bounds intact. -/
theorem weak_references_anchored_lostPat : ∃ s : PegSession,
    SessionRun BoundedBefore (compiledCode 20 lostPat) 0 s ∧
      Anchored s.peg.mem s.peg.tbl
        (resultCaptures s.kept ++ tableCaptures s.peg.mem s.peg.tbl) := by
  have hplay : (play BoundedBefore (lostCalls.take 3)
      ⟨pegNew (compiledCode 20 lostPat) 0, [], []⟩).isSome = true := by decide +kernel
  obtain ⟨s, hs⟩ := Option.isSome_iff_exists.mp hplay
  have hrun := play_run .new hs
  exact ⟨s, hrun, (weak_references_anchored hrun).1⟩

/-- The entry at 30 is lost without being evicted, and the capture that the result
still holds refers to it. -/
theorem weak_reference_dangles :
    ¬∀ (fuel : Nat) (memoCounter : Int) (pat : Pat) (code : VmCode),
      patCompile fuel memoCounter pat = some (.ok code) → ∀ (threshold : Int) (s : PegSession),
      SessionRun (fun _ _ => True) code threshold s →
      Anchored s.peg.mem s.peg.tbl
        (resultCaptures s.kept ++ tableCaptures s.peg.mem s.peg.tbl) := by
  intro h
  have hcode := @patCompile_compiledCode 20 lostPat (by decide +kernel)
  have hplay : (play (fun _ _ => True) lostCalls
      ⟨pegNew (compiledCode 20 lostPat) 0, [], []⟩).any (fun s =>
        decide (2 ∈ resultCaptures s.kept ∧ (s.peg.mem.caps[2]?.any fun c => 0 ∈ c.children) ∧
          (s.peg.mem.cap 0).ment = some 2 ∧ 2 ∉ storedEntries s.peg.tbl)) = true := by
    decide +kernel
  obtain ⟨s, hs, hfacts⟩ := (Option.any_eq_true _ _).mp hplay
  obtain ⟨hkept, hchild, hment, hlost⟩ := of_decide_eq_true hfacts
  obtain ⟨cell, hcell, hmem⟩ := (Option.any_eq_true _ _).mp hchild
  have hreach : Reaches s.peg.mem.caps 2 0 := .single ⟨cell, hcell, of_decide_eq_true hmem⟩
  have hrun : SessionRun (fun _ _ => True) (compiledCode 20 lostPat) 0 s := play_run .new hs
  exact hlost (h _ _ _ _ hcode _ _ hrun 2 (List.mem_append_left _ hkept) 0 hreach 2 hment).1

end Libpeg.Anchoring
