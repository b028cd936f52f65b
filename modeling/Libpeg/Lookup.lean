import Libpeg.Relocation
import Libpeg.IntervalTies
import Mathlib.Data.List.Find
import Mathlib.Data.List.MinMax

namespace Libpeg.Lookup

open Libpeg.IntervalTree Libpeg.IntervalCells Libpeg.IntervalOps Libpeg.IntervalRefinement
open Libpeg.IntervalMaxima Libpeg.IntervalTies Libpeg.IntervalHandles
open Libpeg.Memo Libpeg.MemoView Libpeg.Relocation

/-- The live entries of a rule at a position, in the order of their group. -/
def entriesAt (t : MemoTable) (id pos : Int) : List Nat :=
  ((itreeEach t.tree).2.filter fun x => decide (x.1 = ⟨pos, id⟩)).map fun x => x.2.value

def matchedLength (m : Mem) (e : Nat) : Int :=
  (m.entries[e]?.map MemoEntry.length).getD 0

def examinedExtent (m : Mem) (e : Nat) : Int :=
  (m.entries[e]?.map MemoEntry.examined).getD 0

def IsLongest (m : Mem) (es : List Nat) : Option Nat → Prop
  | none => es = []
  | some e => e ∈ es ∧ ∀ d ∈ es, matchedLength m d ≤ matchedLength m e

instance (m : Mem) (es : List Nat) : (o : Option Nat) → Decidable (IsLongest m es o)
  | none => inferInstanceAs (Decidable (es = []))
  | some e => inferInstanceAs (Decidable (e ∈ es ∧ ∀ d ∈ es, matchedLength m d ≤ matchedLength m e))

/-- The first of the entries that examined most has matched most. -/
def ExtentsFollowLengths (m : Mem) (t : MemoTable) (id pos : Int) : Prop :=
  ∀ e ∈ (entriesAt t id pos).find? (fun e =>
      decide (∀ d ∈ entriesAt t id pos, examinedExtent m d ≤ examinedExtent m e)),
    ∀ d ∈ entriesAt t id pos, matchedLength m d ≤ matchedLength m e

instance (m : Mem) (t : MemoTable) (id pos : Int) :
    Decidable (ExtentsFollowLengths m t id pos) :=
  inferInstanceAs (Decidable (∀ e ∈ (entriesAt t id pos).find? fun e =>
      decide (∀ d ∈ entriesAt t id pos, examinedExtent m d ≤ examinedExtent m e),
    ∀ d ∈ entriesAt t id pos, matchedLength m d ≤ matchedLength m e))

variable {m : Mem} {t : MemoTable} {ref : List (RefIv Nat)} {p : Nat → Int}

theorem live_filter_key {α : Type} {cs : List (Cell α)} (hsorted : KeysSorted cs) {c : Cell α}
    (hc : c ∈ cs) : (live cs).filter (fun x => decide (x.key = c.key)) =
      c.ins.map fun i => ⟨c.loc, c.key, i⟩ := by
  obtain ⟨pre, post, rfl⟩ := List.append_of_mem hc
  rw [KeysSorted, List.pairwise_append, List.pairwise_cons] at hsorted
  obtain ⟨-, ⟨hpost, -⟩, hpre⟩ := hsorted
  have hnone : ∀ ds : List (Cell α), (∀ d ∈ ds, d.key ≠ c.key) →
      (live ds).filter (fun x => decide (x.key = c.key)) = [] := by
    intro ds hds
    rw [List.filter_eq_nil_iff]
    intro x hx
    obtain ⟨d, hd, -, hkey, -⟩ := mem_live.mp hx
    simpa [← hkey] using hds d hd
  rw [live_append, live_cons, List.filter_append, List.filter_append,
    hnone pre fun d hd => ne_of_ivKeyCmp_lt (hpre d hd c List.mem_cons_self),
    hnone post fun d hd => (ne_of_ivKeyCmp_lt (hpost d hd)).symm, List.append_nil,
    List.nil_append, List.filter_eq_self]
  intro x hx
  obtain ⟨i, -, rfl⟩ := List.mem_map.mp hx
  simp

theorem entriesAt_eq (h : MemoOk m (some t) ref p) (id pos : Int) :
    entriesAt t id pos = ((live (cells t.tree.shifts t.tree.root)).filter
      fun x => decide (x.key = ⟨pos, id⟩)).map fun x => x.ins.value := by
  have htree := h.tree t rfl
  obtain ⟨root, out, heq, -, hout⟩ := ivEach_spec htree.log (MaxBounds.reach htree.bounds)
    htree.regular
  have hall : (itreeEach t.tree).2 = out := congrArg Prod.snd heq
  rw [entriesAt, hall, hout, List.filter_map, List.map_map]
  rfl

theorem get_first (h : MemoOk m (some t) ref p) (id pos : Int) :
    (memoTableGet t id pos).2 = (entriesAt t id pos).find? fun e =>
      decide (∀ d ∈ entriesAt t id pos, examinedExtent m d ≤ examinedExtent m e) := by
  have htree := h.tree t rfl
  obtain ⟨root, found, heq, -, hfound⟩ := ivSearch_spec htree.log ⟨pos, id⟩
    (htree.toInv.sound htree.bounds) htree.wf.sorted
  have hget : (memoTableGet t id pos).2 =
      found.bind fun n => (ivLargest n.iv.ins).map IvIns.value := by
    simp only [memoTableGet, itreeFindLargest, heq]
  rw [hget, entriesAt_eq h]
  cases found with
  | none =>
      rw [List.filter_eq_nil_iff.mpr]
      · rfl
      · intro x hx
        obtain ⟨c, hc, -, hkey, -⟩ := mem_live.mp hx
        simpa [← hkey] using hfound c hc
  | some n =>
      rw [live_filter_key htree.wf.sorted hfound, List.map_map]
      have hext : ∀ i ∈ n.iv.ins, i.low = pos ∧ examinedExtent m i.value = i.high - i.low := by
        intro i hi
        obtain ⟨hlow, -⟩ := cells_fits htree.wf _ hfound i hi
        have hr := htree.toInv.mem_ref.mpr ⟨_, hfound, i, hi, rfl⟩
        obtain ⟨e, he, -, hhigh⟩ := h.entry _ hr
        refine ⟨hlow, ?_⟩
        simp only at hlow he hhigh
        rw [examinedExtent, he, Option.map_some, Option.getD_some]
        omega
      obtain ⟨i, hi, -, hmax⟩ := ivLargest_spec (htree.wf.nonempty _ hfound)
      simp only at hi hmax
      have hlow : ∀ j ∈ n.iv.ins, j.low = pos := fun j hj => (hext j hj).1
      have hle : ∀ j ∈ n.iv.ins, j.high ≤ i.high := by
        intro j hj
        have := hmax j hj
        rw [hlow j hj, hlow i hi] at this
        omega
      change _ = (n.iv.ins.map IvIns.value).find? fun e =>
        decide (∀ d ∈ n.iv.ins.map IvIns.value, examinedExtent m d ≤ examinedExtent m e)
      rw [Option.bind_some, ivLargest_first hlow hle ⟨i, hi, rfl⟩, List.find?_map]
      congr 1
      apply List.find?_congr
      intro j hj
      simp only [Function.comp_apply, decide_eq_decide, List.forall_mem_map]
      constructor
      · intro hji k hk
        rw [(hext j hj).2, (hext k hk).2, hlow j hj, hlow k hk]
        have := hle k hk
        omega
      · intro hall
        have := hall i hi
        rw [(hext j hj).2, (hext i hi).2, hlow j hj, hlow i hi] at this
        have := hle j hj
        omega

/-- As long as the bounds of the tree hold, a lookup finds a longest match exactly
when the first of the entries that examined most is one. -/
theorem get_longest_iff (hrun : TableRun Bounded m t) (hmax : Bounded t) (id pos : Int) :
    IsLongest m (entriesAt t id pos) (memoTableGet t id pos).2 ↔
      ExtentsFollowLengths m t id pos := by
  obtain ⟨ref, p, hok⟩ := hrun.ok hmax
  rw [get_first hok, ExtentsFollowLengths]
  cases hfind : (entriesAt t id pos).find? fun e =>
      decide (∀ d ∈ entriesAt t id pos, examinedExtent m d ≤ examinedExtent m e) with
  | none =>
      refine iff_of_true ?_ (by simp)
      by_contra hne
      have hsome : (entriesAt t id pos).argmax (examinedExtent m) ≠ none :=
        mt List.argmax_eq_none.mp hne
      obtain ⟨e, he⟩ := Option.ne_none_iff_exists'.mp hsome
      have hmax : ∀ d ∈ entriesAt t id pos, examinedExtent m d ≤ examinedExtent m e :=
        fun d hd => List.le_of_mem_argmax hd he
      exact List.find?_eq_none.mp hfind e (List.argmax_mem he) (decide_eq_true hmax)
  | some e =>
      have hmem := List.mem_of_find?_eq_some hfind
      simp [IsLongest, hmem]

/-- Two entries for a rule at 0: the one that examined more has matched more. -/
def agreeing : Mem × MemoTable :=
  let (m, t) := memoTablePut Mem.empty (memoTableNew 0) 0 0 1 6 1 []
  memoTablePut m t 0 0 5 10 1 []

theorem agreeing_run : TableRun Bounded agreeing.1 agreeing.2 :=
  .put (.put (.new 0) (by decide) 0 0 1 1 (by decide) (by simp)) (by decide) 0 0 5 1 (by decide)
    (by simp)

theorem get_longest_agreeing :
    IsLongest agreeing.1 (entriesAt agreeing.2 0 0) (memoTableGet agreeing.2 0 0).2 :=
  (get_longest_iff agreeing_run (by decide) 0 0).mpr (by decide)

/-- Two entries for a rule at 0: the one that examined more has matched less. -/
def disagreeing : Mem × MemoTable :=
  let (m, t) := memoTablePut Mem.empty (memoTableNew 0) 0 0 1 10 1 []
  memoTablePut m t 0 0 5 6 1 []

theorem disagreeing_run : TableRun (fun _ => True) disagreeing.1 disagreeing.2 :=
  .put (.put (.new 0) trivial 0 0 1 1 (by decide) (by simp)) trivial 0 0 5 1 (by decide) (by simp)

theorem get_not_longest : ¬∀ (m : Mem) (t : MemoTable), TableRun (fun _ => True) m t →
    ∀ id pos : Int, IsLongest m (entriesAt t id pos) (memoTableGet t id pos).2 := by
  intro h
  have hget := h _ _ disagreeing_run 0 0
  revert hget
  decide

end Libpeg.Lookup
