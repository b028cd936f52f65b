import Libpeg.IntervalOps
import Mathlib.Data.List.Nodup

/-!
The lazy tree against a flat list of intervals. The list drops what overlaps and
shifts the rest at once; the tree agrees with it on every observation as long as
its maxima bound their subtrees, and a shift can leave them too small.
-/

namespace Libpeg.IntervalRefinement

open Libpeg.IntervalTree Libpeg.IntervalCells Libpeg.IntervalOps

variable {α : Type}

/-- An interval of the reference list, with the handle it was stored under. -/
structure RefIv (α : Type) where
  loc : Nat
  id : Int
  low : Int
  high : Int
  value : α
  deriving DecidableEq

/-- The operations of the public interface. -/
inductive Op (α : Type) where
  | add (id low high : Int) (value : α)
  | removeAndShift (low high amt : Int)
  | findLargest (id pos : Int)
  | size
  | each
  | locPos (loc : Nat)
  | applyAllShifts

/-- What a caller sees of an operation. -/
inductive Obs (α : Type) where
  | loc (l : Nat)
  | evicted (is : List (IvIns α))
  | found (v : Option α)
  | size (n : Nat)
  | each (out : List (IvKey × IvIns α))
  | pos (p : Option Int)
  | done
  | running

/-- One operation on the tree, when it returns within the given depth of calls. -/
def stepWithin (fuel : Nat) (t : Itree α) : Op α → Option (Itree α × Obs α)
  | .add id low high value =>
      let (t, loc) := itreeAdd t id low high value
      some (t, .loc loc)
  | .removeAndShift low high amt => do
      let (t, evicted) ← itreeRemoveAndShift fuel t low high amt
      return (t, .evicted evicted)
  | .findLargest id pos =>
      let (t, v) := itreeFindLargest t id pos
      some (t, .found v)
  | .size => some (t, .size (itreeSize t))
  | .each =>
      let (t, out) := itreeEach t
      some (t, .each out)
  | .locPos loc =>
      let (t, pos) := itreeLocPos t loc
      some (t, .pos pos)
  | .applyAllShifts => some (itreeApplyAllShifts t, .done)

/-- More than a removal nests on a tree whose maxima are bounds. -/
def removalDepth (t : Itree α) : Nat :=
  4 * (ivNodes t.root + 1)

theorem ivNodes_lt_removalDepth (t : Itree α) : ivNodes t.root < removalDepth t := by
  rw [removalDepth]
  omega

/-- One operation on the tree. A removal that nests deeper than `removalDepth` is
still `running`, which agrees with nothing. -/
def step (t : Itree α) (op : Op α) : Itree α × Obs α :=
  (stepWithin (removalDepth t) t op).getD (t, .running)

theorem step_removeAndShift_eq {t : Itree α} {low high amt : Int} {root : IvTree α}
    {evicted : List (IvIns α)} (h : ∀ fuel, ivNodes t.root < fuel →
      ivRemoveOverlaps t.shifts low high fuel t.root = some (root, evicted)) :
    step t (.removeAndShift low high amt) =
      (ivRecordShift { t with root := root } low amt, .evicted evicted) := by
  simp [step, stepWithin, itreeRemoveAndShift, h _ (ivNodes_lt_removalDepth t)]

def RefIv.ins (r : RefIv α) : IvIns α :=
  ⟨r.low, r.high, r.value⟩

def RefIv.shift (low amt : Int) (r : RefIv α) : RefIv α :=
  if r.low ≥ low then { r with low := r.low + amt, high := r.high + amt } else r

/-- One operation on the reference list; the handle of a new interval is the one
the tree gave out. -/
def refStep (ref : List (RefIv α)) : Op α → Obs α → List (RefIv α)
  | .add id low high value, .loc l => ref ++ [⟨l, id, low, high, value⟩]
  | .removeAndShift low high amt, _ =>
      (ref.filter fun r => !ivOverlaps r.ins low high).map (RefIv.shift low amt)
  | _, _ => ref

/-- The observation is the one that the reference list gives. -/
def Agrees (ref : List (RefIv α)) : Op α → Obs α → Prop
  | .add id low _ _, .loc l => ∀ r ∈ ref, r.loc = l ↔ r.id = id ∧ r.low = low
  | .removeAndShift low high _, .evicted is =>
      is.Perm ((ref.filter fun r => ivOverlaps r.ins low high).map RefIv.ins)
  | .findLargest id pos, .found none => ∀ r ∈ ref, ¬(r.id = id ∧ r.low = pos)
  | .findLargest id pos, .found (some v) =>
      ∃ r ∈ ref, r.id = id ∧ r.low = pos ∧ r.value = v ∧
        ∀ q ∈ ref, q.id = id → q.low = pos → q.high - q.low ≤ r.high - r.low
  | .size, .size n => n = ref.length
  | .each, .each out =>
      out.Pairwise (fun a b => ivKeyCmp a.1 b.1 ≠ .gt) ∧ (∀ x ∈ out, x.1.pos = x.2.low) ∧
        (out.map fun x => (x.1.id, x.2)).Perm (ref.map fun r => (r.id, r.ins))
  | .locPos l, .pos p => ∀ r ∈ ref, r.loc = l → p = some r.low
  | .applyAllShifts, .done => True
  | _, _ => False

def Admits (ref : List (RefIv α)) : Op α → Prop
  | .add _ low high _ => low < high
  | .removeAndShift low high amt => low ≤ high ∧ -(high - low) ≤ amt
  | .locPos l => ∃ r ∈ ref, r.loc = l
  | _ => True

def Admissible : Itree α → List (RefIv α) → List (Op α) → Prop
  | _, _, [] => True
  | t, ref, op :: ops =>
      Admits ref op ∧ Admissible (step t op).1 (refStep ref op (step t op).2) ops

def Refines : Itree α → List (RefIv α) → List (Op α) → Prop
  | _, _, [] => True
  | t, ref, op :: ops =>
      Agrees ref op (step t op).2 ∧ Refines (step t op).1 (refStep ref op (step t op).2) ops

/-- The maxima are bounds before every operation of a run. -/
def MaximaHold : Itree α → List (Op α) → Prop
  | _, [] => True
  | t, op :: ops => MaxBounds t.shifts t.root ∧ MaximaHold (step t op).1 ops

instance decidableAdmits (ref : List (RefIv α)) : (op : Op α) → Decidable (Admits ref op)
  | .add _ low high _ => inferInstanceAs (Decidable (low < high))
  | .removeAndShift low high amt => inferInstanceAs (Decidable (low ≤ high ∧ -(high - low) ≤ amt))
  | .locPos l => inferInstanceAs (Decidable (∃ r ∈ ref, r.loc = l))
  | .findLargest _ _ => isTrue trivial
  | .size => isTrue trivial
  | .each => isTrue trivial
  | .applyAllShifts => isTrue trivial

instance decidableAdmissible : (t : Itree α) → (ref : List (RefIv α)) → (ops : List (Op α)) →
    Decidable (Admissible t ref ops)
  | _, _, [] => isTrue trivial
  | t, ref, op :: ops =>
      have := decidableAdmissible (step t op).1 (refStep ref op (step t op).2) ops
      inferInstanceAs (Decidable (Admits ref op ∧
        Admissible (step t op).1 (refStep ref op (step t op).2) ops))

instance decidableMaximaHold : (t : Itree α) → (ops : List (Op α)) → Decidable (MaximaHold t ops)
  | _, [] => isTrue trivial
  | t, op :: ops =>
      have := decidableMaximaHold (step t op).1 ops
      inferInstanceAs (Decidable (MaxBounds t.shifts t.root ∧ MaximaHold (step t op).1 ops))

/-- What the lists of cells and links of a reachable tree satisfy. -/
structure Wf (next : Nat) (cs : List (Cell α)) (ls : List (Nat × Nat)) : Prop where
  sorted : KeysSorted cs
  nonempty : ∀ c ∈ cs, c.ins ≠ []
  fits : ∀ x ∈ live cs, x.ins.low = x.key.pos ∧ x.ins.low < x.ins.high
  locs : (cs.map Cell.loc).Nodup
  locs_lt : ∀ c ∈ cs, c.loc < next
  addrs : (ls.map Prod.fst).Nodup
  addrs_lt : ∀ a ∈ ls.map Prod.fst, a < next
  linked : Linked ls

def refOf (x : Stored α) : RefIv α :=
  ⟨x.loc, x.key.id, x.ins.low, x.ins.high, x.ins.value⟩

structure Inv (t : Itree α) (ref : List (RefIv α)) : Prop where
  log : LogOk t.shifts t.tstamp
  regular : Regular t.tstamp t.root
  wf : Wf t.next (cells t.shifts t.root) (links t.root)
  ref : ((live (cells t.shifts t.root)).map refOf).Perm ref

theorem inv_new : Inv (itreeNew : Itree α) [] where
  log := ⟨List.Pairwise.nil, by simp [itreeNew]⟩
  regular := trivial
  wf := ⟨List.Pairwise.nil, by simp [itreeNew, cells], by simp [itreeNew, cells],
    by simp [itreeNew, cells], by simp [itreeNew, cells], by simp [itreeNew, links],
    by simp [itreeNew, links], by simp [itreeNew, links, Linked]⟩
  ref := by simp [itreeNew, cells]

theorem Inv.sound {t : Itree α} {ref : List (RefIv α)} (h : Inv t ref)
    (hmax : MaxBounds t.shifts t.root) : Sound False t.shifts t.tstamp t.root :=
  ⟨hmax, False.elim, h.regular⟩

theorem Inv.mem_ref {t : Itree α} {ref : List (RefIv α)} (h : Inv t ref) {r : RefIv α} :
    r ∈ ref ↔ ∃ c ∈ cells t.shifts t.root, ∃ i ∈ c.ins,
      r = ⟨c.loc, c.key.id, c.key.pos, i.high, i.value⟩ := by
  rw [← h.ref.mem_iff, List.mem_map]
  constructor
  · rintro ⟨x, hx, rfl⟩
    obtain ⟨c, hc, hloc, hkey, hi⟩ := mem_live.mp hx
    refine ⟨c, hc, x.ins, hi, ?_⟩
    rw [refOf, (h.wf.fits x hx).1, ← hloc, ← hkey]
  · rintro ⟨c, hc, i, hi, rfl⟩
    have hx : (⟨c.loc, c.key, i⟩ : Stored α) ∈ live (cells t.shifts t.root) :=
      mem_live.mpr ⟨c, hc, rfl, rfl, hi⟩
    refine ⟨_, hx, ?_⟩
    have hlow : i.low = c.key.pos := (h.wf.fits _ hx).1
    simp only [refOf, hlow]

theorem Wf.same_contents {t t' : IvTree α} {shifts : List IvShift} {now next : Nat}
    (h : Wf next (cells shifts t) (links t)) (hs : SameContents shifts now t t') :
    Wf next (cells shifts t') (links t') := by
  rw [hs.cells, hs.links]
  exact h

theorem keysSorted_insert {pre post : List (Cell α)} {c : Cell α}
    (h : KeysSorted (pre ++ post)) (hpre : ∀ d ∈ pre, ivKeyCmp d.key c.key = .lt)
    (hpost : ∀ d ∈ post, ivKeyCmp c.key d.key = .lt) : KeysSorted (pre ++ c :: post) := by
  rw [KeysSorted, List.pairwise_append] at h ⊢
  refine ⟨h.1, List.pairwise_cons.mpr ⟨hpost, h.2.1⟩, ?_⟩
  intro a ha b hb
  rcases List.mem_cons.mp hb with rfl | hb
  · exact hpre a ha
  · exact h.2.2 a ha b hb

theorem Wf.added {next loc : Nat} {cs cs' : List (Cell α)} {ls ls' : List (Nat × Nat)}
    {key : IvKey} {high : Int} {value : α} (h : Wf next cs ls) (hhigh : key.pos < high)
    (ha : Added key ⟨key.pos, high, value⟩ next cs ls cs' ls' loc) :
    Wf (next + 1) cs' ls' := by
  cases ha with
  | fresh pre post lpre lpost hcs hls hpre hpost =>
      subst hcs hls
      have hlocs := h.locs
      have haddrs := h.addrs
      have hfits := h.fits
      rw [live_append] at hfits
      refine ⟨keysSorted_insert h.sorted hpre hpost, ?_, ?_, ?_, ?_, ?_, ?_, ?_⟩
      · intro c hc
        rcases List.mem_append.mp hc with hc | hc
        · exact h.nonempty c (by simp [hc])
        · rcases List.mem_cons.mp hc with rfl | hc
          · simp
          · exact h.nonempty c (by simp [hc])
      · intro x hx
        rw [live_append, live_cons] at hx
        simp only [List.map_cons, List.map_nil, List.mem_append, List.mem_singleton] at hx
        rcases hx with hx | rfl | hx
        · exact hfits x (by simp [hx])
        · exact ⟨rfl, hhigh⟩
        · exact hfits x (by simp [hx])
      · rw [List.map_append, List.map_cons, List.nodup_middle, ← List.map_append]
        refine List.nodup_cons.mpr ⟨?_, hlocs⟩
        rintro hmem
        obtain ⟨c, hc, heq⟩ := List.mem_map.mp hmem
        have hlt := h.locs_lt c hc
        simp only at heq
        omega
      · intro c hc
        rcases List.mem_append.mp hc with hc | hc
        · exact Nat.lt_succ_of_lt (h.locs_lt c (by simp [hc]))
        · rcases List.mem_cons.mp hc with rfl | hc
          · exact Nat.lt_succ_self _
          · exact Nat.lt_succ_of_lt (h.locs_lt c (by simp [hc]))
      · rw [List.map_append, List.map_cons, List.nodup_middle, ← List.map_append]
        exact List.nodup_cons.mpr ⟨fun hmem => absurd (h.addrs_lt _ hmem) (lt_irrefl _), haddrs⟩
      · intro a ha
        rw [List.map_append, List.map_cons, List.mem_append, List.mem_cons] at ha
        have hold : ∀ b, b ∈ lpre.map Prod.fst ∨ b ∈ lpost.map Prod.fst → b < next :=
          fun b hb => h.addrs_lt b (by rw [List.map_append, List.mem_append]; exact hb)
        rcases ha with ha | rfl | ha
        · exact Nat.lt_succ_of_lt (hold a (.inl ha))
        · exact Nat.lt_succ_self _
        · exact Nat.lt_succ_of_lt (hold a (.inr ha))
      · have hl := linked_append.mp h.linked
        exact linked_append.mpr ⟨hl.1, linked_cons.mpr ⟨rfl, hl.2⟩⟩
  | joined pre c post hcs hkey =>
      subst hcs
      have hfits := h.fits
      rw [live_append, live_cons] at hfits
      refine ⟨?_, ?_, ?_, ?_, ?_, h.addrs, fun a ha => Nat.lt_succ_of_lt (h.addrs_lt a ha),
        h.linked⟩
      · refine h.sorted.of_heads ?_
        simp [head]
      · intro d hd
        rcases List.mem_append.mp hd with hd | hd
        · exact h.nonempty d (by simp [hd])
        · rcases List.mem_cons.mp hd with rfl | hd
          · simp
          · exact h.nonempty d (by simp [hd])
      · intro x hx
        rw [live_append, live_cons] at hx
        simp only [List.map_append, List.map_cons, List.map_nil, List.mem_append,
          List.mem_singleton] at hx
        rcases hx with hx | (hx | rfl) | hx
        · exact hfits x (by simp [hx])
        · exact hfits x (by simp only [List.mem_append]; exact .inr (.inl hx))
        · exact ⟨congrArg IvKey.pos hkey.symm, hhigh⟩
        · exact hfits x (by simp [hx])
      · simpa using h.locs
      · intro d hd
        rcases List.mem_append.mp hd with hd | hd
        · exact Nat.lt_succ_of_lt (h.locs_lt d (by simp [hd]))
        · rcases List.mem_cons.mp hd with rfl | hd
          · exact Nat.lt_succ_of_lt (h.locs_lt c (by simp))
          · exact Nat.lt_succ_of_lt (h.locs_lt d (by simp [hd]))

theorem Added.live_perm {key : IvKey} {i : IvIns α} {fresh loc : Nat}
    {cs cs' : List (Cell α)} {ls ls' : List (Nat × Nat)}
    (h : Added key i fresh cs ls cs' ls' loc) :
    (live cs').Perm (live cs ++ [⟨loc, key, i⟩]) := by
  cases h with
  | fresh pre post lpre lpost hcs hls hpre hpost =>
      subst hcs
      simp only [live_append, live_cons, List.map_cons, List.map_nil, List.append_assoc]
      exact List.Perm.append_left _ List.perm_append_comm
  | joined pre c post hcs hkey =>
      subst hcs hkey
      simp only [live_append, live_cons, List.map_append, List.map_cons, List.map_nil,
        List.append_assoc]
      refine List.Perm.append_left _ (List.Perm.append_left _ ?_)
      exact List.perm_append_comm

theorem Wf.cell_ext {next : Nat} {cs : List (Cell α)} {ls : List (Nat × Nat)}
    (h : Wf next cs ls) {c d : Cell α} (hc : c ∈ cs) (hd : d ∈ cs)
    (heq : c.key = d.key ∨ c.loc = d.loc) : c = d := by
  rcases heq with heq | heq
  · have hkeys : (cs.map Cell.key).Nodup :=
      List.pairwise_map.mpr (h.sorted.imp fun hlt => ne_of_ivKeyCmp_lt hlt)
    exact List.inj_on_of_nodup_map hkeys hc hd heq
  · exact List.inj_on_of_nodup_map h.locs hc hd heq

theorem Wf.added_loc {next loc : Nat} {cs cs' : List (Cell α)} {ls ls' : List (Nat × Nat)}
    {key : IvKey} {i : IvIns α} (h : Wf next cs ls)
    (ha : Added key i next cs ls cs' ls' loc) {c : Cell α} (hc : c ∈ cs) :
    c.loc = loc ↔ c.key = key := by
  cases ha with
  | fresh pre post lpre lpost hcs hls hpre hpost =>
      have hlt := h.locs_lt c hc
      refine iff_of_false (by omega) ?_
      rw [hcs] at hc
      rcases List.mem_append.mp hc with hc | hc
      · exact ne_of_ivKeyCmp_lt (hpre c hc)
      · exact (ne_of_ivKeyCmp_lt (hpost c hc)).symm
  | joined pre d post hcs hkey =>
      have hd : d ∈ cs := by simp [hcs]
      constructor
      · intro hloc
        rw [h.cell_ext hc hd (.inr hloc), hkey]
      · intro heq
        rw [h.cell_ext hc hd (.inl (heq.trans hkey.symm))]

theorem step_add {t : Itree α} {ref : List (RefIv α)} (h : Inv t ref)
    (hmax : MaxBounds t.shifts t.root) {id low high : Int} (value : α) (hlt : low < high) :
    Agrees ref (.add id low high value) (step t (.add id low high value)).2 ∧
      Inv (step t (.add id low high value)).1
        (refStep ref (.add id low high value) (step t (.add id low high value)).2) := by
  obtain ⟨root, loc, heq, hsound, -, hadded⟩ := ivAdd_spec h.log t.next ⟨low, id⟩ high value
    (h.sound hmax) h.wf.sorted
  have hwf := h.wf.added hlt hadded
  have hstep : step t (.add id low high value) =
      ({ t with root := root, next := t.next + 1 }, .loc loc) := by
    simp only [step, stepWithin, itreeAdd, heq, Option.getD_some]
  rw [hstep]
  refine ⟨?_, h.log, hsound.regular, hwf, ?_⟩
  · intro r hr
    obtain ⟨c, hc, i, -, rfl⟩ := h.mem_ref.mp hr
    have hloc := h.wf.added_loc hadded hc
    constructor
    · intro heq
      have hkey := hloc.mp heq
      exact ⟨congrArg IvKey.id hkey, congrArg IvKey.pos hkey⟩
    · rintro ⟨hid, hpos⟩
      apply hloc.mpr
      cases hk : c.key
      simp_all
  · refine ((Added.live_perm hadded).map refOf).trans ?_
    rw [List.map_append]
    exact h.ref.append_right _

/-- An interval that does not overlap starts below the query or at its end. -/
theorem low_of_not_overlaps {i : IvIns α} {low high : Int} (hi : i.low < i.high)
    (hno : ivOverlaps i low high = false) : i.low < low ∨ high ≤ i.low := by
  simp only [ivOverlaps, Bool.and_eq_false_imp, decide_eq_true_eq, decide_eq_false_iff_not] at hno
  omega

theorem live_map_shiftCell (s : IvShift) (cs : List (Cell α)) :
    live (cs.map (shiftCell s)) = (live cs).map fun x =>
      if x.key.pos ≥ s.idx then
        ⟨x.loc, { x.key with pos := x.key.pos + s.amt },
          { x.ins with low := x.ins.low + s.amt, high := x.ins.high + s.amt }⟩
      else x := by
  induction cs with
  | nil => rfl
  | cons c cs ih =>
      rw [List.map_cons, live_cons, live_cons, List.map_append, ih, shiftCell]
      by_cases hge : c.key.pos ≥ s.idx
      · rw [if_pos hge]
        simp [hge, Function.comp_def]
      · rw [if_neg hge]
        simp only [List.map_map, Function.comp_def, hge, if_false]

theorem Wf.shifted {next : Nat} {cs : List (Cell α)} {ls : List (Nat × Nat)}
    (h : Wf next cs ls) {low high amt : Int} (hle : low ≤ high) (hamt : -(high - low) ≤ amt)
    (hno : ∀ x ∈ live cs, ivOverlaps x.ins low high = false) (tstamp : Nat) :
    Wf next (cs.map (shiftCell ⟨low, amt, tstamp⟩)) ls := by
  have hpos : ∀ c ∈ cs, c.key.pos < low ∨ high ≤ c.key.pos := by
    intro c hc
    obtain ⟨i, hi⟩ := List.exists_mem_of_ne_nil _ (h.nonempty c hc)
    have hx : (⟨c.loc, c.key, i⟩ : Stored α) ∈ live cs := mem_live.mpr ⟨c, hc, rfl, rfl, hi⟩
    obtain ⟨hlow, hlt⟩ := h.fits _ hx
    have := low_of_not_overlaps hlt (hno _ hx)
    simp only at hlow this
    omega
  have hloc : ∀ c : Cell α, (shiftCell ⟨low, amt, tstamp⟩ c).loc = c.loc := by
    intro c
    unfold shiftCell
    split <;> rfl
  refine ⟨?_, ?_, ?_, ?_, ?_, h.addrs, h.addrs_lt, h.linked⟩
  · rw [KeysSorted, List.pairwise_map]
    refine h.sorted.imp_of_mem ?_
    intro a b ha hb hlt
    have hpa := hpos a ha
    have hpb := hpos b hb
    rw [ivKeyCmp_lt] at hlt ⊢
    unfold shiftCell
    split
    · split <;> (simp only at *; omega)
    · split <;> (simp only at *; omega)
  · intro c hc
    obtain ⟨d, hd, rfl⟩ := List.mem_map.mp hc
    have := h.nonempty d hd
    unfold shiftCell
    split
    · simpa using this
    · exact this
  · intro x hx
    rw [live_map_shiftCell] at hx
    obtain ⟨y, hy, rfl⟩ := List.mem_map.mp hx
    obtain ⟨hlow, hlt⟩ := h.fits y hy
    split
    · simp only
      omega
    · exact ⟨hlow, hlt⟩
  · rw [List.map_map, show Cell.loc ∘ shiftCell ⟨low, amt, tstamp⟩ = (Cell.loc : Cell α → Nat) from
      funext hloc]
    exact h.locs
  · intro c hc
    obtain ⟨d, hd, rfl⟩ := List.mem_map.mp hc
    rw [hloc]
    exact h.locs_lt d hd

theorem Wf.cleared {F : Prop} {shifts : List IvShift} {now next : Nat} {low high : Int} {t t' : IvTree α}
    {evicted : List (IvIns α)} (h : Wf next (cells shifts t) (links t))
    (hc : Cleared F shifts now low high t t' evicted) :
    Wf next (cells shifts t') (links t') := by
  have hlocs : ((cells shifts t').map Cell.loc).Sublist ((cells shifts t).map Cell.loc) := by
    have := hc.heads.map Prod.snd
    simpa [List.map_map, Function.comp_def, head] using this
  refine ⟨h.sorted.of_heads hc.heads, hc.nonempty h.nonempty, ?_, hlocs.nodup h.locs, ?_,
    hc.addrs.nodup h.addrs, fun a ha => h.addrs_lt a (hc.addrs.subset ha),
    hc.linked h.linked⟩
  · intro x hx
    exact h.fits x (List.mem_of_mem_filter (hc.live.mem_iff.mp hx))
  · intro c hc'
    have hmem := hlocs.subset (List.mem_map_of_mem hc')
    obtain ⟨d, hd, heq⟩ := List.mem_map.mp hmem
    rw [← heq]
    exact h.locs_lt d hd

theorem step_removeAndShift {t : Itree α} {ref : List (RefIv α)} (h : Inv t ref)
    (hmax : MaxBounds t.shifts t.root) {low high amt : Int} (hle : low ≤ high)
    (hamt : -(high - low) ≤ amt) :
    Agrees ref (.removeAndShift low high amt) (step t (.removeAndShift low high amt)).2 ∧
      Inv (step t (.removeAndShift low high amt)).1
        (refStep ref (.removeAndShift low high amt)
          (step t (.removeAndShift low high amt)).2) := by
  obtain ⟨root, evicted, heq, hc⟩ := ivRemoveOverlaps_spec h.log low high (h.sound hmax)
    h.wf.sorted (fun x hx => (h.wf.fits x hx).1)
  have hwf := h.wf.cleared hc
  have hno : ∀ x ∈ live (cells t.shifts root), ivOverlaps x.ins low high = false := by
    intro x hx
    simpa using List.of_mem_filter (hc.live.mem_iff.mp hx)
  have hstep : step t (.removeAndShift low high amt) =
      (ivRecordShift { t with root := root } low amt, .evicted evicted) :=
    step_removeAndShift_eq heq
  have hkept : ((live (cells t.shifts root)).map refOf).Perm
      (ref.filter fun r => !ivOverlaps r.ins low high) := by
    refine (hc.live.map _).trans ?_
    refine List.Perm.trans (List.Perm.of_eq ?_) (h.ref.filter _)
    rw [List.filter_map]
    rfl
  have hshift : ∀ x ∈ live (cells t.shifts root), RefIv.shift low amt (refOf x) =
      refOf (if x.key.pos ≥ low then
        ⟨x.loc, { x.key with pos := x.key.pos + amt },
          { x.ins with low := x.ins.low + amt, high := x.ins.high + amt }⟩
      else x) := by
    intro x hx
    have hlow := (hwf.fits x hx).1
    by_cases hge : x.key.pos ≥ low
    · rw [if_pos hge, RefIv.shift, if_pos (by rwa [refOf, hlow])]
      rfl
    · rw [if_neg hge, RefIv.shift, if_neg (by rwa [refOf, hlow])]
  rw [hstep]
  refine ⟨?_, ?_⟩
  · refine hc.evicted.trans ?_
    refine List.Perm.trans (List.Perm.of_eq ?_) ((h.ref.filter _).map _)
    rw [List.filter_map, List.map_map]
    rfl
  · have hmap := hkept.map (RefIv.shift low amt)
    rw [List.map_map] at hmap
    simp only [refStep, ivRecordShift]
    split
    · next hzero =>
        refine ⟨h.log, hc.sound.regular, hwf, ?_⟩
        refine List.Perm.trans (List.Perm.of_eq (List.map_congr_left ?_)) hmap
        intro x hx
        rw [Function.comp_apply, hshift x hx, hzero]
        simp
    · refine ⟨LogOk.record h.log low amt, Regular.mono hc.sound.regular (Nat.le_succ _), ?_, ?_⟩
      · rw [cells_append_shift hc.sound.regular (Nat.lt_succ_self _)]
        exact hwf.shifted hle hamt hno _
      · rw [cells_append_shift hc.sound.regular (Nat.lt_succ_self _), live_map_shiftCell,
          List.map_map]
        refine List.Perm.trans (List.Perm.of_eq (List.map_congr_left ?_)) hmap
        intro x hx
        rw [Function.comp_apply, Function.comp_apply, hshift x hx]

theorem Inv.removeAndShift {t : Itree α} {ref : List (RefIv α)} (h : Inv t ref)
    (hmax : MaxBounds t.shifts t.root) {low high amt : Int} (hle : low ≤ high)
    (hamt : -(high - low) ≤ amt) :
    ∃ s evicted, (∀ fuel, ivNodes t.root < fuel →
        itreeRemoveAndShift fuel t low high amt = some (s, evicted)) ∧
      evicted.Perm ((ref.filter fun r => ivOverlaps r.ins low high).map RefIv.ins) ∧
      Inv s ((ref.filter fun r => !ivOverlaps r.ins low high).map (RefIv.shift low amt)) := by
  obtain ⟨root, evicted, heq, -⟩ := ivRemoveOverlaps_spec h.log low high (h.sound hmax)
    h.wf.sorted (fun x hx => (h.wf.fits x hx).1)
  have hstep := step_removeAndShift h hmax hle hamt
  rw [step_removeAndShift_eq heq] at hstep
  refine ⟨_, evicted, fun fuel hfuel => ?_, hstep.1, hstep.2⟩
  rw [itreeRemoveAndShift, heq fuel hfuel]
  rfl

theorem foldl_longest (is : List (IvIns α)) (i : IvIns α) :
    (is.foldl (fun best j => if j.high - j.low > best.high - best.low then j else best) i ∈
        i :: is) ∧
      ∀ j ∈ i :: is, j.high - j.low ≤
        (is.foldl (fun best j => if j.high - j.low > best.high - best.low then j else best)
            i).high -
          (is.foldl (fun best j => if j.high - j.low > best.high - best.low then j else best)
            i).low := by
  induction is generalizing i with
  | nil => simp
  | cons k is ih =>
      simp only [List.foldl_cons]
      split
      · next hgt =>
          obtain ⟨hmem, hle⟩ := ih k
          refine ⟨List.mem_cons_of_mem _ hmem, ?_⟩
          rintro j (_ | ⟨_, hj⟩)
          · exact hgt.le.trans (hle k (by simp))
          · exact hle j hj
      · next hgt =>
          obtain ⟨hmem, hle⟩ := ih i
          refine ⟨?_, ?_⟩
          · rcases List.mem_cons.mp hmem with hmem | hmem
            · rw [hmem]
              simp
            · exact List.mem_cons_of_mem _ (List.mem_cons_of_mem _ hmem)
          · intro j hj
            rcases List.mem_cons.mp hj with rfl | hj
            · exact hle j (by simp)
            · rcases List.mem_cons.mp hj with rfl | hj
              · exact (not_lt.mp hgt).trans (hle i (by simp))
              · exact hle j (by simp [hj])

theorem ivLargest_spec {is : List (IvIns α)} (hne : is ≠ []) :
    ∃ i ∈ is, ivLargest is = some i ∧ ∀ j ∈ is, j.high - j.low ≤ i.high - i.low := by
  cases is with
  | nil => exact absurd rfl hne
  | cons i is =>
      obtain ⟨hmem, hle⟩ := foldl_longest is i
      exact ⟨_, hmem, rfl, hle⟩

theorem step_findLargest {t : Itree α} {ref : List (RefIv α)} (h : Inv t ref)
    (hmax : MaxBounds t.shifts t.root) (id pos : Int) :
    Agrees ref (.findLargest id pos) (step t (.findLargest id pos)).2 ∧
      Inv (step t (.findLargest id pos)).1 ref := by
  obtain ⟨root, found, heq, hv, hfound⟩ := ivSearch_spec h.log ⟨pos, id⟩ (h.sound hmax)
    h.wf.sorted
  have hstep : step t (.findLargest id pos) = ({ t with root := root },
      .found (found.bind fun n => (ivLargest n.iv.ins).map IvIns.value)) := by
    simp only [step, stepWithin, itreeFindLargest, heq, Option.getD_some]
  have hinv : Inv { t with root := root } ref := by
    refine ⟨h.log, hv.sound.regular, ?_, ?_⟩
    · rw [hv.cells, hv.links]
      exact h.wf
    · rw [hv.cells]
      exact h.ref
  rw [hstep]
  refine ⟨?_, hinv⟩
  cases found with
  | none =>
      rintro r hr ⟨hid, hlow⟩
      obtain ⟨c, hc, i, -, rfl⟩ := h.mem_ref.mp hr
      apply hfound c hc
      cases hk : c.key
      simp_all
  | some n =>
      obtain ⟨i, hi, hlargest, hle⟩ := ivLargest_spec (h.wf.nonempty _ hfound)
      simp only at hi hle hlargest
      rw [show (Option.bind (some n) fun n => (ivLargest n.iv.ins).map IvIns.value) =
        some i.value by simp [hlargest]]
      have hlow : ∀ j ∈ n.iv.ins, j.low = pos := fun j hj =>
        (h.wf.fits ⟨n.iv.loc, ⟨pos, id⟩, j⟩ (mem_live.mpr ⟨_, hfound, rfl, rfl, hj⟩)).1
      refine ⟨⟨n.iv.loc, id, pos, i.high, i.value⟩, h.mem_ref.mpr ⟨_, hfound, i, hi, rfl⟩,
        rfl, rfl, rfl, ?_⟩
      intro q hq hqid hqlow
      obtain ⟨d, hd, j, hj, rfl⟩ := h.mem_ref.mp hq
      have hkey : d.key = ⟨pos, id⟩ := by
        cases hk : d.key
        simp_all
      obtain rfl := h.wf.cell_ext hd hfound (.inl hkey)
      have := hle j hj
      rw [hlow j hj, hlow i hi] at this
      exact this

theorem Inv.same_contents {t : Itree α} {ref : List (RefIv α)} (h : Inv t ref)
    {root : IvTree α} (hs : SameContents t.shifts t.tstamp t.root root) :
    Inv { t with root := root } ref := by
  refine ⟨h.log, hs.regular, h.wf.same_contents hs, ?_⟩
  rw [hs.cells]
  exact h.ref

theorem ivSize_eq_length (shifts : List IvShift) (t : IvTree α) :
    ivSize t = (live (cells shifts t)).length := by
  induction t with
  | nil => rfl
  | node n l r ihl ihr =>
      simp only [ivSize, cells, live_append, live_cons, List.length_append, List.length_map, ihl,
        ihr, cell, ivGroupShift]
      omega

theorem step_size {t : Itree α} {ref : List (RefIv α)} (h : Inv t ref) :
    Agrees ref .size (step t .size).2 := by
  have hlen := h.ref.length_eq
  rw [List.length_map] at hlen
  exact (ivSize_eq_length t.shifts t.root).trans hlen

theorem keysSorted_live {cs : List (Cell α)} (h : KeysSorted cs) :
    (live cs).Pairwise fun a b => ivKeyCmp a.key b.key ≠ .gt := by
  induction cs with
  | nil => exact List.Pairwise.nil
  | cons c cs ih =>
      obtain ⟨hc, hcs⟩ := List.pairwise_cons.mp h
      rw [live_cons, List.pairwise_append]
      refine ⟨?_, ih hcs, ?_⟩
      · rw [List.pairwise_map]
        refine List.pairwise_of_forall ?_
        simp [ivKeyCmp]
      · intro a ha b hb
        obtain ⟨i, -, rfl⟩ := List.mem_map.mp ha
        obtain ⟨d, hd, -, hkey, -⟩ := mem_live.mp hb
        rw [← hkey]
        simp [hc d hd]

theorem step_each {t : Itree α} {ref : List (RefIv α)} (h : Inv t ref)
    (hmax : MaxBounds t.shifts t.root) :
    Agrees ref .each (step t .each).2 ∧ Inv (step t .each).1 ref := by
  obtain ⟨root, out, heq, hs, hout⟩ := ivEach_spec h.log (MaxBounds.reach hmax) h.regular
  have hstep : step t .each = ({ t with root := root }, .each out) := by
    simp only [step, stepWithin, itreeEach, heq, Option.getD_some]
  rw [hstep]
  refine ⟨⟨?_, ?_, ?_⟩, h.same_contents hs⟩
  · rw [hout, List.pairwise_map]
    exact keysSorted_live h.wf.sorted
  · intro x hx
    rw [hout] at hx
    obtain ⟨y, hy, rfl⟩ := List.mem_map.mp hx
    exact (h.wf.fits y hy).1.symm
  · rw [hout, List.map_map]
    refine List.Perm.trans (List.Perm.of_eq ?_) (h.ref.map fun r => (r.id, r.ins))
    rw [List.map_map]
    rfl

theorem step_locPos {t : Itree α} {ref : List (RefIv α)} (h : Inv t ref)
    (hmax : MaxBounds t.shifts t.root) {loc : Nat} (hloc : ∃ r ∈ ref, r.loc = loc) :
    Agrees ref (.locPos loc) (step t (.locPos loc)).2 ∧ Inv (step t (.locPos loc)).1 ref := by
  have hnode : ∃ n ∈ nodes t.root, n.iv.loc = loc := by
    obtain ⟨r, hr, rfl⟩ := hloc
    obtain ⟨c, hc, i, -, rfl⟩ := h.mem_ref.mp hr
    rw [cells_eq_map] at hc
    obtain ⟨n, hn, rfl⟩ := List.mem_map.mp hc
    exact ⟨n, hn, rfl⟩
  obtain ⟨n, hn, hnloc, hgroup⟩ := ivGroupNode_spec hnode
  obtain ⟨hs, hnone, hsome⟩ := ivApplyAt_spec h.log n.iv.node
    (MaxBounds.reach hmax) h.regular
  have hlinks := h.wf.linked
  have haddrs := h.wf.addrs
  rw [links_eq_map] at hlinks haddrs
  have hself : n.iv.node = n.addr := hlinks _ (List.mem_map_of_mem hn)
  have hstep : step t (.locPos loc) =
      ({ t with root := (ivApplyAt t.shifts n.iv.node t.root).1 },
        .pos ((ivApplyAt t.shifts n.iv.node t.root).2.map fun m => m.key.pos)) := by
    simp only [step, stepWithin, itreeLocPos, hgroup, Option.getD_some]
  rw [hstep]
  refine ⟨?_, h.same_contents hs⟩
  intro r hr hrloc
  cases hfound : (ivApplyAt t.shifts n.iv.node t.root).2 with
  | none => exact absurd hself.symm (hnone hfound n hn)
  | some m =>
      obtain ⟨k, hk, hka, hkey⟩ := hsome m hfound
      have hkn : k = n := by
        rw [List.map_map] at haddrs
        exact List.inj_on_of_nodup_map haddrs hk hn (hka.trans hself)
      obtain ⟨c, hc, i, -, rfl⟩ := h.mem_ref.mp hr
      have hcn : c = cell t.shifts n := by
        refine h.wf.cell_ext hc ?_ (.inr ?_)
        · rw [cells_eq_map]
          exact List.mem_map_of_mem hn
        · exact (show c.loc = loc from hrloc).trans hnloc.symm
      rw [Option.map_some, hkey, hkn, hcn]

theorem step_applyAllShifts {t : Itree α} {ref : List (RefIv α)} (h : Inv t ref)
    (hmax : MaxBounds t.shifts t.root) : Inv (step t .applyAllShifts).1 ref := by
  obtain ⟨hs, hcur⟩ := ivApplyAll_spec h.log (MaxBounds.reach hmax) h.regular
  have hcells : cells [] (ivApplyAll t.shifts t.root) = cells t.shifts t.root :=
    hcur.cells_nil.trans hs.cells
  refine ⟨⟨List.Pairwise.nil, by simp [step, stepWithin, itreeApplyAllShifts]⟩, hs.regular, ?_, ?_⟩
  · simp only [step, stepWithin, Option.getD_some, itreeApplyAllShifts, hcells, hs.links]
    exact h.wf
  · simp only [step, stepWithin, Option.getD_some, itreeApplyAllShifts, hcells]
    exact h.ref

theorem step_agrees {t : Itree α} {ref : List (RefIv α)} (h : Inv t ref)
    (hmax : MaxBounds t.shifts t.root) {op : Op α} (hop : Admits ref op) :
    Agrees ref op (step t op).2 ∧ Inv (step t op).1 (refStep ref op (step t op).2) := by
  cases op with
  | add id low high value => exact step_add h hmax value hop
  | removeAndShift low high amt => exact step_removeAndShift h hmax hop.1 hop.2
  | findLargest id pos => exact step_findLargest h hmax id pos
  | size => exact ⟨step_size h, h⟩
  | each => exact step_each h hmax
  | locPos loc => exact step_locPos h hmax hop
  | applyAllShifts => exact ⟨trivial, step_applyAllShifts h hmax⟩

theorem refines_of_inv {t : Itree α} {ref : List (RefIv α)} (h : Inv t ref)
    {ops : List (Op α)} (hadm : Admissible t ref ops) (hmax : MaximaHold t ops) :
    Refines t ref ops := by
  induction ops generalizing t ref with
  | nil => trivial
  | cons op ops ih =>
      obtain ⟨hagree, hinv⟩ := step_agrees h hmax.1 hadm.1
      exact ⟨hagree, ih hinv hadm.2 hmax.2⟩

/-- In every run from the empty tree whose maxima are bounds before each
operation, all observations are those of the reference list. -/
theorem itree_refines_list (ops : List (Op α)) (hadm : Admissible itreeNew [] ops)
    (hmax : MaximaHold itreeNew ops) : Refines itreeNew [] ops :=
  refines_of_inv inv_new hadm hmax

/-- A run with two pending shifts, one of them negative. -/
def shiftedRun : List (Op Nat) :=
  [.add 1 5 6 0, .add 1 1 2 1, .add 1 6 7 2, .add 2 6 11 3, .add 1 17 20 4,
    .removeAndShift 2 3 4, .removeAndShift 12 16 (-3), .removeAndShift 3 3 100,
    .findLargest 1 109, .each, .size, .locPos 0, .applyAllShifts]

theorem itree_refines_list_shiftedRun :
    Admissible itreeNew [] shiftedRun ∧ MaximaHold itreeNew shiftedRun ∧
      Refines itreeNew [] shiftedRun :=
  ⟨by decide, by decide, itree_refines_list shiftedRun (by decide) (by decide)⟩

/-- The negative shift makes the maximum of the node at 6 too small, which then
skips the next shift although its key is in range of it. -/
def skippedShiftRun : List (Op Nat) :=
  [.add 1 5 6 0, .add 1 1 2 1, .add 1 6 7 2, .add 1 6 11 3, .add 1 7 10 4,
    .removeAndShift 10 20 (-10), .removeAndShift 3 3 100, .findLargest 1 106]

theorem itree_not_refines_list :
    ¬∀ ops : List (Op Nat), Admissible itreeNew [] ops → Refines itreeNew [] ops := by
  intro h
  have hrun : Agrees _ (.findLargest 1 106) (.found none) :=
    (h skippedShiftRun (by decide)).2.2.2.2.2.2.2.1
  exact hrun ⟨2, 1, 106, 107, 2⟩ (by decide) ⟨rfl, rfl⟩

end Libpeg.IntervalRefinement
