import Libpeg.Anchoring

namespace Libpeg.Survival

open Libpeg.Charset Libpeg.Opcode Libpeg.Code Libpeg.Pattern Libpeg.Compile
open Libpeg.IntervalTree Libpeg.IntervalCells Libpeg.IntervalOps Libpeg.IntervalRefinement
open Libpeg.IntervalHandles Libpeg.Memo Libpeg.Input Libpeg.Vm Libpeg.Peg Libpeg.MemoView
open Libpeg.Simulation Libpeg.RunSimulation Libpeg.Relocation Libpeg.Session Libpeg.Anchoring

/-- The byte of a text at a position; there is none past its end. -/
def byteAt (buf : List UInt8) (i : Int) : Option UInt8 :=
  if 0 ≤ i then buf[i.toNat]? else none

theorem byteAt_of_nonneg (buf : List UInt8) {i : Int} (h : 0 ≤ i) :
    byteAt buf i = buf[i.toNat]? :=
  if_pos h

theorem byteAt_splice_lt {buf text : List UInt8} {start stop : Nat} {i : Int}
    (hstart : start ≤ buf.length) (hi : i < start) :
    byteAt (splice buf start stop text) i = byteAt buf i := by
  unfold byteAt
  split
  · have hlt : i.toNat < (buf.take start).length := by
      rw [List.length_take]
      omega
    rw [splice, List.append_assoc, List.getElem?_append_left hlt,
      List.getElem?_take_of_lt (by omega)]
  · rfl

theorem byteAt_splice_ge {buf text : List UInt8} {start stop : Nat} {i : Int}
    (hle : start ≤ stop) (hstop : stop ≤ buf.length) (hi : (stop : Int) ≤ i) :
    byteAt (splice buf start stop text) (i + (text.length - (stop - start))) = byteAt buf i := by
  have hlen : (buf.take start ++ text).length = start + text.length := by
    rw [List.length_append, List.length_take]
    omega
  rw [byteAt_of_nonneg _ (by omega), byteAt_of_nonneg _ (by omega), splice,
    List.getElem?_append_right (by omega), List.getElem?_drop, hlen]
  congr 1
  omega

variable {m : Mem} {t : MemoTable} {ref : List (RefIv Nat)} {p : Nat → Int}

theorem overlaps_iff (r : RefIv Nat) (low high : Int) :
    ivOverlaps r.ins low high = true ↔ r.low < high ∧ r.high > low := by
  rw [ivOverlaps, Bool.and_eq_true, decide_eq_true_iff, decide_eq_true_iff]
  rfl

theorem survives_cases {edit : MemoEdit} {r : RefIv Nat} (hle : edit.start ≤ edit.stop)
    (h : ivOverlaps r.ins edit.start (editHigh edit) = false) (hlt : r.low < r.high) :
    r.high ≤ edit.start ∧ r.low < edit.start ∨ edit.stop ≤ r.low ∧ edit.start ≤ r.low := by
  have hapart : ¬(r.low < editHigh edit ∧ r.high > edit.start) := by
    rw [← overlaps_iff, h]
    decide
  unfold editHigh at hapart
  split at hapart <;> omega

/-- The text at an interval is the text at the interval of the snapshot. -/
def Describes (buf : List UInt8) (snap : Snapshot) (r : RefIv Nat) : Prop :=
  ∀ i : Int, 0 ≤ i → i < r.high - r.low →
    byteAt buf (r.low + i) = byteAt snap.subject ((memoEntryPos snap.mem snap.tbl r.value).2 + i)

theorem Describes.edit {buf : List UInt8} {snap : Snapshot} {r : RefIv Nat} {start stop : Int}
    {text : List UInt8} (h : Describes buf snap r) (hstart : 0 ≤ start) (hle : start ≤ stop)
    (hstop : stop ≤ buf.length) (hlt : r.low < r.high)
    (hsurv : ivOverlaps r.ins start (editHigh ⟨start, stop, text.length⟩) = false) :
    Describes (splice buf start.toNat stop.toNat text) snap
      (RefIv.shift start (editAmt ⟨start, stop, text.length⟩) r) := by
  have hcases := @survives_cases ⟨start, stop, text.length⟩ r hle hsurv hlt
  simp only at hcases
  rcases hcases with ⟨hhigh, hlow⟩ | ⟨hlow, hlow'⟩
  · have hshift : RefIv.shift start (editAmt ⟨start, stop, text.length⟩) r = r := by
      unfold RefIv.shift
      rw [if_neg (by omega)]
    rw [hshift]
    intro i hi hlen
    rw [byteAt_splice_lt (by omega) (by omega)]
    exact h i hi hlen
  · have hshift : RefIv.shift start (editAmt ⟨start, stop, text.length⟩) r =
        { r with
          low := r.low + editAmt ⟨start, stop, text.length⟩
          high := r.high + editAmt ⟨start, stop, text.length⟩ } := by
      unfold RefIv.shift
      rw [if_pos (by omega)]
    rw [hshift]
    intro i hi hlen
    simp only at hlen ⊢
    have hmove := @byteAt_splice_ge buf text start.toNat stop.toNat (r.low + i) (by omega)
      (by omega) (by omega)
    rw [← h i hi (by omega), ← hmove]
    congr 1
    simp only [editAmt]
    omega

/-- Every stored entry has a snapshot with a property. -/
def Recorded (Q : RefIv Nat → Snapshot → Prop) (ref : List (RefIv Nat))
    (stored : List Snapshot) : Prop :=
  ∀ r ∈ ref, ∃ snap, stored[r.value]? = some snap ∧ Q r snap

/-- A call that executes the program: the entries that were there keep their
snapshots, the new ones get theirs. -/
theorem Recorded.exec {g g' : Peg} {low high : Int} {fuel : Nat} {r : VmResult}
    {stored : List Snapshot} {Q : RefIv Nat → Snapshot → Prop}
    (hlen : stored.length = g.mem.entries.length) (hrec : Recorded Q ref stored)
    (hok : MemoOk g.mem (some g.tbl) ref p)
    (hrun : pegExec fuel g low high = some (.ok (r, g'))) :
    ∃ ref' p', MemoOk g'.mem (some g'.tbl) ref' p' ∧ g'.buf = g.buf ∧
      (stored ++ pegSnapshots fuel g low high).length = g'.mem.entries.length ∧ view g.mem p <+: view g'.mem p' ∧
      g.mem.entries <+: g'.mem.entries ∧
      ∀ Q' : RefIv Nat → Snapshot → Prop, (∀ q ∈ ref, ∀ snap, Q q snap → Q' q snap) →
        (∀ q ∈ ref', ∀ snap, Taken snap g.buf g'.mem p' q → Q' q snap) →
        Recorded Q' ref' (stored ++ pegSnapshots fuel g low high) := by
  obtain ⟨ref₀, ref', p', hok', hsub, hgrown, hbuf, -, hsnaps, hsnap⟩ := pegExec_ok hok hrun
  have hle := hgrown.entries.length_le
  refine ⟨ref', p', hok', hbuf, by rw [List.length_append, hlen, hsnaps]; omega, hgrown.view,
    hgrown.entries, ?_⟩
  intro Q' hold hnew q hq
  by_cases hlt : q.value < g.mem.entries.length
  · have hq' := hsub (hgrown.mem_old hq hlt)
    obtain ⟨snap, hget, hQ⟩ := hrec q hq'
    refine ⟨snap, ?_, hold q hq' snap hQ⟩
    rw [List.getElem?_append_left (by omega), hget]
  · obtain ⟨snap, hget, htaken⟩ := hsnap q hq (by omega)
    refine ⟨snap, ?_, hnew q hq snap htaken⟩
    rw [List.getElem?_append_right (by omega), hlen, hget]

theorem interval_nonempty {t : MemoTable} (h : IntervalRefinement.Inv t.tree ref) {r : RefIv Nat}
    (hr : r ∈ ref) : r.low < r.high := by
  obtain ⟨x, hx, rfl⟩ := List.mem_map.mp (h.ref.mem_iff.mpr hr)
  exact (h.wf.fits x hx).2

section Text

variable {code : VmCode} {threshold : Int} {s : PegSession}

/-- What holds between an entry and its snapshot when it is stored, and is kept by
whatever does not move it and by every edit that it survives, holds in every
session. -/
theorem session_recorded {P : Peg → PegOp → Prop}
    {Q : Peg → (Nat → Int) → RefIv Nat → Snapshot → Prop}
    (hbounded : ∀ g op, P g op → Bounded g.tbl)
    (hnew : ∀ (g : Peg) (ref : List (RefIv Nat)) (p : Nat → Int) (r : RefIv Nat)
      (snap : Snapshot), MemoOk g.mem (some g.tbl) ref p → Taken snap g.buf g.mem p r → Q g p r snap)
    (hkeep : ∀ (g g' : Peg) (ref : List (RefIv Nat)) (p p' : Nat → Int) (r : RefIv Nat)
      (snap : Snapshot), MemoOk g.mem (some g.tbl) ref p → r ∈ ref → g'.buf = g.buf →
      view g.mem p <+: view g'.mem p' → g.mem.entries <+: g'.mem.entries → Q g p r snap →
      Q g' p' r snap)
    (hedit : ∀ (fuel : Nat) (g g' : Peg) (start stop : Int) (text : List UInt8)
      (ref : List (RefIv Nat)) (p : Nat → Int) (r : RefIv Nat) (snap : Snapshot),
      P g (.edit start stop text) → pegEdit fuel g start stop text = some (.ok g') → MemoOk g.mem (some g.tbl) ref p → r ∈ ref →
      ivOverlaps r.ins start (editHigh ⟨start, stop, text.length⟩) = false → Q g p r snap →
      Q g' (editPos ref ⟨start, stop, text.length⟩ p)
        (RefIv.shift start (editAmt ⟨start, stop, text.length⟩) r) snap)
    (h : SessionRun P code threshold s) :
    s.stored.length = s.peg.mem.entries.length ∧
      (Bounded s.peg.tbl → ∃ ref p, MemoOk s.peg.mem (some s.peg.tbl) ref p ∧
        Recorded (Q s.peg p) ref s.stored) := by
  induction h with
  | new =>
      exact ⟨rfl, fun _ => ⟨[], fun _ => 0, memoOk_new threshold, fun _ hr => absurd hr (by simp)⟩⟩
  | @exec s op g g' low high fuel r h hP hop hrun ih =>
      obtain ⟨ref, p, hok, hrec⟩ := ih.2 (hbounded _ _ hP)
      obtain ⟨ref₁, hok₁, hents, -, hcase⟩ := execArgs_ok hok hop
      have hrec₁ : Recorded (Q g p) ref₁ s.stored := by
        rcases hcase with rfl | ⟨rfl, rfl⟩
        · exact fun _ hr => absurd hr (by simp)
        · exact hrec
      obtain ⟨ref', p', hok', hbuf, hlen, hview, hentries, hrec'⟩ :=
        Recorded.exec (by rw [ih.1, hents]) hrec₁ hok₁ hrun
      refine ⟨hlen, fun _ => ⟨ref', p', hok', hrec' _ ?_ ?_⟩⟩
      · exact fun q hq snap => hkeep g g' ref₁ p p' q snap hok₁ hq hbuf hview hentries
      · exact fun q _ snap htaken => hnew g' ref' p' q snap hok' (hbuf ▸ htaken)
  | @edit s start stop text fuel g h hP hg ih =>
      obtain ⟨ref, p, hok, hrec⟩ := ih.2 (hbounded _ _ hP)
      obtain ⟨hstart, hle, hstop, m, t, happly, hgeq⟩ := pegEdit_cases hg
      have hlen : 0 ≤ (⟨start, stop, text.length⟩ : MemoEdit).len := Int.natCast_nonneg _
      obtain ⟨m', t', heq, -, -, hents, -, -, -, hok'⟩ := hok.edit hle hlen
      cases memoTableApplyEdit_unique happly (heq _ (Nat.lt_succ_self _))
      have hmem : g.mem = m := by rw [hgeq]
      have htbl : g.tbl = t := by rw [hgeq]
      simp only [hmem, htbl]
      refine ⟨by rw [hents]; exact ih.1, fun hmax => ⟨_, _, hok' hmax, ?_⟩⟩
      intro r' hr'
      obtain ⟨r, hr, rfl⟩ := List.mem_map.mp hr'
      obtain ⟨hr, hsurv⟩ := List.mem_filter.mp hr
      obtain ⟨snap, hget, hQ⟩ := hrec r hr
      refine ⟨snap, ?_, hedit _ _ _ _ _ _ _ _ _ _ hP hg hok hr (by simpa using hsurv) hQ⟩
      unfold RefIv.shift
      split <;> exact hget
  | @free s i r h hr ih =>
      have hcaps : (vmResultFree s.peg.mem r).caps = s.peg.mem.caps :=
        (foldl_memoCaptureFree _ _).1
      have hentries : (vmResultFree s.peg.mem r).entries = s.peg.mem.entries :=
        (foldl_memoCaptureFree _ _).2
      refine ⟨by rw [hentries]; exact ih.1, fun hmax => ?_⟩
      obtain ⟨ref, p, hok, hrec⟩ := ih.2 hmax
      refine ⟨ref, p, hok.congr hcaps hentries, fun q hq => ?_⟩
      obtain ⟨snap, hget, hQ⟩ := hrec q hq
      refine ⟨snap, hget, hkeep s.peg _ ref p p q snap hok hq rfl ?_ ?_ hQ⟩
      · exact view_congr (p := p) hcaps ▸ List.prefix_refl _
      · exact hentries ▸ List.prefix_refl _

theorem session_describes (h : SessionRun BoundedBefore code threshold s)
    (hmax : Bounded s.peg.tbl) :
    ∃ ref p, MemoOk s.peg.mem (some s.peg.tbl) ref p ∧
      Recorded (fun r snap => Describes s.peg.buf snap r) ref s.stored := by
  refine (session_recorded (Q := fun g _ r snap => Describes g.buf snap r) (fun _ _ hP => hP)
    ?_ ?_ ?_ h).2 hmax
  · intro g ref p r snap _ htaken i _ _
    rw [htaken.subject, htaken.pos]
  · intro g g' ref p p' r snap _ _ hbuf _ _ hdesc
    rwa [hbuf]
  · intro fuel g g' start stop text ref p r snap _ hg hok hr hsurv hdesc
    obtain ⟨hstart, hle, hstop, m, t, -, rfl⟩ := pegEdit_cases hg
    exact hdesc.edit hstart hle hstop (interval_nonempty (hok.tree _ rfl).toInv hr) hsurv

/-- A stored entry describes the bytes that it was computed from, in every session
whose calls find the bounds of the interval tree intact. -/
theorem surviving_entry_describes_text (h : SessionRun BoundedBefore code threshold s)
    (hmax : Bounded s.peg.tbl) :
    ∀ e ∈ storedEntries s.peg.tbl, ∃ entry snap, s.peg.mem.entries[e]? = some entry ∧
      s.stored[e]? = some snap ∧ ∀ i : Int, 0 ≤ i → i < entry.examined →
        byteAt s.peg.buf ((memoEntryPos s.peg.mem s.peg.tbl e).2 + i) =
          byteAt snap.subject ((memoEntryPos snap.mem snap.tbl e).2 + i) := by
  intro e he
  obtain ⟨ref, p, hok, hrec⟩ := session_describes h hmax
  obtain ⟨r, hr, rfl⟩ := (mem_storedEntries (hok.tree _ rfl).toInv).mp he
  obtain ⟨entry, hentry, -, hhigh⟩ := hok.entry r hr
  obtain ⟨snap, hget, hdesc⟩ := hrec r hr
  refine ⟨entry, snap, hentry, hget, fun i hi hlt => ?_⟩
  rw [memoEntryPos_eq hok hr, hok.pos r hr]
  exact hdesc i hi (by omega)

def Editing (_ : Peg) : PegOp → Prop
  | .captureInterval _ _ => False
  | _ => True

instance (g : Peg) : (op : PegOp) → Decidable (Editing g op)
  | .captureInterval _ _ => inferInstanceAs (Decidable False)
  | .parse _ => inferInstanceAs (Decidable True)
  | .edit _ _ _ => inferInstanceAs (Decidable True)
  | .reparse => inferInstanceAs (Decidable True)

/-- Memoized letters with entries at 0, 4, 5 and 6. -/
def lettersPat : Pat :=
  .seq (.memo (.literal [97]) 1) (.seq (.dot 3) (.seq (.memo (.literal [98]) 2)
    (.seq (.memo (.literal [99]) 3) (.memo (.literal [100]) 4))))

/-- A deletion that evicts the entry at 6, and an insertion before the entry at 4. -/
def lettersCalls : List (Nat × PegOp) :=
  [(100, .parse ([97, 46, 46, 46, 98, 99, 100] ++ List.replicate 8 120)), (20, .edit 7 15 []),
    (20, .edit 2 2 [46, 46])]

theorem surviving_entry_describes_text_letters : ∃ s : PegSession,
    SessionRun BoundedBefore (compiledCode 20 lettersPat) 0 s ∧ Bounded s.peg.tbl ∧
      storedEntries s.peg.tbl = [0, 1, 2] ∧
      ∀ e ∈ storedEntries s.peg.tbl, ∃ entry snap, s.peg.mem.entries[e]? = some entry ∧
        s.stored[e]? = some snap ∧ ∀ i : Int, 0 ≤ i → i < entry.examined →
          byteAt s.peg.buf ((memoEntryPos s.peg.mem s.peg.tbl e).2 + i) =
            byteAt snap.subject ((memoEntryPos snap.mem snap.tbl e).2 + i) := by
  have hplay : (play BoundedBefore (lettersCalls.take 2)
      ⟨pegNew (compiledCode 20 lettersPat) 0, [], []⟩).any (fun s =>
        decide (Bounded s.peg.tbl ∧ storedEntries s.peg.tbl = [0, 1, 2])) = true := by
    decide +kernel
  obtain ⟨s, hs, hfacts⟩ := (Option.any_eq_true _ _).mp hplay
  obtain ⟨hmax, hstored⟩ := of_decide_eq_true hfacts
  have hrun := play_run .new hs
  exact ⟨s, hrun, hmax, hstored, surviving_entry_describes_text hrun hmax⟩

/-- The entry of the `c` stays at 5, where there is a dot now. -/
theorem surviving_entry_misplaced :
    ¬∀ (fuel : Nat) (memoCounter : Int) (pat : Pat) (code : VmCode),
      patCompile fuel memoCounter pat = some (.ok code) → ∀ (threshold : Int) (s : PegSession),
      SessionRun Editing code threshold s →
      ∀ e ∈ storedEntries s.peg.tbl, ∃ entry snap, s.peg.mem.entries[e]? = some entry ∧
        s.stored[e]? = some snap ∧ ∀ i : Int, 0 ≤ i → i < entry.examined →
          byteAt s.peg.buf ((memoEntryPos s.peg.mem s.peg.tbl e).2 + i) =
            byteAt snap.subject ((memoEntryPos snap.mem snap.tbl e).2 + i) := by
  intro h
  have hcode := @patCompile_compiledCode 20 lettersPat (by decide +kernel)
  have hplay : (play Editing lettersCalls
      ⟨pegNew (compiledCode 20 lettersPat) 0, [], []⟩).any (fun s =>
        decide (2 ∈ storedEntries s.peg.tbl ∧
          byteAt s.peg.buf ((memoEntryPos s.peg.mem s.peg.tbl 2).2 + 0) = some 46 ∧
          (s.peg.mem.entries[2]?.map MemoEntry.examined) = some 2 ∧
          (s.stored[2]?.map fun snap =>
            byteAt snap.subject ((memoEntryPos snap.mem snap.tbl 2).2 + 0)) =
              some (some 99))) = true := by
    decide +kernel
  obtain ⟨s, hs, hfacts⟩ := (Option.any_eq_true _ _).mp hplay
  obtain ⟨hstored, hnow, hexam, hthen⟩ := of_decide_eq_true hfacts
  obtain ⟨entry, snap, hentry, hsnap, hsame⟩ := h _ _ _ _ hcode _ _ (play_run .new hs) 2 hstored
  rw [hentry, Option.map_some, Option.some.injEq] at hexam
  rw [hsnap, Option.map_some, Option.some.injEq] at hthen
  have hbyte := hsame 0 le_rfl (by omega)
  rw [hnow, hthen] at hbyte
  exact absurd hbyte (by decide)

end Text

section Captures

def SurvivesEdit (g : Peg) (edit : MemoEdit) (e : Nat) : Prop :=
  e ∈ storedEntries g.tbl ∧ ∃ entry, g.mem.entries[e]? = some entry ∧
    ¬((memoEntryPos g.mem g.tbl e).2 < editHigh edit ∧
      (memoEntryPos g.mem g.tbl e).2 + entry.examined > edit.start)

/-- The edit leaves the entry in the table and shifts it. -/
def MovedBy (g : Peg) (edit : MemoEdit) (e : Nat) : Prop :=
  SurvivesEdit g edit e ∧ edit.start ≤ (memoEntryPos g.mem g.tbl e).2

/-- An entry that survives the edit is shifted exactly when the entries that own
the captures below it are. -/
def MovedTogether (g : Peg) (edit : MemoEdit) : Prop :=
  ∀ e, SurvivesEdit g edit e → ∀ entry, g.mem.entries[e]? = some entry →
    ∀ d ∈ entry.captures, ∀ c, Reaches g.mem.caps d c →
      (MovedBy g edit e ↔ ∃ e', (g.mem.cap c).ment = some e' ∧ MovedBy g edit e')

/-- The bounds of the interval tree hold before a call, and entries move together
in an edit that changes the length of the text. -/
def TogetherBefore (g : Peg) : PegOp → Prop
  | .edit start stop text => Bounded g.tbl ∧
      (editAmt ⟨start, stop, text.length⟩ ≠ 0 → MovedTogether g ⟨start, stop, text.length⟩)
  | _ => Bounded g.tbl

theorem TogetherBefore.bounded {g : Peg} {op : PegOp} (h : TogetherBefore g op) :
    Bounded g.tbl := by
  cases op with
  | edit start stop text => exact h.1
  | _ => exact h

theorem edit_start (h : MemoOk m (some t) ref p) {edit : MemoEdit}
    (hle : edit.start ≤ edit.stop) (hlen : 0 ≤ edit.len) {fuel : Nat} {m' : Mem} {t' : MemoTable}
    (hedit : memoTableApplyEdit fuel m t edit = some (m', t')) {c : Nat} {cell : MemoCapture}
    (hcell : m.caps[c]? = some cell) :
    ∃ cell', m'.caps[c]? = some cell' ∧
      ((∃ r ∈ ref, cell.ment = some r.value ∧
          ivOverlaps r.ins edit.start (editHigh edit) = false ∧ edit.start ≤ r.low) →
        absStart (editPos ref edit p) cell' = absStart p cell + editAmt edit) ∧
      (¬(∃ r ∈ ref, cell.ment = some r.value ∧
          ivOverlaps r.ins edit.start (editHigh edit) = false ∧ edit.start ≤ r.low) →
        absStart (editPos ref edit p) cell' = absStart p cell) := by
  obtain ⟨tree, evicted, hremove, hperm, -⟩ := h.edit_evict hle hlen
  obtain ⟨hev, howned⟩ := h.evict hperm
  cases memoTableApplyEdit_unique hedit
    (memoTableApplyEdit_of_remove (hremove _ (Nat.lt_succ_self _)))
  have hview : (view (evicted.foldl tableFreeEntry m) p)[c]? = (view m p)[c]? := by rw [hev.view]
  simp only [view, List.getElem?_map, hcell, Option.map_some] at hview
  obtain ⟨cell', hcell', hv⟩ := Option.map_eq_some_iff.mp hview
  have hstart : absStart p cell' = absStart p cell := congrArg VCell.start hv
  refine ⟨cell', hcell', ?_, ?_⟩
  · rintro ⟨r, hr, hment, hsurv, hlow⟩
    have hkept : cell' = cell := by
      have hsame := hev.kept c cell hcell (by
        intro j hj heq
        obtain ⟨q, hq, rfl⟩ := List.mem_map.mp (hperm.mem_iff.mp hj)
        obtain ⟨hq, hover⟩ := List.mem_filter.mp hq
        rw [hment, Option.some.injEq] at heq
        rw [← List.inj_on_of_nodup_map h.values hr hq heq, hsurv] at hover
        cases hover)
      exact Option.some.inj (hcell'.symm.trans hsame)
    subst hkept
    have hmem : r ∈ ref.filter fun r => !ivOverlaps r.ins edit.start (editHigh edit) :=
      List.mem_filter.mpr ⟨hr, by simp [hsurv]⟩
    have hmove : editPos ref edit p r.value = p r.value + editAmt edit :=
      if_pos ⟨r, hmem, rfl, hlow⟩
    simp only [absStart, hment, hmove]
    omega
  · intro hnot
    rw [← hstart]
    cases hment : cell'.ment with
    | none => simp [absStart, hment]
    | some e =>
        obtain ⟨cell₀, hcell₀, hment₀⟩ := hev.ment c cell' hcell' e hment
        cases hcell.symm.trans hcell₀
        have hstay : editPos ref edit p e = p e := by
          refine if_neg ?_
          rintro ⟨r, hr, rfl, hlow⟩
          obtain ⟨hr, hsurv⟩ := List.mem_filter.mp hr
          exact hnot ⟨r, hr, hment₀, by simpa using hsurv, hlow⟩
        simp only [absStart, hment, hstay]

theorem movedBy_iff {g : Peg} (h : MemoOk g.mem (some g.tbl) ref p) {edit : MemoEdit}
    {e : Nat} : MovedBy g edit e ↔ ∃ r ∈ ref, r.value = e ∧
      ivOverlaps r.ins edit.start (editHigh edit) = false ∧ edit.start ≤ r.low := by
  constructor
  · rintro ⟨⟨hstored, entry, hentry, hapart⟩, hlow⟩
    obtain ⟨r, hr, rfl⟩ := (mem_storedEntries (h.tree _ rfl).toInv).mp hstored
    obtain ⟨entry', hentry', -, hhigh⟩ := h.entry r hr
    cases hentry.symm.trans hentry'
    rw [memoEntryPos_eq h hr, h.pos r hr] at hapart hlow
    refine ⟨r, hr, rfl, ?_, hlow⟩
    rw [Bool.eq_false_iff, ne_eq, overlaps_iff, hhigh]
    exact hapart
  · rintro ⟨r, hr, rfl, hsurv, hlow⟩
    obtain ⟨entry, hentry, -, hhigh⟩ := h.entry r hr
    refine ⟨⟨(mem_storedEntries (h.tree _ rfl).toInv).mpr ⟨r, hr, rfl⟩, entry, hentry, ?_⟩, ?_⟩
    · rw [memoEntryPos_eq h hr, h.pos r hr]
      rw [← hhigh, ← overlaps_iff, hsurv]
      decide
    · rw [memoEntryPos_eq h hr, h.pos r hr]
      exact hlow

/-- The captures below the entry are where they were in the snapshot, relative to
the entry. -/
def Steady (m : Mem) (p : Nat → Int) (r : RefIv Nat) (snap : Snapshot) : Prop :=
  ∀ entry, m.entries[r.value]? = some entry → ∀ d ∈ entry.captures, ∀ c, Reaches m.caps d c →
    (memoCaptureStart snap.mem snap.tbl c).2 - (memoEntryPos snap.mem snap.tbl r.value).2 =
      absStart p (m.cap c) - r.low

theorem cap_eq {c : Nat} {cell : MemoCapture} (h : m.caps[c]? = some cell) : m.cap c = cell := by
  simp [Mem.cap, List.getD, h]

theorem reaches_old {m' : Mem} {p' : Nat → Int} (hold : Older m.caps)
    (hview : view m p <+: view m' p') {d c : Nat} (hd : d < m.caps.length)
    (h : Reaches m'.caps d c) :
    Reaches m.caps d c ∧ c < m.caps.length ∧ absStart p' (m'.cap c) = absStart p (m.cap c) := by
  have hcell : ∀ b < m.caps.length, ∃ cell cell', m.caps[b]? = some cell ∧
      m'.caps[b]? = some cell' ∧ vcell p' cell' = vcell p cell := by
    intro b hb
    obtain ⟨tail, htail⟩ := hview
    have hget := @List.getElem?_append_left _ (view m p) tail b (by simpa [view] using hb)
    rw [htail, view, view, List.getElem?_map, List.getElem?_map,
      List.getElem?_eq_getElem hb, Option.map_some] at hget
    obtain ⟨cell', hcell', heq⟩ := Option.map_eq_some_iff.mp hget
    exact ⟨m.caps[b], cell', List.getElem?_eq_getElem hb, hcell', heq⟩
  have hreach : Reaches m.caps d c ∧ c < m.caps.length := by
    induction h with
    | refl => exact ⟨.refl, hd⟩
    | @tail b c _ hbc ih =>
        obtain ⟨hdb, hb⟩ := ih
        obtain ⟨cell, cell', hcell, hcell', heq⟩ := hcell b hb
        obtain ⟨cell'', hcell'', hc⟩ := hbc
        cases hcell'.symm.trans hcell''
        have hkids : cell'.children = cell.children := congrArg VCell.children heq
        rw [hkids] at hc
        exact ⟨.tail hdb ⟨cell, hcell, hc⟩, (hold b cell hcell c hc).trans hb⟩
  obtain ⟨cell, cell', hcell, hcell', heq⟩ := hcell c hreach.2
  rw [cap_eq hcell, cap_eq hcell']
  exact ⟨hreach.1, hreach.2, congrArg VCell.start heq⟩

theorem Steady.grown {m' : Mem} {p' : Nat → Int} {r : RefIv Nat} {snap : Snapshot}
    (h : Steady m p r snap) (hok : MemoOk m (some t) ref p) (hr : r ∈ ref)
    (hview : view m p <+: view m' p') (hentries : m.entries <+: m'.entries) :
    Steady m' p' r snap := by
  intro entry hentry d hd c hdc
  obtain ⟨entry', hentry', -⟩ := hok.entry r hr
  obtain ⟨tail, htail⟩ := hentries
  rw [← htail, List.getElem?_append_left (List.getElem?_eq_some_iff.mp hentry').1] at hentry
  have hlt := hok.captures entry (List.mem_of_getElem? hentry) d hd
  obtain ⟨hdc', -, hstart⟩ := reaches_old hok.older hview hlt hdc
  rw [hstart]
  exact h entry hentry d hd c hdc'

theorem Reaches.le (hold : Older m.caps) {d c : Nat} (h : Reaches m.caps d c) : c ≤ d := by
  induction h with
  | refl => exact le_rfl
  | tail _ hbc ih =>
      obtain ⟨cell, hcell, hc⟩ := hbc
      exact (hold _ cell hcell _ hc).le.trans ih

theorem Taken.steady {snap : Snapshot} {subject : List UInt8} {r : RefIv Nat}
    (h : Taken snap subject m p r) (hok : MemoOk m (some t) ref p) : Steady m p r snap := by
  intro entry hentry d hd c hdc
  have hlt : c < snap.mem.caps.length :=
    (Reaches.le hok.older hdc).trans_lt (h.captures entry hentry d hd)
  obtain ⟨cell, hcell⟩ : ∃ cell, m.caps[c]? = some cell :=
    ⟨_, List.getElem?_eq_getElem (hlt.trans_le h.length)⟩
  have hview : (view m p)[c]? = some (vcell p cell) := by simp [view, hcell]
  rw [h.start c _ hlt hview, h.pos, cap_eq hcell]
  rfl

theorem Steady.edit {g : Peg} {r : RefIv Nat} {snap : Snapshot} {edit : MemoEdit}
    (h : Steady g.mem p r snap) (hok : MemoOk g.mem (some g.tbl) ref p) (hr : r ∈ ref)
    (hsurv : ivOverlaps r.ins edit.start (editHigh edit) = false)
    (hle : edit.start ≤ edit.stop) (hlen : 0 ≤ edit.len)
    (htogether : editAmt edit ≠ 0 → MovedTogether g edit) {fuel : Nat} {m : Mem} {t : MemoTable}
    (happly : memoTableApplyEdit fuel g.mem g.tbl edit = some (m, t)) :
    Steady m (editPos ref edit p) (RefIv.shift edit.start (editAmt edit) r) snap := by
  obtain ⟨m', t', heq, -, -, hents, -, hchild, -⟩ := hok.edit hle hlen
  cases memoTableApplyEdit_unique happly (heq _ (Nat.lt_succ_self _))
  have hvalue : (RefIv.shift edit.start (editAmt edit) r).value = r.value := by
    unfold RefIv.shift
    split <;> rfl
  intro entry hentry d hd c hdc
  rw [hvalue] at hentry ⊢
  rw [hents] at hentry
  rw [Reaches, hchild] at hdc
  have hlt : c < g.mem.caps.length := (Reaches.le hok.older hdc).trans_lt
    (hok.captures entry (List.mem_of_getElem? hentry) d hd)
  obtain ⟨cell, hcell⟩ : ∃ cell, g.mem.caps[c]? = some cell :=
    ⟨_, List.getElem?_eq_getElem hlt⟩
  obtain ⟨cell', hcell', hmoved, hstays⟩ := edit_start hok hle hlen happly hcell
  rw [cap_eq hcell', h entry hentry d hd c hdc, cap_eq hcell]
  -- Without a change of length nothing moves, whatever owns the capture.
  by_cases hamt : editAmt edit = 0
  · have hlow : (RefIv.shift edit.start (editAmt edit) r).low = r.low := by
      unfold RefIv.shift
      split
      · simp [hamt]
      · rfl
    rw [hlow]
    by_cases hown : ∃ q ∈ ref, cell.ment = some q.value ∧
        ivOverlaps q.ins edit.start (editHigh edit) = false ∧ edit.start ≤ q.low
    · rw [hmoved hown]
      omega
    · rw [hstays hown]
  · have hiff := htogether hamt r.value
      (by
        obtain ⟨entry', hentry', -, hhigh⟩ := hok.entry r hr
        refine ⟨(mem_storedEntries (hok.tree _ rfl).toInv).mpr ⟨r, hr, rfl⟩, entry', hentry', ?_⟩
        rw [memoEntryPos_eq hok hr, hok.pos r hr, ← hhigh, ← overlaps_iff, hsurv]
        decide)
      entry hentry d hd c hdc
    rw [cap_eq hcell] at hiff
    by_cases hlow : edit.start ≤ r.low
    · obtain ⟨e', hment, hmove⟩ := hiff.mp ((movedBy_iff hok).mpr ⟨r, hr, rfl, hsurv, hlow⟩)
      obtain ⟨q, hq, rfl, hq'⟩ := (movedBy_iff hok).mp hmove
      have hshift : (RefIv.shift edit.start (editAmt edit) r).low = r.low + editAmt edit := by
        unfold RefIv.shift
        rw [if_pos hlow]
      rw [hmoved ⟨q, hq, hment, hq'⟩, hshift]
      omega
    · have hshift : (RefIv.shift edit.start (editAmt edit) r).low = r.low := by
        unfold RefIv.shift
        rw [if_neg hlow]
      rw [hshift, hstays]
      rintro ⟨q, hq, hment, hq'⟩
      obtain ⟨q', hq', hval, -, hlow'⟩ := (movedBy_iff hok).mp
        (hiff.mpr ⟨q.value, hment, (movedBy_iff hok).mpr ⟨q, hq, rfl, hq'⟩⟩)
      rw [List.inj_on_of_nodup_map hok.values hq' hr hval] at hlow'
      exact hlow hlow'

theorem session_steady {code : VmCode} {threshold : Int} {s : PegSession}
    (h : SessionRun TogetherBefore code threshold s) (hmax : Bounded s.peg.tbl) :
    ∃ ref p, MemoOk s.peg.mem (some s.peg.tbl) ref p ∧
      Recorded (Steady s.peg.mem p) ref s.stored := by
  refine (session_recorded (Q := fun g p r snap => Steady g.mem p r snap)
    (fun _ _ hP => hP.bounded) ?_ ?_ ?_ h).2 hmax
  · exact fun g ref p r snap hok htaken => Taken.steady htaken hok
  · exact fun g g' ref p p' r snap hok hr _ hview hentries hsteady =>
      hsteady.grown hok hr hview hentries
  · intro fuel g g' start stop text ref p r snap hP hg hok hr hsurv hsteady
    obtain ⟨-, hle, -, m, t, happly, rfl⟩ := pegEdit_cases hg
    have hlen : 0 ≤ (⟨start, stop, text.length⟩ : MemoEdit).len := Int.natCast_nonneg _
    exact hsteady.edit hok hr hsurv hle hlen hP.2 happly

/-- The captures below a stored entry move with it, in every session whose calls
find the bounds of the interval tree intact and whose edits move entries together
with the owners of the captures below them. -/
theorem captures_move_with_entry {code : VmCode} {threshold : Int} {s : PegSession}
    (h : SessionRun TogetherBefore code threshold s) (hmax : Bounded s.peg.tbl) :
    ∀ e ∈ storedEntries s.peg.tbl, ∃ entry snap, s.peg.mem.entries[e]? = some entry ∧
      s.stored[e]? = some snap ∧ ∀ d ∈ entry.captures, ∀ c, Reaches s.peg.mem.caps d c →
        (memoCaptureStart s.peg.mem s.peg.tbl c).2 - (memoEntryPos s.peg.mem s.peg.tbl e).2 =
          (memoCaptureStart snap.mem snap.tbl c).2 - (memoEntryPos snap.mem snap.tbl e).2 := by
  intro e he
  obtain ⟨ref, p, hok, hrec⟩ := session_steady h hmax
  obtain ⟨r, hr, rfl⟩ := (mem_storedEntries (hok.tree _ rfl).toInv).mp he
  obtain ⟨entry, hentry, -⟩ := hok.entry r hr
  obtain ⟨snap, hget, hsteady⟩ := hrec r hr
  refine ⟨entry, snap, hentry, hget, fun d hd c hdc => ?_⟩
  have hlt : c < s.peg.mem.caps.length := (Reaches.le hok.older hdc).trans_lt
    (hok.captures entry (List.mem_of_getElem? hentry) d hd)
  have hcell := List.getElem?_eq_getElem hlt
  rw [hsteady entry hentry d hd c hdc, memoEntryPos_eq hok hr, hok.pos r hr,
    memoCaptureStart_eq hok hcell, cap_eq hcell]

/-- Calls that find the bounds intact, with edits that keep the length. -/
def FixedLength (g : Peg) : PegOp → Prop
  | .edit start stop text => Bounded g.tbl ∧ editAmt ⟨start, stop, text.length⟩ = 0
  | _ => Bounded g.tbl

instance (g : Peg) : (op : PegOp) → Decidable (FixedLength g op)
  | .edit start stop text =>
      inferInstanceAs (Decidable (Bounded g.tbl ∧ editAmt ⟨start, stop, text.length⟩ = 0))
  | .parse _ => inferInstanceAs (Decidable (Bounded g.tbl))
  | .reparse => inferInstanceAs (Decidable (Bounded g.tbl))
  | .captureInterval _ _ => inferInstanceAs (Decidable (Bounded g.tbl))

theorem FixedLength.together {g : Peg} {op : PegOp} (h : FixedLength g op) :
    TogetherBefore g op := by
  cases op with
  | edit start stop text => exact ⟨h.1, fun hne => absurd h.2 hne⟩
  | _ => exact h

/-- A capture of an `a` before `bc`, memoized under 2. -/
def innerPat : Pat :=
  .memo (.seq (.and (.literal [97, 98, 99])) (.cap (.literal [97]) 7)) 2

/-- After an `r` it is memoized under 1 as well. -/
def outerPat : Pat :=
  .alt (.seq (.literal [113]) innerPat) (.seq (.literal [114]) (.memo innerPat 1))

/-- The reparse stores the outer entry from a hit on the inner one. -/
def outerCalls : List (Nat × PegOp) :=
  [(100, .parse [113, 97, 98, 99]), (20, .edit 0 1 [114]), (100, .reparse)]

theorem captures_move_with_entry_outer : ∃ s : PegSession,
    SessionRun TogetherBefore (compiledCode 20 outerPat) 0 s ∧ Bounded s.peg.tbl ∧
      storedEntries s.peg.tbl = [1, 0] ∧ (memoEntryPos s.peg.mem s.peg.tbl 1).2 = 2 ∧
      ∀ e ∈ storedEntries s.peg.tbl, ∃ entry snap, s.peg.mem.entries[e]? = some entry ∧
        s.stored[e]? = some snap ∧ ∀ d ∈ entry.captures, ∀ c, Reaches s.peg.mem.caps d c →
          (memoCaptureStart s.peg.mem s.peg.tbl c).2 - (memoEntryPos s.peg.mem s.peg.tbl e).2 =
            (memoCaptureStart snap.mem snap.tbl c).2 - (memoEntryPos snap.mem snap.tbl e).2 := by
  have hplay : (play FixedLength outerCalls
      ⟨pegNew (compiledCode 20 outerPat) 0, [], []⟩).any (fun s =>
        decide (storedEntries s.peg.tbl = [1, 0] ∧ Bounded s.peg.tbl ∧
          s.peg.mem.entries.map MemoEntry.captures = [[0], [0]] ∧
          (s.peg.mem.caps[0]?.map fun c => (c.children, c.ment)) = some ([], some 0) ∧
          (memoEntryPos s.peg.mem s.peg.tbl 0).2 = 1 ∧
          (memoEntryPos s.peg.mem s.peg.tbl 1).2 = 1 ∧
          (call 20 (.edit 0 0 [120]) s).any fun s => decide (Bounded s.peg.tbl ∧
            storedEntries s.peg.tbl = [1, 0] ∧
            (memoEntryPos s.peg.mem s.peg.tbl 1).2 = 2))) = true := by
    decide +kernel
  obtain ⟨s, hs, hfacts⟩ := (Option.any_eq_true _ _).mp hplay
  obtain ⟨hstored, hmax, hentries, hcell, hpos₀, hpos₁, hcall⟩ := of_decide_eq_true hfacts
  obtain ⟨s', hs', hfacts'⟩ := (Option.any_eq_true _ _).mp hcall
  obtain ⟨hmax', hstored', hpos'⟩ := of_decide_eq_true hfacts'
  have hrun : SessionRun TogetherBefore (compiledCode 20 outerPat) 0 s :=
    (play_run .new hs).mono fun _ _ h => h.together
  obtain ⟨cell, hcell, hkids⟩ := Option.map_eq_some_iff.mp hcell
  obtain ⟨hkids, hment⟩ := Prod.mk.injEq .. ▸ hkids
  have hentry : ∀ (e : Nat) (entry : MemoEntry), s.peg.mem.entries[e]? = some entry →
      entry.captures = [0] := by
    intro e entry hentry
    have hmem : entry.captures ∈ [[0], [0]] :=
      hentries ▸ List.mem_map_of_mem (List.mem_of_getElem? hentry)
    simpa using hmem
  have hmoved : ∀ e ∈ storedEntries s.peg.tbl, MovedBy s.peg ⟨0, 0, 1⟩ e := by
    intro e he
    have hcases : e = 1 ∨ e = 0 := by simpa [hstored] using he
    have hlen := congrArg List.length hentries
    simp only [List.length_map, List.length_cons, List.length_nil] at hlen
    have hlt : e < s.peg.mem.entries.length := by omega
    have hpos : (memoEntryPos s.peg.mem s.peg.tbl e).2 = 1 := by
      rcases hcases with rfl | rfl
      · exact hpos₁
      · exact hpos₀
    refine ⟨⟨he, _, List.getElem?_eq_getElem hlt, ?_⟩, ?_⟩
    · rw [hpos]
      simp [editHigh]
    · rw [hpos]
      decide
  have htogether : MovedTogether s.peg ⟨0, 0, 1⟩ := by
    intro e hsurv entry hget d hd c hdc
    rw [hentry e entry hget, List.mem_singleton] at hd
    subst hd
    have hc : c = 0 := by
      rcases hdc.cases_head with rfl | ⟨b, ⟨cell', hcell', hb⟩, -⟩
      · rfl
      · cases hcell.symm.trans hcell'
        rw [hkids] at hb
        cases hb
    subst hc
    refine iff_of_true (hmoved e hsurv.1) ⟨0, ?_, hmoved 0 (by simp [hstored])⟩
    rw [cap_eq hcell, hment]
  have hrun' := call_run hrun (show TogetherBefore s.peg (.edit 0 0 [120]) from
    ⟨hmax, fun _ => htogether⟩) hs'
  exact ⟨s', hrun', hmax', hstored', hpos', captures_move_with_entry hrun' hmax'⟩

/-- Evicting the inner entry, which reaches beyond the outer one, leaves its
capture where it is when the outer entry moves. -/
theorem capture_left_behind :
    ¬∀ (fuel : Nat) (memoCounter : Int) (pat : Pat) (code : VmCode),
      patCompile fuel memoCounter pat = some (.ok code) → ∀ (threshold : Int) (s : PegSession),
      SessionRun Editing code threshold s →
      ∀ e ∈ storedEntries s.peg.tbl, ∃ entry snap, s.peg.mem.entries[e]? = some entry ∧
        s.stored[e]? = some snap ∧ ∀ d ∈ entry.captures, ∀ c, Reaches s.peg.mem.caps d c →
          (memoCaptureStart s.peg.mem s.peg.tbl c).2 - (memoEntryPos s.peg.mem s.peg.tbl e).2 =
            (memoCaptureStart snap.mem snap.tbl c).2 -
              (memoEntryPos snap.mem snap.tbl e).2 := by
  intro h
  have hcode := @patCompile_compiledCode 20 outerPat (by decide +kernel)
  have hplay : (play Editing (outerCalls ++ [(20, .edit 3 4 [99]), (20, .edit 0 0 [120])])
      ⟨pegNew (compiledCode 20 outerPat) 0, [], []⟩).any (fun s =>
        decide (1 ∈ storedEntries s.peg.tbl ∧
          (s.peg.mem.entries[1]?.map MemoEntry.captures) = some [0] ∧
          (memoCaptureStart s.peg.mem s.peg.tbl 0).2 -
            (memoEntryPos s.peg.mem s.peg.tbl 1).2 = -1 ∧
          (s.stored[1]?.map fun snap => (memoCaptureStart snap.mem snap.tbl 0).2 -
            (memoEntryPos snap.mem snap.tbl 1).2) = some 0)) = true := by
    decide +kernel
  obtain ⟨s, hs, hfacts⟩ := (Option.any_eq_true _ _).mp hplay
  obtain ⟨hstored, hcapt, hnow, hthen⟩ := of_decide_eq_true hfacts
  obtain ⟨entry, snap, hentry, hsnap, hsame⟩ := h _ _ _ _ hcode _ _ (play_run .new hs) 1 hstored
  rw [hentry, Option.map_some, Option.some.injEq] at hcapt
  rw [hsnap, Option.map_some, Option.some.injEq] at hthen
  have hzero := hsame 0 (by simp [hcapt]) 0 .refl
  rw [hnow, hthen] at hzero
  exact absurd hzero (by decide)

end Captures

end Libpeg.Survival
