import Libpeg.CompileTotal
import Libpeg.MemoIds
import Mathlib.Algebra.Order.BigOperators.Group.List

namespace Libpeg.CodeShape

open Libpeg.Charset Libpeg.Opcode Libpeg.Code Libpeg.Pattern Libpeg.Compile Libpeg.CompileTotal
open Libpeg.MemoIds

def ownLabel : Pir → Option Nat
  | .label l => some l
  | _ => none

def ownTarget : Pir → Option Nat
  | .insn i => i.target
  | _ => none

def labelsOf (code : List Pir) : List Nat :=
  code.filterMap ownLabel

def targetsOf (code : List Pir) : List Nat :=
  code.filterMap ownTarget

@[simp] theorem labelsOf_nil : labelsOf [] = [] :=
  rfl

@[simp] theorem labelsOf_append (code code' : List Pir) :
    labelsOf (code ++ code') = labelsOf code ++ labelsOf code' :=
  List.filterMap_append

@[simp] theorem labelsOf_label (l : Nat) (code : List Pir) :
    labelsOf (.label l :: code) = l :: labelsOf code :=
  rfl

@[simp] theorem labelsOf_openCall (name : String) (code : List Pir) :
    labelsOf (.openCall name :: code) = labelsOf code :=
  rfl

@[simp] theorem labelsOf_insn (i : PirInsn) (code : List Pir) :
    labelsOf (.insn i :: code) = labelsOf code :=
  rfl

@[simp] theorem targetsOf_nil : targetsOf [] = [] :=
  rfl

@[simp] theorem targetsOf_append (code code' : List Pir) :
    targetsOf (code ++ code') = targetsOf code ++ targetsOf code' :=
  List.filterMap_append

@[simp] theorem targetsOf_label (l : Nat) (code : List Pir) :
    targetsOf (.label l :: code) = targetsOf code :=
  rfl

@[simp] theorem targetsOf_openCall (name : String) (code : List Pir) :
    targetsOf (.openCall name :: code) = targetsOf code :=
  rfl

@[simp] theorem targetsOf_insn (i : PirInsn) (code : List Pir) :
    targetsOf (.insn i :: code) = i.target.toList ++ targetsOf code := by
  rw [targetsOf, List.filterMap_cons, ownTarget]
  cases i.target <;> rfl

/-- The byte operands of an instruction fit a byte, and an `End` has one of its two
operands. -/
def BytesFit : PirInsn → Prop
  | .char a | .any a | .empty a | .testChar a _ | .testCharNoChoice a _ | .testAny a _
  | .captureLate a _ | .captureFull a _ => 0 ≤ a ∧ a < 256
  | .endOp a => a = 0 ∨ a = 1
  | _ => True

def isMatcher : Pir → Bool
  | .insn (.char _) | .insn (.set _) => true
  | _ => false

/-- A matcher that comes first is the first entry; code without instructions is empty. -/
def HeadFirst (code : List Pir) : Prop :=
  code = [] ∨ ∃ i, nextInsn code = some i ∧ (isMatcher i = true → code.head? = some i)

/-- What compilation from one context to another returns. -/
structure Shaped (a b : Pctx) (code : List Pir) : Prop where
  le : a.nlabels ≤ b.nlabels
  nodup : (labelsOf code).Nodup
  range : ∀ l ∈ labelsOf code, a.nlabels ≤ l ∧ l < b.nlabels
  closed : b.err = none → a.err = none ∧ targetsOf code ⊆ labelsOf code
  fits : ∀ i, .insn i ∈ code → BytesFit i

variable {a b c : Pctx} {code code' : List Pir}

theorem HeadFirst.cons {i : Pir} (h : isReal i = true) : HeadFirst (i :: code) :=
  .inr ⟨i, by simp [nextInsn, h], fun _ => rfl⟩

theorem HeadFirst.append (h : HeadFirst code) (h' : HeadFirst code') : HeadFirst (code ++ code') := by
  rcases h with rfl | ⟨i, hi, hhead⟩
  · exact h'
  · refine .inr ⟨i, ?_, fun hm => ?_⟩
    · rw [nextInsn, List.find?_append, show code.find? isReal = some i from hi]
      rfl
    · have hget := hhead hm
      cases code with
      | nil => cases hget
      | cons j code => exact hget

/-- A construct around code, with labels taken before and after it is compiled. -/
theorem Shaped.wrap {j k : Nat} (h : Shaped (takeLabels a j) b code)
    (hlabels : (labelsOf code').Perm
      (List.range' a.nlabels j ++ labelsOf code ++ List.range' b.nlabels k))
    (htargets : targetsOf code' ⊆ targetsOf code ++ labelsOf code')
    (hfits : ∀ i, .insn i ∈ code' → .insn i ∈ code ∨ BytesFit i) :
    Shaped a (takeLabels b k) code' := by
  have hle : a.nlabels + j ≤ b.nlabels := h.le
  have hrange : ∀ l ∈ labelsOf code, a.nlabels + j ≤ l ∧ l < b.nlabels := h.range
  refine ⟨?_, ?_, ?_, ?_, ?_⟩
  · change a.nlabels ≤ b.nlabels + k
    omega
  · rw [hlabels.nodup_iff, List.nodup_append, List.nodup_append]
    refine ⟨⟨List.nodup_range', h.nodup, fun x hx y hy => ?_⟩, List.nodup_range',
      fun x hx y hy => ?_⟩
    · have := List.mem_range'_1.mp hx
      have := hrange y hy
      omega
    · have := List.mem_range'_1.mp hy
      rcases List.mem_append.mp hx with hx | hx
      · have := List.mem_range'_1.mp hx
        omega
      · have := hrange x hx
        omega
  · intro l hl
    change a.nlabels ≤ l ∧ l < b.nlabels + k
    rcases List.mem_append.mp (hlabels.mem_iff.mp hl) with hl | hl
    · rcases List.mem_append.mp hl with hl | hl
      · have := List.mem_range'_1.mp hl
        omega
      · have := hrange l hl
        omega
    · have := List.mem_range'_1.mp hl
      omega
  · intro herr
    obtain ⟨ha, hclosed⟩ := h.closed herr
    refine ⟨ha, fun l hl => ?_⟩
    rcases List.mem_append.mp (htargets hl) with hl | hl
    · refine hlabels.mem_iff.mpr (List.mem_append_left _ (List.mem_append_right _ ?_))
      exact hclosed hl
    · exact hl
  · intro i hi
    rcases hfits i hi with hi | hi
    · exact h.fits i hi
    · exact hi

theorem shaped_nil (a : Pctx) : Shaped a a [] :=
  ⟨le_rfl, List.nodup_nil, fun _ hl => absurd hl List.not_mem_nil,
    fun h => ⟨h, fun _ hl => hl⟩, fun _ hi => absurd hi List.not_mem_nil⟩

theorem Shaped.append (h : Shaped a b code) (h' : Shaped b c code') : Shaped a c (code ++ code') := by
  have hle := h.le
  have hle' := h'.le
  refine ⟨h.le.trans h'.le, ?_, ?_, ?_, ?_⟩
  · rw [labelsOf_append, List.nodup_append]
    refine ⟨h.nodup, h'.nodup, fun x hx y hy => ?_⟩
    have := h.range x hx
    have := h'.range y hy
    omega
  · rw [labelsOf_append]
    intro l hl
    rcases List.mem_append.mp hl with hl | hl
    · have := h.range l hl
      omega
    · have := h'.range l hl
      omega
  · intro herr
    obtain ⟨hb, hclosed'⟩ := h'.closed herr
    obtain ⟨ha, hclosed⟩ := h.closed hb
    refine ⟨ha, ?_⟩
    rw [targetsOf_append, labelsOf_append]
    exact List.append_subset.mpr ⟨fun l hl => List.mem_append_left _ (hclosed hl),
      fun l hl => List.mem_append_right _ (hclosed' hl)⟩
  · intro i hi
    rcases List.mem_append.mp hi with hi | hi
    · exact h.fits i hi
    · exact h'.fits i hi

theorem Shaped.append_rev (h : Shaped a b code) (h' : Shaped b c code') :
    Shaped a c (code' ++ code) := by
  have happ := h.append h'
  have hlabels : (labelsOf (code' ++ code)).Perm (labelsOf (code ++ code')) := by
    rw [labelsOf_append, labelsOf_append]
    exact List.perm_append_comm
  refine ⟨happ.le, hlabels.nodup_iff.mpr happ.nodup, fun l hl => happ.range l (hlabels.mem_iff.mp hl),
    fun herr => ?_, fun i hi => happ.fits i ?_⟩
  · obtain ⟨ha, hclosed⟩ := happ.closed herr
    refine ⟨ha, fun l hl => hlabels.mem_iff.mpr (hclosed ?_)⟩
    rw [targetsOf_append, List.mem_append] at hl ⊢
    exact hl.symm
  · rw [List.mem_append] at hi ⊢
    exact hi.symm

theorem Shaped.after (h : Shaped a b code) (h' : Shaped b c code') : Shaped a c code' := by
  have hle := h.le
  refine ⟨h.le.trans h'.le, h'.nodup, fun l hl => ?_, fun herr => ?_, h'.fits⟩
  · have := h'.range l hl
    omega
  · obtain ⟨hb, hclosed⟩ := h'.closed herr
    exact ⟨(h.closed hb).1, hclosed⟩

theorem Shaped.counted (h : Shaped a b code) (counter : Int) :
    Shaped a { b with memoCounter := counter } code :=
  ⟨h.le, h.nodup, h.range, h.closed, h.fits⟩

theorem shaped_insn (a : Pctx) {i : PirInsn} (htarget : i.target = none) (hfit : BytesFit i) :
    Shaped a a [.insn i] := by
  refine ⟨le_rfl, List.nodup_nil, fun _ hl => absurd hl List.not_mem_nil, fun h => ⟨h, ?_⟩, ?_⟩
  · rw [targetsOf_insn, htarget]
    exact fun _ hl => hl
  · intro j hj
    cases List.mem_singleton.mp hj
    exact hfit

theorem shaped_openCall (a : Pctx) (name : String) : Shaped a a [.openCall name] :=
  ⟨le_rfl, List.nodup_nil, fun _ hl => absurd hl List.not_mem_nil, fun h => ⟨h, fun _ hl => hl⟩,
    fun _ hi => by cases List.mem_singleton.mp hi⟩

theorem byte_fits (b : UInt8) : 0 ≤ (b.toNat : Int) ∧ (b.toNat : Int) < 256 := by
  have hlt : b.toNat < 256 := b.toNat_lt
  omega

theorem literal_shaped (a : Pctx) (str : List UInt8) :
    Shaped a a (str.map fun b => .insn (.char b.toNat)) := by
  induction str with
  | nil => exact shaped_nil a
  | cons b str ih =>
      have hfit : BytesFit (.char b.toNat) := byte_fits b
      exact (shaped_insn a rfl hfit).append ih

theorem literal_headFirst (str : List UInt8) :
    HeadFirst (str.map fun b => .insn (.char b.toNat)) := by
  cases str with
  | nil => exact .inl rfl
  | cons b str => exact .cons rfl

section Constructs

theorem HeadFirst.matcher {i : Pir} (h : HeadFirst code) (hi : nextInsn code = some i)
    (hm : isMatcher i = true) : code = i :: code.drop 1 := by
  rcases h with rfl | ⟨j, hj, hhead⟩
  · cases hi
  · obtain rfl : j = i := Option.some.inj (hj.symm.trans hi)
    cases code with
    | nil => cases hi
    | cons k rest =>
        cases hhead hm
        rfl

theorem HeadFirst.drop {i : Pir} (h : HeadFirst code) (hi : nextInsn code = some i)
    (hm : isMatcher i = true) :
    labelsOf code.tail = labelsOf code ∧ targetsOf code.tail = targetsOf code := by
  have hcode := h.matcher hi hm
  unfold isMatcher at hm
  split at hm
  · rw [hcode]
    exact ⟨rfl, rfl⟩
  · rw [hcode]
    exact ⟨rfl, rfl⟩
  · cases hm

theorem disjointTest_spec {l1 : Nat} {x y : Option Pir} {test : PirInsn}
    (h : disjointTest l1 x y = some test) :
    ∃ i, x = some (.insn i) ∧ isMatcher (.insn i) = true ∧ test.target = some l1 ∧
      (BytesFit i → BytesFit test) := by
  unfold disjointTest at h
  split at h
  · split at h
    · cases h
    · cases h
      exact ⟨_, rfl, rfl, rfl, fun _ => trivial⟩
  · split at h
    · cases h
    · cases h
      exact ⟨_, rfl, rfl, rfl, id⟩
  · split at h
    · cases h
    · cases h
      exact ⟨_, rfl, rfl, rfl, id⟩
  · cases h

variable {l r sub : List Pir}

theorem altCode_headFirst (l1 l2 : Nat) (l r : List Pir) : HeadFirst (altCode l1 l2 l r) := by
  unfold altCode
  split
  · next test htest =>
      obtain ⟨i, -, -, htarget, -⟩ := disjointTest_spec htest
      apply HeadFirst.cons
      cases test <;> first | rfl | cases htarget
  · exact .cons rfl

theorem altCode_labels (l1 l2 : Nat) (h : HeadFirst l) :
    labelsOf (altCode l1 l2 l r) = labelsOf l ++ [l1] ++ labelsOf r ++ [l2] := by
  unfold altCode
  split
  · next test htest =>
      obtain ⟨i, hi, hm, -⟩ := disjointTest_spec htest
      simp [(h.drop hi hm).1]
  · simp

theorem altCode_targets (l1 l2 : Nat) (h : HeadFirst l) :
    targetsOf (altCode l1 l2 l r) = [l1] ++ targetsOf l ++ [l2] ++ targetsOf r := by
  have hjump : (Insn.jump l2 : PirInsn).target = some l2 := rfl
  unfold altCode
  split
  · next test htest =>
      obtain ⟨i, hi, hm, htarget, -⟩ := disjointTest_spec htest
      simp [(h.drop hi hm).2, htarget, hjump]
  · simp [Insn.target]

theorem altCode_fits {l1 l2 : Nat} {i : PirInsn} (hi : .insn i ∈ altCode l1 l2 l r) (h : HeadFirst l)
    (hl : ∀ i, .insn i ∈ l → BytesFit i) : .insn i ∈ l ++ r ∨ BytesFit i := by
  unfold altCode at hi
  split at hi
  · next test htest =>
      obtain ⟨j, hj, hm, -, hfit⟩ := disjointTest_spec htest
      have htest : BytesFit test := hfit (hl j (by
        rw [h.matcher hj hm]
        exact List.mem_cons_self))
      simp only [List.mem_append, List.mem_cons, Pir.insn.injEq, reduceCtorEq,
        or_false, List.not_mem_nil] at hi ⊢
      rcases hi with (((rfl | hi) | rfl) | hi)
      · exact .inr htest
      · exact .inl (.inl (List.mem_of_mem_drop hi))
      · exact .inr trivial
      · exact .inl (.inr hi)
  · simp only [List.mem_append, List.mem_cons, Pir.insn.injEq, reduceCtorEq,
      or_false, List.not_mem_nil] at hi ⊢
    rcases hi with (((rfl | hi) | rfl) | hi)
    · exact .inr trivial
    · exact .inl (.inl hi)
    · exact .inr trivial
    · exact .inl (.inr hi)

theorem Shaped.alt (hl : Shaped a b l) (hr : Shaped b c r) (h : HeadFirst l) :
    Shaped a (takeLabels c 2) (altCode c.nlabels (c.nlabels + 1) l r) := by
  have happ := hl.append hr
  apply Shaped.wrap (j := 0) happ
  · have hmove : (labelsOf l ++ [c.nlabels] ++ labelsOf r).Perm
        (labelsOf l ++ labelsOf r ++ [c.nlabels]) := by
      rw [List.append_assoc, List.append_assoc]
      exact List.perm_append_comm.append_left _
    rw [altCode_labels _ _ h, labelsOf_append]
    simpa [List.range'] using hmove.append_right [c.nlabels + 1]
  · rw [altCode_targets _ _ h, altCode_labels _ _ h, targetsOf_append]
    intro x hx
    simp only [List.mem_append, List.mem_singleton] at hx ⊢
    tauto
  · exact fun i hi => altCode_fits hi h hl.fits

/-- Entries around the code of a pattern: the labels that are placed are those that
are taken, and they are the only targets. -/
theorem Shaped.surround {pre post : List Pir} {j k : Nat} (h : Shaped (takeLabels a j) b sub)
    (hlabels : (labelsOf pre ++ labelsOf post).Perm
      (List.range' a.nlabels j ++ List.range' b.nlabels k))
    (htargets : targetsOf pre ++ targetsOf post ⊆ labelsOf pre ++ labelsOf post)
    (hfits : ∀ i, .insn i ∈ pre ++ post → BytesFit i) :
    Shaped a (takeLabels b k) (pre ++ sub ++ post) := by
  apply Shaped.wrap h
  · refine List.perm_iff_count.mpr fun x => ?_
    have hcount := hlabels.count_eq x
    simp only [labelsOf_append, List.count_append] at hcount ⊢
    omega
  · intro x hx
    have hx' := @htargets x
    simp only [targetsOf_append, labelsOf_append, List.mem_append] at hx hx' ⊢
    tauto
  · intro i hi
    have hfit := hfits i
    simp only [List.mem_append] at hi hfit
    tauto

theorem Shaped.star (h : Shaped a b sub) :
    Shaped a (takeLabels b 2) (starCode b.nlabels (b.nlabels + 1) sub) := by
  apply Shaped.surround (j := 0) h
  · simp [List.range']
  · simp [Insn.target]
  · simp [BytesFit]

theorem Shaped.memoTree (h : Shaped a b sub) (id : Int) :
    Shaped a (takeLabels b 4)
      (memoTreeCode b.nlabels (b.nlabels + 1) (b.nlabels + 2) (b.nlabels + 3) id sub) := by
  apply Shaped.surround (j := 0) h
  · refine List.perm_iff_count.mpr fun x => ?_
    simp only [labelsOf_insn, labelsOf_label, labelsOf_nil, List.range', List.count_append,
      List.count_cons, List.count_nil, Nat.add_assoc, Nat.reduceAdd]
    omega
  · simp [Insn.target]
  · simp [BytesFit]

theorem Shaped.not (h : Shaped a b sub) :
    Shaped a (takeLabels b 1)
      ([.insn (.choice b.nlabels)] ++ sub ++ [.insn .failTwice, .label b.nlabels]) := by
  apply Shaped.surround (j := 0) h
  · simp [List.range']
  · simp [Insn.target]
  · simp [BytesFit]

theorem Shaped.and (h : Shaped a b sub) :
    Shaped a (takeLabels b 2) ([.insn (.choice b.nlabels)] ++ sub ++
      [.insn (.backCommit (b.nlabels + 1)), .label b.nlabels, .insn .fail,
        .label (b.nlabels + 1)]) := by
  apply Shaped.surround (j := 0) h
  · simp [List.range']
  · simp [Insn.target]
  · simp [BytesFit]

theorem Shaped.memo (h : Shaped (takeLabels a 1) b sub) (id : Int) :
    Shaped a b ([.insn (.memoOpen a.nlabels id)] ++ sub ++ [.insn .memoClose, .label a.nlabels]) := by
  apply Shaped.surround (k := 0) h
  · simp [List.range']
  · simp [Insn.target]
  · simp [BytesFit]

theorem Shaped.check (h : Shaped (takeLabels a 1) b sub) (fn : Option VmChecker) (id flag : Int) :
    Shaped a b
      ([.insn (.checkBegin id flag)] ++ sub ++ [.insn (.checkEnd fn), .label a.nlabels]) := by
  apply Shaped.surround (k := 0) h
  · simp [List.range']
  · simp [Insn.target]
  · simp [BytesFit]

theorem shaped_test (a : Pctx) {i : PirInsn} (htarget : i.target = some a.nlabels)
    (hfit : BytesFit i) : Shaped a (takeLabels a 1) [.insn i, .label a.nlabels] := by
  change Shaped a (takeLabels a 1) ([.insn i] ++ [] ++ [.label a.nlabels])
  apply Shaped.surround (j := 0) (shaped_nil a)
  · simp [List.range']
  · simp [htarget]
  · intro j hj
    simp only [List.mem_append, List.mem_cons, Pir.insn.injEq, reduceCtorEq, List.not_mem_nil,
      or_false] at hj
    rw [hj]
    exact hfit

theorem matchWidth_range {i : PirInsn} {w : Int} (h : matchWidth (.insn i) = some w)
    (hfit : BytesFit i) : 0 ≤ w := by
  unfold matchWidth at h
  split at h
  · next heq =>
      cases h
      decide
  · next heq =>
      cases h
      decide
  · next heq =>
      cases heq
      cases h
      exact hfit.1
  · cases h

theorem capCode_labels (id : Int) (sub : List Pir) : labelsOf (capCode id sub) = labelsOf sub := by
  have hsplit := List.takeWhile_append_dropWhile (p := fun i => (matchWidth i).isSome) (l := sub)
  unfold capCode
  dsimp only
  split
  · simp
  · split
    · simp
    · conv_rhs => rw [← hsplit, labelsOf_append]
      simp

theorem capCode_targets (id : Int) (sub : List Pir) :
    targetsOf (capCode id sub) = targetsOf sub := by
  have hsplit := List.takeWhile_append_dropWhile (p := fun i => (matchWidth i).isSome) (l := sub)
  unfold capCode
  dsimp only
  split
  · simp [Insn.target]
  · split
    · simp [Insn.target]
    · conv_rhs => rw [← hsplit, targetsOf_append]
      simp [Insn.target]

theorem capCode_fits {id : Int} {i : PirInsn} (hi : .insn i ∈ capCode id sub)
    (hsub : ∀ i, .insn i ∈ sub → BytesFit i) : .insn i ∈ sub ∨ BytesFit i := by
  have hsplit := List.takeWhile_append_dropWhile (p := fun i => (matchWidth i).isSome) (l := sub)
  have hback : 0 ≤ ((sub.takeWhile fun i => (matchWidth i).isSome).filterMap matchWidth).sum := by
    refine List.sum_nonneg fun w hw => ?_
    obtain ⟨j, hj, hwidth⟩ := List.mem_filterMap.mp hw
    have hmem : j ∈ sub := (List.takeWhile_sublist _).subset hj
    cases j with
    | insn j => exact matchWidth_range hwidth (hsub j hmem)
    | label l => cases hwidth
    | openCall name => cases hwidth
  unfold capCode at hi
  dsimp only at hi
  split at hi
  · simp only [List.mem_append, List.mem_cons, Pir.insn.injEq, List.not_mem_nil, or_false] at hi
    rcases hi with (rfl | hi) | rfl
    · exact .inr trivial
    · exact .inl hi
    · exact .inr trivial
  · next hrun =>
      have hlt : ((sub.takeWhile fun i => (matchWidth i).isSome).filterMap matchWidth).sum < 256 := by
        by_contra hge
        exact hrun (.inr (by omega))
      split at hi
      · simp only [List.mem_append, List.mem_cons, Pir.insn.injEq, List.not_mem_nil,
          or_false] at hi
        rcases hi with hi | rfl
        · exact .inl hi
        · exact .inr ⟨hback, hlt⟩
      · simp only [List.mem_append, List.mem_cons, Pir.insn.injEq, List.not_mem_nil,
          or_false] at hi
        rw [← hsplit, List.mem_append]
        rcases hi with ((hi | rfl) | hi) | rfl
        · exact .inl (.inl hi)
        · exact .inr ⟨hback, hlt⟩
        · exact .inl (.inr hi)
        · exact .inr trivial

theorem capCode_headFirst (id : Int) (sub : List Pir) : HeadFirst (capCode id sub) := by
  have hrun : ∀ rest, (sub.takeWhile fun i => (matchWidth i).isSome) ≠ [] →
      HeadFirst ((sub.takeWhile fun i => (matchWidth i).isSome) ++ rest) := by
    intro rest hne
    cases sub with
    | nil => exact absurd rfl hne
    | cons i sub =>
        cases hi : (matchWidth i).isSome with
        | false => simp [hi] at hne
        | true =>
            simp only [List.takeWhile_cons, hi, if_true, List.cons_append]
            apply HeadFirst.cons
            unfold matchWidth at hi
            split at hi <;> first | rfl | cases hi
  unfold capCode
  dsimp only
  split
  · exact .cons rfl
  · next hne =>
      have hsome := fun h => hne (.inl h)
      split
      · have hsub := hrun (sub.dropWhile fun i => (matchWidth i).isSome) hsome
        rw [List.takeWhile_append_dropWhile] at hsub
        exact hsub.append (.cons rfl)
      · rw [List.append_assoc, List.append_assoc]
        exact hrun _ hsome

theorem Shaped.cap (h : Shaped a b sub) (id : Int) : Shaped a b (capCode id sub) := by
  apply Shaped.wrap (j := 0) (k := 0) h
  · simp [capCode_labels]
  · rw [capCode_targets]
    exact List.subset_append_left _ _
  · exact fun i hi => capCode_fits hi h.fits

end Constructs

section Grammars

theorem nopNext_labels (code : List Pir) : labelsOf (nopNext code) = labelsOf code := by
  induction code with
  | nil => rfl
  | cons i rest ih =>
      rw [nopNext]
      cases i with
      | label l => exact congrArg (l :: ·) ih
      | openCall name => rfl
      | insn i =>
          split
          · rfl
          · exact ih

theorem nopNext_targets (code : List Pir) : targetsOf (nopNext code) ⊆ targetsOf code := by
  induction code with
  | nil => exact fun _ hl => hl
  | cons i rest ih =>
      rw [nopNext]
      split
      · cases i with
        | label l => exact fun _ hl => hl
        | openCall name => exact fun _ hl => hl
        | insn i =>
            rw [targetsOf_insn, targetsOf_insn]
            exact fun l hl => List.mem_append_right _ hl
      · cases i with
        | label l => exact ih
        | openCall name => exact ih
        | insn i =>
            rw [targetsOf_insn, targetsOf_insn]
            exact List.append_subset.mpr ⟨List.subset_append_left _ _,
              fun l hl => List.mem_append_right _ (ih hl)⟩

theorem nopNext_fits {i : PirInsn} {code : List Pir} (h : .insn i ∈ nopNext code) :
    .insn i ∈ code ∨ BytesFit i := by
  induction code with
  | nil => cases h
  | cons j rest ih =>
      rw [nopNext] at h
      split at h
      · rcases List.mem_cons.mp h with h | h
        · cases h
          exact .inr trivial
        · exact .inl (List.mem_cons_of_mem _ h)
      · rcases List.mem_cons.mp h with h | h
        · exact .inl (h ▸ List.mem_cons_self)
        · exact (ih h).imp_left (List.mem_cons_of_mem _)

/-- What the loop that resolves open calls leaves of some code. -/
structure Resolved (labelOf : String → Option Nat) (code code' : List Pir) : Prop where
  labels : labelsOf code' = labelsOf code
  targets : ∀ l ∈ targetsOf code', l ∈ targetsOf code ∨ ∃ name, labelOf name = some l
  fits : ∀ i, .insn i ∈ code' → .insn i ∈ code ∨ BytesFit i

variable {labelOf : String → Option Nat} {code'' : List Pir}

theorem resolved_refl (code : List Pir) : Resolved labelOf code code :=
  ⟨rfl, fun _ hl => .inl hl, fun _ hi => .inl hi⟩

theorem Resolved.nop (h : Resolved labelOf code code') : Resolved labelOf code (nopNext code') := by
  refine ⟨(nopNext_labels _).trans h.labels, fun l hl => h.targets l (nopNext_targets _ hl),
    fun i hi => ?_⟩
  rcases nopNext_fits hi with hi | hi
  · exact h.fits i hi
  · exact .inr hi

theorem Resolved.call {name : String} {l : Nat} (hl : labelOf name = some l)
    (h : Resolved labelOf code code') {i : PirInsn} (hi : i = .jump l ∨ i = .call l) :
    Resolved labelOf (.openCall name :: code) (.insn i :: code') := by
  have htarget : i.target = some l := by
    rcases hi with rfl | rfl
    · rfl
    · rfl
  have hfit : BytesFit i := by
    rcases hi with rfl | rfl
    · trivial
    · trivial
  refine ⟨h.labels, fun x hx => ?_, fun j hj => ?_⟩
  · rw [targetsOf_insn, htarget] at hx
    rcases List.mem_cons.mp hx with rfl | hx
    · exact .inr ⟨name, hl⟩
    · exact h.targets x hx
  · rcases List.mem_cons.mp hj with hj | hj
    · cases hj
      exact .inr hfit
    · exact (h.fits j hj).imp_left (List.mem_cons_of_mem _)

theorem Resolved.cons (i : Pir) (h : Resolved labelOf code code') :
    Resolved labelOf (i :: code) (i :: code') := by
  have hlabels : ∀ code, labelsOf (i :: code) = (ownLabel i).toList ++ labelsOf code := by
    intro code
    cases i <;> rfl
  have htargets : ∀ code, targetsOf (i :: code) = (ownTarget i).toList ++ targetsOf code := by
    intro code
    cases i with
    | insn i => exact targetsOf_insn i code
    | label l => rfl
    | openCall name => rfl
  refine ⟨?_, fun l hl => ?_, fun j hj => ?_⟩
  · rw [hlabels, hlabels, h.labels]
  · rw [htargets, List.mem_append] at hl ⊢
    rcases hl with hl | hl
    · exact .inl (.inl hl)
    · exact (h.targets l hl).imp_left .inr
  · rcases List.mem_cons.mp hj with hj | hj
    · exact .inl (hj ▸ List.mem_cons_self)
    · exact (h.fits j hj).imp_left (List.mem_cons_of_mem _)

theorem resolveCalls_resolved (labelOf : String → Option Nat) (code : List Pir) :
    Resolved labelOf code (resolveCalls labelOf code).1 := by
  induction code with
  | nil => exact resolved_refl []
  | cons i rest ih =>
      cases i with
      | openCall name =>
          rw [resolveCalls]
          cases hl : labelOf name with
          | none => exact resolved_refl _
          | some l =>
              dsimp only
              split
              · split
                · exact ih.call hl (.inl rfl)
                · exact ih.nop.call hl (.inl rfl)
              · exact ih.call hl (.inr rfl)
      | label l => exact ih.cons _
      | insn i => exact ih.cons _

theorem resolveCalls_headFirst (labelOf : String → Option Nat) (name : String)
    (code post : List Pir) :
    HeadFirst ((resolveCalls labelOf (.openCall name :: code)).1 ++ post) := by
  rw [resolveCalls]
  cases labelOf name with
  | none => exact .cons rfl
  | some l =>
      dsimp only
      split
      · exact .cons rfl
      · exact .cons rfl

end Grammars

/-- The labels of the definitions that are compiled are placed in their code. -/
def Placed (labels : List (Option Nat)) (code : List Pir) : Prop :=
  ∀ i l, labels.getD i none = some l → l ∈ labelsOf code

theorem setErr_err (ctx : Pctx) (name : String) : (setErr ctx name).err ≠ none := by
  unfold setErr
  cases ctx.err with
  | none => exact Option.some_ne_none _
  | some name' => exact Option.some_ne_none _

theorem Placed.skip {labels : List (Option Nat)} (h : Placed labels code) :
    Placed (none :: labels) code := by
  intro i l hl
  cases i with
  | zero => cases hl
  | succ i => exact h i l hl

theorem Shaped.definition {labels : List (Option Nat)} (h : Shaped (takeLabels a 1) b code)
    (h' : Shaped b c code') (hplaced : Placed labels code') :
    Shaped a c ([.label a.nlabels] ++ code ++ [.insn .ret] ++ code') ∧
      Placed (some a.nlabels :: labels) ([.label a.nlabels] ++ code ++ [.insn .ret] ++ code') := by
  have hfn : Shaped a b ([.label a.nlabels] ++ code ++ [.insn .ret]) := by
    apply Shaped.surround (k := 0) h
    · simp [List.range']
    · simp [Insn.target]
    · simp [BytesFit]
  refine ⟨hfn.append h', fun i l hl => ?_⟩
  cases i with
  | zero =>
      cases hl
      simp
  | succ i =>
      rw [labelsOf_append]
      exact List.mem_append_right _ (hplaced i l hl)

section Entry

variable {labelOf : String → Option Nat} {start : String} {fns : List Pir}

theorem Shaped.entry (h : Shaped (takeLabels a 1) b fns)
    (hplaced : ∀ name l, labelOf name = some l → l ∈ labelsOf fns)
    (hres : Resolved labelOf ([.openCall start, .insn (.jump a.nlabels)] ++ fns) code) :
    Shaped a b (code ++ [.label a.nlabels]) := by
  have hlabels : labelsOf code = labelsOf fns := hres.labels
  apply Shaped.wrap (k := 0) h
  · rw [labelsOf_append, hlabels]
    simp [List.range']
  · intro l hl
    rw [targetsOf_append, targetsOf_label, targetsOf_nil, List.append_nil] at hl
    rw [labelsOf_append, hlabels]
    rcases hres.targets l hl with hl | ⟨name, hname⟩
    · simp only [targetsOf_append, targetsOf_openCall, targetsOf_insn, targetsOf_nil, Insn.target,
        Option.toList_some, List.append_nil, List.mem_append, List.mem_singleton] at hl
      rcases hl with rfl | hl
      · exact List.mem_append_right _ (List.mem_append_right _ List.mem_cons_self)
      · exact List.mem_append_left _ hl
    · exact List.mem_append_right _ (List.mem_append_left _ (hplaced name l hname))
  · intro i hi
    simp only [List.mem_append, List.mem_singleton, reduceCtorEq, or_false] at hi
    rcases hres.fits i hi with hi | hi
    · simp only [List.mem_append, List.mem_cons, reduceCtorEq, false_or, Pir.insn.injEq,
        List.not_mem_nil, or_false] at hi
      rcases hi with rfl | hi
      · exact .inr trivial
      · exact .inl hi
    · exact .inr hi

theorem Shaped.entry_open (h : Shaped (takeLabels a 1) b fns) (name : String)
    (hres : Resolved labelOf ([.openCall start, .insn (.jump a.nlabels)] ++ fns) code) :
    Shaped a (setErr b name) code := by
  have hlabels : labelsOf code = labelsOf fns := hres.labels
  have hle : a.nlabels + 1 ≤ b.nlabels := h.le
  refine ⟨?_, ?_, fun l hl => ?_, fun herr => absurd herr (setErr_err _ _), fun i hi => ?_⟩
  · change a.nlabels ≤ b.nlabels
    omega
  · rw [hlabels]
    exact h.nodup
  · have hrange : a.nlabels + 1 ≤ l ∧ l < b.nlabels := h.range l (hlabels ▸ hl)
    change a.nlabels ≤ l ∧ l < b.nlabels
    omega
  · rcases hres.fits i hi with hi | hi
    · simp only [List.mem_append, List.mem_cons, reduceCtorEq, false_or, Pir.insn.injEq,
        List.not_mem_nil, or_false] at hi
      rcases hi with rfl | hi
      · trivial
      · exact h.fits i hi
    · exact hi

end Entry

theorem compile_shaped (n : Nat) :
    (∀ ctx p, Returns (fun x => Shaped ctx x.2 x.1 ∧ HeadFirst x.1) (compilePat n ctx p)) ∧
    (∀ ctx p count, Returns (fun x => Shaped ctx x.2 x.1 ∧ HeadFirst x.1)
      (compileRepeat n ctx p count)) ∧
    (∀ ctx start g, Returns (fun x => Shaped ctx x.2 x.1 ∧ HeadFirst x.1)
      (compileGrammar n ctx start g)) ∧
    ∀ ctx keep i g, Returns (fun x => Shaped ctx x.2.2 x.1 ∧ Placed x.2.1 x.1)
      (compileDefs n ctx keep i g) := by
  induction n with
  | zero =>
      refine ⟨?_, ?_, ?_, ?_⟩ <;>
        · intros
          rintro x ⟨⟩
  | succ n ih =>
      obtain ⟨ihp, ihr, ihg, ihd⟩ := ih
      refine ⟨fun ctx p => ?_, fun ctx p count => ?_, fun ctx start g => ?_,
        fun ctx keep i g => ?_⟩
      · cases p with
        | alt l r =>
            refine Returns.skip fun lp => Returns.skip fun rp => ?_
            split
            · exact returns_some ⟨shaped_insn ctx rfl trivial, .cons rfl⟩
            · exact Returns.bind (ihp _ _) fun x hx => Returns.bind (ihp _ _) fun y hy =>
                returns_some ⟨hx.1.alt hy.1 hx.2, altCode_headFirst _ _ _ _⟩
        | seq l r =>
            exact Returns.skip fun lp => Returns.bind (ihp _ _) fun x hx =>
              Returns.skip fun rp => Returns.bind (ihp _ _) fun y hy =>
                returns_some ⟨hx.1.append hy.1, hx.2.append hy.2⟩
        | star p =>
            refine Returns.skip fun sp => ?_
            split
            · exact returns_some ⟨shaped_insn ctx rfl trivial, .cons rfl⟩
            · exact Returns.skip fun bp => Returns.bind (ihp _ _) fun x hx =>
                returns_some ⟨(hx.1.memoTree _).counted _, .inr ⟨_, rfl, Bool.noConfusion⟩⟩
            · exact Returns.bind (ihp _ _) fun x hx => returns_some ⟨hx.1.star, .cons rfl⟩
        | plus p =>
            exact Returns.skip fun sp => Returns.bind (ihp _ _) fun x hx =>
              Returns.bind (ihp _ _) fun y hy =>
                returns_some ⟨hx.1.append_rev hy.1, hy.2.append hx.2⟩
        | optional p =>
            refine Returns.skip fun sp => ?_
            split
            · next b =>
                have hfit : BytesFit (.testCharNoChoice b.toNat ctx.nlabels) := byte_fits b
                exact returns_some ⟨shaped_test ctx rfl hfit, .cons rfl⟩
            · next set =>
                have hfit : BytesFit (.testSetNoChoice set ctx.nlabels) := trivial
                exact returns_some ⟨shaped_test ctx rfl hfit, .cons rfl⟩
            · exact ihp _ _
        | not p =>
            exact Returns.skip fun sp => Returns.bind (ihp _ _) fun x hx =>
              returns_some ⟨hx.1.not, .cons rfl⟩
        | and p =>
            exact Returns.skip fun sp => Returns.bind (ihp _ _) fun x hx =>
              returns_some ⟨hx.1.and, .cons rfl⟩
        | cap p id =>
            exact Returns.skip fun sp => Returns.bind (ihp _ _) fun x hx =>
              returns_some ⟨hx.1.cap id, capCode_headFirst _ _⟩
        | memo p id =>
            exact Returns.skip fun sp => Returns.bind (ihp _ _) fun x hx =>
              returns_some ⟨hx.1.memo id, .cons rfl⟩
        | check p fn id flag =>
            exact Returns.skip fun sp => Returns.bind (ihp _ _) fun x hx =>
              returns_some ⟨hx.1.check fn id flag, .cons rfl⟩
        | search p =>
            exact Returns.skip fun sp => Returns.bind (ihp _ _) fun x hx => fun y hy =>
              ⟨hx.1.after (ihg _ _ _ y hy).1, (ihg _ _ _ y hy).2⟩
        | grammar start defs => exact ihg ctx start defs
        | inlined name p => exact ihp ctx p
        | errorRecover msg p =>
            have hmsg : BytesFit (.error msg) := trivial
            exact Returns.bind (ihp ctx p) fun x hx =>
              returns_some ⟨(shaped_insn ctx rfl hmsg).append hx.1, .cons rfl⟩
        | repeated p count => exact ihr ctx p count
        | literal str => exact returns_some ⟨literal_shaped ctx str, literal_headFirst str⟩
        | cls set => exact returns_some ⟨shaped_insn ctx rfl trivial, .cons rfl⟩
        | nonterm name => exact returns_some ⟨shaped_openCall ctx name, .cons rfl⟩
        | dot b =>
            have hfit : BytesFit (.any b.toNat) := byte_fits b
            exact returns_some ⟨shaped_insn ctx rfl hfit, .cons rfl⟩
        | error msg =>
            have hmsg : BytesFit (.error msg) := trivial
            have hend : BytesFit (.endOp 1) := .inr rfl
            exact returns_some ⟨(shaped_insn ctx rfl hmsg).append (shaped_insn ctx rfl hend),
              .cons rfl⟩
        | emptyop b =>
            have hfit : BytesFit (.empty b.toNat) := byte_fits b
            exact returns_some ⟨shaped_insn ctx rfl hfit, .cons rfl⟩
        | empty => exact returns_some ⟨shaped_nil ctx, .inl rfl⟩
      · cases count with
        | zero => exact returns_some ⟨shaped_nil ctx, .inl rfl⟩
        | succ count =>
            exact Returns.bind (ihp ctx p) fun x hx => Returns.bind (ihr _ _ _) fun y hy =>
              returns_some ⟨hx.1.append hy.1, hx.2.append hy.2⟩
      · refine Returns.skip fun g' => ?_
        dsimp only
        split
        · exact returns_some ⟨⟨le_rfl, List.nodup_nil, fun _ hl => absurd hl List.not_mem_nil,
            fun h => absurd h (setErr_err _ _), fun _ hi => absurd hi List.not_mem_nil⟩, .inl rfl⟩
        · split
          · exact ihp _ _
          · refine Returns.bind (ihd _ _ _ _) fun x hx => ?_
            obtain ⟨fns, labels, ctx'⟩ := x
            dsimp only
            split
            · next name _ =>
                refine returns_some ⟨hx.1.entry_open name (resolveCalls_resolved _ _), ?_⟩
                rw [← List.append_nil (resolveCalls _ _).1]
                exact resolveCalls_headFirst _ _ _ _
            · refine returns_some ⟨hx.1.entry (fun name l hl => ?_) (resolveCalls_resolved _ _),
                resolveCalls_headFirst _ _ _ _⟩
              obtain ⟨i, -, hi⟩ := Option.bind_eq_some_iff.mp hl
              exact hx.2 i l hi
      · cases g with
        | nil =>
            refine returns_some ⟨shaped_nil ctx, fun i l hl => ?_⟩
            simp at hl
        | cons name p rest =>
            rw [compileDefs]
            split
            · refine Returns.bind (ihp _ _) fun x hx => Returns.bind (ihd _ _ _ _) fun y hy => ?_
              exact returns_some (hx.1.definition hy.1 hy.2)
            · refine Returns.bind (ihd _ _ _ _) fun y hy => ?_
              exact returns_some ⟨hy.1, hy.2.skip⟩

section Heads

/-- `next_insn_idx`: the index of the next instruction; the length of the list when there
is none. -/
def nextInsnIdx (code : List Pir) (k : Nat) : Nat :=
  k + (code.drop k).findIdx isReal

theorem nextInsnIdx_zero {i : Pir} (hi : isReal i = true) : nextInsnIdx (i :: code) 0 = 0 := by
  rw [nextInsnIdx, List.drop_zero, List.findIdx_cons, hi]
  rfl

theorem isReal_of_nextInsn {i : Pir} (h : nextInsn code = some i) : isReal i = true :=
  List.find?_some h

theorem nextInsnIdx_label {i : Pir} {x l : Nat} (hi : isReal i = true)
    (hx : (i :: code)[x]? = some (.label l)) : nextInsnIdx (i :: code) x ≠ 0 := by
  cases x with
  | zero =>
      cases hx
      cases hi
  | succ x =>
      rw [nextInsnIdx]
      omega

/-- The first instruction of compiled code, when it matches a byte or a set, is the first
entry and no jump leads to it. So the code of an ordered choice that drops the first entry
of its left branch drops what it has tested. -/
theorem compilePat_head {n : Nat} {ctx ctx' : Pctx} {p : Pat}
    (h : compilePat n ctx p = some (code, ctx')) :
    (∀ i, nextInsn code = some i → isMatcher i = true →
      nextInsnIdx code 0 = 0 ∧ code[0]? = some i ∧
        ∀ j ∈ code, ∀ l, ownTarget j = some l → ∀ x, code[x]? = some (.label l) →
          nextInsnIdx code x ≠ 0) ∧
      ∀ l1 right test, disjointTest l1 (nextInsn code) right = some test →
        ∃ i, nextInsn code = some i ∧ code = i :: code.drop 1 := by
  have hhead : HeadFirst code := ((compile_shaped n).1 ctx p _ h).2
  constructor
  · intro i hi hm
    have hcode := hhead.matcher hi hm
    have hreal := isReal_of_nextInsn hi
    rw [hcode]
    refine ⟨nextInsnIdx_zero hreal, rfl, fun _ _ l _ x hx => ?_⟩
    exact nextInsnIdx_label hreal hx
  · intro l1 right test htest
    obtain ⟨i, hi, hm, -, -⟩ := disjointTest_spec htest
    exact ⟨_, hi, hhead.matcher hi hm⟩

/-- The code of `'a' 'b'*`. -/
def headCode : List Pir :=
  [.insn (.char 97), .insn (.choice 1), .label 0, .insn (.char 98), .insn (.partialCommit 0),
    .label 1]

theorem compilePat_head_seq :
    (∀ i, nextInsn headCode = some i → isMatcher i = true →
      nextInsnIdx headCode 0 = 0 ∧ headCode[0]? = some i ∧
        ∀ j ∈ headCode, ∀ l, ownTarget j = some l → ∀ x, headCode[x]? = some (.label l) →
          nextInsnIdx headCode x ≠ 0) ∧
      ∀ l1 right test, disjointTest l1 (nextInsn headCode) right = some test →
        ∃ i, nextInsn headCode = some i ∧ headCode = i :: headCode.drop 1 :=
  @compilePat_head headCode 5 ⟨0, 0, none⟩ ⟨2, 0, none⟩ (.seq (.literal [97]) (.star (.literal [98])))
    rfl

end Heads

end Libpeg.CodeShape
