import Libpeg.CodeRoundTrip
import Libpeg.CodeShape
import Libpeg.Optimize
import Mathlib.Data.List.Find
import Mathlib.Data.List.GetD

namespace Libpeg.Linking

open Libpeg.Charset Libpeg.Opcode Libpeg.Code Libpeg.CodeRoundTrip Libpeg.Pattern Libpeg.Compile
open Libpeg.Optimize Libpeg.CodeShape

/-- The instruction that is encoded for an entry. -/
def realInsn : Pir → Option PirInsn
  | .insn .nop => none
  | .insn i => some i
  | _ => none

def encoded (code : List Pir) : List PirInsn :=
  code.filterMap realInsn

/-- The number of instructions that are encoded in front of a label. -/
def place (code : List Pir) (l : Nat) : Nat :=
  (encoded (code.take (labelIdx code l))).length

section Encoder

variable {code : List Pir} {e : Encoder} {l : Nat}

@[simp] theorem encoded_nil : encoded [] = [] :=
  rfl

@[simp] theorem encoded_append (code code' : List Pir) :
    encoded (code ++ code') = encoded code ++ encoded code' :=
  List.filterMap_append

theorem encoded_insn {i : PirInsn} (hi : i ≠ .nop) : encoded [.insn i] = [i] := by
  cases i <;> first | rfl | exact absurd rfl hi

theorem mem_labelsOf : l ∈ labelsOf code ↔ .label l ∈ code := by
  refine List.mem_filterMap.trans ⟨?_, fun h => ⟨_, h, rfl⟩⟩
  rintro ⟨i, hi, hl⟩
  cases i with
  | label l' =>
      cases hl
      exact hi
  | openCall name => cases hl
  | insn i => cases hl

theorem mem_encoded {i : PirInsn} : i ∈ encoded code ↔ .insn i ∈ code ∧ i ≠ .nop := by
  refine List.mem_filterMap.trans ⟨?_, fun h => ⟨_, h.1, ?_⟩⟩
  · rintro ⟨j, hj, hi⟩
    unfold realInsn at hi
    split at hi
    · cases hi
    · next hne =>
        cases hi
        exact ⟨hj, fun h => hne h⟩
    · cases hi
  · cases i <;> first | rfl | exact absurd rfl h.2

theorem target_mem {i : PirInsn} (hi : .insn i ∈ code) (hl : i.target = some l) :
    l ∈ targetsOf code :=
  List.mem_filterMap.mpr ⟨_, hi, hl⟩

theorem labelIdx_append (code : List Pir) (i : Pir) (l : Nat) :
    labelIdx (code ++ [i]) l = if marks l i then code.length else labelIdx code l := by
  have hlast : (code ++ [i])[code.length]? = some i := by simp
  have hfind : (List.range code.length).reverse.find? (fun k => (code ++ [i])[k]?.any (marks l)) =
      (List.range code.length).reverse.find? fun k => code[k]?.any (marks l) := by
    refine List.find?_congr fun k hk => ?_
    have hlt : k < code.length := by simpa using hk
    rw [List.getElem?_append_left hlt]
  unfold labelIdx
  rw [List.length_append, List.length_singleton, List.range_succ, List.reverse_append,
    List.reverse_singleton, List.singleton_append, List.find?_cons, hfind, hlast, Option.any_some]
  split
  · next h => rw [if_pos h]; rfl
  · next h => rw [if_neg (by simp [h])]

theorem labelIdx_le (code : List Pir) (l : Nat) : labelIdx code l ≤ code.length := by
  rcases labelIdx_spec code l with h | h
  · rw [h]
    exact Nat.zero_le _
  · exact (List.getElem?_eq_some_iff.mp h).1.le

theorem place_append {i : Pir} (h : marks l i = false) : place (code ++ [i]) l = place code l := by
  unfold place
  rw [labelIdx_append, h, if_neg Bool.false_ne_true, List.take_append_of_le_length (labelIdx_le code l)]

theorem place_label : place (code ++ [.label l]) l = (encoded code).length := by
  unfold place
  rw [labelIdx_append, if_pos (by simp [marks]), List.take_left']
  rfl

/-- What the encoder has done with the entries of a list. -/
structure Encoded (code : List Pir) (e : Encoder) : Prop where
  insns : (listing e.calls).insns = (encoded code).map (encInsn e.map)
  length : (listing e.calls).labels.length = e.map.length
  labels : ∀ l ∈ labelsOf code, (listing e.calls).labels.getD (e.map.idxOf l) 0 = place code l
  placed : labelsOf code ⊆ e.map
  targets : targetsOf code ⊆ e.map
  checkers : e.checkers = (encoded code).flatMap checkerOf

theorem listing_snoc (calls : List Call) (c : Call) :
    listing (calls ++ [c]) = (listing calls).call c := by
  rw [listing, List.foldl_append]
  rfl

theorem encInsn_append {i : PirInsn} {map : List Nat} (h : ∀ l, i.target = some l → l ∈ map)
    (new : List Nat) : encInsn (map ++ new) i = encInsn map i := by
  have hidx : ∀ l, i.target = some l → (map ++ new).idxOf l = map.idxOf l :=
    fun l hl => List.idxOf_append_of_mem (h l hl)
  cases i with
  | endOp a => rfl
  | _ => simp_all [encInsn, Insn.map, Insn.target]

theorem encInsn_ne_nop {i : PirInsn} (hi : i ≠ .nop) (map : List Nat) : encInsn map i ≠ .nop := by
  cases i <;> first | exact absurd rfl hi | exact fun h => by cases h

theorem Encoded.label (h : Encoded code e) (l : Nat) :
    Encoded code (encLabel e l).2 ∧ l ∈ (encLabel e l).2.map ∧
      (encLabel e l).1 = (encLabel e l).2.map.idxOf l := by
  unfold encLabel
  split
  · next hlt => exact ⟨h, List.idxOf_lt_length_iff.mp hlt, rfl⟩
  · next hge =>
      have hnew : l ∉ e.map := fun hmem => hge (List.idxOf_lt_length_iff.mpr hmem)
      have hlisting : listing (e.calls ++ [.label]) = ⟨(listing e.calls).insns,
          (listing e.calls).labels ++ [(listing e.calls).insns.length]⟩ := listing_snoc _ _
      refine ⟨⟨?_, ?_, fun l' hl' => ?_, ?_, ?_, h.checkers⟩, ?_, ?_⟩
      · rw [hlisting, h.insns]
        refine List.map_congr_left fun i hi => (encInsn_append (fun l hl => h.targets ?_) [l]).symm
        exact target_mem (mem_encoded.mp hi).1 hl
      · simp [hlisting, h.length]
      · have hmem := h.placed hl'
        have hlt := List.idxOf_lt_length_iff.mpr hmem
        rw [hlisting, List.idxOf_append_of_mem hmem, ← h.labels l' hl']
        rw [List.getD_append _ _ _ _ (h.length ▸ hlt)]
      · exact List.subset_append_of_subset_left _ h.placed
      · exact List.subset_append_of_subset_left _ h.targets
      · simp
      · rw [List.idxOf_append_of_notMem hnew]
        simp

theorem Encoded.target (h : Encoded code e) (i : PirInsn) :
    Encoded code (encTarget e i) ∧ ∀ l, i.target = some l → l ∈ (encTarget e i).map := by
  unfold encTarget
  split
  · next l hl =>
      refine ⟨(h.label l).1, fun l' hl' => ?_⟩
      cases hl.symm.trans hl'
      exact (h.label l).2.1
  · next hl =>
      refine ⟨h, fun l hl' => ?_⟩
      cases hl.symm.trans hl'

theorem Encoded.mark (h : Encoded code e) (hl : l ∈ e.map) :
    Encoded (code ++ [.label l]) { e with calls := e.calls ++ [.mark (e.map.idxOf l)] } := by
  have hlt := List.idxOf_lt_length_iff.mpr hl
  have hlisting : listing (e.calls ++ [.mark (e.map.idxOf l)]) = ⟨(listing e.calls).insns,
      (listing e.calls).labels.set (e.map.idxOf l) (listing e.calls).insns.length⟩ :=
    listing_snoc _ _
  have hencoded : encoded (code ++ [.label l]) = encoded code := by
    rw [encoded_append]
    exact List.append_nil _
  refine ⟨?_, ?_, fun l' hl' => ?_, ?_, ?_, ?_⟩
  · rw [hlisting, hencoded]
    exact h.insns
  · rw [hlisting, List.length_set]
    exact h.length
  · rw [hlisting, List.getD_eq_getElem?_getD]
    by_cases heq : l' = l
    · have hlen : (listing e.calls).insns.length = (encoded code).length := by
        rw [h.insns, List.length_map]
      rw [heq, place_label, List.getElem?_set_self (h.length ▸ hlt), hlen]
      rfl
    · have hmem : l' ∈ labelsOf code := by
        simpa [heq] using hl'
      have hidx : e.map.idxOf l ≠ e.map.idxOf l' := fun hidx =>
        heq ((List.idxOf_inj hl).mp hidx).symm
      rw [List.getElem?_set_ne hidx, ← List.getD_eq_getElem?_getD, h.labels l' hmem, place_append]
      simpa [marks] using fun h => heq h.symm
  · rw [labelsOf_append]
    exact List.append_subset.mpr ⟨h.placed, by simpa using hl⟩
  · rw [targetsOf_append]
    exact List.append_subset.mpr ⟨h.targets, List.nil_subset _⟩
  · rw [hencoded]
    exact h.checkers

theorem Encoded.insn (h : Encoded code e) {i : PirInsn} (hi : i ≠ .nop)
    (htarget : ∀ l, i.target = some l → l ∈ e.map) :
    Encoded (code ++ [.insn i]) { e with calls := e.calls ++ [.emit (encInsn e.map i)]
                                         checkers := e.checkers ++ checkerOf i } := by
  have hlisting : listing (e.calls ++ [.emit (encInsn e.map i)]) =
      ⟨(listing e.calls).insns ++ [encInsn e.map i], (listing e.calls).labels⟩ := by
    rw [listing_snoc, listing_call_emit _ _ (encInsn_ne_nop hi _)]
  have hencoded : encoded (code ++ [.insn i]) = encoded code ++ [i] := by
    rw [encoded_append, encoded_insn hi]
  have hlabels : labelsOf (code ++ [.insn i]) = labelsOf code := by simp
  refine ⟨?_, ?_, fun l hl => ?_, ?_, ?_, ?_⟩
  · rw [hlisting, hencoded, h.insns, List.map_append]
    rfl
  · rw [hlisting]
    exact h.length
  · rw [hlisting, place_append rfl]
    exact h.labels l (hlabels ▸ hl)
  · rw [hlabels]
    exact h.placed
  · rw [targetsOf_append]
    refine List.append_subset.mpr ⟨h.targets, fun l hl => htarget l ?_⟩
    simpa using hl
  · rw [hencoded, List.flatMap_append, h.checkers]
    simp

theorem Encoded.skip (h : Encoded code e) {i : Pir} (hi : realInsn i = none)
    (hlabel : isLabel i = false) : Encoded (code ++ [i]) e := by
  have hencoded : encoded (code ++ [i]) = encoded code := by
    simp [encoded, hi]
  have hown : ownLabel i = none ∧ ownTarget i = none := by
    cases i with
    | label l => cases hlabel
    | openCall name => exact ⟨rfl, rfl⟩
    | insn i => cases i <;> first | exact ⟨rfl, rfl⟩ | cases hi
  have hlabels : labelsOf (code ++ [i]) = labelsOf code := by
    simp [labelsOf, hown.1]
  have htargets : targetsOf (code ++ [i]) = targetsOf code := by
    simp [targetsOf, hown.2]
  have hmark : ∀ l, marks l i = false := by
    intro l
    cases i <;> first | rfl | cases hlabel
  refine ⟨?_, h.length, fun l hl => ?_, ?_, ?_, ?_⟩
  · rw [hencoded]
    exact h.insns
  · rw [place_append (hmark l)]
    exact h.labels l (hlabels ▸ hl)
  · rw [hlabels]
    exact h.placed
  · rw [htargets]
    exact h.targets
  · rw [hencoded]
    exact h.checkers

theorem Encoded.step (h : Encoded code e) (i : Pir) : Encoded (code ++ [i]) (enc e i) := by
  cases i with
  | label l =>
      obtain ⟨hlabel, hmem, hidx⟩ := h.label l
      have hmark := hlabel.mark hmem
      rw [← hidx] at hmark
      exact hmark
  | openCall name => exact h.skip rfl rfl
  | insn i =>
      obtain ⟨htarget, hmem⟩ := h.target i
      by_cases hi : i = .nop
      · rw [hi]
        exact h.skip rfl rfl
      · have heq : enc e (.insn i) = { encTarget e i with
            calls := (encTarget e i).calls ++ [.emit (encInsn (encTarget e i).map i)]
            checkers := (encTarget e i).checkers ++ checkerOf i } := by
          cases i <;> first | rfl | exact absurd rfl hi
        rw [heq]
        exact htarget.insn hi hmem

theorem enc_encoded (code : List Pir) : Encoded code (code.foldl enc ⟨[], [], []⟩) := by
  induction code using List.reverseRecOn with
  | nil => exact ⟨rfl, rfl, fun l hl => absurd hl List.not_mem_nil, List.nil_subset _,
      List.nil_subset _, rfl⟩
  | append_singleton code i ih =>
      rw [List.foldl_append]
      exact ih.step i

end Encoder

/-- The pre-decoded form of an instruction as it is meant: labels are resolved to
instructions, a message to its index, a checker to its number; the other operands
stay. -/
def meant (at_ : Nat → Nat) (errors : List String) (k : Nat) (i : PirInsn) : VmInsn :=
  i.map at_ id id (fun msg => errors.idxOf msg) fun _ => k

def meantFrom (at_ : Nat → Nat) (errors : List String) : Nat → List PirInsn → List VmInsn
  | _, [] => []
  | k, i :: is => meant at_ errors k i :: meantFrom at_ errors (k + (checkerOf i).length) is

/-- The pre-decoded form of an instruction, with its operands cut to size. -/
def cut (at_ : Nat → Nat) (errors : List String) (k : Nat) : PirInsn → VmInsn
  | .endOp a => .endOp (if a ≠ 0 then 1 else 0)
  | i => i.map at_ (fun a => ((UInt8.ofInt a).toNat : Int)) (fun a => (Int16.ofInt a).toInt)
      (fun msg => errors.idxOf msg % 16777216) fun _ => k % 16777216

def cutFrom (at_ : Nat → Nat) (errors : List String) : Nat → List PirInsn → List VmInsn
  | _, [] => []
  | k, i :: is => cut at_ errors k i :: cutFrom at_ errors (k + (checkerOf i).length) is

section Program

variable {code : List Pir} {e : Encoder} {labels : List Nat} {errors : List String}

theorem checkCount_encInsn (map : List Nat) (i : PirInsn) :
    checkCount (encInsn map i) = (checkerOf i).length := by
  cases i <;> rfl

theorem rawDecoded_encInsn {map : List Nat} {i : PirInsn} {at_ : Nat → Nat} (k : Nat)
    (hat : ∀ l, i.target = some l → labels.getD (map.idxOf l) 0 = at_ l) :
    rawDecoded (fun l => labels.getD l 0) errors k (encInsn map i) = cut at_ errors k i := by
  cases i with
  | endOp a =>
      by_cases ha : a = 0
      · simp [encInsn, rawDecoded, cut, ha]
      · simp [encInsn, rawDecoded, cut, ha]
  | _ => simp_all [encInsn, rawDecoded, cut, Insn.map, Insn.target]

theorem linkedFrom_encInsn {map : List Nat} {at_ : Nat → Nat} {is : List PirInsn} (k : Nat)
    (hat : ∀ i ∈ is, ∀ l, i.target = some l → labels.getD (map.idxOf l) 0 = at_ l) :
    linkedFrom labels errors k (is.map (encInsn map) ++ [.endOp 0]) =
      cutFrom at_ errors k is ++ [.endOp 0] := by
  induction is generalizing k with
  | nil => rfl
  | cons i is ih =>
      have hi := hat i List.mem_cons_self
      have his := fun j hj => hat j (List.mem_cons_of_mem i hj)
      rw [List.map_cons, List.cons_append, linkedFrom, cutFrom, rawDecoded_encInsn k hi,
        checkCount_encInsn, ih _ his, List.cons_append]

theorem foldl_addChecker (fns : List (Option VmChecker)) (c : VmCode) :
    (fns.foldl vmCodeAddChecker c).prog = c.prog ∧
      (fns.foldl vmCodeAddChecker c).errors = c.errors ∧
      (fns.foldl vmCodeAddChecker c).checkers = c.checkers ++ fns := by
  induction fns generalizing c with
  | nil => exact ⟨rfl, rfl, (List.append_nil _).symm⟩
  | cons fn fns ih =>
      rw [List.foldl_cons]
      obtain ⟨hprog, herrors, hcheckers⟩ := ih (vmCodeAddChecker c fn)
      refine ⟨hprog, herrors, ?_⟩
      rw [hcheckers]
      simp [vmCodeAddChecker]

def messageOf : PirInsn → List String
  | .error msg => [msg]
  | _ => []

/-- The program of an instruction list. -/
structure Linked (code : List Pir) (c : VmCode) : Prop where
  prog : c.prog = cutFrom (place code) c.errors 0 (encoded code) ++ [.endOp 0]
  errors_nodup : c.errors.Nodup
  errors : ∀ msg, msg ∈ c.errors ↔ msg ∈ (encoded code).flatMap messageOf
  checkers : c.checkers = (encoded code).flatMap checkerOf

theorem vmProgFinish_errors {p : VmProg} {c : VmCode} (h : vmProgFinish p = .ok c) :
    c.errors = p.errors := by
  unfold vmProgFinish at h
  dsimp only at h
  cases hpatch : patchFixups (emitOpU8 p .endOp 0).labels (emitOpU8 p .endOp 0).fixups
      (emitOpU8 p .endOp 0).code with
  | error msg =>
      rw [hpatch] at h
      cases h
  | ok insns =>
      rw [hpatch] at h
      cases h
      rfl

theorem errorOperand_encInsn (map : List Nat) (i : PirInsn) (msg : String) :
    errorOperand (encInsn map i) = some msg ↔ msg ∈ messageOf i := by
  cases i <;> simp [encInsn, errorOperand, messageOf, Insn.map, eq_comm]

theorem build_linked {p : VmProg} {c : VmCode} (hclosed : targetsOf code ⊆ labelsOf code)
    (h : Encoded code e) (hrun : runCalls e.calls vmProgNew = .ok p)
    (hfinish : vmProgFinish p = .ok c) : Linked code (e.checkers.foldl vmCodeAddChecker c) := by
  obtain ⟨hprog, hnone⟩ := vmProgFinish_linked hrun hfinish
  obtain ⟨hbuilt, -⟩ := runCalls_built_of_ok built_new (by simp [vmProgNew]) hrun
  have hbuilt : Built p (listing e.calls) := hbuilt
  have hinsns : (listing e.calls).insns = emitsOf e.calls := by
    simpa [listing] using listing_insns e.calls ⟨[], []⟩
  obtain ⟨hprog', herrors', hcheckers'⟩ := foldl_addChecker e.checkers c
  have hat : ∀ i ∈ encoded code, ∀ l, i.target = some l →
      (listing e.calls).labels.getD (e.map.idxOf l) 0 = place code l :=
    fun i hi l hl => h.labels l (hclosed (target_mem (mem_encoded.mp hi).1 hl))
  refine ⟨?_, ?_, fun msg => ?_, ?_⟩
  · rw [hprog', herrors', hprog, ← hinsns, h.insns, linkedFrom_encInsn 0 hat]
  · rw [herrors', vmProgFinish_errors hfinish]
    exact hbuilt.errors_nodup
  · rw [herrors', vmProgFinish_errors hfinish, hbuilt.errors_eq, h.insns]
    simp [errorOperand_encInsn]
  · rw [hcheckers', hnone, h.checkers, List.nil_append]

end Program

section Passes

variable {code : List Pir} {i : PirInsn}

/-- An instruction of the optimized list is one of the list, or a test that took
the place of a choice and a matcher. -/
theorem mem_patOptimize (h : .insn i ∈ patOptimize code) :
    .insn i ∈ code ∨ i = .nop ∨ ∃ l d, .insn (.choice l) ∈ code ∧ d ∈ code ∧
      headFail (.insn (.choice l)) d = some i := by
  obtain ⟨k, hk⟩ := List.mem_iff_getElem?.mp h
  cases (patOptimize_upto code).entry k with
  | same h => exact .inl (List.mem_of_getElem? (h ▸ hk))
  | copied _ _ ht _ hd =>
      cases hk.symm.trans hd
      exact .inl (List.mem_of_getElem? ht)
  | fused h =>
      obtain ⟨c, d, test, hc, hd, hfail, htest, -⟩ := h
      obtain ⟨⟨l, rfl⟩, -⟩ := headFail_choice hfail
      cases hk.symm.trans htest
      exact .inr (.inr ⟨l, d, List.mem_of_getElem? hc, List.mem_of_getElem? hd, hfail⟩)
  | gone hj h =>
      obtain ⟨c, d, test, -, -, -, -, hnop⟩ := h
      rw [hj, hnop] at hk
      cases hk
      exact .inr (.inl rfl)

theorem labels_patOptimize (code : List Pir) : labelsOf code ⊆ labelsOf (patOptimize code) := by
  intro l hl
  obtain ⟨k, hk⟩ := List.mem_iff_getElem?.mp (mem_labelsOf.mp hl)
  rcases ((patOptimize_upto code).entry k).plain with heq | ⟨c, d, hc, -⟩
  · exact mem_labelsOf.mpr (List.mem_of_getElem? (heq.trans hk))
  · cases hk.symm.trans hc

theorem headFail_test {l : Nat} {d : Pir} (h : headFail (.insn (.choice l)) d = some i) :
    i.target = some l ∧ ∃ j, d = .insn j ∧ (BytesFit j → BytesFit i) := by
  unfold headFail at h
  split at h
  all_goals first
    | cases h
      next heq =>
        cases heq
        exact ⟨rfl, _, rfl, id⟩
    | cases h

theorem targets_patOptimize (code : List Pir) : targetsOf (patOptimize code) ⊆ targetsOf code := by
  intro l hl
  obtain ⟨c, hc, htarget⟩ := List.mem_filterMap.mp hl
  cases c with
  | label l' => cases htarget
  | openCall name => cases htarget
  | insn j =>
      rcases mem_patOptimize hc with hmem | rfl | ⟨l', d, hmem, -, hfail⟩
      · exact target_mem hmem htarget
      · cases htarget
      · have heq : some l' = some l := (headFail_test hfail).1.symm.trans htarget
        exact target_mem hmem heq

theorem bytesFit_patOptimize (h : ∀ i, .insn i ∈ code → BytesFit i) :
    ∀ i, .insn i ∈ patOptimize code → BytesFit i := by
  intro i hi
  rcases mem_patOptimize hi with hmem | rfl | ⟨l, d, -, hmem, hfail⟩
  · exact h i hmem
  · trivial
  · obtain ⟨-, j, rfl, hfit⟩ := headFail_test hfail
    exact hfit (h j hmem)

variable {fuel : Nat} {counter : Int} {p : Pat} {ctx : Pctx} {c : VmCode}

theorem build_ok {e : Encoder} (h : build e = .ok c) : ∃ b out,
    runCalls e.calls vmProgNew = .ok b ∧ vmProgFinish b = .ok out ∧
      c = e.checkers.foldl vmCodeAddChecker out := by
  unfold build at h
  cases hrun : runCalls e.calls vmProgNew with
  | error msg =>
      rw [hrun] at h
      cases h
  | ok b =>
      rw [hrun] at h
      cases hfinish : vmProgFinish b with
      | error msg =>
          simp only [bind, Except.bind, hfinish] at h
          cases h
      | ok out =>
          simp only [bind, Except.bind, hfinish] at h
          cases h
          exact ⟨b, out, rfl, hfinish, rfl⟩

theorem patCompile_linked (hcode : compilePat fuel ⟨0, counter, none⟩ p = some (code, ctx))
    (h : patCompile fuel counter p = some (.ok c)) :
    Linked (patOptimize code) c ∧ Shaped ⟨0, counter, none⟩ ctx code ∧ ctx.err = none := by
  have hshaped := ((compile_shaped fuel).1 _ p _ hcode).1
  unfold patCompile at h
  simp only [hcode, Option.bind_eq_bind, Option.bind_some] at h
  split at h
  · cases h
  · next hnone =>
      have herr : ctx.err = none := by
        cases herr : ctx.err with
        | none => rfl
        | some name =>
            rw [herr] at hnone
            cases hnone
      have hclosed : targetsOf (patOptimize code) ⊆ labelsOf (patOptimize code) :=
        fun l hl => labels_patOptimize code
          ((hshaped.closed herr).2 (targets_patOptimize code hl))
      obtain ⟨b, out, hrun, hfinish, rfl⟩ := build_ok (Option.some.inj h)
      exact ⟨build_linked hclosed (enc_encoded _) hrun hfinish, hshaped, herr⟩

end Passes

end Libpeg.Linking
