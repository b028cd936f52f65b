import Libpeg.CompileTyping
import Libpeg.CompilerCorrectness
import Libpeg.ControlSimulation
import Libpeg.StackDiscipline

namespace Libpeg.ProgramTyping

open Libpeg.Charset Libpeg.Opcode Libpeg.Code Libpeg.Memo Libpeg.Input Libpeg.Vm Libpeg.Pattern
open Libpeg.Compile Libpeg.Optimize Libpeg.CodeShape Libpeg.Linking Libpeg.ProgramRuns
open Libpeg.ControlMachine Libpeg.ControlSimulation Libpeg.ListMachine Libpeg.StackTyping
open Libpeg.StackDiscipline

variable {R : Nat → Shape → Prop} {sh sh' next : Shape} {l : Nat}

section Positions

variable {code : List Pir} {out mid : Shape} {placed : List (Nat × Shape)} {k x : Nat}
  {j : PirInsn}

/-- The code from a position on has types when it is entered with a shape. -/
def Entered (R : Nat → Shape → Prop) (out : Shape) (code : List Pir) (k : Nat) (sh : Shape) : Prop :=
  ∃ placed, Flow R sh (code.drop k) out placed

theorem drop_cons {c : Pir} (hk : code[k]? = some c) : code.drop k = c :: code.drop (k + 1) := by
  obtain ⟨hlt, hget⟩ := List.getElem?_eq_some_iff.mp hk
  rw [List.drop_eq_getElem_cons hlt, hget]

theorem entered_insn (h : Entered R out code k sh) (hk : code[k]? = some (.insn j)) :
    ∃ sh' next, Sub sh sh' ∧ Turns R sh' (headLabel (code.drop (k + 1))) next j ∧
      Entered R out code (k + 1) next := by
  obtain ⟨placed, h⟩ := h
  rw [drop_cons hk] at h
  cases h with
  | insn hsub hi hrest => exact ⟨_, _, hsub, hi, _, hrest⟩

/-- Behind a label the code goes on, or the entries of a tree memo loop are merged. -/
theorem entered_label (h : Entered R out code k sh) (hk : code[k]? = some (.label l)) :
    (∃ sh', Sub sh sh' ∧ Entered R out code (k + 1) sh') ∨
      code[k + 1]? = some (.insn .memoTree) ∧ ∃ id r, Sub sh (.tree true l id r) ∧
        Entered R out code (k + 2) (.tree true l id r) := by
  obtain ⟨placed, h⟩ := h
  rw [drop_cons hk] at h
  generalize htail : code.drop (k + 1) = tail at h
  cases h with
  | label hsub hrest =>
      subst htail
      exact .inl ⟨_, hsub, _, hrest⟩
  | @merge _ r _ _ id rest placed hsub hrest =>
      have hget : code[k + 1]? = some (.insn .memoTree) := by
        rw [← List.head?_drop, htail]
        rfl
      rw [drop_cons hget] at htail
      cases htail
      exact .inr ⟨hget, id, r, hsub, _, hrest⟩

theorem entered_placed (h : Flow R sh code out placed) (hl : (l, sh') ∈ placed) :
    ∃ k, code[k]? = some (.label l) ∧ Entered R out code k sh' := by
  induction h with
  | nil => cases hl
  | @label sh mid out l' rest placed hsub hrest ih =>
      rcases List.mem_cons.mp hl with heq | hl
      · cases heq
        exact ⟨0, rfl, _, .label (.refl _) hrest⟩
      · obtain ⟨k, hk, henter⟩ := ih hl
        exact ⟨k + 1, hk, henter⟩
  | openCall _ _ ih =>
      obtain ⟨k, hk, henter⟩ := ih hl
      exact ⟨k + 1, hk, henter⟩
  | insn _ _ _ ih =>
      obtain ⟨k, hk, henter⟩ := ih hl
      exact ⟨k + 1, hk, henter⟩
  | merge hsub hrest ih =>
      rcases List.mem_cons.mp hl with heq | hl
      · cases heq
        exact ⟨0, rfl, _, .merge (.refl _) hrest⟩
      · obtain ⟨k, hk, henter⟩ := ih hl
        exact ⟨k + 2, hk, henter⟩

theorem entered_skip (hopen : ∀ name, Pir.openCall name ∉ code) {c : Pir}
    (h : Entered R out code k sh) (hc : code[k]? = some c) (hreal : isReal c = false) :
    (∃ sh', Sub sh sh' ∧ Entered R out code (k + 1) sh') ∨
      code[k + 1]? = some (.insn .memoTree) ∧ ∃ l id r, c = .label l ∧ Sub sh (.tree true l id r) ∧
        Entered R out code (k + 2) (.tree true l id r) := by
  cases c with
  | label l =>
      rcases entered_label h hc with hnext | ⟨hmerge, id, r, hnext⟩
      · exact .inl hnext
      · exact .inr ⟨hmerge, l, id, r, rfl, hnext⟩
  | openCall name => exact absurd (List.mem_of_getElem? hc) (hopen name)
  | insn i =>
      obtain ⟨sh', next, hsub, hturns, h'⟩ := entered_insn h hc
      obtain rfl : i = .nop := by cases i <;> first | rfl | cases hreal
      obtain rfl : next = sh' := hturns
      exact .inl ⟨_, hsub, h'⟩

theorem glide_real {c : Pir} (hglide : Glide code k x) (hk : code[k]? = some c)
    (hreal : isReal c = true) (hjump : ∀ l, c ≠ .insn (.jump l)) : x = k := by
  cases hglide with
  | here => rfl
  | skip hc hskip _ =>
      cases hk.symm.trans hc
      cases hreal.symm.trans hskip
  | jump hc _ =>
      cases hk.symm.trans hc
      exact absurd rfl (hjump _)

theorem entered_glide (hR : ∀ l s, R l s → Entered R out code (labelIdx code l) s)
    (hopen : ∀ name, Pir.openCall name ∉ code) (hglide : Glide code k x)
    (hx : code[x]? ≠ some (.insn .memoTree)) (h : Entered R out code k sh) :
    ∃ sh', Sub sh sh' ∧ Entered R out code x sh' := by
  induction hglide generalizing sh with
  | here => exact ⟨sh, .refl sh, h⟩
  | @skip k x c hc hreal hrest ih =>
      rcases entered_skip hopen h hc hreal with ⟨mid, hsub, hmid⟩ | ⟨hmerge, -⟩
      · obtain ⟨sh', hsub', h'⟩ := ih hx hmid
        exact ⟨sh', hsub.trans hsub', h'⟩
      · have hend := glide_real hrest hmerge rfl (by simp)
        exact absurd (hend ▸ hmerge) hx
  | jump hc _ ih =>
      obtain ⟨mid, next, hsub, hturns, -⟩ := entered_insn h hc
      obtain ⟨sh', hsub', h'⟩ := ih hx (hR _ mid hturns)
      exact ⟨sh', hsub.trans hsub', h'⟩

/-- A choice and the matcher behind it turn the stack like the test they became. -/
theorem headFail_turns {c d : Pir} {test : PirInsn} (hfail : headFail c d = some test) :
    ∃ l, c = .insn (.choice l) ∧ (∃ i, d = .insn i ∧ (matchWidth d).isSome = true) ∧
      ∀ (sh : Shape) (after : Option Nat), R l sh → Turns R sh after (.push .btrack sh) test := by
  unfold headFail at hfail
  split at hfail
  all_goals first
    | cases hfail
      exact ⟨_, rfl, ⟨_, rfl, rfl⟩, fun _ _ h => ⟨h, rfl⟩⟩
    | cases hfail

theorem turns_replacing {after after' : Option Nat} (h : Turns R sh after next j)
    (hj : replacesJump (.insn j) = true) (next' : Shape) : Turns R sh after' next' j := by
  cases j <;> first | exact h | cases hj

theorem entered_optimized (hR : ∀ l s, R l s → Entered R out code (labelIdx code l) s)
    (hopen : ∀ name, Pir.openCall name ∉ code) (h : Entered R out code k sh)
    (hk : (patOptimize code)[k]? = some (.insn j)) : ∃ sh' next, Sub sh sh' ∧
      Turns R sh' (headLabel (code.drop (k + 1))) next j ∧ Entered R out code (k + 1) next := by
  cases (patOptimize_upto code).entry k with
  | same heq => exact entered_insn h (heq ▸ hk)
  | @copied l x t hc hglide ht hreplaces hd =>
      cases hk.symm.trans hd
      obtain ⟨mid, next, hsub, hjump, hnext⟩ := entered_insn h hc
      have hx : code[x]? ≠ some (.insn .memoTree) := by
        rw [ht]
        rintro ⟨⟩
        cases hreplaces
      obtain ⟨low, hsub', hlow⟩ := entered_glide hR hopen hglide hx (hR l mid hjump)
      obtain ⟨sh', next', hsub'', hturns, -⟩ := entered_insn hlow ht
      exact ⟨sh', next, hsub.trans (hsub'.trans hsub''), turns_replacing hturns hreplaces next,
        hnext⟩
  | fused hf =>
      obtain ⟨c, d, test, hc, hd, hfail, htest, -⟩ := hf
      cases hk.symm.trans htest
      obtain ⟨l, rfl, -, hturns⟩ := headFail_turns (R := R) hfail
      obtain ⟨sh', next, hsub, ⟨hl, rfl⟩, hnext⟩ := entered_insn h hc
      exact ⟨sh', _, hsub, hturns sh' _ hl, hnext⟩
  | @gone x hx hf =>
      obtain ⟨c, d, test, hc, hd, hfail, -, hnop⟩ := hf
      subst hx
      cases hk.symm.trans hnop
      obtain ⟨l, -, ⟨i, rfl, hi⟩, -⟩ := headFail_turns (R := R) hfail
      obtain ⟨sh', next, hsub, hturns, hnext⟩ := entered_insn h hd
      exact ⟨sh', next, hsub, (turns_matcher hi).mp hturns, hnext⟩

theorem memoTree_optimized (hk : code[k]? = some (.insn .memoTree)) :
    (patOptimize code)[k]? = some (.insn .memoTree) := by
  cases (patOptimize_upto code).entry k with
  | same heq => exact heq.trans hk
  | copied hc =>
      cases hk.symm.trans hc
  | fused hf =>
      obtain ⟨c, d, test, hc, hd, hfail, -⟩ := hf
      cases hk.symm.trans hc
      cases hfail
  | gone hx hf =>
      obtain ⟨c, d, test, hc, hd, hfail, -⟩ := hf
      subst hx
      cases hk.symm.trans hd
      obtain ⟨l, rfl, ⟨i, -, hi⟩, -⟩ := headFail_turns (R := fun _ _ => True) hfail
      cases hi

end Positions

section Programs

variable {code : List Pir} {out : Shape} {placed : List (Nat × Shape)} {k x : Nat} {i : PirInsn}
  {R' : Nat → Shape → Prop} {at_ : Nat → Nat} {errors : List String} {prog : List VmInsn}

def cutShort (x : Int) : Int :=
  (Int16.ofInt x).toInt

def cutKind (at_ : Nat → Nat) : Kind → Kind
  | .memo l id => .memo (at_ l) (cutShort id)
  | kind => kind

def cutShape (at_ : Nat → Nat) : Shape → Shape
  | .main => .main
  | .fn => .fn
  | .push kind below => .push (cutKind at_ kind) (cutShape at_ below)
  | .tree entered l id below => .tree entered (at_ l) (cutShort id) (cutShape at_ below)

theorem sub_cut (h : Sub sh sh') : Sub (cutShape at_ sh) (cutShape at_ sh') := by
  cases h with
  | refl => exact .refl _
  | forget => exact .forget _ _ _
  | enter hs =>
      refine .enter ?_ _ _
      cases sh <;> exact hs

theorem turns_cut {after after' : Option Nat} (h : Turns R sh after next i)
    (hR : ∀ l s, R l s → R' (at_ l) (cutShape at_ s))
    (hafter : ∀ l, after = some l → after' = some (at_ l)) :
    Turns R' (cutShape at_ sh) after' (cutShape at_ next) (cut at_ errors k i) := by
  cases i with
  | jump l => exact hR l _ h
  | choice l | testChar b l | testSet set l | testAny b l =>
      obtain ⟨hl, rfl⟩ := h
      exact ⟨hR _ _ hl, rfl⟩
  | testCharNoChoice b l | testSetNoChoice set l | call l =>
      obtain ⟨hl, rfl⟩ := h
      exact ⟨hR _ _ hl, rfl⟩
  | commit l | backCommit l =>
      obtain ⟨r, rfl, hl⟩ := h
      exact ⟨_, rfl, hR _ _ hl⟩
  | partialCommit l =>
      obtain ⟨⟨r, rfl⟩, hl⟩ := h
      exact ⟨⟨_, rfl⟩, hR _ _ hl⟩
  | ret =>
      obtain rfl : sh = .fn := h
      exact rfl
  | fail => exact trivial
  | endOp b =>
      rcases h with rfl | rfl
      · exact .inl rfl
      · exact .inr rfl
  | failTwice =>
      obtain ⟨r, rfl⟩ := h
      exact ⟨_, rfl⟩
  | captureEnd =>
      obtain rfl : sh = .push .capt next := h
      exact rfl
  | checkEnd fn =>
      obtain rfl : sh = .push .check next := h
      exact rfl
  | memoOpen l id =>
      obtain ⟨hl, rfl⟩ := h
      exact ⟨hR _ _ hl, rfl⟩
  | memoClose =>
      obtain ⟨l, id, rfl, hl⟩ := h
      exact ⟨_, _, rfl, hafter l hl⟩
  | memoTreeOpen l id =>
      obtain ⟨r, rfl, rfl, hl⟩ := h
      exact ⟨_, rfl, rfl, hR _ _ hl⟩
  | memoTreeInsert =>
      obtain ⟨⟨l, id, r, rfl, hl⟩, rfl⟩ := h
      exact ⟨⟨_, _, _, rfl, hafter l hl⟩, rfl⟩
  | memoTree => exact h.elim
  | memoTreeClose id =>
      obtain ⟨l, rfl⟩ := h
      exact ⟨_, rfl⟩
  | captureBegin id | captureLate back id =>
      obtain rfl : next = .push .capt sh := h
      exact rfl
  | checkBegin id flag =>
      obtain rfl : next = .push .check sh := h
      exact rfl
  | char | set | any | span | empty | captureFull | error | nop =>
      obtain rfl : next = sh := h
      exact rfl

theorem headLabel_drop {l : Nat} (h : headLabel (code.drop k) = some l) :
    code[k]? = some (.label l) := by
  rw [headLabel, List.head?_drop] at h
  obtain ⟨c, hc, hl⟩ := Option.bind_eq_some_iff.mp h
  cases c with
  | label l' =>
      cases hl
      exact hc
  | _ => cases hl

theorem cut_ne_nop (hi : i ≠ .nop) : cut at_ errors k i ≠ .nop := by
  cases i <;> first | exact absurd rfl hi | simp [cut, Insn.map]

theorem cutFrom_get (is : List PirInsn) (n j : Nat) :
    (cutFrom at_ errors n is)[j]? =
      is[j]?.map (cut at_ errors (n + ((is.take j).flatMap checkerOf).length)) := by
  induction is generalizing n j with
  | nil => rfl
  | cons i is ih =>
      cases j with
      | zero => rfl
      | succ j =>
          rw [cutFrom, List.getElem?_cons_succ, List.getElem?_cons_succ, ih, List.take_succ_cons,
            List.flatMap_cons, List.length_append, Nat.add_assoc]

theorem cutFrom_length (is : List PirInsn) (n : Nat) :
    (cutFrom at_ errors n is).length = is.length := by
  induction is generalizing n with
  | nil => rfl
  | cons i is ih => rw [cutFrom, List.length_cons, ih, List.length_cons]

/-- The program can be entered at an address with a shape. -/
def Resumable (R : Nat → Shape → Prop) (out : Shape) (code : List Pir) (x : Nat) (s : Shape) : Prop :=
  ∃ k sh, Entered R out code k sh ∧ slot (patOptimize code) k = x ∧
    s = cutShape (place (patOptimize code)) sh

/-- Every address that can be entered has an instruction that finds its shape there. -/
def ProgTyped (prog : List VmInsn) (ready : Nat → Shape → Prop) : Prop :=
  ∀ x s, ready x s → ∃ i s' next, prog[x]? = some i ∧ i ≠ .nop ∧ Sub s s' ∧
    Passes ready x s' next i ∧ ((∀ b, i ≠ .endOp b) → ready (x + 1) next)

/-- What is encoded next: an instruction, the end of the program, or a label of a tree memo
loop with the instruction that merges entries. -/
def Encodes (R : Nat → Shape → Prop) (out : Shape) (code : List Pir) (k : Nat) (sh : Shape) : Prop :=
  (Entered R out code k sh ∧ ((patOptimize code)[k]? = none ∨
    ∃ i, (patOptimize code)[k]? = some (.insn i) ∧ i ≠ .nop)) ∨
  ∃ l id r, code[k]? = some (.label l) ∧ code[k + 1]? = some (.insn .memoTree) ∧
    sh = .tree true l id r ∧ Entered R out code (k + 2) sh

theorem entered_real (hR : ∀ l s, R l s → Entered R out code (labelIdx code l) s)
    (hopen : ∀ name, Pir.openCall name ∉ code) (h : Entered R out code k sh) :
    ∃ j sh', Sub sh sh' ∧ slot (patOptimize code) j = slot (patOptimize code) k ∧
      Encodes R out code j sh' := by
  have hopen' : ∀ name, Pir.openCall name ∉ patOptimize code :=
    fun name hmem => hopen name (CompilerCorrectness.openCall_patOptimize hmem)
  induction hd : (patOptimize code).length - k using Nat.strong_induction_on generalizing k sh with
  | _ d ih =>
      rcases entry_cases hopen' k with hk | ⟨i, hk, hi⟩ | ⟨c, hk, hreal, hc⟩
      · exact ⟨k, sh, .refl sh, rfl, .inl ⟨h, .inl hk⟩⟩
      · exact ⟨k, sh, .refl sh, rfl, .inl ⟨h, .inr ⟨i, hk, hi⟩⟩⟩
      · have hlt := (List.getElem?_eq_some_iff.mp hk).1
        have hgo : ∀ mid, Sub sh mid → Entered R out code (k + 1) mid →
            ∃ j sh', Sub sh sh' ∧ slot (patOptimize code) j = slot (patOptimize code) k ∧
              Encodes R out code j sh' := by
          intro mid hsub hmid
          obtain ⟨j, sh', hsub', hslot, hj⟩ := ih _ (by omega) hmid rfl
          exact ⟨j, sh', hsub.trans hsub', hslot.trans (slot_skip hk hc), hj⟩
        rcases ((patOptimize_upto code).entry k).plain with heq | ⟨c', d', hc', hd', -⟩
        · rw [heq] at hk
          rcases entered_skip hopen h hk hreal with ⟨mid, hsub, hmid⟩ | hmerge
          · exact hgo mid hsub hmid
          · obtain ⟨hmerge, l, id, r, rfl, hsub, hnext⟩ := hmerge
            exact ⟨k, _, hsub, rfl, .inr ⟨l, id, r, hk, hmerge, rfl, hnext⟩⟩
        · cases hk.symm.trans hd'
          obtain ⟨sh', next, hsub, hturns, hnext⟩ := entered_optimized hR hopen h hk
          obtain rfl : d' = .nop := by cases d' <;> first | rfl | cases hreal
          obtain rfl : next = sh' := hturns
          exact hgo _ hsub hnext

theorem passes_of_turns {ready : Nat → Shape → Prop} {s s' : Shape} {v : VmInsn}
    (h : Turns ready s (some (x + 1)) s' v) : Passes ready x s s' v := by
  cases v with
  | memoTree => exact h.elim
  | _ => exact h

theorem encoded_get (at_ : Nat → Nat) (errors : List String)
    (hk : (patOptimize code)[k]? = some (.insn i)) (hi : i ≠ .nop) :
    ∃ n, (cutFrom at_ errors 0 (encoded (patOptimize code)) ++
      [.endOp 0])[slot (patOptimize code) k]? = some (cut at_ errors n i) := by
  have henc := encoded_slot hk hi
  have hlt := (List.getElem?_eq_some_iff.mp henc).1
  refine ⟨0 + (((encoded (patOptimize code)).take (slot (patOptimize code) k)).flatMap
    checkerOf).length, ?_⟩
  rw [List.getElem?_append_left (by rwa [cutFrom_length]), cutFrom_get, henc]
  rfl

theorem encoded_end (hk : (patOptimize code)[k]? = none) :
    (cutFrom at_ errors 0 (encoded (patOptimize code)) ++
      [.endOp 0])[slot (patOptimize code) k]? = some (.endOp 0) := by
  rw [slot_end hk, List.getElem?_append_right (by rw [cutFrom_length]), cutFrom_length, Nat.sub_self]
  rfl

theorem progTyped_of_flow (hnodup : (labelsOf code).Nodup) (hopen : ∀ name, Pir.openCall name ∉ code)
    (hflow : Flow (fun l s => (l, s) ∈ placed) sh code .main placed)
    (hprog : prog = cutFrom (place (patOptimize code)) errors 0 (encoded (patOptimize code)) ++
      [.endOp 0]) : ProgTyped prog (Resumable (fun l s => (l, s) ∈ placed) .main code) := by
  have hlabel : ∀ l s, (l, s) ∈ placed →
      Entered (fun l s => (l, s) ∈ placed) .main code (labelIdx code l) s := by
    intro l s hl
    obtain ⟨k, hk, henter⟩ := entered_placed hflow hl
    rwa [labelIdx_eq hnodup hk]
  have hplace : ∀ {l k}, code[k]? = some (.label l) →
      place (patOptimize code) l = slot (patOptimize code) k := by
    intro l k hk
    rw [slot, place, labelIdx_patOptimize, labelIdx_eq hnodup hk]
  rintro x s ⟨k, sh, henter, rfl, rfl⟩
  obtain ⟨j, sh', hsub, hslot, hj⟩ := entered_real hlabel hopen henter
  rw [← hslot, hprog]
  rcases hj with ⟨henter', hend | ⟨i, hget, hi⟩⟩ | ⟨l, id, r, hl, hmerge, rfl, hnext⟩
  · -- behind the last instruction
    have hend' : code[j]? = none := by
      rw [List.getElem?_eq_none_iff, ← (patOptimize_upto code).length]
      exact List.getElem?_eq_none_iff.mp hend
    have hmain : sh' = .main := by
      obtain ⟨placed', hnil⟩ := henter'
      rw [List.drop_of_length_le (List.getElem?_eq_none_iff.mp hend')] at hnil
      cases hnil with
      | nil h => exact h.eq_of_shielded trivial
    subst hmain
    exact ⟨.endOp 0, _, .main, encoded_end hend, by simp, sub_cut hsub, .inr rfl,
      fun h => absurd rfl (h 0)⟩
  · obtain ⟨mid, next, hsub', hturns, hnext⟩ := entered_optimized hlabel hopen henter' hget
    obtain ⟨n, hcut⟩ := encoded_get (place (patOptimize code)) errors hget hi
    refine ⟨_, _, cutShape (place (patOptimize code)) next, hcut, cut_ne_nop hi,
      sub_cut (hsub.trans hsub'), passes_of_turns (turns_cut hturns (fun l s hl => ?_) fun l hl => ?_),
      fun _ => ⟨j + 1, next, hnext, slot_next hget hi, rfl⟩⟩
    · refine ⟨labelIdx code l, s, hlabel l s hl, ?_, rfl⟩
      obtain ⟨k', hk', -⟩ := entered_placed hflow hl
      rw [hplace hk', labelIdx_eq hnodup hk']
    · rw [hplace (headLabel_drop hl), slot_next hget hi]
  · -- the label of the loop takes no instruction
    have hget := memoTree_optimized hmerge
    have hskip : (patOptimize code)[j]? = some (.label l) := by
      rcases ((patOptimize_upto code).entry j).plain with heq | ⟨c, d, hc, -⟩
      · exact heq.trans hl
      · cases hl.symm.trans hc
    have hslot' : slot (patOptimize code) (j + 1) = slot (patOptimize code) j := slot_skip hskip rfl
    obtain ⟨n, hcut⟩ := encoded_get (place (patOptimize code)) errors hget (by simp)
    rw [hslot'] at hcut
    refine ⟨_, _, _, hcut, by simp [cut, Insn.map], sub_cut hsub, ⟨rfl, cutShort id, cutShape (place (patOptimize code)) r,
      ?_⟩, fun _ =>
      ⟨j + 2, _, hnext, ?_, rfl⟩⟩
    · rw [cutShape, hplace hl]
    · rw [slot_next hget (by simp), hslot']

end Programs

section Runs

variable {fuel n : Nat} {counter low high : Int} {p : Pat} {c : VmCode} {a : VmArgs} {s : VmState}
  {ready : Nat → Shape → Prop} {thr : Option Int} {base : List Int} {t : Ctl} {sh : Shape}

/-- A memo entry with this target and id is opened at an address. -/
def OpensAt (prog : List VmInsn) (k l : Nat) (id : Int) : Prop :=
  prog[k]? = some (.memoOpen l id) ∨ prog[k]? = some (.memoTreeOpen l id)

/-- A memo entry with this target and id is opened somewhere. -/
def Opens (prog : List VmInsn) (l : Nat) (id : Int) : Prop :=
  ∃ k, OpensAt prog k l id

theorem cStep_fits (htyped : ProgTyped a.code.prog ready) (thr : Option Int) (hit : Option MemoEntry)
    (hready : ready t.ip sh) (h : Fits (Opens a.code.prog) ready sh t.stack) :
    NextFits (Opens a.code.prog) ready (cStep a thr hit t) := by
  obtain ⟨i, sh', next, hget, hnop, hsub, hpasses, hnext⟩ := htyped t.ip sh hready
  rw [cStep, hget]
  refine cInsn_fits hpasses hnop (fun l id hi => ⟨t.ip, ?_⟩) hnext (h.sub hsub)
  rcases hi with rfl | rfl
  · exact .inl hget
  · exact .inr hget

theorem vmLoop_fits (htyped : ProgTyped a.code.prog ready) (htracks : Tracks a thr base s t)
    (hready : ready t.ip sh) (h : Fits (Opens a.code.prog) ready sh t.stack) {r : VmNext}
    (hrun : vmLoop a n s = some r) :
    (∃ s', r = .failed s') ∨ ∃ s' success, r = .done s' success ∧
      (success = true → s'.stack = []) := by
  induction n generalizing s t sh with
  | zero => cases hrun
  | succ n ih =>
      have hfits := cStep_fits htyped thr (lookupNow a s) hready h
      have hnext := vmStep_tracks htracks
      generalize cStep a thr (lookupNow a s) t = next at hfits hnext
      rw [vmLoop] at hrun
      cases hstep : vmStep a s with
      | running s' =>
          rw [hstep] at hrun hnext
          cases next with
          | running t' =>
              obtain ⟨sh', hready', h'⟩ := hfits
              exact ih hnext hready' h' hrun
          | _ => exact hnext.elim
      | done s' success =>
          rw [hstep] at hrun hnext
          cases hrun
          cases next with
          | done t' success' =>
              obtain ⟨rfl, htracks'⟩ := hnext
              refine .inr ⟨s', success, rfl, fun hs => ?_⟩
              have hstack := htracks'.stack
              rw [hfits hs] at hstack
              exact List.map_eq_nil_iff.mp hstack.symm
          | _ => exact hnext.elim
      | failed s' =>
          rw [hstep] at hrun
          cases hrun
          exact .inl ⟨s', rfl⟩
      | aborted msg =>
          rw [hstep] at hnext
          cases next with
          | aborted msg' => exact hfits.elim
          | _ => exact hnext.elim

theorem program_typed (hcompile : patCompile fuel counter p = some (.ok c)) :
    ∃ ready, ProgTyped c.prog ready ∧ ready 0 .main := by
  obtain ⟨code, ctx, hcode, hopen⟩ := CompilerCorrectness.patCompile_code hcompile
  obtain ⟨hlinked, hshaped, herr⟩ := patCompile_linked hcode hcompile
  obtain ⟨placed, hflow⟩ := (CompileTyping.compile_typable fuel).1 _ _ _ hcode herr .main trivial
  refine ⟨_, progTyped_of_flow hshaped.nodup hopen hflow hlinked.prog, 0, .main, ⟨placed, hflow⟩, ?_,
    rfl⟩
  rw [slot, List.take_zero, encoded_nil]
  rfl

/-- A compiled program keeps the stack in order: whatever memory, table, window and checkers
it runs with, it aborts only for a window without a table, and a match leaves nothing on the
stack, from any memory and table that the loop starts on. -/
theorem vmExec_aborts_iff (hcompile : patCompile fuel counter p = some (.ok c)) (input : List UInt8)
    (low high : Int) (mem : Mem) (tbl : Option MemoTable) (nchecks n : Nat) :
    (∀ msg, vmExec n ⟨c, input, low, high⟩ mem tbl nchecks = some (.error msg) ↔
      0 ≤ low ∧ tbl = none ∧ msg = "windowed execution requires a memo table") ∧
    ∀ s, vmLoop ⟨c, input, low, high⟩ n (vmStart ⟨c, input, low, high⟩ mem tbl nchecks) =
      some (.done s true) → s.stack = [] := by
  obtain ⟨ready, htyped, hstart⟩ := program_typed hcompile
  have hends := fun mem tbl r (hrun : vmLoop ⟨c, input, low, high⟩ n
      (vmStart ⟨c, input, low, high⟩ mem tbl nchecks) = some r) =>
    vmLoop_fits htyped (vmStart_tracks ⟨c, input, low, high⟩ mem tbl nchecks) hstart .main hrun
  constructor
  · intro msg
    rw [vmExec]
    have hwindow : VmArgs.windowed ⟨c, input, low, high⟩ = true ↔ 0 ≤ low := by
      simp [VmArgs.windowed]
    split
    · next h =>
        obtain ⟨hlow, htbl⟩ := h
        rw [hwindow] at hlow
        rw [Option.isNone_iff_eq_none] at htbl
        simp [hlow, htbl, eq_comm]
    · next h =>
        have hno : ¬(0 ≤ low ∧ tbl = none ∧ msg = "windowed execution requires a memo table") :=
          fun h' => h ⟨hwindow.mpr h'.1, Option.isNone_iff_eq_none.mpr h'.2.1⟩
        refine iff_of_false (fun herr => ?_) hno
        split at herr
        · cases herr
        · obtain ⟨x, -, hloop⟩ := Option.bind_eq_some_iff.mp herr
          obtain ⟨r, hrun, hfin⟩ := Option.map_eq_some_iff.mp hloop
          rcases hends _ _ r hrun with ⟨s', rfl⟩ | ⟨s', success, rfl, -⟩
          · cases hfin
          · cases hfin
  · intro s hrun
    rcases hends _ _ _ hrun with ⟨s', h⟩ | ⟨s', success, h, hstack⟩
    · cases h
    · cases h
      exact hstack rfl

theorem vmExec_aborts_iff_memoStar :
    ∃ c, patCompile 5 0 (.star (.memo (.literal [97]) 0)) = some (.ok c) ∧
      ∀ (input : List UInt8) (low high : Int) (mem : Mem) (tbl : Option MemoTable)
        (nchecks n : Nat),
        (∀ msg, vmExec n ⟨c, input, low, high⟩ mem tbl nchecks = some (.error msg) ↔
          0 ≤ low ∧ tbl = none ∧ msg = "windowed execution requires a memo table") ∧
        ∀ s, vmLoop ⟨c, input, low, high⟩ n (vmStart ⟨c, input, low, high⟩ mem tbl nchecks) =
          some (.done s true) → s.stack = [] := by
  obtain ⟨c, hc⟩ : ∃ c, patCompile 5 0 (.star (.memo (.literal [97]) 0)) = some (.ok c) :=
    ⟨_, rfl⟩
  exact ⟨c, hc, vmExec_aborts_iff hc⟩

end Runs

end Libpeg.ProgramTyping
