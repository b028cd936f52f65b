import Libpeg.Compile
import Libpeg.Control
import Libpeg.Lockstep

namespace Libpeg.Optimize

open Libpeg.Opcode Libpeg.Code Libpeg.Memo Libpeg.Input Libpeg.Vm Libpeg.Pattern
open Libpeg.Compile Libpeg.Control Libpeg.Lockstep

/-- The message of an `Error` entry. -/
def errorAt : Pir → String
  | .insn (.error msg) => msg
  | _ => ""

/-- The checker of a `CheckEnd` entry. -/
def checkerAt : Pir → Option VmChecker
  | .insn (.checkEnd fn) => fn
  | _ => none

/-- The tables of a list: a message or a checker is found at the position of its
instruction. -/
def listCode (code : List Pir) : VmCode where
  insns := []
  sets := []
  errors := code.map errorAt
  prog := []
  checkers := code.map checkerAt

def listArgs (code : List Pir) (input : List UInt8) (low high : Int) : VmArgs :=
  ⟨listCode code, input, low, high⟩

/-- The instruction at a position, with positions for targets. -/
def linkAt (code : List Pir) (k : Nat) (i : PirInsn) : VmInsn :=
  i.map (labelIdx code) id id (fun _ => k) fun _ => k

/-- One step through a list; `vm_prog_finish` puts an `End` behind it. -/
def listStep (a : VmArgs) (code : List Pir) (s : VmState) : VmNext :=
  match code[s.ip]? with
  | none => vmInsn a s (.endOp 0)
  | some (.label _) => nextIp s
  | some (.openCall name) => .aborted name
  | some (.insn .nop) => nextIp s
  | some (.insn i) => vmInsn a s (linkAt code s.ip i)

def listLoop (a : VmArgs) (code : List Pir) : Nat → VmState → Option VmNext
  | 0, _ => none
  | fuel + 1, s =>
      match listStep a code s with
      | .running s => listLoop a code fuel s
      | r => some r

/-- `vm_exec` on a list. -/
def listExec (fuel : Nat) (code : List Pir) (input : List UInt8) (low high : Int) (mem : Mem)
    (tbl : Option MemoTable) (nchecks : Nat) : Option (Except String (VmResult × VmAfter)) :=
  let a := listArgs code input low high
  if a.windowed ∧ tbl.isNone then some (.error "windowed execution requires a memo table")
  else do
    let (mem, tbl) ← vmClear fuel a mem tbl
    (listLoop a code fuel (vmStart a mem tbl nchecks)).map (vmFinish a)

/-- A label, a `Nop` or a jump leads from one position to another. -/
inductive Glide (code : List Pir) : Nat → Nat → Prop
  | here (i : Nat) : Glide code i i
  | skip {i j : Nat} {c : Pir} (hc : code[i]? = some c) (hreal : isReal c = false)
      (h : Glide code (i + 1) j) : Glide code i j
  | jump {i j l : Nat} (hc : code[i]? = some (.insn (.jump l))) (h : Glide code (labelIdx code l) j) :
      Glide code i j

theorem Glide.trans {code : List Pir} {i j k : Nat} (h : Glide code i j) (h' : Glide code j k) :
    Glide code i k := by
  induction h with
  | here i => exact h'
  | skip hc hreal _ ih => exact .skip hc hreal (ih h')
  | jump hc _ ih => exact .jump hc (ih h')

variable {C D : List Pir} {i n : Nat}

/-- A choice and the matcher behind it became a test and a `Nop`. -/
def Fused (C D : List Pir) (i : Nat) : Prop :=
  ∃ c d test, C[i]? = some c ∧ C[i + 1]? = some d ∧ headFail c d = some test ∧
    D[i]? = some (.insn test) ∧ D[i + 1]? = some (.insn .nop)

/-- What the passes may have done to an entry. -/
inductive Rewritten (C D : List Pir) (i : Nat) : Prop
  | same (h : D[i]? = C[i]?) : Rewritten C D i
  | copied {l k : Nat} {t : Pir} (hc : C[i]? = some (.insn (.jump l)))
      (hglide : Glide C (labelIdx C l) k) (ht : C[k]? = some t) (hreplaces : replacesJump t = true)
      (hd : D[i]? = some t) : Rewritten C D i
  | fused (h : Fused C D i) : Rewritten C D i
  | gone {j : Nat} (hi : i = j + 1) (h : Fused C D j) : Rewritten C D i

/-- The passes have worked on the first `n` entries. -/
structure Upto (C D : List Pir) (n : Nat) : Prop where
  length : D.length = C.length
  entry : ∀ i, Rewritten C D i
  rest : ∀ i, n ≤ i → D[i]? = C[i]? ∨ i = n ∧ ∃ j, i = j + 1 ∧ Fused C D j

theorem headFail_choice {c d : Pir} {test : PirInsn} (h : headFail c d = some test) :
    (∃ l, c = .insn (.choice l)) ∧ isReal d = true ∧ isReal (.insn test) = true ∧
      replacesJump (.insn test) = false ∧ (∀ l, test ≠ .choice l) ∧ ∀ l, d ≠ .label l := by
  unfold headFail at h
  split at h
  all_goals first
    | cases h
      exact ⟨⟨_, rfl⟩, rfl, rfl, rfl, by simp, by simp⟩
    | cases h

theorem Fused.lt (h : Fused C D i) (hup : Upto C D n) : i < n := by
  obtain ⟨c, d, test, hc, hd, hfail, hi, hnop⟩ := h
  obtain ⟨⟨l, rfl⟩, -, -, -, hne, -⟩ := headFail_choice hfail
  by_contra hlt
  rcases hup.rest i (by omega) with heq | ⟨-, j, rfl, c', d', test', -, -, -, -, hnop'⟩
  · rw [hi, hc] at heq
    simp only [Option.some.injEq, Pir.insn.injEq] at heq
    exact hne l heq
  · rw [hi] at hnop'
    simp only [Option.some.injEq, Pir.insn.injEq] at hnop'
    subst hnop'
    unfold headFail at hfail
    split at hfail <;> cases hfail

theorem Fused.keep {D' : List Pir} (h : Fused C D i) (hi : D'[i]? = D[i]?)
    (hnext : D'[i + 1]? = D[i + 1]?) : Fused C D' i := by
  obtain ⟨c, d, test, hc, hd, hfail, htest, hnop⟩ := h
  exact ⟨c, d, test, hc, hd, hfail, hi.trans htest, hnext.trans hnop⟩

theorem Rewritten.keep {D' : List Pir} (h : Rewritten C D i) (hi : D'[i]? = D[i]?)
    (hfused : ∀ j, Fused C D j → j = i ∨ j + 1 = i → Fused C D' j) : Rewritten C D' i := by
  cases h with
  | same h => exact .same (hi.trans h)
  | copied hc hglide ht hreplaces hd => exact .copied hc hglide ht hreplaces (hi.trans hd)
  | fused h => exact .fused (hfused i h (.inl rfl))
  | gone hj h => exact .gone hj (hfused _ h (.inr hj.symm))

theorem Upto.current (h : Upto C D n) :
    D[n]? = C[n]? ∨ D[n]? = some (.insn .nop) ∧ ∃ j, n = j + 1 ∧ Fused C D j := by
  rcases h.rest n le_rfl with heq | ⟨-, j, hj, hfused⟩
  · exact .inl heq
  · obtain ⟨c, d, test, -, -, -, -, hnop⟩ := id hfused
    exact .inr ⟨by rw [hj]; exact hnop, j, hj, hfused⟩

theorem optimizeHead_spec (h : Upto C D n) :
    (optimizeHead D n).length = C.length ∧ (∀ i, Rewritten C (optimizeHead D n) i) ∧
      (∀ i, n < i → (optimizeHead D n)[i]? = C[i]? ∨
        i = n + 1 ∧ Fused C (optimizeHead D n) n) ∧
      ((optimizeHead D n)[n]? = C[n]? ∨
        ∃ j, (n = j ∨ n = j + 1) ∧ Fused C (optimizeHead D n) j) := by
  have hrest : ∀ i, n < i → D[i]? = C[i]? := by
    intro i hi
    rcases h.rest i hi.le with heq | ⟨rfl, -⟩
    · exact heq
    · omega
  have hcur : D[n]? = C[n]? ∨ ∃ j, (n = j ∨ n = j + 1) ∧ Fused C D j := by
    rcases h.current with heq | ⟨-, j, hj, hfused⟩
    · exact .inl heq
    · exact .inr ⟨j, .inr hj, hfused⟩
  have hsame : optimizeHead D n = D →
      (optimizeHead D n).length = C.length ∧ (∀ i, Rewritten C (optimizeHead D n) i) ∧
      (∀ i, n < i → (optimizeHead D n)[i]? = C[i]? ∨
        i = n + 1 ∧ Fused C (optimizeHead D n) n) ∧
      ((optimizeHead D n)[n]? = C[n]? ∨
        ∃ j, (n = j ∨ n = j + 1) ∧ Fused C (optimizeHead D n) j) := by
    intro heq
    rw [heq]
    exact ⟨h.length, h.entry, fun i hi => .inl (hrest i hi), hcur⟩
  cases hc : D[n]? with
  | none => exact hsame (by simp only [optimizeHead, hc])
  | some c =>
      cases hd : D[n + 1]? with
      | none => exact hsame (by simp only [optimizeHead, hc, hd])
      | some d =>
          cases hfail : headFail c d with
          | none => exact hsame (by simp only [optimizeHead, hc, hd, hfail])
          | some test =>
              obtain ⟨⟨l, rfl⟩, -⟩ := headFail_choice hfail
              have hlt := (List.getElem?_eq_some_iff.mp hc).1
              have hlt' := (List.getElem?_eq_some_iff.mp hd).1
              have heq : optimizeHead D n = (D.set n (.insn test)).set (n + 1) (.insn .nop) := by
                simp only [optimizeHead, hc, hd, hfail]
              have hat : ∀ i, i ≠ n → i ≠ n + 1 → (optimizeHead D n)[i]? = D[i]? := by
                intro i hi hi'
                rw [heq, List.getElem?_set_ne (by omega), List.getElem?_set_ne (by omega)]
              have hCn : C[n]? = some (.insn (.choice l)) := by
                rcases h.current with hn | ⟨hnop, -⟩
                · rw [← hn, hc]
                · rw [hc] at hnop
                  cases hnop
              have hfused : Fused C (optimizeHead D n) n := by
                refine ⟨_, d, test, hCn, (hrest (n + 1) (by omega)).symm.trans hd, hfail, ?_, ?_⟩
                · rw [heq, List.getElem?_set_ne (by omega)]
                  simp [hlt]
                · rw [heq]
                  simp [hlt']
              -- an older pair ends before the choice, which is no `Nop`
              have hold : ∀ j, Fused C D j → Fused C (optimizeHead D n) j := by
                intro j hj
                have hjn := hj.lt h
                have hne : j + 1 ≠ n := by
                  rintro rfl
                  obtain ⟨-, -, -, -, -, -, -, hnop⟩ := hj
                  rw [hc] at hnop
                  cases hnop
                exact hj.keep (hat j (by omega) (by omega)) (hat (j + 1) hne (by omega))
              refine ⟨by rw [heq]; simpa using h.length, ?_, ?_, .inr ⟨n, .inl rfl, hfused⟩⟩
              · intro i
                by_cases hi : i = n
                · rw [hi]
                  exact .fused hfused
                · by_cases hi' : i = n + 1
                  · exact .gone hi' hfused
                  · exact (h.entry i).keep (hat i hi hi') fun j hj _ => hold j hj
              · intro i hi
                by_cases hi' : i = n + 1
                · exact .inr ⟨hi', hfused⟩
                · exact .inl ((hat i (by omega) hi').trans (hrest i hi))

theorem labelIdx_spec (code : List Pir) (l : Nat) :
    labelIdx code l = 0 ∨ code[labelIdx code l]? = some (.label l) := by
  unfold labelIdx
  cases hfind : (List.range code.length).reverse.find? fun i => code[i]?.any (marks l) with
  | none => exact .inl rfl
  | some i =>
      refine .inr ?_
      have hmark := List.find?_some hfind
      cases hc : code[i]? with
      | none => simp [hc] at hmark
      | some c =>
          cases c with
          | label l' =>
              simp only [hc, Option.any_some, marks, beq_iff_eq] at hmark
              simp [hc, hmark]
          | _ => simp [hc, marks] at hmark

theorem nextInsn_drop {code : List Pir} {t : Pir} (k : Nat)
    (h : nextInsn (code.drop k) = some t) :
    ∃ j, k ≤ j ∧ code[j]? = some t ∧ isReal t = true ∧
      ∀ x, k ≤ x → x < j → ∃ c, code[x]? = some c ∧ isReal c = false := by
  obtain ⟨hreal, before, after, heq, hbefore⟩ := List.find?_eq_some_iff_append.mp h
  have hat : ∀ x, code[k + x]? = (before ++ t :: after)[x]? := by
    intro x
    rw [← heq, List.getElem?_drop]
  refine ⟨k + before.length, by omega, ?_, hreal, fun x hx hlt => ?_⟩
  · rw [hat, List.getElem?_append_right le_rfl]
    simp
  · obtain ⟨y, rfl⟩ := Nat.exists_eq_add_of_le hx
    have hy : y < before.length := by omega
    have hget : code[k + y]? = before[y]? := by
      rw [hat, List.getElem?_append_left hy]
    cases hc : before[y]? with
    | none => exact absurd (List.getElem?_eq_none_iff.mp hc) (by omega)
    | some c => exact ⟨c, hget.trans hc, by simpa using hbefore c (List.mem_of_getElem? hc)⟩

theorem glide_of_skips {code : List Pir} {k j : Nat} (hle : k ≤ j)
    (h : ∀ x, k ≤ x → x < j → ∃ c, code[x]? = some c ∧ isReal c = false) : Glide code k j := by
  obtain ⟨d, rfl⟩ := Nat.exists_eq_add_of_le hle
  induction d generalizing k with
  | zero => exact .here k
  | succ d ih =>
      obtain ⟨c, hc, hreal⟩ := h k le_rfl (by omega)
      have hrest := ih (k := k + 1) (by omega) fun x hx hlt => h x (by omega) (by omega)
      rw [show k + 1 + d = k + (d + 1) by omega] at hrest
      exact .skip hc hreal hrest

theorem replacesJump_real {t : Pir} (h : replacesJump t = true) : isReal t = true := by
  unfold replacesJump at h
  split at h <;> first | rfl | cases h

/-- The instruction that `optimizeJump` finds behind a label, followed in the
original list. -/
theorem glide_target (hentry : ∀ i, Rewritten C D i) {l : Nat} {t : Pir}
    (hnext : nextInsn (D.drop (labelIdx C l)) = some t) (ht : replacesJump t = true) :
    ∃ k, Glide C (labelIdx C l) k ∧ C[k]? = some t := by
  obtain ⟨j, hle, hj, -, hskip⟩ := nextInsn_drop (labelIdx C l) hnext
  have hskipC : ∀ x, labelIdx C l ≤ x → x < j → ∃ c, C[x]? = some c ∧ isReal c = false := by
    intro x hx hlt
    obtain ⟨c, hc, hreal⟩ := hskip x hx hlt
    cases hentry x with
    | same h => exact ⟨c, h ▸ hc, hreal⟩
    | copied _ _ _ hreplaces hd =>
        cases hc.symm.trans hd
        rw [replacesJump_real hreplaces] at hreal
        cases hreal
    | fused h =>
        obtain ⟨_, _, test, -, -, hfail, htest, -⟩ := h
        cases hc.symm.trans htest
        rw [(headFail_choice hfail).2.2.1] at hreal
        cases hreal
    | @gone y hy h =>
        obtain ⟨_, d, test, -, hd, hfail, htest, -⟩ := h
        subst hy
        by_cases hyl : labelIdx C l ≤ y
        · obtain ⟨c', hc', hreal'⟩ := hskip y hyl (by omega)
          cases hc'.symm.trans htest
          rw [(headFail_choice hfail).2.2.1] at hreal'
          cases hreal'
        · -- the skipped run starts behind the choice, at the label itself
          have hx' : labelIdx C l = y + 1 := by omega
          rcases labelIdx_spec C l with hzero | hlabel
          · omega
          · rw [hx', hd] at hlabel
            cases hlabel
            exact absurd rfl ((headFail_choice hfail).2.2.2.2.2 l)
  have hglide := glide_of_skips hle hskipC
  cases hentry j with
  | same h => exact ⟨j, hglide, h ▸ hj⟩
  | copied hc hglide' ht' _ hd =>
      cases hj.symm.trans hd
      exact ⟨_, hglide.trans (.jump hc hglide'), ht'⟩
  | fused h =>
      obtain ⟨_, _, test, -, -, hfail, htest, -⟩ := h
      cases hj.symm.trans htest
      rw [(headFail_choice hfail).2.2.2.1] at ht
      cases ht
  | gone hy h =>
      subst hy
      obtain ⟨_, _, _, -, -, -, -, hnop⟩ := h
      cases hj.symm.trans hnop
      cases ht

theorem Upto.step (h : Upto C D n) :
    Upto C (optimizeJump (labelIdx C) (optimizeHead D n) n) (n + 1) := by
  obtain ⟨hlen, hentry, hrest, hcur⟩ := optimizeHead_spec h
  generalize optimizeHead D n = E at hlen hentry hrest hcur
  have hrest' : ∀ i, n + 1 ≤ i → E[i]? = C[i]? ∨ i = n + 1 ∧ ∃ j, i = j + 1 ∧ Fused C E j := by
    intro i hi
    rcases hrest i hi with heq | ⟨rfl, hfused⟩
    · exact .inl heq
    · exact .inr ⟨rfl, n, rfl, hfused⟩
  have hsame : optimizeJump (labelIdx C) E n = E →
      Upto C (optimizeJump (labelIdx C) E n) (n + 1) := by
    intro heq
    rw [heq]
    exact ⟨hlen, hentry, hrest'⟩
  by_cases hjump : ∃ l t, E[n]? = some (.insn (.jump l)) ∧
      nextInsn (E.drop (labelIdx C l)) = some t ∧ replacesJump t = true
  · obtain ⟨l, t, hE, hnext, ht⟩ := hjump
    have heq : optimizeJump (labelIdx C) E n = E.set n t := by
      simp only [optimizeJump, hE, hnext, ht, if_true]
    have hlt := (List.getElem?_eq_some_iff.mp hE).1
    -- no fused pair has a jump in it
    have hne : ∀ j, Fused C E j → j ≠ n ∧ j + 1 ≠ n := by
      rintro j ⟨_, _, test, -, -, hfail, htest, hnop⟩
      refine ⟨?_, ?_⟩
      · rintro rfl
        cases hE.symm.trans htest
        unfold headFail at hfail
        split at hfail <;> cases hfail
      · rintro rfl
        cases hE.symm.trans hnop
    have hat : ∀ i, i ≠ n → (E.set n t)[i]? = E[i]? :=
      fun i hi => List.getElem?_set_ne (by omega)
    have hkeep : ∀ j, Fused C E j → Fused C (E.set n t) j :=
      fun j hj => hj.keep (hat j (hne j hj).1) (hat (j + 1) (hne j hj).2)
    have hCn : C[n]? = some (.insn (.jump l)) := by
      rcases hcur with hn | ⟨j, rfl | hj, hfused⟩
      · exact hn.symm.trans hE
      · exact absurd rfl (hne n hfused).1
      · exact absurd hj.symm (hne j hfused).2
    obtain ⟨k, hglide, hk⟩ := glide_target hentry hnext ht
    rw [heq]
    refine ⟨by simpa using hlen, fun i => ?_, fun i hi => ?_⟩
    · by_cases hi : i = n
      · rw [hi]
        exact .copied hCn hglide hk ht (by simp [hlt])
      · exact (hentry i).keep (hat i hi) fun j hj _ => hkeep j hj
    · rw [hat i (by omega)]
      rcases hrest' i hi with hi' | ⟨hi', j, hj, hfused⟩
      · exact .inl hi'
      · exact .inr ⟨hi', j, hj, hkeep j hfused⟩
  · refine hsame ?_
    unfold optimizeJump
    split
    · next l hE =>
        split
        · next t hnext =>
            split
            · next ht => exact absurd ⟨l, t, hE, hnext, ht⟩ hjump
            · rfl
        · rfl
    · rfl

theorem patOptimize_upto (code : List Pir) : Upto code (patOptimize code) code.length := by
  have hloop : ∀ n, Upto code ((List.range n).foldl
      (fun D i => optimizeJump (labelIdx code) (optimizeHead D i) i) code) n := by
    intro n
    induction n with
    | zero => exact ⟨rfl, fun i => .same rfl, fun i _ => .inl rfl⟩
    | succ n ih =>
        rw [List.range_succ, List.foldl_append]
        exact ih.step
  exact hloop code.length

/-- The instructions whose operands are all in the list. -/
def isPlain : PirInsn → Bool
  | .error _ | .checkEnd _ => false
  | _ => true

theorem headFail_plain {c d : Pir} {test : PirInsn} (h : headFail c d = some test) :
    ∃ c' d', c = .insn c' ∧ d = .insn d' ∧ isPlain c' = true ∧ isPlain d' = true ∧
      isPlain test = true := by
  unfold headFail at h
  split at h
  all_goals first
    | cases h
      exact ⟨_, _, rfl, rfl, rfl, rfl, rfl⟩
    | cases h

theorem replacesJump_plain {t : Pir} (h : replacesJump t = true) :
    ∃ t', t = .insn t' ∧ isPlain t' = true := by
  unfold replacesJump at h
  split at h <;> first | exact ⟨_, rfl, rfl⟩ | cases h

theorem Rewritten.plain (h : Rewritten C D i) : D[i]? = C[i]? ∨
    ∃ c d, C[i]? = some (.insn c) ∧ D[i]? = some (.insn d) ∧ isPlain c = true ∧
      isPlain d = true := by
  cases h with
  | same h => exact .inl h
  | copied hc _ _ hreplaces hd =>
      obtain ⟨t', rfl, hplain⟩ := replacesJump_plain hreplaces
      exact .inr ⟨_, _, hc, hd, rfl, hplain⟩
  | fused h =>
      obtain ⟨c, d, test, hc, -, hfail, htest, -⟩ := h
      obtain ⟨c', -, rfl, -, hplain, -, hplain'⟩ := headFail_plain hfail
      exact .inr ⟨c', test, hc, htest, hplain, hplain'⟩
  | gone hi h =>
      obtain ⟨c, d, test, -, hd, hfail, -, hnop⟩ := h
      obtain ⟨-, d', -, rfl, -, hplain, -⟩ := headFail_plain hfail
      exact .inr ⟨d', .nop, hi ▸ hd, hi ▸ hnop, hplain, rfl⟩

theorem labelIdx_patOptimize (code : List Pir) : labelIdx (patOptimize code) = labelIdx code := by
  have hup := patOptimize_upto code
  funext l
  have hmark : ∀ i : Nat, (patOptimize code)[i]?.any (marks l) = code[i]?.any (marks l) := by
    intro i
    rcases (hup.entry i).plain with heq | ⟨c, d, hc, hd, -⟩
    · rw [heq]
    · simp [hc, hd, marks]
  simp only [labelIdx, hup.length, hmark]

theorem listCode_patOptimize (code : List Pir) : listCode (patOptimize code) = listCode code := by
  have hup := patOptimize_upto code
  have hmap : ∀ {α : Type} (data : Pir → α) (x : α), (∀ c, isPlain c = true → data (.insn c) = x) →
      (patOptimize code).map data = code.map data := by
    intro α data x hdata
    refine List.ext_getElem? fun i => ?_
    rw [List.getElem?_map, List.getElem?_map]
    rcases (hup.entry i).plain with heq | ⟨c, d, hc, hd, hplain, hplain'⟩
    · rw [heq]
    · rw [hc, hd, Option.map_some, Option.map_some, hdata c hplain, hdata d hplain']
  have herr := hmap errorAt "" (by
    intro c hc
    cases c <;> first | rfl | cases hc)
  have hcheck := hmap checkerAt none (by
    intro c hc
    cases c <;> first | rfl | cases hc)
  rw [listCode, herr, hcheck]
  rfl

/-- The outcome of a step: the next state, or the result of the run. -/
def settle (a : VmArgs) : VmNext → VmState ⊕ Except String (VmResult × VmAfter)
  | .running s => .inl s
  | r => .inr (vmFinish a r)

theorem vmFail_settle (a : VmArgs) (stack : List StackEntry) (s : VmState) (ip : Nat) :
    settle a (vmFail a stack { s with ip := ip }) = settle a (vmFail a stack s) := by
  induction stack generalizing s with
  | nil => rfl
  | cons e rest ih =>
      rw [vmFail, vmFail]
      cases e.entry with
      | btrack ip' off => rfl
      | memo id pos =>
          simp only [memoize_setIp]
          exact ih _
      | _ => exact ih { s with mem := freeAll s.mem e.capt }

theorem linkAt_plain {i : PirInsn} (hi : isPlain i = true) (code : List Pir) (k k' : Nat) :
    linkAt code k i = linkAt code k' i := by
  cases i <;> first | rfl | cases hi

/-- The instructions that stand for a jump do not look at their own address. -/
theorem vmInsn_settle (a : VmArgs) (code : List Pir) {t : PirInsn}
    (ht : replacesJump (.insn t) = true) (s : VmState) (k ip : Nat) :
    settle a (vmInsn a { s with ip := ip } (linkAt code k t)) =
      settle a (vmInsn a s (linkAt code k t)) := by
  cases t with
  | jump l => rfl
  | commit l =>
      simp only [linkAt, Insn.map, vmInsn]
      cases s.stack with
      | nil => rfl
      | cons e rest =>
          dsimp only
          rw [popClear_setIp (s := s)]
          rfl
  | ret =>
      simp only [linkAt, Insn.map, vmInsn]
      rcases s.stack with _ | ⟨⟨entry, capt⟩, rest⟩
      · rfl
      · cases entry with
        | ret ip' =>
            dsimp only
            rw [popClear_setIp (s := s)]
            rfl
        | _ => rfl
  | fail => exact vmFail_settle a s.stack s ip
  | partialCommit l =>
      simp only [linkAt, Insn.map, vmInsn]
      rcases s.stack with _ | ⟨⟨entry, capt⟩, rest⟩
      · rfl
      · cases entry with
        | btrack ip' off =>
            have happ := appendCapt_setIp (s := { s with stack := rest }) ip capt
            simp only [stackPropCapt]
            rw [happ]
            rfl
        | _ => rfl
  | backCommit l =>
      simp only [linkAt, Insn.map, vmInsn]
      rcases s.stack with _ | ⟨⟨entry, capt⟩, rest⟩
      · rfl
      · cases entry with
        | btrack ip' off =>
            dsimp only
            rw [popClear_setIp (s := s)]
            rfl
        | _ => rfl
  | failTwice =>
      simp only [linkAt, Insn.map, vmInsn]
      cases hs : s.stack with
      | nil =>
          simp only [goFail, hs]
          rfl
      | cons e rest =>
          dsimp only
          rw [popClear_setIp (s := s)]
          exact vmFail_settle a _ (popClear s false e rest) ip
  | endOp b => rfl
  | _ => cases ht

section Simulation

variable {a : VmArgs} {code : List Pir} {s : VmState}

def listNext (a : VmArgs) (code : List Pir) (s : VmState) :
    VmState ⊕ Except String (VmResult × VmAfter) :=
  settle a (listStep a code s)

/-- The memory, with every entry stored so far, and the table. -/
def store (s : VmState) : Mem × Option MemoTable :=
  (s.mem, s.tbl)

theorem listStep_skip {c : Pir} (hc : code[s.ip]? = some c) (hreal : isReal c = false) :
    listStep a code s = nextIp s := by
  unfold listStep
  rw [hc]
  cases c with
  | label l => rfl
  | openCall name => cases hreal
  | insn i => cases i <;> first | rfl | cases hreal

theorem listStep_insn {i : PirInsn} (hi : code[s.ip]? = some (.insn i))
    (hreal : isReal (.insn i) = true) : listStep a code s = vmInsn a s (linkAt code s.ip i) := by
  unfold listStep
  rw [hi]
  cases i <;> first | rfl | cases hreal

theorem Glide.quiet {j : Nat} (h : Glide code i j) (s : VmState) :
    ∃ n, Quiet (listNext a code) store n { s with ip := i } { s with ip := j } := by
  induction h with
  | here i => exact ⟨0, .refl _⟩
  | @skip i j c hc hreal _ ih =>
      obtain ⟨n, hn⟩ := ih
      refine ⟨n + 1, .step ?_ ?_ hn⟩
      · rw [listNext, listStep_skip hc hreal]
        rfl
      · rfl
  | @jump i j l hc _ ih =>
      obtain ⟨n, hn⟩ := ih
      refine ⟨n + 1, .step ?_ ?_ hn⟩
      · rw [listNext, listStep_insn hc rfl]
        rfl
      · rfl

theorem inputSeekTo_self (src : VmInput) : inputSeekTo src (vmInputPos src) = src := by
  unfold inputSeekTo
  split
  · obtain ⟨data, chunk, base, coff, furthest, hchunk, hcoff⟩ := src
    simp [vmInputPos]
  · next h =>
      obtain ⟨data, chunk, base, coff, furthest, rfl, hcoff⟩ := src
      obtain ⟨rfl, hnil⟩ : coff = 0 ∧ (data.drop base).take inputChunk = [] := by
        rcases hcoff with hlt | hnil
        · exact absurd ⟨by simpa [vmInputPos] using hlt, by simp [vmInputPos]⟩ h
        · exact hnil
      rfl

theorem goFail_choice (l off : Nat) :
    goFail a (push s (.btrack l off)) = jumpTo { s with src := inputSeekTo s.src off } l := by
  simp only [goFail, push, vmFail, jumpTo, freeAll, List.foldl_nil]

def chosen (s : VmState) (l : Nat) : VmState :=
  { push s (.btrack l (vmInputPos s.src)) with ip := s.ip + 1 }

theorem byte_meets (p : UInt8 → Bool) (l : Nat) (hD : listStep a D s = testInsn s p true l)
    (hnop : D[s.ip + 1]? = some (.insn .nop))
    (hC : listStep a C (chosen s l) =
      if (testByte (chosen s l) p).2 then nextIp (stepByte (testByte (chosen s l) p).1)
      else goFail a (testByte (chosen s l) p).1) :
    ∃ m s₁, Quiet (listNext a D) store m s s₁ ∧
      listNext a D s₁ = listNext a C (chosen s l) := by
  have hok : (testByte (chosen s l) p).2 = (testByte s p).2 := rfl
  cases htest : (testByte s p).2 with
  | true =>
      refine ⟨1, { stepByte (push (testByte s p).1 (.btrack l (vmInputPos s.src))) with
        ip := s.ip + 1 }, .step ?_ ?_ (.refl _), ?_⟩
      · simp only [listNext, hD, testInsn, htest, if_true]
        rfl
      · rfl
      · rw [listNext, listNext, hC, hok, htest, if_pos rfl, listStep_skip hnop rfl]
        rfl
  | false =>
      refine ⟨0, s, .refl s, ?_⟩
      have hfail := goFail_choice (a := a) (s := { (testByte s p).1 with ip := s.ip + 1 }) l
        (vmInputPos s.src)
      have hseek : inputSeekTo (testByte s p).1.src (vmInputPos s.src) = (testByte s p).1.src :=
        inputSeekTo_self _
      rw [listNext, listNext, hD, hC, hok, htest]
      simp only [Bool.false_eq_true, if_false, testInsn, htest]
      change _ = settle a (goFail a (push { (testByte s p).1 with ip := s.ip + 1 } _))
      rw [hfail]
      simp only [hseek]
      rfl

theorem any_meets (n : Int) (l : Nat) (hD : listStep a D s = vmInsn a s (.testAny n l))
    (hnop : D[s.ip + 1]? = some (.insn .nop))
    (hC : listStep a C (chosen s l) = vmInsn a (chosen s l) (.any n)) :
    ∃ m s₁, Quiet (listNext a D) store m s s₁ ∧
      listNext a D s₁ = listNext a C (chosen s l) := by
  cases hadv : (inputAdvance s.src n.toNat).2 with
  | true =>
      refine ⟨1, { chosen s l with src := (inputAdvance s.src n.toNat).1 }, .step ?_ ?_ (.refl _), ?_⟩
      · simp only [listNext, hD, vmInsn, hadv, if_true]
        rfl
      · rfl
      · rw [listNext, listNext, hC, listStep_skip hnop rfl]
        simp only [vmInsn, chosen, push, hadv, if_true]
  | false =>
      refine ⟨0, s, .refl s, ?_⟩
      have hfail := goFail_choice (a := a)
        (s := { s with src := (inputAdvance s.src n.toNat).1, ip := s.ip + 1 }) l
        (vmInputPos s.src)
      rw [listNext, listNext, hD, hC]
      simp only [vmInsn, chosen, push, hadv, Bool.false_eq_true, if_false]
      simp only [push] at hfail
      rw [hfail]
      rfl

theorem fused_meets (hlabels : labelIdx D = labelIdx C) (hfused : Fused C D s.ip) :
    ∃ m s₁ l i, Quiet (listNext a D) store m s s₁ ∧
      Quiet (listNext a C) store 1 s (chosen s l) ∧
      listNext a D s₁ = listNext a C (chosen s l) ∧ (∃ l', l = labelIdx C l') ∧
      C[s.ip + 1]? = some (.insn i) ∧ ∀ l', Pir.insn i ≠ .insn (.choice l') := by
  obtain ⟨c, d, test, hc, hd, hfail, htest, hnop⟩ := hfused
  have hchoice : ∀ l, c = .insn (.choice l) →
      Quiet (listNext a C) store 1 s (chosen s (labelIdx C l)) := by
    rintro l rfl
    refine .step ?_ ?_ (.refl _)
    · rw [listNext, listStep_insn hc rfl]
      rfl
    · rfl
  unfold headFail at hfail
  split at hfail
  · next l b =>
      cases hfail
      have hD : listStep a D s = testInsn s (isByte b) true (labelIdx C l) := by
        rw [listStep_insn htest rfl, linkAt, hlabels]
        rfl
      have hC := listStep_insn (a := a) (s := chosen s (labelIdx C l)) hd rfl
      obtain ⟨m, s₁, hquiet, heq⟩ := byte_meets (isByte b) (labelIdx C l) hD hnop hC
      exact ⟨m, s₁, _, _, hquiet, hchoice l rfl, heq, ⟨l, rfl⟩, hd, by simp⟩
  · next l set =>
      cases hfail
      have hD : listStep a D s = testInsn s set.has true (labelIdx C l) := by
        rw [listStep_insn htest rfl, linkAt, hlabels]
        rfl
      have hC := listStep_insn (a := a) (s := chosen s (labelIdx C l)) hd rfl
      obtain ⟨m, s₁, hquiet, heq⟩ := byte_meets set.has (labelIdx C l) hD hnop hC
      exact ⟨m, s₁, _, _, hquiet, hchoice l rfl, heq, ⟨l, rfl⟩, hd, by simp⟩
  · next l n =>
      cases hfail
      have hD : listStep a D s = vmInsn a s (.testAny n (labelIdx C l)) := by
        rw [listStep_insn htest rfl, linkAt, hlabels]
        rfl
      have hC := listStep_insn (a := a) (s := chosen s (labelIdx C l)) hd rfl
      obtain ⟨m, s₁, hquiet, heq⟩ := any_meets n (labelIdx C l) hD hnop hC
      exact ⟨m, s₁, _, _, hquiet, hchoice l rfl, heq, ⟨l, rfl⟩, hd, by simp⟩
  · cases hfail

/-- The positions that control can be at: not on a matcher that became a
`Nop`. -/
def Entered (C D : List Pir) (k : Nat) : Prop :=
  ∀ j, k = j + 1 → ¬Fused C D j

theorem entered_label (l : Nat) : Entered C D (labelIdx C l) := by
  rintro j hj ⟨c, d, test, -, hd, hfail, -, -⟩
  rcases labelIdx_spec C l with hzero | hlabel
  · omega
  · rw [hj, hd] at hlabel
    cases hlabel
    exact (headFail_choice hfail).2.2.2.2.2 l rfl

/-- Control goes on behind an entry that the passes did not fuse with the next. -/
theorem entered_next {k : Nat} (h : ¬Fused C D k) : Entered C D (k + 1) := by
  rintro j hj hfused
  obtain rfl : k = j := by omega
  exact h hfused

theorem not_fused_of_ne {k : Nat} {c : Pir} (hc : C[k]? = some c)
    (hne : ∀ l, c ≠ .insn (.choice l)) : ¬Fused C D k := by
  rintro ⟨c', d, test, hc', -, hfail, -, -⟩
  cases hc.symm.trans hc'
  obtain ⟨l, hl⟩ := (headFail_choice hfail).1
  exact hne l hl

theorem linkAt_target (code : List Pir) (k : Nat) (i : PirInsn) :
    (linkAt code k i).target = i.target.map (labelIdx code) := by
  cases i <;> rfl

theorem listStep_entered (hstack : ∀ k ∈ addresses s.stack, Entered C D k)
    (h : ¬Fused C D s.ip) {s' : VmState} (hstep : listNext a C s = .inl s') :
    Confined (Entered C D) s' := by
  have hnext := entered_next h
  have hskip : ∀ {s'}, settle a (nextIp s) = .inl s' → Confined (Entered C D) s' := by
    rintro s' ⟨⟩
    exact ⟨hnext, hstack⟩
  unfold listNext listStep at hstep
  split at hstep
  · cases hstep
  · exact hskip hstep
  · cases hstep
  · exact hskip hstep
  · next i _ hi =>
      have hconf := vmInsn_confined (a := a) hstack (linkAt C s.ip i) hnext (by
        intro l hl
        rw [linkAt_target] at hl
        obtain ⟨l', -, rfl⟩ := Option.map_eq_some_iff.mp hl
        exact entered_label l')
      generalize vmInsn a s (linkAt C s.ip i) = r at hstep hconf
      cases r with
      | running t =>
          cases hstep
          exact hconf _ rfl
      | _ => cases hstep

/-- Before and after the passes, the list takes the machine to the same states
again and again. -/
theorem patOptimize_meets (a : VmArgs) (code : List Pir) (s : VmState)
    (hs : Confined (Entered code (patOptimize code)) s) :
    Meets (listNext a (patOptimize code)) (listNext a code) store
      (Confined (Entered code (patOptimize code))) s := by
  have hup := patOptimize_upto code
  have hlabels := labelIdx_patOptimize code
  generalize patOptimize code = D at hs hup hlabels
  cases hup.entry s.ip with
  | same heq =>
      have hnot : ¬Fused code D s.ip := by
        rintro ⟨c, d, test, hc, -, hfail, htest, -⟩
        rw [htest, hc] at heq
        obtain ⟨⟨l, rfl⟩, -, -, -, hne, -⟩ := headFail_choice hfail
        simp only [Option.some.injEq, Pir.insn.injEq] at heq
        exact hne l heq
      have hstep : listNext a D s = listNext a code s := by
        simp only [listNext, listStep, linkAt, heq, hlabels]
      exact ⟨0, 0, s, s, .refl s, .refl s, hstep, fun s' => listStep_entered hs.stack hnot⟩
  | @copied l k t hc hglide ht hreplaces hd =>
      obtain ⟨t', rfl, hplain⟩ := replacesJump_plain hreplaces
      obtain ⟨n, hquiet⟩ := Glide.quiet (a := a) (Glide.jump hc hglide) s
      have hreal := replacesJump_real hreplaces
      have hstep : listNext a D s = listNext a code { s with ip := k } := by
        rw [listNext, listNext, listStep_insn hd hreal,
          listStep_insn (s := { s with ip := k }) ht hreal, linkAt_plain hplain code k s.ip,
          vmInsn_settle a code hreplaces s s.ip k, linkAt, linkAt, hlabels]
      refine ⟨0, n, s, _, .refl s, hquiet, hstep, fun s' => ?_⟩
      refine listStep_entered (s := { s with ip := k }) hs.stack (not_fused_of_ne ht ?_)
      rintro l ⟨⟩
      cases hreplaces
  | fused h =>
      obtain ⟨m, s₁, l, i, hquiet, hquiet', heq, ⟨l', rfl⟩, hi, hmatcher⟩ :=
        fused_meets (a := a) hlabels h
      refine ⟨m, 1, s₁, _, hquiet, hquiet', heq, fun s' => ?_⟩
      refine listStep_entered (s := chosen s (labelIdx code l')) ?_ (not_fused_of_ne hi hmatcher)
      refine push_confined ?_ hs.stack
      rintro k ⟨⟩
      exact entered_label l'
  | gone hi h => exact absurd h (hs.ip _ hi)

theorem listLoop_yields {fuel : Nat} {r : VmNext} (h : listLoop a code fuel s = some r) :
    ∃ n, Yields (listNext a code) n s (vmFinish a r) := by
  induction fuel generalizing s with
  | zero => cases h
  | succ fuel ih =>
      rw [listLoop] at h
      cases hstep : listStep a code s with
      | running s' =>
          rw [hstep] at h
          obtain ⟨n, hn⟩ := ih h
          exact ⟨n + 1, .step (by rw [listNext, hstep]; rfl) hn⟩
      | _ =>
          rw [hstep] at h
          cases h
          exact ⟨1, .stop (by rw [listNext, hstep]; rfl)⟩

theorem yields_listLoop {n : Nat} {res : Except String (VmResult × VmAfter)}
    (h : Yields (listNext a code) n s res) :
    ∃ r, listLoop a code n s = some r ∧ vmFinish a r = res := by
  induction h with
  | @stop s res hstop =>
      unfold listNext at hstop
      simp only [listLoop]
      cases hstep : listStep a code s with
      | running s' =>
          rw [hstep] at hstop
          cases hstop
      | _ =>
          rw [hstep] at hstop
          exact ⟨_, rfl, Sum.inr.inj hstop⟩
  | @step s s' n res hnext _ ih =>
      obtain ⟨r, hr, hres⟩ := ih
      unfold listNext at hnext
      cases hstep : listStep a code s with
      | running t =>
          rw [hstep] at hnext
          cases hnext
          exact ⟨r, by simp only [listLoop, hstep, hr], hres⟩
      | _ =>
          rw [hstep] at hnext
          cases hnext

theorem listLoop_mono {fuel fuel' : Nat} (hle : fuel ≤ fuel') {r : VmNext}
    (h : listLoop a code fuel s = some r) : listLoop a code fuel' s = some r := by
  induction fuel generalizing s fuel' with
  | zero => cases h
  | succ fuel ih =>
      obtain ⟨fuel', rfl⟩ : ∃ k, fuel' = k + 1 := ⟨fuel' - 1, by omega⟩
      rw [listLoop] at h ⊢
      cases hstep : listStep a code s with
      | running s' =>
          rw [hstep] at h
          exact ih (by omega) h
      | _ =>
          rw [hstep] at h
          exact h

end Simulation

section Whole

variable {input : List UInt8} {low high : Int} {mem : Mem} {tbl : Option MemoTable} {nchecks : Nat}

theorem listExec_iff {code : List Pir} {r : Except String (VmResult × VmAfter)}
    (hwindow : ¬((listArgs code input low high).windowed ∧ tbl.isNone)) :
    (∃ fuel, listExec fuel code input low high mem tbl nchecks = some r) ↔
      ∃ x, (∃ fuel, vmClear fuel (listArgs code input low high) mem tbl = some x) ∧
        ∃ fuel, (listLoop (listArgs code input low high) code fuel
          (vmStart (listArgs code input low high) x.1 x.2 nchecks)).map
            (vmFinish (listArgs code input low high)) = some r := by
  simp only [listExec, if_neg hwindow]
  refine Simulation.exists_clear (fun fuel x => (listLoop (listArgs code input low high) code fuel
    (vmStart (listArgs code input low high) x.1 x.2 nchecks)).map
      (vmFinish (listArgs code input low high))) fun n n' x r hle h => ?_
  obtain ⟨res, hres, rfl⟩ := Option.map_eq_some_iff.mp h
  rw [listLoop_mono hle hres]
  rfl

end Whole

/-- The states that a run over a list passes, by memory and table. -/
def listStores (code : List Pir) (input : List UInt8) (low high : Int) (mem : Mem)
    (tbl : Option MemoTable) (nchecks : Nat) (x : Mem × Option MemoTable) : Prop :=
  let a := listArgs code input low high
  ∃ fuel mem' tbl', vmClear fuel a mem tbl = some (mem', tbl') ∧
    ∃ n s, after (listNext a code) n (vmStart a mem' tbl' nchecks) = some s ∧ store s = x

/-- `pat_optimize` keeps the meaning of every instruction list: the result with
its captures and errors, the table and the memory, which holds the entries stored
in order, and whether the run ends. Both runs also pass through the same contents
of memory and table. -/
theorem patOptimize_preserves (code : List Pir) (input : List UInt8) (low high : Int) (mem : Mem)
    (tbl : Option MemoTable) (nchecks : Nat) :
    (∀ r, (∃ fuel, listExec fuel (patOptimize code) input low high mem tbl nchecks = some r) ↔
      ∃ fuel, listExec fuel code input low high mem tbl nchecks = some r) ∧
    ∀ x, listStores (patOptimize code) input low high mem tbl nchecks x ↔
      listStores code input low high mem tbl nchecks x := by
  have hargs : listArgs (patOptimize code) input low high = listArgs code input low high := by
    rw [listArgs, listArgs, listCode_patOptimize]
  have hstart : ∀ mem tbl, Confined (Entered code (patOptimize code))
      (vmStart (listArgs code input low high) mem tbl nchecks) :=
    fun mem tbl => ⟨fun j hj => absurd hj (by simp [vmStart]), by simp [vmStart, addresses]⟩
  have hmeets := patOptimize_meets (listArgs code input low high) code
  refine ⟨fun r => ?_, fun x => ?_⟩
  · by_cases hwindow : (listArgs code input low high).windowed ∧ tbl.isNone
    · simp only [listExec, hargs, if_pos hwindow]
    · rw [listExec_iff hwindow, listExec_iff (by rwa [hargs]), hargs]
      refine exists_congr fun x => and_congr_right fun _ => ?_
      have hiff := yields_iff hmeets (hstart x.1 x.2) r
      constructor
      · rintro ⟨fuel, h⟩
        obtain ⟨res, hres, rfl⟩ := Option.map_eq_some_iff.mp h
        obtain ⟨n, hn⟩ := hiff.mp (listLoop_yields hres)
        obtain ⟨res', hres', heq⟩ := yields_listLoop hn
        exact ⟨n, by rw [hres', Option.map_some, heq]⟩
      · rintro ⟨fuel, h⟩
        obtain ⟨res, hres, rfl⟩ := Option.map_eq_some_iff.mp h
        obtain ⟨n, hn⟩ := hiff.mpr (listLoop_yields hres)
        obtain ⟨res', hres', heq⟩ := yields_listLoop hn
        exact ⟨n, by rw [hres', Option.map_some, heq]⟩
  · simp only [listStores, hargs]
    refine exists_congr fun _ => exists_congr fun mem' => exists_congr fun tbl' =>
      and_congr_right fun _ => ?_
    exact observed_iff hmeets (hstart mem' tbl') x

end Libpeg.Optimize
