import Libpeg.CompileFragments
import Libpeg.CaptureIds
import Libpeg.ProgramRuns
import Libpeg.ListResults
import Libpeg.ReferenceCounts

namespace Libpeg.CompilerCorrectness

open Libpeg.Opcode Libpeg.Code Libpeg.Memo Libpeg.Vm Libpeg.MemoView Libpeg.Pattern
open Libpeg.Compile Libpeg.CompileTotal Libpeg.Optimize Libpeg.CodeShape Libpeg.Linking
open Libpeg.Operands Libpeg.Semantics Libpeg.Denotation Libpeg.Scoping Libpeg.Reading
open Libpeg.GrammarCompile Libpeg.TailCalls Libpeg.CompileFragments Libpeg.CaptureIds
open Libpeg.ProgramRuns Libpeg.ListResults Libpeg.Relocation Libpeg.ReferenceCounts
open Libpeg.Simulation (vmClear_unique vmLoop_mono)

variable {fuel : Nat} {counter : Int} {p : Pat} {code : List Pir} {ctx : Pctx} {c : VmCode}

section Flat

variable {g : Defs} {inside : Bool}

theorem flat_lookup {name : String} (hg : flatDefs g = true) (h : lookupDef g name = some p) :
    flat p = true := by
  induction g using Defs.rec (motive_1 := fun _ => True) with
  | nil => simp [lookupDef, findDef] at h
  | cons name' q rest _ ih =>
      rw [flatDefs, Bool.and_eq_true] at hg
      rw [lookupDef_cons] at h
      split at h
      · cases h
        exact hg.1
      · exact ih hg.2 h
  | _ => trivial

theorem flat_inlinePat (hg : flatDefs g = true) (p : Pat) (hp : flat p = true) :
    flat (inlinePat g p) = true := by
  cases p with
  | alt l r =>
      rw [flat, Bool.and_eq_true] at hp
      exact Bool.and_eq_true_iff.mpr ⟨flat_inlinePat hg l hp.1, flat_inlinePat hg r hp.2⟩
  | seq l r =>
      rw [flat, Bool.and_eq_true] at hp
      exact Bool.and_eq_true_iff.mpr ⟨flat_inlinePat hg l hp.1, flat_inlinePat hg r hp.2⟩
  | star p => exact flat_inlinePat hg p hp
  | plus p => exact flat_inlinePat hg p hp
  | optional p => exact flat_inlinePat hg p hp
  | not p => exact flat_inlinePat hg p hp
  | and p => exact flat_inlinePat hg p hp
  | cap p id => exact flat_inlinePat hg p hp
  | memo p id => exact flat_inlinePat hg p hp
  | check p fn id flag => exact flat_inlinePat hg p hp
  | inlined name p => exact flat_inlinePat hg p hp
  | errorRecover msg p => exact flat_inlinePat hg p hp
  | nonterm name =>
      rw [inlinePat]
      split
      · next q hq => exact flat_lookup (p := q) hg (lookupDef_of_inlinable hq).1
      · rfl
  | search p => cases hp
  | grammar start defs => cases hp
  | _ => exact hp

theorem flat_inlineDefs (hg : flatDefs g = true) (d : Defs) (hd : flatDefs d = true) :
    flatDefs (inlineDefs g d) = true := by
  induction d using Defs.rec (motive_1 := fun _ => True) with
  | nil => rfl
  | cons name p rest _ ih =>
      rw [flatDefs, Bool.and_eq_true] at hd
      exact Bool.and_eq_true_iff.mpr ⟨flat_inlinePat hg p hd.1, ih hd.2⟩
  | _ => trivial

theorem flat_grammarInline {n : Nat} {g' : Defs} (hg : flatDefs g = true)
    (h : grammarInline n g = some g') : flatDefs g' = true := by
  induction n generalizing g with
  | zero => cases h
  | succ n ih =>
      rw [grammarInline] at h
      split at h
      · exact ih (flat_inlineDefs hg g hg) h
      · cases h
        exact hg

theorem keepsScopes_flat (p : Pat) (hp : flat p = true) : KeepsScopes g [] p := by
  cases p with
  | alt l r =>
      rw [flat, Bool.and_eq_true] at hp
      exact ⟨keepsScopes_flat l hp.1, keepsScopes_flat r hp.2⟩
  | seq l r =>
      rw [flat, Bool.and_eq_true] at hp
      exact ⟨keepsScopes_flat l hp.1, keepsScopes_flat r hp.2⟩
  | star p => exact keepsScopes_flat p hp
  | plus p => exact keepsScopes_flat p hp
  | optional p => exact keepsScopes_flat p hp
  | not p => exact keepsScopes_flat p hp
  | and p => exact keepsScopes_flat p hp
  | cap p id => exact keepsScopes_flat p hp
  | memo p id => exact keepsScopes_flat p hp
  | check p fn id flag => exact keepsScopes_flat p hp
  | inlined name p => exact keepsScopes_flat p hp
  | errorRecover msg p => exact keepsScopes_flat p hp
  | nonterm name => exact fun q _ => ⟨List.not_mem_nil, fun x _ => List.not_mem_nil⟩
  | search p => cases hp
  | grammar start defs => cases hp
  | _ => trivial

theorem keepsScopesAt_flat (d : Defs) (hd : flatDefs d = true) (name : String) :
    KeepsScopesAt g [] d name := by
  induction d using Defs.rec (motive_1 := fun _ => True) with
  | nil => trivial
  | cons name' p rest _ ih =>
      rw [flatDefs, Bool.and_eq_true] at hd
      rw [KeepsScopesAt]
      split
      · exact keepsScopes_flat p hd.1
      · exact ih hd.2
  | _ => trivial

theorem inlinesSoundly_flat (hg : flatDefs g = true) (start : String) : InlinesSoundly g start := by
  have hpass : ∀ m, flatDefs (inlinePass^[m] g) = true := by
    intro m
    induction m with
    | zero => exact hg
    | succ m ih =>
        rw [Function.iterate_succ_apply']
        exact flat_inlineDefs ih _ ih
  exact fun m name _ => keepsScopesAt_flat _ (hpass m) name

theorem scoped_flat (p : Pat) (hp : flat p = true)
    (hids : ∀ id ∈ captureIds p, -32768 ≤ id ∧ id ≤ 32767) : Scoped inside p := by
  cases p with
  | alt l r =>
      rw [flat, Bool.and_eq_true] at hp
      exact .alt (scoped_flat l hp.1 fun id h => hids id (List.mem_append_left _ h))
        (scoped_flat r hp.2 fun id h => hids id (List.mem_append_right _ h))
  | seq l r =>
      rw [flat, Bool.and_eq_true] at hp
      exact .seq (scoped_flat l hp.1 fun id h => hids id (List.mem_append_left _ h))
        (scoped_flat r hp.2 fun id h => hids id (List.mem_append_right _ h))
  | star p => exact .star (scoped_flat p hp hids)
  | plus p => exact .plus (scoped_flat p hp hids)
  | optional p => exact .optional (scoped_flat p hp hids)
  | not p => exact .not (scoped_flat p hp hids)
  | and p => exact .and (scoped_flat p hp hids)
  | cap p id =>
      exact .cap (scoped_flat p hp fun id h => hids id (List.mem_cons_of_mem _ h))
        (hids id List.mem_cons_self)
  | memo p id => exact .memo (scoped_flat p hp hids)
  | check p fn id flag => exact .check (scoped_flat p hp hids)
  | inlined name p => exact .inlined (scoped_flat p hp hids)
  | errorRecover msg p => exact .errorRecover (scoped_flat p hp hids)
  | repeated p n => exact .repeated fun _ => scoped_flat p hp hids
  | search p => cases hp
  | grammar start defs => cases hp
  | cls set => exact .cls
  | literal str => exact .literal
  | nonterm name => exact .nonterm
  | dot n => exact .dot
  | error msg => exact .error
  | emptyop op => exact .emptyop
  | empty => exact .empty

def unnested : Pat → Bool
  | .alt l r | .seq l r => unnested l && unnested r
  | .star p | .plus p | .optional p | .not p | .and p | .cap p _ | .memo p _ | .check p _ _ _
  | .inlined _ p | .errorRecover _ p | .repeated p _ => unnested p
  | .grammar _ defs => flatDefs defs
  | .search _ => false
  | _ => true

theorem scoped_unnested (p : Pat) (hp : unnested p = true)
    (hids : ∀ id ∈ captureIds p, -32768 ≤ id ∧ id ≤ 32767) : Scoped false p := by
  cases p with
  | alt l r =>
      rw [unnested, Bool.and_eq_true] at hp
      exact .alt (scoped_unnested l hp.1 fun id h => hids id (List.mem_append_left _ h))
        (scoped_unnested r hp.2 fun id h => hids id (List.mem_append_right _ h))
  | seq l r =>
      rw [unnested, Bool.and_eq_true] at hp
      exact .seq (scoped_unnested l hp.1 fun id h => hids id (List.mem_append_left _ h))
        (scoped_unnested r hp.2 fun id h => hids id (List.mem_append_right _ h))
  | star p => exact .star (scoped_unnested p hp hids)
  | plus p => exact .plus (scoped_unnested p hp hids)
  | optional p => exact .optional (scoped_unnested p hp hids)
  | not p => exact .not (scoped_unnested p hp hids)
  | and p => exact .and (scoped_unnested p hp hids)
  | cap p id =>
      exact .cap (scoped_unnested p hp fun id h => hids id (List.mem_cons_of_mem _ h))
        (hids id List.mem_cons_self)
  | memo p id => exact .memo (scoped_unnested p hp hids)
  | check p fn id flag => exact .check (scoped_unnested p hp hids)
  | inlined name p => exact .inlined (scoped_unnested p hp hids)
  | errorRecover msg p => exact .errorRecover (scoped_unnested p hp hids)
  | repeated p n => exact .repeated fun _ => scoped_unnested p hp hids
  | grammar start defs =>
      refine .grammar (inlinesSoundly_flat hp start) (fun n g' hin name q _ hq => ?_) (by simp)
      refine scoped_flat q (flat_lookup (flat_grammarInline hp hin) hq) fun id h => hids id ?_
      exact captureIds_grammarInline (List.Subset.refl _) hin (captureIds_lookup hq h)
  | search p => cases hp
  | _ => exact scoped_flat _ rfl hids

end Flat

section Programs

theorem patCompile_code (h : patCompile fuel counter p = some (.ok c)) : ∃ code ctx,
    compilePat fuel ⟨0, counter, none⟩ p = some (code, ctx) ∧ ∀ name, Pir.openCall name ∉ code := by
  unfold patCompile at h
  obtain ⟨⟨code, ctx⟩, hcode, h⟩ := Option.bind_eq_some_iff.mp h
  refine ⟨code, ctx, hcode, fun name hmem => ?_⟩
  dsimp only at h
  split at h
  · cases h
  · next hnone =>
      have hopen : (openCalls code).head? = none := by
        rw [← firstOpenCall_eq]
        cases herr : ctx.err with
        | none => rwa [herr] at hnone
        | some name' =>
            rw [herr] at hnone
            cases hnone
      have hmem' : name ∈ openCalls code := List.mem_filterMap.mpr ⟨_, hmem, rfl⟩
      rw [List.head?_eq_none_iff.mp hopen] at hmem'
      cases hmem'

theorem openCall_patOptimize {name : String} (h : .openCall name ∈ patOptimize code) :
    .openCall name ∈ code := by
  obtain ⟨k, hk⟩ := List.mem_iff_getElem?.mp h
  cases (patOptimize_upto code).entry k with
  | same h => exact List.mem_of_getElem? (h ▸ hk)
  | copied _ _ ht _ hd =>
      cases hk.symm.trans hd
      exact List.mem_of_getElem? ht
  | fused h =>
      obtain ⟨c, d, test, -, -, -, htest, -⟩ := h
      cases hk.symm.trans htest
  | gone hi h =>
      obtain ⟨c, d, test, -, -, -, -, hnop⟩ := h
      subst hi
      cases hk.symm.trans hnop

theorem operandsFit_of_narrow (h : Narrow code) : OperandsFit code := by
  have hslim : ∀ i ∈ encoded code, Slim i := fun i hi => h i (mem_encoded.mp hi).1
  have hmsg : (encoded code).flatMap messageOf = [] :=
    List.flatMap_eq_nil_iff.mpr fun i hi => (hslim i hi).2.1
  have hchecker : (encoded code).flatMap checkerOf = [] :=
    List.flatMap_eq_nil_iff.mpr fun i hi => (hslim i hi).2.2
  exact ⟨fun i hi a ha => (hslim i hi).1 a ha, by simp [hmsg], by simp [hchecker]⟩

theorem vmLoop_unique {a : VmArgs} {s : VmState} {n m : Nat} {r r' : VmNext}
    (h : vmLoop a n s = some r) (h' : vmLoop a m s = some r') : r = r' := by
  have hr := vmLoop_mono (Nat.le_max_left n m) h
  rw [vmLoop_mono (Nat.le_max_right n m) h'] at hr
  exact (Option.some.inj hr).symm

theorem vmExec_unique {a : VmArgs} {m : Mem} {tbl : Option MemoTable} {nchecks n n' : Nat}
    {r r' : Except String (VmResult × VmAfter)} (h : vmExec n a m tbl nchecks = some r)
    (h' : vmExec n' a m tbl nchecks = some r') : r = r' := by
  rw [vmExec] at h h'
  split at h
  · rw [if_pos ‹_›] at h'
    exact Option.some.inj (h.symm.trans h')
  · rw [if_neg ‹_›] at h'
    split at h
    · rw [if_pos ‹_›] at h'
      exact Option.some.inj (h.symm.trans h')
    · rw [if_neg ‹_›] at h'
      obtain ⟨x, hclear, hloop⟩ := Option.bind_eq_some_iff.mp h
      obtain ⟨x', hclear', hloop'⟩ := Option.bind_eq_some_iff.mp h'
      cases vmClear_unique hclear hclear'
      obtain ⟨y, hy, rfl⟩ := Option.map_eq_some_iff.mp hloop
      obtain ⟨y', hy', rfl⟩ := Option.map_eq_some_iff.mp hloop'
      rw [vmLoop_unique hy hy']

/-- The program of a pattern whose names keep their meaning reports what the pattern does. -/
theorem program_reports (hbasic : basic p = true) (hscoped : Scoped false p)
    (hcompile : patCompile fuel counter p = some (.ok c)) {w : List UInt8} {k : Nat} {o : Outcome}
    (ho : denote w k p ⊤ 0 o) {m : Mem} {q : Nat → Int} (hm : MemoOk m none [] q) (nchecks : Nat) :
    ∃ n r after, vmExec n ⟨c, w, -1, -1⟩ m none nchecks = some (.ok (r, after)) ∧
      Reports after.mem r o := by
  obtain ⟨code, ctx, hcode, hopen⟩ := patCompile_code hcompile
  obtain ⟨-, hshaped, herr⟩ := patCompile_linked hcode hcompile
  have hguard : Guarded false code := (compile_guarded fuel).1 _ _ _ hcode
  have hnarrow : Narrow code := (compile_narrow fuel).1 _ _ _ hbasic hscoped _ hcode
  have hfaithful := (operands_kept_iff hcode hcompile).mpr (operandsFit_of_narrow hnarrow)
  -- the pattern, its code, the list after the passes, the program
  have hfragment := (compile_behaves (a := listArgs code w (-1) (-1)) (k := k) rfl fuel).1 _ _
    hbasic _ hcode herr false ⊤ hscoped fun _ => rfl
  have hfinal := final_of_fragment hfragment hshaped.nodup hopen nchecks ho
  obtain ⟨n, r, after, hrun, hreports⟩ := listExec_reports (by omega) hguard hm nchecks hfinal
  have hpasses := ((patOptimize_preserves code w (-1) (-1) m none nchecks).1 _).mpr ⟨n, hrun⟩
  obtain ⟨n, hn⟩ := (vmExec_iff hfaithful (fun name h => hopen name (openCall_patOptimize h))
    m none nchecks _).mpr hpasses
  exact ⟨n, r, after, hn, hreports⟩

end Programs

/-- The compiler is correct: when the semantics gives a pattern of the standard operators,
without a grammar inside a grammar, an outcome at the start of a subject, then the program
ends and reports it. -/
theorem compiler_correct (hbasic : basic p = true) (hunnested : unnested p = true)
    (hids : ∀ id ∈ captureIds p, -32768 ≤ id ∧ id ≤ 32767)
    (hcompile : patCompile fuel counter p = some (.ok c)) {w : List UInt8} {k : Nat} {o : Outcome}
    (ho : Eval w k [] p 0 o) {m : Mem} {q : Nat → Int} (hm : MemoOk m none [] q) (nchecks : Nat) :
    ∃ n r after, vmExec n ⟨c, w, -1, -1⟩ m none nchecks = some (.ok (r, after)) ∧
      Reports after.mem r o := by
  have hle : denote w k p (scope w k []) ≤ denote w k p ⊤ := denote_agree p fun _ _ => le_top
  exact program_reports hbasic (scoped_unnested p hunnested hids) hcompile
    (hle 0 o (denote_of_eval ho)) hm nchecks

/-- The capture of a grammar `S <- "a" S / "b"`. -/
def lettersCapture : Pat :=
  .cap (.grammar "S" (.cons "S" (.alt (.seq (.literal [97]) (.nonterm "S")) (.literal [98])) .nil)) 7

theorem compiler_correct_letters : ∃ c, patCompile 9 0 lettersCapture = some (.ok c) ∧
    ∃ n r after, vmExec n ⟨c, [97, 98], -1, -1⟩ Mem.empty none 0 = some (.ok (r, after)) ∧
      Reports after.mem r (.ok 2 (.cons 7 0 2 .nil .nil)) := by
  have hinner : Eval [97, 98] 0 [.cons "S" (.alt (.seq (.literal [97]) (.nonterm "S"))
      (.literal [98])) .nil] (.nonterm "S") 1 (.ok 2 .nil) :=
    .nonterm rfl (.altRight (.seqLeft (.leaf rfl) rfl) (.leaf rfl))
  have heval : Eval [97, 98] 0 [] lettersCapture 0 (.ok 2 (.cons 7 0 2 .nil .nil)) :=
    .capOk (.grammar (.nonterm rfl (.altLeft (.seqRight (.leaf rfl) hinner rfl) (by simp))))
  have hm : MemoOk Mem.empty none [] fun _ => 0 := memoOk_no_table (memoOk_new 0)
  obtain ⟨c, hc⟩ : ∃ c, patCompile 9 0 lettersCapture = some (.ok c) := ⟨_, rfl⟩
  exact ⟨c, hc, compiler_correct rfl rfl (by decide) hc heval hm 0⟩

end Libpeg.CompilerCorrectness
