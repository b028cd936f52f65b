import Libpeg.Fragments
import Libpeg.TailCalls

namespace Libpeg.Grammars

open Libpeg.Charset Libpeg.Opcode Libpeg.Code Libpeg.Memo Libpeg.Vm Libpeg.AbstractVm
open Libpeg.Pattern Libpeg.Compile Libpeg.Optimize Libpeg.CodeShape Libpeg.Semantics
open Libpeg.StepSimulation Libpeg.Denotation Libpeg.ListMachine Libpeg.Fragments
open Libpeg.TailCalls Libpeg.GrammarCompile

/-- The run ends with `r` from the return behind an outcome. -/
def Returning (a : VmArgs) (code : List Pir) (s : AState) (r : Outcome) : Outcome → Prop
  | .ok j c => ∀ x f, code[x]? = some (.insn .ret) →
      Final a code (.running (goto (aAddCapt s c) x j f)) r
  | .fail => ∀ i p f c, Final a code (aGoFail a (goto (aAddCapt s c) i p f)) r
  | .stop => r = .stop

def defBindings (a : VmArgs) (code : List Pir) (labelOf : String → Option Nat) : Bindings :=
  fun name i o => ∀ l, labelOf name = some l → ∀ s f r, Returning a code s r o →
    Final a code (.running (goto s (labelIdx code l) i f)) r

variable {a : VmArgs} {code sub : List Pir} {ρ : Bindings} {labelOf : String → Option Nat}
  {name : String} {k x y i f l : Nat} {s : AState} {o r : Outcome}

section Calls

theorem final_label_iff (hk : code[k]? = some (.label l)) :
    Final a code (.running (goto s k i f)) o ↔ Final a code (.running (goto s (k + 1) i f)) o := by
  constructor
  · intro h
    cases h with
    | step h =>
        rw [aListStep, goto_ip, hk] at h
        exact h
  · exact final_label hk

theorem final_labels {ls : List Nat} (h : Holds a code ρ k (ls.map Pir.label))
    (hfinal : Final a code (.running (goto s k i f)) o) :
    Final a code (.running (goto s (k + ls.length) i f)) o := by
  induction ls generalizing k with
  | nil => exact hfinal
  | cons l ls ih =>
      rw [List.map_cons, holds_label] at h
      have hnext := ih h.2 ((final_label_iff h.1).mp hfinal)
      rwa [Nat.add_right_comm] at hnext

theorem final_ret_elsewhere (hx : code[x]? = some (.insn .ret))
    (hy : code[y]? = some (.insn .ret)) (h : Final a code (.running (goto s x i f)) o) :
    Final a code (.running (goto s y i f)) o := by
  have hsame : aInsn a none (goto s y i f) (linkAt code y .ret) =
      aInsn a none (goto s x i f) (linkAt code x .ret) ∨
      ∃ msg, aInsn a none (goto s x i f) (linkAt code x .ret) = .aborted msg := by
    obtain ⟨ip, pos, fu, stack, capt, tbl, errs, n⟩ := s
    match stack with
    | [] => exact .inr ⟨_, rfl⟩
    | ⟨.ret t, c⟩ :: rest =>
        left
        cases rest with
        | nil => rfl
        | cons e rest => rfl
    | ⟨.btrack _ _, c⟩ :: rest => exact .inr ⟨_, rfl⟩
    | ⟨.capt _ _, c⟩ :: rest => exact .inr ⟨_, rfl⟩
    | ⟨.memo _ _, c⟩ :: rest => exact .inr ⟨_, rfl⟩
    | ⟨.memoTree _ _ _, c⟩ :: rest => exact .inr ⟨_, rfl⟩
    | ⟨.check _ _ _, c⟩ :: rest => exact .inr ⟨_, rfl⟩
  cases h with
  | step h =>
      rw [aListStep_insn (s := goto s x i f) hx rfl] at h
      apply final_insn hy rfl
      rcases hsame with hsame | ⟨msg, hmsg⟩
      · rw [hsame]
        exact h
      · rw [goto_ip, hmsg] at h
        cases h

theorem carries_call (hl : labelOf name = some l) (hk : code[k]? = some (.insn (.call l))) :
    Carries a code k (k + 1) (defBindings a code labelOf name) := by
  intro s i f o r hb hleaves
  refine final_call hk (hb l hl _ f r ?_)
  cases o with
  | ok j c => exact fun x f' hx => final_ret hx (hleaves f')
  | fail => exact leaves_ret hleaves
  | stop => exact hleaves

/-- A call in tail position: the return behind it has the same effect as the one of the
definition it leads to. -/
theorem carries_tailCall {ls : List Nat} {more : List Pir} (hl : labelOf name = some l)
    (hk : code[k]? = some (.insn (.jump l)))
    (hret : Holds a code ρ (k + 1) (ls.map Pir.label ++ .insn .ret :: more)) :
    Carries a code k (k + 1) (defBindings a code labelOf name) := by
  rw [holds_append, holds_insn (by simp), List.length_map] at hret
  intro s i f o r hb hleaves
  refine final_jump hk (hb l hl s f r ?_)
  cases o with
  | ok j c =>
      intro x f' hx
      exact final_ret_elsewhere hret.2.1 hx (final_labels hret.1 (hleaves f'))
  | fail => exact hleaves
  | stop => exact hleaves

theorem holds_of_resolved {jumped : Bool} (hguard : Guarded jumped sub)
    (herr : (resolveCalls labelOf sub).2 = none) (h : Holds a code ρ k (resolveCalls labelOf sub).1) :
    Holds a code (defBindings a code labelOf) k sub := by
  induction sub generalizing k jumped with
  | nil => trivial
  | cons c rest ih =>
      cases c with
      | label x =>
          obtain ⟨hc, hrest⟩ := h
          exact ⟨hc, ih (guarded_label.mp hguard) herr hrest⟩
      | insn c =>
          obtain ⟨hc, hrest⟩ := h
          refine ⟨hc, ?_⟩
          by_cases hplain : isOrdinary c = true
          · exact ih ((guarded_insn hplain).mp hguard) herr hrest
          · cases c <;> first | exact absurd rfl hplain | skip
            · exact ih (guarded_jump.mp hguard) herr hrest
            · exact ih hguard.2 herr hrest
      | openCall name =>
          rw [resolveCalls] at h herr
          cases hl : labelOf name with
          | none =>
              rw [hl] at herr
              cases herr
          | some l =>
              rw [hl] at h herr
              dsimp only at h herr
              split at h
              · next hnext =>
                  simp only [hnext] at herr
                  obtain ⟨ls, more, rfl⟩ := nextInsn_ret hguard hnext
                  rw [holds_insn (by simp)] at h
                  have hrest : Holds a code ρ (k + 1) (resolveCalls labelOf
                      (ls.map Pir.label ++ .insn .ret :: more)).1 := by
                    cases ls with
                    | nil => exact h.2
                    | cons x ls =>
                        rw [List.map_cons, List.cons_append, hadLabel_cons, if_pos rfl] at h
                        exact h.2
                  have hheld := ih hguard herr hrest
                  exact ⟨carries_tailCall hl h.1 hheld, hheld⟩
              · next hnext =>
                  have herr' : (resolveCalls labelOf rest).2 = none := by
                    split at herr
                    · exact absurd ‹_› hnext
                    · exact herr
                  rw [holds_insn (by simp)] at h
                  exact ⟨carries_call hl h.1, ih hguard herr' h.2⟩

end Calls

section Definitions

variable {g : Defs} {labels : List (Option Nat)} {fns fn code' : List Pir} {n lend : Nat} {p : Pat}
  {start : String}

def labelFor (g : Defs) (labels : List (Option Nat)) (name : String) : Option Nat :=
  (findDef g name).bind fun i => labels.getD i none

/-- Each definition with a label stands between the label and a return, and its code
behaves like it whatever the names stand for. -/
def Laid (a : VmArgs) (n : Nat) (g : Defs) (labels : List (Option Nat)) (fns : List Pir) : Prop :=
  ∀ j l, labels.getD j none = some l → ∃ p fn pre post, defAt g j = some p ∧
    fns = pre ++ .label l :: (fn ++ .insn .ret :: post) ∧
      ∀ σ, Fragment a σ (denote a.input n p σ) fn

theorem laid_nil : Laid a n g [] fns := by
  intro j l hl
  simp at hl

theorem Laid.skip (h : Laid a n g labels fns) :
    Laid a n (.cons name p g) (none :: labels) fns := by
  intro j l hl
  cases j with
  | zero => cases hl
  | succ j => exact h j l hl

theorem Laid.definition (h : Laid a n g labels fns)
    (hfn : ∀ σ, Fragment a σ (denote a.input n p σ) fn) :
    Laid a n (.cons name p g) (some l :: labels) ([.label l] ++ fn ++ [.insn .ret] ++ fns) := by
  intro j l' hl
  cases j with
  | zero =>
      cases hl
      exact ⟨p, fn, [], fns, rfl, by simp, hfn⟩
  | succ j =>
      obtain ⟨q, fn', pre, post, hq, rfl, hfrag⟩ := h j l' hl
      exact ⟨q, fn', [.label l] ++ fn ++ [.insn .ret] ++ pre, post, hq, by simp, hfrag⟩

theorem bindings_le_defBindings (hnodup : (labelsOf code).Nodup) (hlaid : Laid a n g labels fns)
    (h : Holds a code (defBindings a code (labelFor g labels)) k fns) (ρ : Bindings) :
    bindings a.input n g ρ ≤ defBindings a code (labelFor g labels) := by
  refine bindings_le fun name i o hb l hl s f r hret => ?_
  obtain ⟨j, hj, hlabel⟩ := Option.bind_eq_some_iff.mp hl
  obtain ⟨p, fn, pre, post, hp, rfl, hfn⟩ := hlaid j l hlabel
  have hdef : lookupDef g name = some p := by
    rw [lookupDef, hj]
    exact hp
  simp only [denoteDefs_eq, hdef] at hb
  rw [holds_append, holds_label, holds_append, holds_insn (by simp)] at h
  obtain ⟨-, hl, hcode, hx, -⟩ := h
  rw [labelIdx_eq hnodup hl]
  refine final_label hl ((hfn _).whole hnodup hcode s i f o r hb ?_)
  cases o with
  | ok j c => exact fun f' => hret _ f' hx
  | fail => exact hret
  | stop => exact hret

/-- The code of a grammar: a call of the first definition, a jump to the end and the
definitions. -/
theorem fragment_grammar (hlaid : Laid a n g labels fns) (hguard : Guarded false fns)
    (hcode : resolveCalls (labelFor g labels) ([.openCall start, .insn (.jump lend)] ++ fns) =
      (code', none)) (ρ : Bindings) :
    Fragment a ρ (bindings a.input n g ρ start) (code' ++ [.label lend]) := by
  have hhead : ∃ c rest, code' = c :: rest ∧ matchWidth c = none := by
    have hcode := congrArg Prod.fst hcode
    rw [List.cons_append, resolveCalls] at hcode
    cases hl : labelFor g labels start with
    | none =>
        rw [hl] at hcode
        exact ⟨_, _, hcode.symm, rfl⟩
    | some l =>
        rw [hl] at hcode
        exact ⟨_, _, hcode.symm, rfl⟩
  have hopen : Guarded false ([.openCall start, .insn (.jump lend)] ++ fns) := hguard.weaken
  obtain ⟨c, rest, hcons, hc⟩ := hhead
  have heq : code' ++ [.label lend] = c :: (rest ++ [.label lend]) := by
    rw [hcons]
    rfl
  rw [heq]
  refine fragment_of_carries hc fun code hnodup k hholds s i f o r hb hleaves => ?_
  rw [← heq, holds_append] at hholds
  rw [← heq, List.length_append, ← Nat.add_assoc] at hleaves
  have hlend : code[k + code'.length]? = some (.label lend) := hholds.2.1
  have hresolved : Holds a code (defBindings a code (labelFor g labels)) k
      ([.openCall start, .insn (.jump lend)] ++ fns) := by
    apply holds_of_resolved hopen
    · rw [hcode]
    · rw [hcode]
      exact hholds.1
  obtain ⟨hcall, hjump, hfns⟩ := hresolved
  refine hcall s i f o r (bindings_le_defBindings hnodup hlaid hfns ρ start i o hb) ?_
  cases o with
  | ok j c' =>
      intro f'
      refine final_jump hjump ?_
      rw [labelIdx_eq hnodup hlend]
      exact final_label hlend (hleaves f')
  | fail => exact hleaves
  | stop => exact hleaves

end Definitions

end Libpeg.Grammars
