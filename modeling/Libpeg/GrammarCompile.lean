import Libpeg.CompileTotal
import Mathlib.Logic.Relation

/-!
What `pat_compile` returns for a grammar without nested grammars. The compiler
looks for non-terminals in three places, when it inlines, when it marks the
definitions to emit and when it emits calls, and these have to agree.
-/

namespace Libpeg.GrammarCompile

open Libpeg.Charset Libpeg.Opcode Libpeg.Code Libpeg.Pattern Libpeg.Compile Libpeg.CompileTotal

def PlainDefs : Defs → Prop
  | .nil => True
  | .cons _ p rest => Plain p ∧ PlainDefs rest

section Inlining

variable {g : Defs}

theorem PlainDefs.at {g : Defs} (h : PlainDefs g) {i : Nat} {p : Pat} (hp : defAt g i = some p) :
    Plain p := by
  cases g with
  | nil => cases hp
  | cons name q rest =>
      cases i with
      | zero =>
          cases hp
          exact h.1
      | succ i => exact PlainDefs.at h.2 hp

theorem inlinable_eq_some {name : String} {p : Pat} (h : inlinable g name = some p) :
    (∃ i, findDef g name = some i ∧ defAt g i = some p) ∧ unresolved p = [] := by
  unfold inlinable at h
  split at h
  · next q hq =>
      split at h
      · next hsmall =>
          cases h
          obtain ⟨i, hi, hq⟩ := Option.bind_eq_some_iff.mp hq
          exact ⟨⟨i, hi, hq⟩, hsmall.2⟩
      · cases h
  · cases h

mutual

theorem unresolved_inlinePat (g : Defs) (p : Pat) :
    unresolved (inlinePat g p) = (unresolved p).filter fun name => (inlinable g name).isNone := by
  cases p with
  | alt l r =>
      simp [inlinePat, unresolved, unresolved_inlinePat g l, unresolved_inlinePat g r]
  | seq l r =>
      simp [inlinePat, unresolved, unresolved_inlinePat g l, unresolved_inlinePat g r]
  | star p => simp [inlinePat, unresolved, unresolved_inlinePat g p]
  | plus p => simp [inlinePat, unresolved, unresolved_inlinePat g p]
  | optional p => simp [inlinePat, unresolved, unresolved_inlinePat g p]
  | not p => simp [inlinePat, unresolved, unresolved_inlinePat g p]
  | and p => simp [inlinePat, unresolved, unresolved_inlinePat g p]
  | cap p id => simp [inlinePat, unresolved, unresolved_inlinePat g p]
  | memo p id => simp [inlinePat, unresolved, unresolved_inlinePat g p]
  | check p fn id flag => simp [inlinePat, unresolved, unresolved_inlinePat g p]
  | search p => simp [inlinePat, unresolved, unresolved_inlinePat g p]
  | inlined name p => simp [inlinePat, unresolved, unresolved_inlinePat g p]
  | errorRecover msg p => simp [inlinePat, unresolved, unresolved_inlinePat g p]
  | grammar start defs => simp [inlinePat, unresolved, unresolved_inlineDefs g defs]
  | nonterm name =>
      cases hin : inlinable g name with
      | none => simp [inlinePat, hin, unresolved]
      | some p => simp [inlinePat, hin, unresolved, (inlinable_eq_some hin).2]
  | _ => simp [inlinePat, unresolved]

theorem unresolved_inlineDefs (g : Defs) (d : Defs) :
    unresolvedDefs (inlineDefs g d) =
      (unresolvedDefs d).filter fun name => (inlinable g name).isNone := by
  cases d with
  | nil => rfl
  | cons name p rest =>
      simp [inlineDefs, unresolvedDefs, unresolved_inlinePat g p, unresolved_inlineDefs g rest]

end

mutual

theorem inlinePat_self (g : Defs) (p : Pat) (h : ∀ name ∈ unresolved p, inlinable g name = none) :
    inlinePat g p = p := by
  cases p with
  | alt l r =>
      obtain ⟨hl, hr⟩ := List.forall_mem_append.mp h
      rw [inlinePat, inlinePat_self g l hl, inlinePat_self g r hr]
  | seq l r =>
      obtain ⟨hl, hr⟩ := List.forall_mem_append.mp h
      rw [inlinePat, inlinePat_self g l hl, inlinePat_self g r hr]
  | star p => rw [inlinePat, inlinePat_self g p h]
  | plus p => rw [inlinePat, inlinePat_self g p h]
  | optional p => rw [inlinePat, inlinePat_self g p h]
  | not p => rw [inlinePat, inlinePat_self g p h]
  | and p => rw [inlinePat, inlinePat_self g p h]
  | cap p id => rw [inlinePat, inlinePat_self g p h]
  | memo p id => rw [inlinePat, inlinePat_self g p h]
  | check p fn id flag => rw [inlinePat, inlinePat_self g p h]
  | grammar start defs => rw [inlinePat, inlineDefs_self g defs h]
  | search p => rw [inlinePat, inlinePat_self g p h]
  | nonterm name => rw [inlinePat, h name List.mem_cons_self]
  | inlined name p => rw [inlinePat, inlinePat_self g p h]
  | errorRecover msg p => rw [inlinePat, inlinePat_self g p h]
  | _ => rfl

theorem inlineDefs_self (g d : Defs) (h : ∀ name ∈ unresolvedDefs d, inlinable g name = none) :
    inlineDefs g d = d := by
  cases d with
  | nil => rfl
  | cons name p rest =>
      obtain ⟨hp, hrest⟩ := List.forall_mem_append.mp h
      rw [inlineDefs, inlinePat_self g p hp, inlineDefs_self g rest hrest]

end

theorem plain_inlinePat (hg : PlainDefs g) {p : Pat} (hp : Plain p) : Plain (inlinePat g p) := by
  cases p with
  | alt l r => exact ⟨plain_inlinePat hg hp.1, plain_inlinePat hg hp.2⟩
  | seq l r => exact ⟨plain_inlinePat hg hp.1, plain_inlinePat hg hp.2⟩
  | star p => exact plain_inlinePat (p := p) hg hp
  | plus p => exact plain_inlinePat (p := p) hg hp
  | optional p => exact plain_inlinePat (p := p) hg hp
  | not p => exact plain_inlinePat (p := p) hg hp
  | and p => exact plain_inlinePat (p := p) hg hp
  | cap p id => exact plain_inlinePat (p := p) hg hp
  | memo p id => exact plain_inlinePat (p := p) hg hp
  | check p fn id flag => exact plain_inlinePat (p := p) hg hp
  | inlined name p => exact plain_inlinePat (p := p) hg hp
  | errorRecover msg p => exact plain_inlinePat (p := p) hg hp
  | repeated p n => exact hp
  | grammar start defs => cases hp
  | search p => cases hp
  | nonterm name =>
      rw [inlinePat]
      split
      · next q hq =>
          obtain ⟨⟨i, -, hdef⟩, -⟩ := inlinable_eq_some hq
          exact PlainDefs.at (p := q) hg hdef
      · exact hp
  | _ => exact trivial

theorem plain_inlineDefs (hg : PlainDefs g) {d : Defs} (hd : PlainDefs d) :
    PlainDefs (inlineDefs g d) := by
  cases d with
  | nil => exact trivial
  | cons name p rest => exact ⟨plain_inlinePat hg hd.1, plain_inlineDefs hg hd.2⟩

theorem findDef_inlineDefs (g d : Defs) (name : String) :
    findDef (inlineDefs g d) name = findDef d name := by
  cases d with
  | nil => rfl
  | cons name' p rest => rw [inlineDefs, findDef, findDef, findDef_inlineDefs g rest]

theorem defAt_inlineDefs (g d : Defs) (i : Nat) :
    defAt (inlineDefs g d) i = (defAt d i).map (inlinePat g) := by
  cases d with
  | nil => rfl
  | cons name' p rest =>
      cases i with
      | zero => rfl
      | succ i => exact defAt_inlineDefs g rest i

/-- The definition of a name refers to another name. -/
def Refers (g : Defs) (name name' : String) : Prop :=
  ∃ i p, findDef g name = some i ∧ defAt g i = some p ∧ name' ∈ unresolved p

/-- A chain of references from a name to one without definition. -/
def LeadsTo (g : Defs) (name missing : String) : Prop :=
  findDef g missing = none ∧ Relation.TransGen (Refers g) name missing

theorem Refers.not_inlinable {name name' : String} (h : Refers g name name') :
    inlinable g name = none := by
  obtain ⟨i, p, hi, hp, hmem⟩ := h
  cases hin : inlinable g name with
  | none => rfl
  | some q =>
      obtain ⟨⟨j, hj, hq⟩, hnil⟩ := inlinable_eq_some hin
      cases hi.symm.trans hj
      cases hp.symm.trans hq
      simp [hnil] at hmem

theorem Refers.inline {name name' : String} (h : Refers g name name')
    (hstays : inlinable g name' = none) : Refers (inlineDefs g g) name name' := by
  obtain ⟨i, p, hi, hp, hmem⟩ := h
  refine ⟨i, inlinePat g p, ?_, ?_, ?_⟩
  · rw [findDef_inlineDefs, hi]
  · rw [defAt_inlineDefs, hp]
    rfl
  · rw [unresolved_inlinePat, List.mem_filter]
    exact ⟨hmem, by simp [hstays]⟩

theorem inlinable_missing {name : String} (h : findDef g name = none) : inlinable g name = none := by
  simp [inlinable, h]

/-- A chain to a missing name survives every pass: none of its definitions is ever
a leaf. -/
theorem LeadsTo.inline {name missing : String} (h : LeadsTo g name missing) :
    LeadsTo (inlineDefs g g) name missing := by
  obtain ⟨hmissing, hchain⟩ := h
  refine ⟨by rw [findDef_inlineDefs, hmissing], ?_⟩
  induction hchain using Relation.TransGen.head_induction_on with
  | single href => exact .single (href.inline (inlinable_missing hmissing))
  | head href hchain ih =>
      refine .head (href.inline ?_) ih
      cases hchain using Relation.TransGen.head_induction_on with
      | single href' => exact href'.not_inlinable
      | head href' _ _ => exact href'.not_inlinable

/-- What inlining keeps. -/
structure InlinedTo (g g' : Defs) : Prop where
  plain : PlainDefs g'
  find : ∀ name, findDef g' name = findDef g name
  names : unresolvedDefs g' ⊆ unresolvedDefs g
  leads : ∀ name missing, LeadsTo g name missing → LeadsTo g' name missing

theorem grammarInline_settles (n : Nat) (g : Defs) (hlen : (unresolvedDefs g).length ≤ n)
    (hg : PlainDefs g) : ∃ g', Settles (fun k => grammarInline k g) g' ∧ InlinedTo g g' := by
  induction n generalizing g with
  | zero =>
      have hnil : unresolvedDefs g = [] := List.length_eq_zero_iff.mp (by omega)
      refine ⟨g, Settles.of_succ (settles_some g) fun k => ?_, hg, fun _ => rfl, fun _ h => h,
        fun _ _ h => h⟩
      simp [grammarInline, inlinesAny, hnil]
  | succ n ih =>
      by_cases hany : inlinesAny g = true
      · -- a pass that inlines something leaves fewer non-terminals
        have hless : (unresolvedDefs (inlineDefs g g)).length < (unresolvedDefs g).length := by
          rw [unresolved_inlineDefs]
          obtain ⟨name, hname, hin⟩ := List.any_eq_true.mp hany
          refine List.length_filter_lt_length_iff_exists.mpr ⟨name, hname, ?_⟩
          simpa [Option.isSome_iff_ne_none] using hin
        obtain ⟨g', hsettles, hto⟩ := ih (inlineDefs g g) (by omega) (plain_inlineDefs hg hg)
        refine ⟨g', Settles.of_succ hsettles fun k => ?_, hto.plain, fun name => ?_, ?_, ?_⟩
        · rw [grammarInline, if_pos hany]
        · rw [hto.find, findDef_inlineDefs]
        · intro name hname
          have hmem := hto.names hname
          rw [unresolved_inlineDefs] at hmem
          exact List.mem_of_mem_filter hmem
        · exact fun name missing h => hto.leads name missing h.inline
      · refine ⟨g, Settles.of_succ (settles_some g) fun k => ?_, hg, fun _ => rfl, fun _ h => h,
          fun _ _ h => h⟩
        rw [grammarInline, if_neg hany]

end Inlining

section Calls

variable {labelOf : String → Option Nat} {code : List Pir}

theorem openCalls_nopNext (h : openCalls code = []) : openCalls (nopNext code) = [] := by
  induction code with
  | nil => rfl
  | cons c code ih =>
      cases c with
      | label l => simpa [nopNext, isReal] using ih (by simpa using h)
      | openCall name => simp at h
      | insn i =>
          rw [nopNext]
          split
          · simpa using h
          · simpa using ih (by simpa using h)

theorem resolveCalls_ok (h : ∀ name ∈ openCalls code, (labelOf name).isSome = true) :
    (resolveCalls labelOf code).2 = none ∧ openCalls (resolveCalls labelOf code).1 = [] := by
  induction code with
  | nil => exact ⟨rfl, rfl⟩
  | cons c code ih =>
      cases c with
      | label l => exact ih (by simpa using h)
      | insn i => exact ih (by simpa using h)
      | openCall name =>
          obtain ⟨herr, hnone⟩ := ih fun name' hname => h name' (by simp [hname])
          obtain ⟨l, hl⟩ := Option.isSome_iff_exists.mp (h name (by simp))
          simp only [resolveCalls, hl]
          split
          · refine ⟨herr, ?_⟩
            split
            · simpa using hnone
            · simpa using openCalls_nopNext hnone
          · exact ⟨herr, by simpa using hnone⟩

theorem resolveCalls_missing (h : ∃ name ∈ openCalls code, labelOf name = none) :
    ∃ name ∈ openCalls code, labelOf name = none ∧ (resolveCalls labelOf code).2 = some name := by
  induction code with
  | nil =>
      obtain ⟨name, hname, -⟩ := h
      cases hname
  | cons c code ih =>
      cases c with
      | label l => exact ih (by simpa using h)
      | insn i => exact ih (by simpa using h)
      | openCall name =>
          cases hl : labelOf name with
          | none => exact ⟨name, by simp, hl, by simp [resolveCalls, hl]⟩
          | some l =>
              obtain ⟨name', hname', hnone, hres⟩ := ih (by
                obtain ⟨name', hname', hnone⟩ := h
                refine ⟨name', ?_, hnone⟩
                rcases List.mem_cons.mp hname' with rfl | hmem
                · rw [hl] at hnone
                  cases hnone
                · exact hmem)
              refine ⟨name', by simp [hname'], hnone, ?_⟩
              simp only [resolveCalls, hl]
              split <;> exact hres

end Calls

theorem compileDefs_settles (keep : Nat → Bool) (i : Nat) (d : Defs) (hd : PlainDefs d) (ctx : Pctx) :
    ∃ code labels ctx', Settles (fun k => compileDefs k ctx keep i d) (code, labels, ctx') ∧
      ctx'.err = ctx.err ∧
      (∀ j p, defAt d j = some p → (labels.getD j none).isSome = keep (i + j)) ∧
      ∀ name, name ∈ openCalls code ↔
        ∃ j p, defAt d j = some p ∧ keep (i + j) = true ∧ name ∈ unresolved p := by
  cases d with
  | nil =>
      refine ⟨[], [], ctx, Settles.of_succ (settles_some _) fun k => rfl, rfl, ?_, ?_⟩
      · rintro j p ⟨⟩
      · intro name
        simp [defAt]
  | cons name p rest =>
      have hshift : ∀ j, i + 1 + j = i + (j + 1) := fun j => by omega
      by_cases hkeep : keep i = true
      · obtain ⟨fn, ctx₁, hfn, herr₁, ho₁⟩ :=
          plain_compiles (patSize p) p le_rfl hd.1 (takeLabels ctx 1)
        obtain ⟨code, labels, ctx₂, hrest, herr₂, hlabels, ho₂⟩ :=
          compileDefs_settles keep (i + 1) rest hd.2 ctx₁
        have hstep : ∀ k, compileDefs (k + 1) ctx keep i (.cons name p rest) =
            (compilePat k (takeLabels ctx 1) p).bind fun x =>
              (compileDefs k x.2 keep (i + 1) rest).bind fun y =>
                some ([.label ctx.nlabels] ++ x.1 ++ [.insn .ret] ++ y.1,
                  some ctx.nlabels :: y.2.1, y.2.2) := by
          intro k
          rw [compileDefs, if_pos hkeep]
          rfl
        refine ⟨[.label ctx.nlabels] ++ fn ++ [.insn .ret] ++ code, some ctx.nlabels :: labels, ctx₂,
          Settles.of_succ (hfn.bind (hrest.bind (settles_some _))) hstep, herr₂.trans herr₁, ?_, ?_⟩
        · intro j q hq
          cases j with
          | zero => simpa using hkeep.symm
          | succ j =>
              rw [List.getD_cons_succ, hlabels j q hq, hshift]
        · intro name'
          simp only [openCalls_append, openCalls_label, openCalls_insn, openCalls_nil,
            List.nil_append, List.append_nil, List.mem_append, ho₁, ho₂]
          constructor
          · rintro (hp | ⟨j, q, hq, hk, hmem⟩)
            · exact ⟨0, p, rfl, hkeep, hp⟩
            · exact ⟨j + 1, q, hq, hshift j ▸ hk, hmem⟩
          · rintro ⟨j, q, hq, hk, hmem⟩
            cases j with
            | zero =>
                cases hq
                exact .inl hmem
            | succ j => exact .inr ⟨j, q, hq, (hshift j).symm ▸ hk, hmem⟩
      · obtain ⟨code, labels, ctx₂, hrest, herr₂, hlabels, ho₂⟩ :=
          compileDefs_settles keep (i + 1) rest hd.2 ctx
        have hstep : ∀ k, compileDefs (k + 1) ctx keep i (.cons name p rest) =
            (compileDefs k ctx keep (i + 1) rest).bind fun y => some (y.1, none :: y.2.1, y.2.2) := by
          intro k
          rw [compileDefs, if_neg hkeep]
          rfl
        refine ⟨code, none :: labels, ctx₂, Settles.of_succ (hrest.bind (settles_some _)) hstep,
          herr₂, ?_, ?_⟩
        · intro j q hq
          cases j with
          | zero => simpa using hkeep
          | succ j =>
              rw [List.getD_cons_succ, hlabels j q hq, hshift]
        · intro name'
          rw [ho₂]
          constructor
          · rintro ⟨j, q, hq, hk, hmem⟩
            exact ⟨j + 1, q, hq, hshift j ▸ hk, hmem⟩
          · rintro ⟨j, q, hq, hk, hmem⟩
            cases j with
            | zero => exact absurd hk hkeep
            | succ j => exact ⟨j, q, hq, (hshift j).symm ▸ hk, hmem⟩

theorem mem_unresolvedDefs {g : Defs} {name : String} :
    name ∈ unresolvedDefs g ↔ ∃ i p, defAt g i = some p ∧ name ∈ unresolved p := by
  cases g with
  | nil => simp [unresolvedDefs, defAt]
  | cons name' p rest =>
      rw [unresolvedDefs, List.mem_append, mem_unresolvedDefs (g := rest)]
      constructor
      · rintro (hp | ⟨i, q, hq, hmem⟩)
        · exact ⟨0, p, rfl, hp⟩
        · exact ⟨i + 1, q, hq, hmem⟩
      · rintro ⟨i, q, hq, hmem⟩
        cases i with
        | zero =>
            cases hq
            exact .inl hmem
        | succ i => exact .inr ⟨i, q, hq, hmem⟩

theorem findDef_defAt {g : Defs} {name : String} {i : Nat} (h : findDef g name = some i) :
    ∃ p, defAt g i = some p := by
  cases g with
  | nil => cases h
  | cons name' p rest =>
      rw [findDef] at h
      split at h
      · cases h
        exact ⟨p, rfl⟩
      · obtain ⟨j, hj, rfl⟩ := Option.map_eq_some_iff.mp h
        exact findDef_defAt (g := rest) hj

/-- What `compile_grammar` leaves: no open call when every name has a definition,
and otherwise the name of one without. -/
def Resolves (g : Defs) (start : String) (code : List Pir) (ctx : Pctx) : Prop :=
  ((findDef g start).isSome = true → (∀ name ∈ unresolvedDefs g, (findDef g name).isSome = true) →
      ctx.err = none ∧ openCalls code = []) ∧
    ∀ missing, LeadsTo g start missing →
      ∃ name ∈ unresolvedDefs g, findDef g name = none ∧ ctx.err = some name

theorem Resolves.of_inlined {g g' : Defs} {start : String} {code : List Pir} {ctx : Pctx}
    (hto : InlinedTo g g') (h : Resolves g' start code ctx) : Resolves g start code ctx := by
  refine ⟨fun hstart hall => h.1 ?_ fun name hname => ?_, fun missing hleads => ?_⟩
  · rw [hto.find]
    exact hstart
  · rw [hto.find]
    exact hall name (hto.names hname)
  · obtain ⟨name, hname, hnone, herr⟩ := h.2 missing (hto.leads start missing hleads)
    exact ⟨name, hto.names hname, (hto.find name).symm.trans hnone, herr⟩

theorem LeadsTo.start_refers {g : Defs} {start missing : String} (h : LeadsTo g start missing) :
    ∃ name, Refers g start name := by
  obtain ⟨name, href, -⟩ := Relation.TransGen.head'_iff.mp h.2
  exact ⟨name, href⟩

/-- A grammar in which nothing is left to inline, compiled definition by
definition. -/
theorem emitDefs_resolves {g : Defs} {start : String} {startidx : Nat} {fns : List Pir}
    {labels : List (Option Nat)} {ctx : Pctx} (hstart : findDef g start = some startidx)
    (hlabels : ∀ j p, defAt g j = some p → (labels.getD j none).isSome =
      (decide (j = startidx) || ((unresolvedDefs g).filterMap (findDef g)).contains j))
    (hcalls : ∀ name, name ∈ openCalls fns ↔ ∃ j p, defAt g j = some p ∧
      (decide (j = startidx) || ((unresolvedDefs g).filterMap (findDef g)).contains j) = true ∧
      name ∈ unresolved p) (lend : Nat) (hctx : ctx.err = none) :
    ∀ res, res = resolveCalls (fun name => (findDef g name).bind fun i => labels.getD i none)
        ([.openCall start, .insn (.jump lend)] ++ fns) →
      Resolves g start
        (match res.2 with
          | some _ => res.1
          | none => res.1 ++ [.label lend])
        (match res.2 with
          | some name => setErr ctx name
          | none => ctx) := by
  rintro res rfl
  have hmem : ∀ name, name ∈ openCalls ([.openCall start, .insn (.jump lend)] ++ fns) →
      name = start ∨ name ∈ unresolvedDefs g := by
    intro name hname
    simp only [openCalls_append, openCalls_openCall, openCalls_insn, openCalls_nil, List.mem_append,
      List.mem_singleton] at hname
    rcases hname with rfl | hname
    · exact .inl rfl
    · obtain ⟨j, p, hp, -, hin⟩ := (hcalls name).mp hname
      exact .inr (mem_unresolvedDefs.mpr ⟨j, p, hp, hin⟩)
  -- every call that has a definition has a label
  have hlabel : ∀ name, name ∈ openCalls ([.openCall start, .insn (.jump lend)] ++ fns) →
      (findDef g name).isSome = true →
      ((findDef g name).bind fun i => labels.getD i none).isSome = true := by
    intro name hname hdef
    obtain ⟨i, hi⟩ := Option.isSome_iff_exists.mp hdef
    obtain ⟨p, hp⟩ := findDef_defAt hi
    rw [hi, Option.bind_some, hlabels i p hp]
    rcases hmem name hname with rfl | hname
    · cases hstart.symm.trans hi
      simp
    · have hused : i ∈ (unresolvedDefs g).filterMap (findDef g) :=
        List.mem_filterMap.mpr ⟨name, hname, hi⟩
      simp [hused]
  constructor
  · intro _ hall
    have hok := resolveCalls_ok fun name hname => hlabel name hname (by
      rcases hmem name hname with rfl | hin
      · rw [hstart]
        rfl
      · exact hall name hin)
    rw [hok.1]
    exact ⟨hctx, by simpa using hok.2⟩
  · rintro missing ⟨hnone, hchain⟩
    obtain ⟨name, hreach, i, p, hi, hp, hin⟩ := Relation.TransGen.tail'_iff.mp hchain
    have hkept : (decide (i = startidx) ||
        ((unresolvedDefs g).filterMap (findDef g)).contains i) = true := by
      rcases hreach.cases_tail with rfl | ⟨name', -, j, q, -, hq, hin'⟩
      · cases hstart.symm.trans hi
        simp
      · have hused : i ∈ (unresolvedDefs g).filterMap (findDef g) :=
          List.mem_filterMap.mpr ⟨name, mem_unresolvedDefs.mpr ⟨j, q, hq, hin'⟩, hi⟩
        simp [hused]
    have hcall : missing ∈ openCalls ([.openCall start, .insn (.jump lend)] ++ fns) := by
      simp only [openCalls_append, List.mem_append]
      exact .inr ((hcalls missing).mpr ⟨i, p, hp, hkept, hin⟩)
    obtain ⟨name', hname', hlab, herr⟩ := @resolveCalls_missing
      (fun name => (findDef g name).bind fun i => labels.getD i none) _
      ⟨missing, hcall, by rw [hnone]; rfl⟩
    have hundef : findDef g name' = none := by
      by_contra hdef
      have hsome := hlabel name' hname' (Option.isSome_iff_ne_none.mpr hdef)
      rw [hlab] at hsome
      cases hsome
    refine ⟨name', ?_, hundef, ?_⟩
    · rcases hmem name' hname' with rfl | hin'
      · rw [hstart] at hundef
        cases hundef
      · exact hin'
    · rw [herr]
      simp [setErr, hctx]

theorem compileGrammar_settles (start : String) (g : Defs) (hg : PlainDefs g) (ctx : Pctx)
    (hctx : ctx.err = none) : ∃ code ctx',
      Settles (fun k => compileGrammar k ctx start g) (code, ctx') ∧ Resolves g start code ctx' := by
  obtain ⟨g', hinline, hto⟩ := grammarInline_settles _ g le_rfl hg
  have hof : ∀ {code ctx'}, Resolves g' start code ctx' → Resolves g start code ctx' :=
    fun h => h.of_inlined hto
  cases hstart : findDef g' start with
  | none =>
      refine ⟨[], setErr ctx start, Settles.of_succ (hinline.bind ?_) fun k => rfl, hof ⟨?_, ?_⟩⟩
      · simp only [hstart]
        exact settles_some _
      · intro hsome
        rw [hstart] at hsome
        cases hsome
      · intro missing hleads
        obtain ⟨name, i, p, hi, -⟩ := hleads.start_refers
        cases hstart.symm.trans hi
  | some startidx =>
      by_cases hnil : unresolvedDefs g' = []
      · obtain ⟨p, hp⟩ := findDef_defAt hstart
        obtain ⟨code, ctx', hsettles, herr, ho⟩ :=
          plain_compiles (patSize p) p le_rfl (hto.plain.at hp) ctx
        have hnone : ∀ name, name ∉ unresolved p := by
          intro name hname
          have hin := mem_unresolvedDefs.mpr ⟨startidx, p, hp, hname⟩
          simp [hnil] at hin
        refine ⟨code, ctx', Settles.of_succ (hinline.bind ?_) fun k => rfl, hof ⟨?_, ?_⟩⟩
        · simp only [hstart, if_pos hnil, hp, Option.getD_some]
          exact hsettles
        · intro _ _
          refine ⟨herr.trans hctx, List.eq_nil_iff_forall_not_mem.mpr fun name hname => ?_⟩
          exact hnone name ((ho name).mp hname)
        · intro missing hleads
          obtain ⟨name, i, q, hi, hq, hin⟩ := hleads.start_refers
          cases hstart.symm.trans hi
          cases hp.symm.trans hq
          exact absurd hin (hnone name)
      · obtain ⟨fns, labels, ctx₁, hsettles, herr, hlabels, hcalls⟩ := compileDefs_settles
          (fun i => i = startidx || ((unresolvedDefs g').filterMap (findDef g')).contains i) 0 g'
          hto.plain (takeLabels ctx 1)
        simp only [Nat.zero_add] at hlabels hcalls
        refine ⟨_, _, Settles.of_succ (hinline.bind ?_) fun k => rfl, hof
          (emitDefs_resolves hstart hlabels hcalls ctx.nlabels (herr.trans hctx) _ rfl)⟩
        simp only [hstart, if_neg hnil]
        refine hsettles.bind ?_
        dsimp only [pctxLabel]
        cases (resolveCalls (fun name => (findDef g' name).bind fun i => labels.getD i none)
          ([.openCall start, .insn (.jump ctx.nlabels)] ++ fns)).2 with
        | none => exact settles_some _
        | some name => exact settles_some _

def builderLimits : List String :=
  ["charset table overflow (max 256)", "program too large: jump target exceeds 24 bits"]

theorem addSet_error {p : VmProg} {set : VmCharset} {msg : String} (h : addSet p set = .error msg) :
    msg ∈ builderLimits := by
  unfold addSet at h
  split at h
  · cases h
  · split at h
    · cases h
      simp [builderLimits]
    · cases h

theorem vmEmit_error {p : VmProg} {e : Emit} {msg : String} (h : vmEmit p e = .error msg) :
    msg ∈ builderLimits := by
  have hset : ∀ {α : Type} {set : VmCharset} (f : UInt8 × VmProg → Except String α),
      (∀ x, ∃ y, f x = .ok y) → (addSet p set >>= f) = .error msg → msg ∈ builderLimits := by
    intro α set f hf hbind
    cases hadd : addSet p set with
    | error msg' =>
        rw [hadd] at hbind
        cases hbind
        exact addSet_error hadd
    | ok x =>
        rw [hadd] at hbind
        obtain ⟨y, hy⟩ := hf x
        change f x = .error msg at hbind
        rw [hy] at hbind
        cases hbind
  cases e with
  | set s => exact hset _ (fun x => ⟨_, rfl⟩) h
  | span s => exact hset _ (fun x => ⟨_, rfl⟩) h
  | testSet s l => exact hset _ (fun x => ⟨_, rfl⟩) h
  | testSetNoChoice s l => exact hset _ (fun x => ⟨_, rfl⟩) h
  | _ => cases h

theorem runCalls_error {calls : List Call} {p : VmProg} {msg : String}
    (h : runCalls calls p = .error msg) : msg ∈ builderLimits := by
  induction calls generalizing p with
  | nil => cases h
  | cons c calls ih =>
      rw [runCalls] at h
      cases hc : runCall p c with
      | error msg' =>
          rw [hc] at h
          cases h
          cases c with
          | emit e => exact vmEmit_error hc
          | label => cases hc
          | mark l => cases hc
      | ok p' =>
          rw [hc] at h
          exact ih h

theorem patchFixups_error {labels : List Nat} {fixups : List (Nat × Nat)} {code : List UInt8}
    {msg : String} (h : patchFixups labels fixups code = .error msg) : msg ∈ builderLimits := by
  induction fixups generalizing code with
  | nil => cases h
  | cons f fixups ih =>
      obtain ⟨at_, l⟩ := f
      rw [patchFixups] at h
      split at h
      · cases h
        simp [builderLimits]
      · exact ih h

theorem vmProgFinish_error {p : VmProg} {msg : String} (h : vmProgFinish p = .error msg) :
    msg ∈ builderLimits := by
  unfold vmProgFinish at h
  dsimp only at h
  cases hfix : patchFixups (emitOpU8 p .endOp 0).labels (emitOpU8 p .endOp 0).fixups
      (emitOpU8 p .endOp 0).code with
  | error msg' =>
      rw [hfix] at h
      cases h
      exact patchFixups_error hfix
  | ok insns =>
      rw [hfix] at h
      cases h

theorem build_cases (e : Encoder) :
    (∃ code, build e = .ok code) ∨ ∃ msg ∈ builderLimits, build e = .error (.aborted msg) := by
  unfold build
  cases hcalls : runCalls e.calls vmProgNew with
  | error msg => exact .inr ⟨msg, runCalls_error hcalls, rfl⟩
  | ok b =>
      cases hfin : vmProgFinish b with
      | error msg =>
          refine .inr ⟨msg, vmProgFinish_error hfin, ?_⟩
          simp only [bind, Except.bind, hfin]
          rfl
      | ok out =>
          refine .inl ⟨e.checkers.foldl vmCodeAddChecker out, ?_⟩
          simp only [bind, Except.bind, hfin]
          rfl

theorem firstOpenCall_eq (code : List Pir) : firstOpenCall code = (openCalls code).head? := by
  rw [openCalls, List.head?_filterMap]
  rfl

/-- `pat_compile` returns for every plain grammar: a program or a limit of the
builder when every name has a definition, and NULL with a name that has none when
one can be reached. -/
theorem patCompile_grammar {start : String} {defs : Defs} (hplain : PlainDefs defs)
    (memoCounter : Int) :
    ∃ r, Settles (fun k => patCompile k memoCounter (.grammar start defs)) r ∧
      ((findDef defs start).isSome = true →
        (∀ name ∈ unresolvedDefs defs, (findDef defs name).isSome = true) → ∃ e, r = build e) ∧
      ∀ missing, LeadsTo defs start missing →
        ∃ name ∈ unresolvedDefs defs, findDef defs name = none ∧
          r = .error (.undefined name) := by
  obtain ⟨code, ctx, hsettles, hok, hmissing⟩ :=
    compileGrammar_settles start defs hplain ⟨0, memoCounter, none⟩ rfl
  have hcompile : Settles (fun k => compilePat k ⟨0, memoCounter, none⟩ (.grammar start defs))
      (code, ctx) := Settles.of_succ hsettles fun k => rfl
  cases herr : ctx.err.orElse fun _ => firstOpenCall code with
  | some name =>
      refine ⟨.error (.undefined name), ?_, fun hstart hall => ?_, fun missing hleads => ?_⟩
      · refine hcompile.bind ?_
        simp only [herr]
        exact settles_some _
      · obtain ⟨hnone, hcalls⟩ := hok hstart hall
        simp [hnone, firstOpenCall_eq, hcalls] at herr
      · obtain ⟨name', hname', hundef, hctx⟩ := hmissing missing hleads
        rw [hctx] at herr
        cases herr
        exact ⟨name, hname', hundef, rfl⟩
  | none =>
      refine ⟨build ((patOptimize code).foldl enc ⟨[], [], []⟩), ?_, fun _ _ => ⟨_, rfl⟩,
        fun missing hleads => ?_⟩
      · refine hcompile.bind ?_
        simp only [herr]
        exact settles_some _
      · obtain ⟨name', -, -, hctx⟩ := hmissing missing hleads
        rw [hctx] at herr
        cases herr

def flat : Pat → Bool
  | .alt l r | .seq l r => flat l && flat r
  | .star p | .plus p | .optional p | .not p | .and p | .cap p _ | .memo p _ | .check p _ _ _
  | .inlined _ p | .errorRecover _ p | .repeated p _ => flat p
  | .grammar _ _ | .search _ => false
  | _ => true

def flatDefs : Defs → Bool
  | .nil => true
  | .cons _ p rest => flat p && flatDefs rest

mutual

def names : Pat → List String
  | .alt l r | .seq l r => names l ++ names r
  | .star p | .plus p | .optional p | .not p | .and p | .search p | .cap p _ | .memo p _
  | .check p _ _ _ | .inlined _ p | .errorRecover _ p | .repeated p _ => names p
  | .grammar _ defs => namesDefs defs
  | .nonterm name => [name]
  | _ => []

def namesDefs : Defs → List String
  | .nil => []
  | .cons _ p rest => names p ++ namesDefs rest

end

mutual

/-- The non-terminals that occur inside a repeated pattern. -/
def namesInRepeats : Pat → List String
  | .alt l r | .seq l r => namesInRepeats l ++ namesInRepeats r
  | .star p | .plus p | .optional p | .not p | .and p | .search p | .cap p _ | .memo p _
  | .check p _ _ _ | .inlined _ p | .errorRecover _ p => namesInRepeats p
  | .repeated p _ => names p
  | .grammar _ defs => namesInRepeatsDefs defs
  | _ => []

def namesInRepeatsDefs : Defs → List String
  | .nil => []
  | .cons _ p rest => namesInRepeats p ++ namesInRepeatsDefs rest

end

theorem namesInRepeats_nil {p : Pat} (hflat : flat p = true) (h : names p = []) :
    namesInRepeats p = [] := by
  cases p with
  | alt l r =>
      simp only [flat, Bool.and_eq_true] at hflat
      simp only [names, List.append_eq_nil_iff] at h
      simp [namesInRepeats, namesInRepeats_nil hflat.1 h.1, namesInRepeats_nil hflat.2 h.2]
  | seq l r =>
      simp only [flat, Bool.and_eq_true] at hflat
      simp only [names, List.append_eq_nil_iff] at h
      simp [namesInRepeats, namesInRepeats_nil hflat.1 h.1, namesInRepeats_nil hflat.2 h.2]
  | star p => exact namesInRepeats_nil (p := p) hflat h
  | plus p => exact namesInRepeats_nil (p := p) hflat h
  | optional p => exact namesInRepeats_nil (p := p) hflat h
  | not p => exact namesInRepeats_nil (p := p) hflat h
  | and p => exact namesInRepeats_nil (p := p) hflat h
  | cap p id => exact namesInRepeats_nil (p := p) hflat h
  | memo p id => exact namesInRepeats_nil (p := p) hflat h
  | check p fn id flag => exact namesInRepeats_nil (p := p) hflat h
  | inlined name p => exact namesInRepeats_nil (p := p) hflat h
  | errorRecover msg p => exact namesInRepeats_nil (p := p) hflat h
  | repeated p n => exact h
  | grammar start defs => cases hflat
  | search p => cases hflat
  | _ => rfl

/-- Without non-terminals in repeated patterns, the walks of the compiler meet
every non-terminal. -/
theorem plain_of_flat {p : Pat} (hflat : flat p = true) (h : namesInRepeats p = []) :
    Plain p ∧ names p = unresolved p := by
  cases p with
  | alt l r =>
      simp only [flat, Bool.and_eq_true] at hflat
      simp only [namesInRepeats, List.append_eq_nil_iff] at h
      obtain ⟨hl, hln⟩ := plain_of_flat hflat.1 h.1
      obtain ⟨hr, hrn⟩ := plain_of_flat hflat.2 h.2
      exact ⟨⟨hl, hr⟩, by rw [names, unresolved, hln, hrn]⟩
  | seq l r =>
      simp only [flat, Bool.and_eq_true] at hflat
      simp only [namesInRepeats, List.append_eq_nil_iff] at h
      obtain ⟨hl, hln⟩ := plain_of_flat hflat.1 h.1
      obtain ⟨hr, hrn⟩ := plain_of_flat hflat.2 h.2
      exact ⟨⟨hl, hr⟩, by rw [names, unresolved, hln, hrn]⟩
  | star p => exact plain_of_flat (p := p) hflat h
  | plus p => exact plain_of_flat (p := p) hflat h
  | optional p => exact plain_of_flat (p := p) hflat h
  | not p => exact plain_of_flat (p := p) hflat h
  | and p => exact plain_of_flat (p := p) hflat h
  | cap p id => exact plain_of_flat (p := p) hflat h
  | memo p id => exact plain_of_flat (p := p) hflat h
  | check p fn id flag => exact plain_of_flat (p := p) hflat h
  | inlined name p => exact plain_of_flat (p := p) hflat h
  | errorRecover msg p => exact plain_of_flat (p := p) hflat h
  | repeated p n =>
      obtain ⟨hp, hpn⟩ := plain_of_flat (p := p) hflat (namesInRepeats_nil hflat h)
      exact ⟨⟨hp, hpn ▸ h⟩, h⟩
  | grammar start defs => cases hflat
  | search p => cases hflat
  | _ => exact ⟨trivial, rfl⟩

theorem plainDefs_of_flat {g : Defs} (hflat : flatDefs g = true) (h : namesInRepeatsDefs g = []) :
    PlainDefs g ∧ namesDefs g = unresolvedDefs g := by
  cases g with
  | nil => exact ⟨trivial, rfl⟩
  | cons name p rest =>
      simp only [flatDefs, Bool.and_eq_true] at hflat
      simp only [namesInRepeatsDefs, List.append_eq_nil_iff] at h
      obtain ⟨hp, hpn⟩ := plain_of_flat hflat.1 h.1
      obtain ⟨hrest, hrestn⟩ := plainDefs_of_flat hflat.2 h.2
      exact ⟨⟨hp, hrest⟩, by rw [namesDefs, unresolvedDefs, hpn, hrestn]⟩

theorem names_defAt {g : Defs} (hflat : flatDefs g = true) (h : namesInRepeatsDefs g = []) {i : Nat}
    {p : Pat} (hp : defAt g i = some p) : names p = unresolved p := by
  cases g with
  | nil => cases hp
  | cons name q rest =>
      simp only [flatDefs, Bool.and_eq_true] at hflat
      simp only [namesInRepeatsDefs, List.append_eq_nil_iff] at h
      cases i with
      | zero =>
          cases hp
          exact (plain_of_flat hflat.1 h.1).2
      | succ i => exact names_defAt hflat.2 h.2 hp

/-- A non-terminal occurs in the definition of a name. -/
def OccursIn (g : Defs) (name name' : String) : Prop :=
  ∃ i p, findDef g name = some i ∧ defAt g i = some p ∧ name' ∈ names p

/-- `S <- A B`, `A <- "a" A / "b"`: `B` is missing. -/
def missingDefs : Defs :=
  .cons "S" (.seq (.nonterm "A") (.nonterm "B"))
    (.cons "A" (.alt (.seq (.literal [97]) (.nonterm "A")) (.literal [98])) .nil)

/-- `S <- A{2}`, `A <- "a"`. -/
def repeatDefs : Defs :=
  .cons "S" (.repeated (.nonterm "A") 2) (.cons "A" (.literal [97]) .nil)

def setSeq : Nat → Nat → Pat
  | 0, i => .cls ⟨BitVec.ofNat 256 i⟩
  | d + 1, i => .seq (setSeq d (2 * i)) (setSeq d (2 * i + 1))

def manyDefs : Defs :=
  .cons "S" (.seq (setSeq 8 0) (setSeq 0 256)) .nil

def callSet : Call → Option VmCharset
  | .emit (.set s) => some s
  | _ => none

theorem eq_emit_of_callSet {sets : List VmCharset} {calls : List Call}
    (h : calls.map callSet = sets.map some) : calls = sets.map fun s => .emit (.set s) := by
  induction sets generalizing calls with
  | nil => simpa using h
  | cons s sets ih =>
      cases calls with
      | nil => cases h
      | cons c calls =>
          simp only [List.map_cons, List.cons.injEq] at h
          have hc : c = .emit (.set s) := by
            have hset := h.1
            unfold callSet at hset
            split at hset
            · rw [Option.some.inj hset]
            · cases hset
          rw [hc, ih h.2, List.map_cons]

theorem runCalls_overflow (sets : List VmCharset) (p : VmProg) (hnodup : (p.sets ++ sets).Nodup)
    (hlen : 256 < p.sets.length + sets.length) (hfit : p.sets.length ≤ 256) :
    runCalls (sets.map fun s => .emit (.set s)) p = .error "charset table overflow (max 256)" := by
  induction sets generalizing p with
  | nil =>
      rw [List.length_nil] at hlen
      omega
  | cons s sets ih =>
      have hnew : s ∉ p.sets := fun hs =>
        List.disjoint_of_nodup_append hnodup hs List.mem_cons_self
      have hidx : ¬p.sets.idxOf s < p.sets.length := fun h => hnew (List.idxOf_lt_length_iff.mp h)
      by_cases hfull : p.sets.length ≥ 256
      · simp [runCalls, runCall, vmEmit, emitOpSet, addSet, hidx, hfull, bind, Except.bind]
      · have hstep : runCall p (.emit (.set s)) = .ok (emitOpU8
            { p with sets := p.sets ++ [s] } .set (UInt8.ofNat p.sets.length)) := by
          simp [runCall, vmEmit, emitOpSet, addSet, hidx, hfull, bind, Except.bind, pure,
            Except.pure]
        rw [List.map_cons, runCalls, hstep]
        refine ih _ ?_ ?_ ?_
        · simpa [emitOpU8, progWrite] using hnodup
        · simp only [emitOpU8, progWrite, List.length_append, List.length_cons] at hlen ⊢
          omega
        · simp only [emitOpU8, progWrite, List.length_append, List.length_singleton]
          omega

def manySets : List VmCharset :=
  (List.range 257).map fun i => ⟨BitVec.ofNat 256 i⟩

theorem manySets_nodup : manySets.Nodup := by
  refine List.Nodup.map_on (fun i hi j hj hij => ?_) List.nodup_range
  have hbits := congrArg (fun s => s.bits.toNat) hij
  simp only [BitVec.toNat_ofNat] at hbits
  have hi' := List.mem_range.mp hi
  have hj' := List.mem_range.mp hj
  omega

theorem manySets_length : manySets.length = 257 := by
  rw [manySets, List.length_map, List.length_range]

theorem manyDefs_overflow : Settles (fun k => patCompile k 0 (.grammar "S" manyDefs))
    (.error (.aborted "charset table overflow (max 256)")) := by
  have hcode : ((compilePat 20 ⟨0, 0, none⟩ (.grammar "S" manyDefs)).any fun r =>
      decide ((r.2.err.orElse fun _ => firstOpenCall r.1) = none ∧
        ((patOptimize r.1).foldl enc ⟨[], [], []⟩).calls.map callSet = manySets.map some)) = true := by
    decide +kernel
  obtain ⟨⟨code, ctx⟩, hcompile, hfacts⟩ := (Option.any_eq_true _ _).mp hcode
  obtain ⟨herr, hsets⟩ := of_decide_eq_true hfacts
  have hbuild : patCompile 20 0 (.grammar "S" manyDefs) =
      some (build ((patOptimize code).foldl enc ⟨[], [], []⟩)) := by
    simp only [patCompile, hcompile, Option.bind_eq_bind, Option.bind_some, herr]
    rfl
  have hrun := runCalls_overflow manySets vmProgNew manySets_nodup
    (by rw [manySets_length]; decide) (by decide)
  rw [build, eq_emit_of_callSet hsets, hrun] at hbuild
  exact Settles.of_eq (patCompile_below 0 _) hbuild

end Libpeg.GrammarCompile
