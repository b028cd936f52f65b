import Libpeg.CompileFragments
import Libpeg.StackTyping

namespace Libpeg.CompileTyping

open Libpeg.Charset Libpeg.Opcode Libpeg.Code Libpeg.Vm Libpeg.Pattern Libpeg.Compile
open Libpeg.CompileTotal Libpeg.MemoIds Libpeg.CodeShape Libpeg.TailCalls Libpeg.CompileFragments
open Libpeg.StackTyping

variable {R R' : Nat → Shape → Prop} {sh sh' out : Shape} {code rest sub : List Pir}
  {placed : List (Nat × Shape)} {labelOf : String → Option Nat}

section Calls

theorem flow_ret {ls : List Nat}
    (h : Flow R sh (ls.map Pir.label ++ .insn .ret :: rest) out placed) : sh = .fn := by
  induction ls generalizing sh placed with
  | nil =>
      cases h with
      | insn hsub hi _ =>
          obtain rfl : _ = Shape.fn := hi
          exact hsub.eq_of_shielded trivial
  | cons l ls ih =>
      rw [List.map_cons, List.cons_append] at h
      generalize htail : ls.map Pir.label ++ .insn .ret :: rest = tail at h
      cases h with
      | label hsub hrest =>
          subst htail
          obtain rfl := ih hrest
          exact hsub.eq_of_shielded trivial
      | merge => cases ls <;> cases htail

theorem flow_nop (h : Flow R sh (.insn .ret :: rest) out placed) :
    ∃ next, Flow R next rest out placed := by
  cases h with
  | insn _ _ hrest => exact ⟨_, hrest⟩

theorem headLabel_resolved {l : Nat} (h : headLabel code = some l) :
    headLabel (resolveCalls labelOf code).1 = some l := by
  cases code with
  | nil => cases h
  | cons c code =>
      cases c with
      | label l' => exact h
      | insn i => cases h
      | openCall name => cases h

theorem flow_resolved {jumped : Bool} (hguard : Guarded jumped code)
    (hR : ∀ name l, labelOf name = some l → R l .fn) (herr : (resolveCalls labelOf code).2 = none)
    (h : Flow R sh code out placed) : Flow R sh (resolveCalls labelOf code).1 out placed := by
  induction h generalizing jumped with
  | nil hsub => exact .nil hsub
  | label hsub _ ih => exact .label hsub (ih (guarded_label.mp hguard) herr)
  | merge hsub _ ih =>
      have hrest := (guarded_insn (i := .memoTree) rfl).mp (guarded_label.mp hguard)
      exact .merge hsub (ih hrest herr)
  | @insn sh sh' next out i rest placed hsub hi hrest ih =>
      refine .insn hsub (hi.after fun l hl => headLabel_resolved hl) ?_
      by_cases hplain : isOrdinary i = true
      · exact ih ((guarded_insn hplain).mp hguard) herr
      · cases i <;> first | exact absurd rfl hplain | skip
        · exact ih (guarded_jump.mp hguard) herr
        · exact ih hguard.2 herr
  | @openCall sh sh' out name rest placed hsub hrest ih =>
      rw [guarded_openCall] at hguard
      rw [resolveCalls] at herr ⊢
      cases hl : labelOf name with
      | none =>
          rw [hl] at herr
          cases herr
      | some l =>
          rw [hl] at herr
          dsimp only at herr ⊢
          have hplaced : R l .fn := hR name l hl
          split
          · next hnext =>
              simp only [hnext] at herr
              have hresolved := ih hguard herr
              obtain ⟨ls, more, rfl⟩ := nextInsn_ret hguard hnext
              obtain rfl := flow_ret hrest
              cases ls with
              | nil =>
                  obtain ⟨next, hmore⟩ := flow_nop hresolved
                  exact .insn hsub hplaced (.insn (.refl _) rfl hmore)
              | cons x ls =>
                  rw [List.map_cons, List.cons_append, hadLabel_cons, if_pos rfl]
                  exact .insn hsub hplaced hresolved
          · next hnext =>
              have herr' : (resolveCalls labelOf rest).2 = none := by
                split at herr
                · exact absurd ‹_› hnext
                · exact herr
              exact .insn hsub ⟨hplaced, rfl⟩ (ih hguard herr')

end Calls

section Definitions

variable {fns fn : List Pir} {labels : List (Option Nat)} {l lend : Nat} {start : String}

/-- The definitions have types, and the label of each one is that of a call. -/
def DefsTypable (labels : List (Option Nat)) (fns : List Pir) : Prop :=
  ∃ placed : List (Nat × Shape), (∀ j l, labels.getD j none = some l → (l, .fn) ∈ placed) ∧
    ∀ out, ∃ sh, Flow (fun l s => (l, s) ∈ placed) sh fns out placed

theorem defsTypable_nil : DefsTypable [] [] :=
  ⟨[], fun j l hl => by simp at hl, fun out => ⟨out, .nil (.refl out)⟩⟩

theorem DefsTypable.skip (h : DefsTypable labels fns) : DefsTypable (none :: labels) fns := by
  obtain ⟨placed, hlabels, hflow⟩ := h
  refine ⟨placed, fun j l hl => ?_, hflow⟩
  cases j with
  | zero => cases hl
  | succ j => exact hlabels j l hl

theorem DefsTypable.definition (h : DefsTypable labels fns) (hfn : Typable fn) :
    DefsTypable (some l :: labels) ([.label l] ++ fn ++ [.insn .ret] ++ fns) := by
  obtain ⟨placed, hlabels, hflow⟩ := h
  obtain ⟨own, hown⟩ := hfn .fn trivial
  refine ⟨((l, .fn) :: own) ++ placed, fun j l' hl' => ?_, fun out => ⟨.fn, ?_⟩⟩
  · cases j with
    | zero =>
        cases hl'
        exact List.mem_cons_self
    | succ j => exact List.mem_append_right _ (hlabels j l' hl')
  · obtain ⟨sh, hrest⟩ := hflow out
    have hbody : Flow (fun x s => (x, s) ∈ ((l, .fn) :: own) ++ placed) .fn fn .fn own :=
      hown.mono fun x s hx => List.mem_append_left _ (List.mem_cons_of_mem _ hx)
    have hrest := hrest.mono fun x s hx => List.mem_append_right ((l, Shape.fn) :: own) hx
    have hret := hbody.append (.insn (i := .ret) (.refl _) rfl hrest)
    simpa using Flow.label (.refl _) hret

theorem DefsTypable.grammar (h : DefsTypable labels fns) (hguard : Guarded false fns)
    (hlabels : ∀ name l, labelOf name = some l → ∃ j, labels.getD j none = some l)
    (herr : (resolveCalls labelOf ([.openCall start, .insn (.jump lend)] ++ fns)).2 = none) :
    Typable ((resolveCalls labelOf ([.openCall start, .insn (.jump lend)] ++ fns)).1 ++
      [.label lend]) := by
  intro sh hs
  obtain ⟨placed, hplaced, hflow⟩ := h
  obtain ⟨sh', hfns⟩ := hflow sh
  let R : Nat → Shape → Prop := fun l s => (l, s) ∈ placed ++ [(lend, sh)]
  have hdefs : ∀ name l, labelOf name = some l → R l .fn := by
    intro name l hl
    obtain ⟨j, hj⟩ := hlabels name l hl
    exact List.mem_append_left _ (hplaced j l hj)
  have hfns : Flow R sh' fns sh placed := hfns.mono fun l s hl => List.mem_append_left _ hl
  have hend : R lend sh := by simp [R]
  have hopen : Flow R sh ([.openCall start, .insn (.jump lend)] ++ fns) sh placed :=
    .openCall (.refl _) (.insn (.refl _) hend hfns)
  have hguard : Guarded false ([.openCall start, .insn (.jump lend)] ++ fns) := hguard.weaken
  exact ⟨_, (flow_resolved hguard hdefs herr hopen).append (flow_label lend sh)⟩

end Definitions

theorem compile_typable (n : Nat) :
    (∀ ctx p, Returns (fun x => x.2.err = none → Typable x.1) (compilePat n ctx p)) ∧
    (∀ ctx p count, Returns (fun x => x.2.err = none → Typable x.1)
      (compileRepeat n ctx p count)) ∧
    (∀ ctx start g, Returns (fun x => x.2.err = none → Typable x.1)
      (compileGrammar n ctx start g)) ∧
    ∀ ctx keep i g, Returns (fun x => x.2.2.err = none → DefsTypable x.2.1 x.1)
      (compileDefs n ctx keep i g) := by
  induction n with
  | zero =>
      refine ⟨?_, ?_, ?_, ?_⟩ <;>
        · intros
          rintro x ⟨⟩
  | succ n ih =>
      obtain ⟨ihp, ihr, ihg, ihd⟩ := ih
      obtain ⟨hshapep, hshaper, -, hshaped⟩ := compile_shaped n
      have hcompile := fun ctx p => Returns.and (ihp ctx p) (hshapep ctx p)
      refine ⟨fun ctx p => ?_, fun ctx p count => ?_, fun ctx start g => ?_,
        fun ctx keep i g => ?_⟩
      · cases p with
        | alt l r =>
            refine Returns.skip fun lp => Returns.skip fun rp => ?_
            split
            · exact returns_some fun _ => typable_insn fun _ _ => rfl
            · exact Returns.bind (hcompile _ _) fun x hx => Returns.bind (hcompile _ _) fun y hy =>
                returns_some fun herr => typable_alt (hx.1 (hy.2.1.closed herr).1) (hy.1 herr) hx.2.2
        | seq l r =>
            exact Returns.skip fun lp => Returns.bind (ihp _ _) fun x hx =>
              Returns.skip fun rp => Returns.bind (hcompile _ _) fun y hy =>
                returns_some fun herr => (hx (hy.2.1.closed herr).1).append (hy.1 herr)
        | star p =>
            refine Returns.skip fun sp => ?_
            split
            · exact returns_some fun _ => typable_insn fun _ _ => rfl
            · exact Returns.skip fun bp => Returns.bind (ihp _ _) fun x hx =>
                returns_some fun herr => typable_memoTree (hx herr)
            · exact Returns.bind (ihp _ _) fun x hx =>
                returns_some fun herr => typable_star (hx herr)
        | plus p =>
            exact Returns.skip fun sp => Returns.bind (ihp _ _) fun x hx =>
              Returns.bind (hcompile _ _) fun y hy =>
                returns_some fun herr => (hy.1 herr).append (hx (hy.2.1.closed herr).1)
        | optional p =>
            refine Returns.skip fun sp => ?_
            split
            · exact returns_some fun _ => typable_test fun _ _ h => ⟨h, rfl⟩
            · exact returns_some fun _ => typable_test fun _ _ h => ⟨h, rfl⟩
            · exact ihp _ _
        | not p =>
            exact Returns.skip fun sp => Returns.bind (ihp _ _) fun x hx =>
              returns_some fun herr => typable_not (hx herr)
        | and p =>
            exact Returns.skip fun sp => Returns.bind (ihp _ _) fun x hx =>
              returns_some fun herr => typable_and (hx herr)
        | cap p id =>
            exact Returns.skip fun sp => Returns.bind (ihp _ _) fun x hx =>
              returns_some fun herr => typable_cap (hx herr) id
        | memo p id =>
            exact Returns.skip fun sp => Returns.bind (ihp _ _) fun x hx =>
              returns_some fun herr => typable_memo (hx herr)
        | check p fn id flag =>
            exact Returns.skip fun sp => Returns.bind (ihp _ _) fun x hx =>
              returns_some fun herr => typable_check (hx herr) flag fn
        | search p => exact Returns.skip fun sp => Returns.skip fun x => ihg _ _ _
        | grammar start defs => exact ihg ctx start defs
        | inlined name p => exact ihp ctx p
        | errorRecover msg p =>
            exact Returns.bind (ihp ctx p) fun x hx =>
              returns_some fun herr => (typable_insn (i := .error msg) fun _ _ => rfl).append (hx herr)
        | repeated p count => exact ihr ctx p count
        | literal str =>
            refine returns_some fun _ => typable_run fun i hi => ?_
            obtain ⟨b, -, rfl⟩ := List.mem_map.mp hi
            rfl
        | error msg =>
            refine returns_some fun _ sh _ => ⟨[], ?_⟩
            exact .insn (.refl sh) rfl (flow_insn (.inl rfl))
        | nonterm name => exact returns_some fun _ => typable_openCall name
        | empty => exact returns_some fun _ => typable_nil
        | cls set => exact returns_some fun _ => typable_insn fun _ _ => rfl
        | dot b => exact returns_some fun _ => typable_insn fun _ _ => rfl
        | emptyop op => exact returns_some fun _ => typable_insn fun _ _ => rfl
      · cases count with
        | zero => exact returns_some fun _ => typable_nil
        | succ count =>
            exact Returns.bind (ihp ctx p) fun x hx =>
              Returns.bind (Returns.and (ihr _ _ _) (hshaper _ _ _)) fun y hy =>
                returns_some fun herr => (hx (hy.2.1.closed herr).1).append (hy.1 herr)
      · refine Returns.skip fun g' => ?_
        dsimp only
        split
        · exact returns_some fun herr => absurd herr (setErr_err _ _)
        · split
          · exact ihp _ _
          · refine Returns.bind (Returns.and (ihd _ _ _ _) ((compile_guarded n).2.2.2 _ _ _ _))
              fun x hx => ?_
            split
            · exact returns_some fun herr => absurd herr (setErr_err _ _)
            · next hnone =>
                refine returns_some fun herr => (hx.1 herr).grammar hx.2 (fun name l hl => ?_) hnone
                obtain ⟨j, -, hj⟩ := Option.bind_eq_some_iff.mp hl
                exact ⟨j, hj⟩
      · cases g with
        | nil => exact returns_some fun _ => defsTypable_nil
        | cons name p rest =>
            rw [compileDefs]
            split
            · exact Returns.bind (ihp _ _) fun x hx =>
                Returns.bind (Returns.and (ihd _ _ _ _) (hshaped _ _ _ _)) fun y hy =>
                  returns_some fun herr => (hy.1 herr).definition (hx (hy.2.1.closed herr).1)
            · exact Returns.bind (ihd _ _ _ _) fun y hy => returns_some fun herr => (hy herr).skip

end Libpeg.CompileTyping
