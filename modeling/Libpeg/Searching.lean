import Libpeg.CompileReturns
import Libpeg.Fragments

namespace Libpeg.Searching

open Libpeg.Charset Libpeg.Opcode Libpeg.Code Libpeg.Memo Libpeg.Vm Libpeg.Pattern
open Libpeg.Compile Libpeg.CodeShape Libpeg.Semantics Libpeg.Denotation Libpeg.Scoping
open Libpeg.Reading Libpeg.Fragments Libpeg.GrammarCompile Libpeg.CompileReturns

variable {w : List UInt8} {k i : Nat} {ρ : Bindings} {b : Behaviour} {o : Outcome} {p sp : Pat}
  {set : VmCharset} {skip : Option VmCharset}

theorem searched_skip (hfail : ∀ i o, w[i]?.any set.has = true → b i o → o = .fail)
    (h : Searched w b i o) : ∃ j, i ≤ j ∧ Iterated (denote w k (.cls set) ρ) i (.ok j .nil) ∧
      Searched w b j o := by
  have hhalt : ∀ {i}, ¬w[i]?.any set.has = true → denote w k (.cls set) ρ i .fail := by
    intro i htest
    rw [denote_leaf rfl, if_neg htest]
  induction h with
  | @here i o h ho =>
      by_cases htest : w[i]?.any set.has = true
      · cases hfail i o htest h
        rcases ho with ho | hi
        · exact absurd rfl ho
        · rw [List.getElem?_eq_none_iff.mpr hi] at htest
          cases htest
      · exact ⟨i, le_rfl, .halt (hhalt htest), .here h ho⟩
  | @next i o h hi hrest ih =>
      by_cases htest : w[i]?.any set.has = true
      · obtain ⟨j, hj, hstar, hfound⟩ := ih
        have hstep : denote w k (.cls set) ρ i (.ok (i + 1) .nil) := by
          rw [denote_leaf rfl, if_pos htest]
        exact ⟨j, by omega, .step hstep hstar rfl, hfound⟩
      · exact ⟨i, le_rfl, .halt (hhalt htest), .next h hi hrest⟩

/-- The hidden grammar finds what the search finds, where the name of its rule is not
used inside. -/
theorem searched_le (hread : ∀ ρ, denote w k p ρ ≤ denote w k sp ρ) (hname : ¬Uses p "S")
    (hskip : ∀ set, skip = some set → ∀ ρ i o, w[i]?.any set.has = true →
      denote w k p ρ i o → o = .fail) :
    Searched w (denote w k p ρ) ≤ bindings w k (searchDefs sp skip) ρ "S" := by
  have hbound := bindings_eq (w := w) (k := k) (searchDefs sp skip) ρ
  have hin : denote w k p ρ ≤ denote w k sp (bindings w k (searchDefs sp skip) ρ) := by
    refine (denote_agree p fun x hx => ?_).trans (hread _)
    have hne : "S" ≠ x := by
      rintro rfl
      exact hname hx
    have hnone : lookupDef (searchDefs sp skip) x = none := by
      simp [searchDefs, hne, lookupDef, findDef]
    have hx := hbound x
    rw [hnone] at hx
    exact hx.ge
  have hstart := hbound "S"
  generalize bindings w k (searchDefs sp skip) ρ = σ at hin hstart ⊢
  simp only [searchDefs, lookupDef_cons, if_true] at hstart
  intro i o h
  induction hn : w.length - i using Nat.strong_induction_on generalizing i o with
  | _ n ih =>
      rw [hstart]
      cases h with
      | here h ho =>
          by_cases hfail : o = .fail
          · subst hfail
            have hi : w.length ≤ i := ho.resolve_left fun hne => hne rfl
            have hdot : leafOutcome w i (.dot 1) = some .fail := by
              rw [leafOutcome, if_neg]
              exact Nat.not_le.mpr (Nat.lt_succ_of_le hi)
            exact .inr ⟨hin i .fail h, .inl ⟨(denote_leaf hdot).mpr rfl, rfl⟩⟩
          · exact .inl ⟨hin i o h, hfail⟩
      | next h hi hrest =>
          have hdot : leafOutcome w i (.dot 1) = some (.ok (i + 1) .nil) := by
            rw [leafOutcome, if_pos]
            · rfl
            · exact hi
          refine .inr ⟨hin i .fail h, .inr ⟨i + 1, .nil, o, (denote_leaf hdot).mpr rfl, ?_,
            (Outcome.after_nil o).symm⟩⟩
          cases skip with
          | none => exact ih _ (by omega) (i + 1) o hrest rfl
          | some set =>
              obtain ⟨j, hj, hstar, hfound⟩ := searched_skip (hskip set rfl ρ) hrest
              exact .inr ⟨j, .nil, o, hstar, ih (w.length - j) (by omega) j o hfound rfl,
                (Outcome.after_nil o).symm⟩

theorem grammarInline_search {n : Nat} {g : Defs}
    (h : grammarInline n (searchDefs sp skip) = some g) : g = searchDefs sp skip := by
  cases n with
  | zero => cases h
  | succ n =>
      rw [grammarInline, if_neg] at h
      · exact (Option.some.inj h).symm
      · simp [inlinesAny, inlinable_search]

mutual

theorem keepsScopes_of_none {g : Defs} (h : ∀ name, inlinable g name = none) (ns : List String)
    (p : Pat) : KeepsScopes g ns p := by
  cases p with
  | alt l r => exact ⟨keepsScopes_of_none h ns l, keepsScopes_of_none h ns r⟩
  | seq l r => exact ⟨keepsScopes_of_none h ns l, keepsScopes_of_none h ns r⟩
  | grammar start defs => exact fun name _ => keepsScopesAt_of_none h (boundNames defs ++ ns) defs name
  | nonterm name =>
      intro q hq
      rw [h] at hq
      cases hq
  | star p => exact keepsScopes_of_none h ns p
  | plus p => exact keepsScopes_of_none h ns p
  | optional p => exact keepsScopes_of_none h ns p
  | not p => exact keepsScopes_of_none h ns p
  | and p => exact keepsScopes_of_none h ns p
  | search p => exact keepsScopes_of_none h ns p
  | cap p id => exact keepsScopes_of_none h ns p
  | memo p id => exact keepsScopes_of_none h ns p
  | check p fn id flag => exact keepsScopes_of_none h ns p
  | inlined name p => exact keepsScopes_of_none h ns p
  | errorRecover msg p => exact keepsScopes_of_none h ns p
  | _ => trivial

theorem keepsScopesAt_of_none {g : Defs} (h : ∀ name, inlinable g name = none)
    (ns : List String) (d : Defs) (name : String) : KeepsScopesAt g ns d name := by
  cases d with
  | nil => trivial
  | cons name' p rest =>
      rw [KeepsScopesAt]
      split
      · exact keepsScopes_of_none h ns p
      · exact keepsScopesAt_of_none h ns rest name

end

theorem inlinesSoundly_search : InlinesSoundly (searchDefs sp skip) "S" := by
  have hnone := inlinable_search sp skip
  have hpass : ∀ m, inlinePass^[m] (searchDefs sp skip) = searchDefs sp skip :=
    Function.iterate_fixed (inlineDefs_self _ _ fun name _ => hnone name)
  intro m name _
  rw [hpass]
  exact keepsScopesAt_of_none hnone [] _ name

theorem scoped_search {inside : Bool} (h : Scoped true sp) :
    Scoped inside (.grammar "S" (searchDefs sp skip)) := by
  refine .grammar inlinesSoundly_search (fun n g hg name q _ hq => ?_) fun _ n g hg hnil => ?_
  · rw [grammarInline_search hg] at hq
    simp only [searchDefs, lookupDef_cons] at hq
    split at hq
    · cases hq
      refine .alt h (.seq .dot ?_)
      cases skip with
      | none => exact .nonterm
      | some set => exact .seq (.star .cls) .nonterm
    · simp [lookupDef, findDef] at hq
  · rw [grammarInline_search hg] at hnil
    cases skip <;> simp [searchDefs, unresolvedDefs, unresolved] at hnil

theorem byte_ofInt (x : UInt8) : UInt8.ofInt x.toNat = x := by
  apply UInt8.toNat_inj.mp
  have hlt := x.toNat_lt
  simp [UInt8.ofInt]
  omega

theorem searchSkip_fails {a : VmArgs} {sub : List Pir} (h : Fragment a ρ b sub)
    (hhead : HeadFirst sub) (hskip : searchSkip sub = some set)
    (htest : a.input[i]?.any set.has = true) (hb : b i o) : o = .fail := by
  have hstart : ∀ {c : Pir} {f : UInt8 → Bool}, nextInsn sub = some c → isMatcher c = true →
      Starts a.input f c → (∀ x, set.has x = true → f x = false) → o = .fail := by
    intro c f hnext hc hstarts hdisjoint
    have hcode := hhead.matcher hnext hc
    refine h.fails [c] (sub.drop 1) i o hcode hstarts.1 ?_ hb
    rw [hstarts.2, if_neg]
    cases hbyte : a.input[i]? with
    | none => simp
    | some x =>
        rw [hbyte, Option.any_some] at htest
        simp [hdisjoint x htest]
  unfold searchSkip at hskip
  split at hskip
  · next x hnext =>
      cases hskip
      refine hstart hnext rfl (starts_char a.input x) fun y hy => ?_
      rw [has_negate, has_fill_singleton, Bool.not_eq_true', decide_eq_false_iff_not] at hy
      refine decide_eq_false fun heq => hy ?_
      rw [← heq, byte_ofInt]
  · next s hnext =>
      split at hskip
      · cases hskip
        refine hstart hnext rfl (starts_set a.input s) fun y hy => ?_
        simpa using hy
      · cases hskip
  · cases hskip

end Libpeg.Searching
