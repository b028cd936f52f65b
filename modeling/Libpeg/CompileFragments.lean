import Libpeg.Grammars
import Libpeg.Searching

namespace Libpeg.CompileFragments

open Libpeg.Charset Libpeg.Opcode Libpeg.Code Libpeg.Memo Libpeg.Vm Libpeg.AbstractVm
open Libpeg.Pattern Libpeg.Compile Libpeg.CompileTotal Libpeg.MemoIds Libpeg.CodeShape
open Libpeg.Semantics Libpeg.Simplify Libpeg.Denotation Libpeg.Scoping Libpeg.Reading
open Libpeg.Fragments Libpeg.TailCalls Libpeg.Grammars Libpeg.Searching Libpeg.GrammarCompile

variable {a : VmArgs} {k n : Nat}

section Choices

variable {ρ : Bindings} {b b' : Behaviour} {l r : List Pir} {l1 l2 : Nat}

/-- A test that leaves no choice stands for two matchers that exclude each other. -/
theorem disjointTest_disjoint {x y : Option Pir} {test : PirInsn} (w : List UInt8)
    (h : disjointTest l1 x y = some test) : ∃ c d p q, x = some c ∧ y = some d ∧
      isMatcher c = true ∧ isMatcher d = true ∧ Tests p l1 test ∧ Starts w p c ∧ Starts w q d ∧
      ∀ z, p z = true → q z = false := by
  have hbyte : ∀ {s : VmCharset} {c : Int}, s.has (UInt8.ofInt c) = false →
      ∀ z, isByte c z = true → s.has z = false := by
    intro s c hs z hz
    rwa [← of_decide_eq_true hz, byte_ofInt] at hs
  unfold disjointTest at h
  split at h
  · next s c =>
      split at h
      · cases h
      · next hs =>
          cases h
          refine ⟨_, _, _, _, rfl, rfl, rfl, rfl, tests_set s l1, starts_set w s,
            starts_char w c, fun z hz => ?_⟩
          by_contra hbyte'
          have hs' := hbyte (Bool.eq_false_iff.mpr hs) z (by simpa using hbyte')
          rw [hz] at hs'
          cases hs'
  · next b c =>
      split at h
      · cases h
      · next hne =>
          cases h
          refine ⟨_, _, _, _, rfl, rfl, rfl, rfl, tests_char b l1, starts_char w b,
            starts_char w c, fun z hz => decide_eq_false fun hc => hne ?_⟩
          exact (of_decide_eq_true hz).symm.trans hc
  · next b s =>
      split at h
      · cases h
      · next hs =>
          cases h
          exact ⟨_, _, _, _, rfl, rfl, rfl, rfl, tests_char b l1, starts_char w b,
            starts_set w s, hbyte (Bool.eq_false_iff.mpr hs)⟩
  · cases h

theorem fragment_alt (hl : Fragment a ρ b l) (hr : Fragment a ρ b' r) (hheadl : HeadFirst l)
    (hheadr : HeadFirst r) : Fragment a ρ (choice b b') (altCode l1 l2 l r) := by
  unfold altCode
  split
  · next test htest =>
      obtain ⟨c, d, p, q, hc, hd, hmc, hmd, htests, hstartc, hstartd, hdisjoint⟩ :=
        disjointTest_disjoint a.input htest
      have hcodel := hheadl.matcher hc hmc
      have hcoder := hheadr.matcher hd hmd
      rw [hcodel] at hl
      rw [hcoder] at hr ⊢
      exact fragment_disjoint htests hstartc hstartd hdisjoint hl hr
  · exact fragment_choice hl hr

theorem matchesByte_char (x : UInt8) : MatchesByte (.literal [x]) (isByte x.toNat) := by
  have hbyte : isByte x.toNat = fun y => decide (y = x) := by
    funext y
    rw [isByte_toNat, Bool.eq_iff_iff, beq_iff_eq, decide_eq_true_iff]
    exact eq_comm
  rw [hbyte]
  exact matchesByte_literal x

theorem fragment_optional_byte {p : Pat} {f : UInt8 → Bool} {test : PirInsn}
    (hp : MatchesByte p f) (htest : Tests f l1 test) :
    Fragment a ρ (choice (denote a.input k p ρ) nothing) [.insn test, .label l1] := by
  refine fragment_test htest (fun i o hb hf => ?_) fun i o hb hf => ?_
  · rcases hb with ⟨hb, -⟩ | ⟨hb, -⟩
    · rw [denote_leaf (hp _ _), byteOutcome, if_pos hf] at hb
      exact hb
    · rw [denote_leaf (hp _ _), byteOutcome, if_pos hf] at hb
      cases hb
  · rcases hb with ⟨hb, ho⟩ | ⟨-, ho⟩
    · rw [denote_leaf (hp _ _), byteOutcome, hf] at hb
      exact absurd hb ho
    · exact ho

end Choices

/-- The code that is returned behaves like the pattern. Outside of grammars an open call
may do anything. -/
def Behaves (a : VmArgs) (k : Nat) (p : Pat) (x : List Pir × Pctx) : Prop :=
  x.2.err = none → ∀ inside ρ, Scoped inside p → (inside = false → ρ = ⊤) →
    Fragment a ρ (denote a.input k p ρ) x.1

theorem Returns.and {α : Type} {P Q : α → Prop} {x : Option α} (h : Returns P x)
    (h' : Returns Q x) : Returns (fun a => P a ∧ Q a) x :=
  fun a ha => ⟨h a ha, h' a ha⟩

section Constructs

variable {p l r : Pat} {x y : List Pir × Pctx} {ctx : Pctx}

theorem getPat_readsBasic (hp : basic p = true) : Returns (Reads p) (getPat n p) :=
  fun _ hq => getPat_reads hq hp

theorem behaves_leaf {code : List Pir} (h : ∀ ρ, Fragment a ρ (denote a.input k p ρ) code) :
    Behaves a k p (code, ctx) :=
  fun _ _ ρ _ _ => h ρ

/-- What a pattern stands for in its operands may be read from what the compiler reads. -/
theorem Behaves.read {q : Pat} (h : Behaves a k q x) (hq : Reads p q) : Behaves a k p x :=
  fun herr inside ρ hs hρ =>
    (h herr inside ρ (hq.scopes inside hs) hρ).mono (hq.denote a.input k ρ)

theorem Behaves.alt {lp rp : Pat} (hx : Behaves a k lp x) (hl : Reads l lp)
    (hy : Behaves a k rp y) (hr : Reads r rp) (hheadl : HeadFirst x.1)
    (hshape : Shaped x.2 y.2 y.1 ∧ HeadFirst y.1) (l1 l2 : Nat) {ctx : Pctx}
    (hctx : ctx.err = y.2.err) : Behaves a k (.alt l r) (altCode l1 l2 x.1 y.1, ctx) := by
  intro herr inside ρ hs hρ
  have herry : y.2.err = none := hctx ▸ herr
  cases hs with
  | alt hsl hsr =>
      have hleft := hx.read hl (hshape.1.closed herry).1 inside ρ hsl hρ
      exact fragment_alt hleft (hy.read hr herry inside ρ hsr hρ) hheadl hshape.2

theorem Behaves.seq {lp rp : Pat} (hx : Behaves a k lp x) (hl : Reads l lp)
    (hy : Behaves a k rp y) (hr : Reads r rp) (hshape : Shaped x.2 y.2 y.1) :
    Behaves a k (.seq l r) (x.1 ++ y.1, y.2) := by
  intro herr inside ρ hs hρ
  cases hs with
  | seq hsl hsr =>
      exact (hx.read hl (hshape.closed herr).1 inside ρ hsl hρ).append
        (hy.read hr herr inside ρ hsr hρ)

theorem Behaves.plus {sp : Pat} (hx : Behaves a k (.star sp) x) (hsp : Reads p sp)
    (hy : Behaves a k sp y) (hshape : Shaped x.2 y.2 y.1) :
    Behaves a k (.plus p) (y.1 ++ x.1, y.2) := by
  intro herr inside ρ hs hρ
  cases hs with
  | plus hs =>
      have hstar := hx (hshape.closed herr).1 inside ρ (.star (hsp.scopes inside hs)) hρ
      have hrest := hstar.mono (iterated_mono (hsp.denote a.input k ρ))
      exact (hy.read hsp herr inside ρ hs hρ).append hrest

theorem Behaves.wrap {sp q : Pat} {code : List Pir} {b : Behaviour → Behaviour}
    (hx : Behaves a k sp x) (hsp : Reads p sp) {ctx : Pctx} (hctx : ctx.err = x.2.err)
    (hscope : ∀ inside, Scoped inside q → Scoped inside p)
    (hq : ∀ ρ, denote a.input k q ρ = b (denote a.input k p ρ))
    (hcode : ∀ {ρ c}, Fragment a ρ c x.1 → Fragment a ρ (b c) code) :
    Behaves a k q (code, ctx) := by
  intro herr inside ρ hs hρ
  rw [hq]
  exact hcode (hx.read hsp (hctx ▸ herr) inside ρ (hscope inside hs) hρ)

/-- A search: its hidden grammar finds what it finds, and the skipped bytes are none that
the code of the pattern can start with. -/
theorem behaves_search {sp : Pat} (hsp : Reads p sp) (hx : Behaves a k sp x)
    (hhead : HeadFirst x.1) (ihg : ∀ skip,
      Returns (fun y => Behaves a k (.grammar "S" (searchDefs sp skip)) y ∧
        Shaped x.2 y.2 y.1 ∧ HeadFirst y.1) (compileGrammar n x.2 "S" (searchDefs sp skip))) :
    Returns (Behaves a k (.search p))
      (compileGrammar n x.2 "S" (searchDefs sp (searchSkip x.1))) := by
  intro y hy herr inside ρ hs hρ
  obtain ⟨hy, hshape, -⟩ := ihg _ y hy
  cases hs with
  | search hs hname =>
      have hsub := fun ρ => hx (hshape.closed herr).1 true ρ (hsp.scopes true hs) (by simp)
      have hgrammar := hy herr inside ρ (scoped_search (hsp.scopes true hs)) hρ
      refine hgrammar.mono (searched_le (hsp.denote a.input k) hname fun set hset ρ i o htest hb => ?_)
      exact searchSkip_fails (hsub ρ) hhead hset htest (hsp.denote a.input k ρ i o hb)

theorem behaves_optional {sp : Pat} (ihp : ∀ ctx q, basic q = true →
    Returns (Behaves a k q) (compilePat n ctx q)) (hsp : Reads p sp) (ctx : Pctx) :
    Returns (Behaves a k (.optional p)) (compilePat n ctx (.alt sp .empty)) := by
  intro z hz herr inside ρ hs hρ
  obtain ⟨q, x, ctx', l1, l2, hq, hx, rfl, hctx⟩ := compile_orEmpty n ctx sp z hz
  have hread := getPat_reads hq hsp.basic
  cases hs with
  | optional hs =>
      have hleft := ((ihp ctx q hread.basic x hx).read hread).read hsp (hctx ▸ herr) inside ρ hs hρ
      exact fragment_alt hleft fragment_nothing ((compile_shaped n).1 ctx q x hx).2 (.inl rfl)

theorem behaves_repeat (ihp : ∀ ctx q, basic q = true →
    Returns (Behaves a k q) (compilePat n ctx q)) (hp : basic p = true) {count : Nat}
    (ihr : ∀ ctx, Returns (Behaves a k (.repeated p count)) (compileRepeat n ctx p count)) :
    Returns (Behaves a k (.repeated p (count + 1))) (compileRepeat (n + 1) ctx p (count + 1)) := by
  refine Returns.bind (ihp ctx p hp) fun x hx => ?_
  refine Returns.bind (Returns.and (ihr x.2) ((compile_shaped n).2.1 x.2 p count)) fun y hy => ?_
  refine returns_some fun herr inside ρ hs hρ => ?_
  cases hs with
  | repeated hs =>
      have hs := hs count.succ_ne_zero
      have hfirst := hx (hy.2.1.closed herr).1 inside ρ hs hρ
      have hrest := hy.1 herr inside ρ (.repeated fun _ => hs) hρ
      simp only [denote, Function.iterate_succ_apply'] at hrest ⊢
      exact hfirst.append hrest

theorem behaves_inlined {m : Nat} {g g' : Defs} {start : String} {i : Nat}
    (hin : grammarInline m g = some g') (hnil : unresolvedDefs g' = [])
    (hstart : findDef g' start = some i) (hg : basicDefs g' = true)
    (ihp : ∀ ctx q, basic q = true → Returns (Behaves a k q) (compilePat n ctx q)) (ctx : Pctx) :
    Returns (Behaves a k (.grammar start g))
      (compilePat n ctx ((defAt g' i).getD .empty)) := by
  obtain ⟨q, hq⟩ := findDef_defAt hstart
  have hdef : lookupDef g' start = some q := by
    rw [lookupDef, hstart]
    exact hq
  rw [hq, Option.getD_some]
  intro x hx herr inside ρ hs hρ
  cases hs with
  | grammar hinline hdefs hrepeats =>
      have hcode := ihp ctx q (basicDefs_lookup hg hdef) x hx herr true ρ
        (hdefs m g' hin start q (.inl rfl) hdef) (by simp)
      refine hcode.mono ((bindings_grammarInline hinline hin ρ).trans ?_)
      have hstart := bindings_eq (w := a.input) (k := k) g' ρ start
      rw [hdef] at hstart
      rw [hstart]
      refine denote_agree q fun y hy => ?_
      cases inside with
      | false =>
          rw [hρ rfl]
          exact le_top
      | true =>
          have hy := hrepeats rfl m g' hin hnil q hdef y hy
          rw [bindings_eq, hy]

end Constructs

section Definitions

variable {keep : Nat → Bool} {i : Nat} {rest g : Defs} {name : String} {p : Pat}

/-- The definitions that are compiled behave like their patterns. -/
def DefsBehave (a : VmArgs) (k : Nat) (keep : Nat → Bool) (i : Nat) (g : Defs)
    (x : List Pir × List (Option Nat) × Pctx) : Prop :=
  x.2.2.err = none → (∀ j q, keep (i + j) = true → defAt g j = some q → Scoped true q) →
    Laid a k g x.2.1 x.1

theorem DefsBehave.skip {y : List Pir × List (Option Nat) × Pctx}
    (h : DefsBehave a k keep (i + 1) rest y) :
    DefsBehave a k keep i (.cons name p rest) (y.1, none :: y.2.1, y.2.2) := by
  intro herr hs
  refine (h herr fun j q hkeep hq => ?_).skip
  exact hs (j + 1) q (by rwa [Nat.add_comm j, ← Nat.add_assoc]) hq

theorem DefsBehave.definition {x : List Pir × Pctx} {y : List Pir × List (Option Nat) × Pctx}
    (h : DefsBehave a k keep (i + 1) rest y) (hkeep : keep i = true) (hx : Behaves a k p x)
    (hshape : Shaped x.2 y.2.2 y.1) {l : Nat} :
    DefsBehave a k keep i (.cons name p rest)
      ([.label l] ++ x.1 ++ [.insn .ret] ++ y.1, some l :: y.2.1, y.2.2) := by
  intro herr hs
  have hrest := h herr fun j q hkeep hq =>
    hs (j + 1) q (by rwa [Nat.add_comm j, ← Nat.add_assoc]) hq
  exact hrest.definition fun σ =>
    hx (hshape.closed herr).1 true σ (hs 0 p hkeep rfl) (by simp)

theorem behaves_grammar {m : Nat} {g' : Defs} {start : String} {lend : Nat}
    {x : List Pir × List (Option Nat) × Pctx} (hin : grammarInline m g = some g')
    (hstart : findDef g' start = some i)
    (hx : DefsBehave a k (fun j => j = i ||
      ((unresolvedDefs g').filterMap (findDef g')).contains j) 0 g' x)
    (hguard : Guarded false x.1) (hnone : (resolveCalls (labelFor g' x.2.1)
      ([.openCall start, .insn (.jump lend)] ++ x.1)).2 = none) :
    Behaves a k (.grammar start g) ((resolveCalls (labelFor g' x.2.1)
      ([.openCall start, .insn (.jump lend)] ++ x.1)).1 ++ [.label lend], x.2.2) := by
  intro herr inside ρ hs _
  have hlaid : Laid a k g' x.2.1 x.1 := by
    refine hx herr fun j q hkeep hq => hs.kept hin hstart ?_ hq
    rwa [Nat.zero_add] at hkeep
  have hcode := fragment_grammar hlaid hguard (Prod.ext rfl hnone) ρ
  cases hs with
  | grammar hinline _ _ => exact hcode.mono (bindings_grammarInline hinline hin ρ)

end Definitions

/-- The code of every pattern without memo, check, error and empty pattern. -/
theorem compile_behaves (ha : a.windowed = false) (n : Nat) :
    (∀ ctx p, basic p = true → Returns (Behaves a k p) (compilePat n ctx p)) ∧
    (∀ ctx p count, basic p = true →
      Returns (Behaves a k (.repeated p count)) (compileRepeat n ctx p count)) ∧
    (∀ ctx start g, basicDefs g = true →
      Returns (Behaves a k (.grammar start g)) (compileGrammar n ctx start g)) ∧
    ∀ ctx keep i g, basicDefs g = true →
      Returns (DefsBehave a k keep i g) (compileDefs n ctx keep i g) := by
  induction n with
  | zero =>
      refine ⟨?_, ?_, ?_, ?_⟩ <;>
        · intros
          rintro x ⟨⟩
  | succ n ih =>
      obtain ⟨ihp, ihr, ihg, ihd⟩ := ih
      obtain ⟨hshapep, hshaper, hshapeg, hshaped⟩ := compile_shaped n
      have hreads := fun p hp => @getPat_readsBasic n p hp
      have hcompile := fun ctx p hp => Returns.and (ihp ctx p hp) (hshapep ctx p)
      refine ⟨fun ctx p hp => ?_, fun ctx p count hp => ?_, fun ctx start g hg => ?_,
        fun ctx keep i g hg => ?_⟩
      · cases p with
        | alt l r =>
            obtain ⟨hbl, hbr⟩ := Bool.and_eq_true_iff.mp hp
            refine Returns.bind (hreads l hbl) fun lp hl => Returns.bind (hreads r hbr) fun rp hr => ?_
            split
            · next set hset =>
                refine returns_some (behaves_leaf fun ρ => (fragment_cls k set).mono ?_)
                exact (choice_mono (hl.denote _ k ρ) (hr.denote _ k ρ)).trans (denote_combine hset)
            · exact Returns.bind (hcompile _ _ hl.basic) fun x hx =>
                Returns.bind (hcompile _ _ hr.basic) fun y hy =>
                  returns_some (hx.1.alt hl hy.1 hr hx.2.2 hy.2 _ _ rfl)
        | seq l r =>
            obtain ⟨hbl, hbr⟩ := Bool.and_eq_true_iff.mp hp
            exact Returns.bind (hreads l hbl) fun lp hl =>
              Returns.bind (hcompile _ _ hl.basic) fun x hx =>
                Returns.bind (hreads r hbr) fun rp hr =>
                  Returns.bind (hcompile _ _ hr.basic) fun y hy =>
                    returns_some (hx.1.seq hl hy.1 hr hy.2.1)
        | not p =>
            refine Returns.bind (hreads p hp) fun sp hsp =>
              Returns.bind (ihp _ _ hsp.basic) fun x hx => returns_some ?_
            refine hx.wrap hsp rfl (fun inside hs => ?_) (fun ρ => rfl) fragment_not
            cases hs with
            | not hs => exact hs
        | star p =>
            refine Returns.bind (hreads p hp) fun sp hsp => ?_
            split
            · next set =>
                refine returns_some (behaves_leaf fun ρ => fragment_span fun i o hb => ?_)
                exact iterated_cls (iterated_mono (hsp.denote _ k ρ) i o hb)
            · cases hsp.basic
            · refine Returns.bind (ihp _ _ hsp.basic) fun x hx => returns_some ?_
              refine hx.wrap hsp rfl (fun inside hs => ?_) (fun ρ => rfl) fragment_star
              cases hs with
              | star hs => exact hs
        | plus p =>
            exact Returns.bind (hreads p hp) fun sp hsp =>
              Returns.bind (ihp _ (.star sp) hsp.basic) fun x hx =>
                Returns.bind (hcompile _ _ hsp.basic) fun y hy =>
                  returns_some (hx.plus hsp hy.1 hy.2.1)
        | optional p =>
            refine Returns.bind (hreads p hp) fun sp hsp => ?_
            split
            · next b =>
                refine returns_some (behaves_leaf fun ρ => ?_)
                exact (fragment_optional_byte (matchesByte_char b) (tests_char b.toNat _)).mono
                  (choice_mono (hsp.denote _ k ρ) le_rfl)
            · next set =>
                refine returns_some (behaves_leaf fun ρ => ?_)
                exact (fragment_optional_byte (matchesByte_cls set) (tests_set set _)).mono
                  (choice_mono (hsp.denote _ k ρ) le_rfl)
            · exact behaves_optional ihp hsp _
        | and p =>
            refine Returns.bind (hreads p hp) fun sp hsp =>
              Returns.bind (ihp _ _ hsp.basic) fun x hx => returns_some ?_
            refine hx.wrap hsp rfl (fun inside hs => ?_) (fun ρ => rfl) fragment_and
            cases hs with
            | and hs => exact hs
        | cap p id =>
            refine Returns.bind (hreads p hp) fun sp hsp =>
              Returns.bind (hcompile _ _ hsp.basic) fun x hx => returns_some ?_
            refine hx.1.wrap hsp rfl (fun inside hs => ?_) (fun ρ => rfl) fun h =>
              fragment_cap ha h hx.2.1.fits
            cases hs with
            | cap hs _ => exact hs
        | search p =>
            exact Returns.bind (hreads p hp) fun sp hsp =>
              Returns.bind (hcompile _ _ hsp.basic) fun x hx =>
                behaves_search hsp hx.1 hx.2.2 fun skip =>
                  Returns.and (ihg _ _ _ (basic_searchDefs hsp.basic skip)) (hshapeg _ _ _)
        | grammar start g => exact ihg ctx start g hp
        | inlined name p =>
            intro x hx herr inside ρ hs hρ
            cases hs with
            | inlined hs => exact ihp ctx p hp x hx herr inside ρ hs hρ
        | repeated p count => exact ihr ctx p count hp
        | cls set => exact returns_some (behaves_leaf fun ρ => fragment_cls k set)
        | literal str => exact returns_some (behaves_leaf fun ρ => fragment_literal k str)
        | nonterm name => exact returns_some (behaves_leaf fun ρ => fragment_openCall name)
        | dot b => exact returns_some (behaves_leaf fun ρ => fragment_dot k b)
        | emptyop op => exact returns_some (behaves_leaf fun ρ => fragment_empty k op)
        | memo p id => cases hp
        | check p fn id flag => cases hp
        | error msg => cases hp
        | errorRecover msg p => cases hp
        | empty => cases hp
      · cases count with
        | zero => exact returns_some (behaves_leaf fun ρ => fragment_nothing)
        | succ count => exact behaves_repeat ihp hp fun ctx => ihr ctx p count hp
      · refine Returns.bind (fun _ h => h) fun g' hin => ?_
        have hg' := basicDefs_grammarInline hg hin
        dsimp only
        split
        · exact returns_some fun herr => absurd herr (setErr_err _ _)
        · next startidx hstart =>
            split
            · next hnil =>
                exact behaves_inlined hin hnil hstart hg' ihp ctx
            · refine Returns.bind (Returns.and (ihd _ _ 0 g' hg')
                ((compile_guarded n).2.2.2 _ _ _ _)) fun x hx => ?_
              split
              · exact returns_some fun herr => absurd herr (setErr_err _ _)
              · next hnone => exact returns_some (behaves_grammar hin hstart hx.1 hx.2 hnone)
      · cases g with
        | nil => exact returns_some fun _ _ => laid_nil
        | cons name p rest =>
            obtain ⟨hp, hrest⟩ := Bool.and_eq_true_iff.mp hg
            have hdefs := fun ctx => ihd ctx keep (i + 1) rest hrest
            rw [compileDefs]
            split
            · next hkeep =>
                exact Returns.bind (ihp _ _ hp) fun x hx =>
                  Returns.bind (Returns.and (hdefs _) (hshaped _ _ _ _)) fun y hy =>
                    returns_some (hy.1.definition hkeep hx hy.2.1)
            · exact Returns.bind (hdefs _) fun y hy => returns_some hy.skip

end Libpeg.CompileFragments
