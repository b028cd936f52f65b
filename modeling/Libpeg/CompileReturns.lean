import Mathlib.Data.Prod.Lex
import Libpeg.GrammarCompile

/-!
The compiler returns on every pattern. Inlining makes a grammar larger, so patterns
are compared first by how deeply they repeat, then by their non-terminals without a
definition, and only then by their size.
-/

namespace Libpeg.CompileReturns

open Libpeg.Charset Libpeg.Code Libpeg.Pattern Libpeg.Compile Libpeg.Simplify
open Libpeg.CompileTotal Libpeg.GrammarCompile

mutual

def repeatDepth : Pat → Nat
  | .alt l r | .seq l r => max (repeatDepth l) (repeatDepth r)
  | .star p | .plus p | .optional p | .not p | .and p | .search p | .cap p _ | .memo p _
  | .check p _ _ _ | .inlined _ p | .errorRecover _ p => repeatDepth p
  | .grammar _ defs => repeatDepthDefs defs
  | .repeated p _ => repeatDepth p + 1
  | _ => 0

def repeatDepthDefs : Defs → Nat
  | .nil => 0
  | .cons _ p rest => max (repeatDepth p) (repeatDepthDefs rest)

end

mutual

def fullSize : Pat → Nat
  | .alt l r | .seq l r => fullSize l + fullSize r + 1
  | .star p | .plus p | .optional p | .not p | .and p | .search p | .cap p _ | .memo p _
  | .check p _ _ _ | .inlined _ p | .errorRecover _ p | .repeated p _ => fullSize p + 1
  | .grammar _ defs => fullSizeDefs defs + 1
  | _ => 1

def fullSizeDefs : Defs → Nat
  | .nil => 0
  | .cons _ p rest => fullSize p + fullSizeDefs rest

end

theorem fullSize_pos (p : Pat) : 1 ≤ fullSize p := by
  cases p <;> simp [fullSize]

/-- The first pattern is no larger than the second in any of the three measures. -/
structure NoHeavier (q p : Pat) : Prop where
  depth : repeatDepth q ≤ repeatDepth p
  names : (unresolved q).length ≤ (unresolved p).length
  size : fullSize q ≤ fullSize p

theorem NoHeavier.refl (p : Pat) : NoHeavier p p :=
  ⟨le_rfl, le_rfl, le_rfl⟩

theorem NoHeavier.trans {p q r : Pat} (h : NoHeavier r q) (h' : NoHeavier q p) : NoHeavier r p :=
  ⟨h.depth.trans h'.depth, h.names.trans h'.names, h.size.trans h'.size⟩

def weight (p : Pat) : Nat ×ₗ Nat ×ₗ Nat :=
  toLex (repeatDepth p, toLex ((unresolved p).length, fullSize p))

def Lighter (q p : Pat) : Prop :=
  weight q < weight p

theorem lighter_iff {q p : Pat} : Lighter q p ↔ repeatDepth q < repeatDepth p ∨
    repeatDepth q = repeatDepth p ∧ ((unresolved q).length < (unresolved p).length ∨
      (unresolved q).length = (unresolved p).length ∧ fullSize q < fullSize p) := by
  simp [Lighter, weight, Prod.Lex.lt_iff]

theorem lighter_wf : WellFounded Lighter :=
  InvImage.wf weight wellFounded_lt

theorem NoHeavier.lighter {p q r : Pat} (h : NoHeavier r q) (h' : Lighter q p) : Lighter r p := by
  rw [lighter_iff] at h' ⊢
  have h1 := h.depth
  have h2 := h.names
  have h3 := h.size
  omega

theorem Lighter.of_noHeavier {p q r : Pat} (h : Lighter r q) (h' : NoHeavier q p) : Lighter r p := by
  rw [lighter_iff] at h ⊢
  have h1 := h'.depth
  have h2 := h'.names
  have h3 := h'.size
  omega

theorem lighter_part {p q : Pat} (hdepth : repeatDepth q ≤ repeatDepth p)
    (hnames : (unresolved q).length ≤ (unresolved p).length) (hsize : fullSize q < fullSize p) :
    Lighter q p := by
  rw [lighter_iff]
  omega

theorem lighter_operand {p q : Pat} (hdepth : repeatDepth p = repeatDepth q)
    (hnames : unresolved p = unresolved q) (hsize : fullSize p = fullSize q + 1) : Lighter q p :=
  lighter_part hdepth.ge (hnames ▸ le_rfl) (hsize ▸ Nat.lt_succ_self _)

theorem lighter_alt (l r : Pat) : Lighter l (.alt l r) ∧ Lighter r (.alt l r) := by
  have hl := fullSize_pos l
  have hr := fullSize_pos r
  constructor
  · refine lighter_part (le_max_left _ _) ?_ ?_
    · rw [unresolved, List.length_append]
      omega
    · rw [fullSize]
      omega
  · refine lighter_part (le_max_right _ _) ?_ ?_
    · rw [unresolved, List.length_append]
      omega
    · rw [fullSize]
      omega

theorem lighter_seq (l r : Pat) : Lighter l (.seq l r) ∧ Lighter r (.seq l r) :=
  lighter_alt l r

theorem noHeavier_leaf {p q : Pat} (hdepth : repeatDepth q = 0) (hnames : unresolved q = [])
    (hsize : fullSize q = 1) : NoHeavier q p :=
  ⟨hdepth ▸ Nat.zero_le _, by simp [hnames], hsize ▸ fullSize_pos p⟩

theorem getSeq_noHeavier {l r l' r' : Pat} (hl : NoHeavier l' l) (hr : NoHeavier r' r) :
    NoHeavier (getSeq (.seq l r) l' r') (.seq l r) := by
  have hleft : NoHeavier l (.seq l r) := by
    constructor <;> simp [repeatDepth, unresolved, fullSize]
    omega
  have hright : NoHeavier r (.seq l r) := by
    constructor <;> simp [repeatDepth, unresolved, fullSize]
    omega
  unfold getSeq
  split
  · exact hl.trans hleft
  · split
    · exact hr.trans hright
    · split
      · split
        · exact noHeavier_leaf rfl rfl rfl
        · exact .refl _
      · exact .refl _

theorem getPat_noHeavier {n : Nat} {p q : Pat} (h : getPat n p = some q) : NoHeavier q p := by
  induction n generalizing p q with
  | zero => cases h
  | succ n ih =>
      cases p with
      | inlined name p =>
          cases h
          exact ⟨le_rfl, le_rfl, Nat.le_succ _⟩
      | alt l r =>
          simp only [getPat, Option.bind_eq_bind, Option.bind_eq_some_iff] at h
          obtain ⟨l', hl, r', hr, h⟩ := h
          have hl := ih hl
          have hr := ih hr
          split at h
          · cases h
            refine hr.trans ?_
            constructor <;> simp [repeatDepth, unresolved, fullSize]
            omega
          · split at h
            · refine (ih h).trans ⟨?_, ?_, ?_⟩
              · exact hl.depth.trans (le_max_left _ _)
              · exact hl.names.trans (by simp [unresolved])
              · have h1 := hl.size
                have h2 := fullSize_pos r
                simp only [fullSize]
                omega
            · split at h
              · cases h
                exact noHeavier_leaf rfl rfl rfl
              · cases h
                exact .refl _
      | optional p =>
          simp only [getPat, Option.bind_eq_bind, Option.bind_eq_some_iff] at h
          obtain ⟨p', hp', h⟩ := h
          split at h
          · cases h
            exact (ih hp').trans ⟨le_rfl, le_rfl, Nat.le_succ _⟩
          · cases h
            exact .refl _
      | seq l r =>
          simp only [getPat, Option.bind_eq_bind, Option.bind_eq_some_iff] at h
          obtain ⟨l', hl, r', hr, h⟩ := h
          cases h
          exact getSeq_noHeavier (ih hl) (ih hr)
      | _ =>
          cases h
          exact .refl _

theorem getPat_returns (p : Pat) : ∃ q, Settles (fun k => getPat k p) q ∧ NoHeavier q p := by
  obtain ⟨q, hq, -⟩ := getPat_total (getSize p) p le_rfl
  exact ⟨q, Settles.of_eq (fun k => getPat_below k p) hq, getPat_noHeavier hq⟩

section Patterns

variable {p q l r : Pat}

def Compiled (p : Pat) : Prop :=
  ∀ ctx, ∃ out, Settles (fun k => compilePat k ctx p) out

/-- The compiler returns on what `get_pat` makes of a pattern. -/
def ReadCompiled (p : Pat) : Prop :=
  ∃ q, Settles (fun k => getPat k p) q ∧ Compiled q

theorem compiled_leaf {code : List Pir}
    (hcode : ∀ k ctx, compilePat (k + 1) ctx p = some (code, ctx)) : Compiled p :=
  fun ctx => ⟨(code, ctx), Settles.of_succ (settles_some _) fun k => hcode k ctx⟩

theorem compiled_alt (hl : ReadCompiled l) (hr : ReadCompiled r) : Compiled (.alt l r) := by
  intro ctx
  obtain ⟨lp, hlp, hlc⟩ := hl
  obtain ⟨rp, hrp, hrc⟩ := hr
  cases hset : combine lp rp with
  | some set =>
      refine ⟨([.insn (.set set)], ctx), Settles.of_succ (hlp.bind (hrp.bind ?_)) fun k => rfl⟩
      simp only [hset]
      exact settles_some _
  | none =>
      obtain ⟨⟨lc, ctx₁⟩, hlrun⟩ := hlc ctx
      obtain ⟨⟨rc, ctx₂⟩, hrrun⟩ := hrc ctx₁
      refine ⟨(altCode ctx₂.nlabels (ctx₂.nlabels + 1) lc rc, takeLabels ctx₂ 2),
        Settles.of_succ (hlp.bind (hrp.bind ?_)) fun k => rfl⟩
      simp only [hset]
      exact hlrun.bind (hrrun.bind (settles_some _))

theorem compiled_seq (hl : ReadCompiled l) (hr : ReadCompiled r) : Compiled (.seq l r) := by
  intro ctx
  obtain ⟨lp, hlp, hlc⟩ := hl
  obtain ⟨rp, hrp, hrc⟩ := hr
  obtain ⟨⟨lc, ctx₁⟩, hlrun⟩ := hlc ctx
  obtain ⟨⟨rc, ctx₂⟩, hrrun⟩ := hrc ctx₁
  exact ⟨(lc ++ rc, ctx₂),
    Settles.of_succ (hlp.bind (hlrun.bind (hrp.bind (hrrun.bind (settles_some _))))) fun k => rfl⟩

theorem compiled_wrap (hp : ReadCompiled p) (pre post : Pctx → Pctx)
    (wrap : Pctx → Pctx → List Pir → List Pir)
    (heq : ∀ k ctx, compilePat (k + 1) ctx q = (getPat k p).bind fun sp =>
      (compilePat k (pre ctx) sp).bind fun x => some (wrap ctx x.2 x.1, post x.2)) : Compiled q := by
  intro ctx
  obtain ⟨sp, hsp, hc⟩ := hp
  obtain ⟨⟨sub, ctx₁⟩, hsub⟩ := hc (pre ctx)
  exact ⟨(wrap ctx ctx₁ sub, post ctx₁),
    Settles.of_succ (hsp.bind (hsub.bind (settles_some _))) fun k => heq k ctx⟩

theorem compiled_star (hp : ReadCompiled p)
    (hmemo : ∀ body id, Settles (fun k => getPat k p) (.memo body id) → ReadCompiled body) :
    Compiled (.star p) := by
  intro ctx
  obtain ⟨sp, hsp, hc⟩ := hp
  have hgeneral : ∃ out, Settles (fun k => (compilePat k ctx sp).bind fun x =>
      some (starCode x.2.nlabels (x.2.nlabels + 1) x.1, takeLabels x.2 2)) out := by
    obtain ⟨⟨sub, ctx₁⟩, hsub⟩ := hc ctx
    exact ⟨_, hsub.bind (settles_some _)⟩
  cases sp with
  | cls set => exact ⟨_, Settles.of_succ (hsp.bind (settles_some _)) fun k => rfl⟩
  | memo body id =>
      obtain ⟨bp, hbp, hbc⟩ := hmemo body id hsp
      obtain ⟨⟨sub, ctx₁⟩, hsub⟩ := hbc ctx
      exact ⟨(memoTreeCode ctx₁.nlabels (ctx₁.nlabels + 1) (ctx₁.nlabels + 2) (ctx₁.nlabels + 3)
          ctx₁.memoCounter sub, { takeLabels ctx₁ 4 with memoCounter := ctx₁.memoCounter + 1 }),
        Settles.of_succ (hsp.bind (hbp.bind (hsub.bind (settles_some _)))) fun k => rfl⟩
  | _ =>
      obtain ⟨out, hout⟩ := hgeneral
      exact ⟨out, Settles.of_succ (hsp.bind hout) fun k => rfl⟩

theorem compiled_plus {sp : Pat} (hsp : Settles (fun k => getPat k p) sp)
    (hstar : Compiled (.star sp)) (hc : Compiled sp) : Compiled (.plus p) := by
  intro ctx
  obtain ⟨⟨star, ctx₁⟩, hrun₁⟩ := hstar ctx
  obtain ⟨⟨sub, ctx₂⟩, hrun₂⟩ := hc ctx₁
  exact ⟨(sub ++ star, ctx₂),
    Settles.of_succ (hsp.bind (hrun₁.bind (hrun₂.bind (settles_some _)))) fun k => rfl⟩

theorem compiled_optional {sp : Pat} (hsp : Settles (fun k => getPat k p) sp)
    (halt : Compiled (.alt sp .empty)) : Compiled (.optional p) := by
  intro ctx
  obtain ⟨out, hout⟩ := halt ctx
  cases sp with
  | literal str =>
      match str with
      | [b] => exact ⟨_, Settles.of_succ (hsp.bind (settles_some _)) fun k => rfl⟩
      | [] => exact ⟨out, Settles.of_succ (hsp.bind hout) fun k => rfl⟩
      | b :: c :: str => exact ⟨out, Settles.of_succ (hsp.bind hout) fun k => rfl⟩
  | cls set => exact ⟨_, Settles.of_succ (hsp.bind (settles_some _)) fun k => rfl⟩
  | _ => exact ⟨out, Settles.of_succ (hsp.bind hout) fun k => rfl⟩

theorem compiled_repeated (hp : Compiled p) (count : Nat) : Compiled (.repeated p count) := by
  have hloop : ∀ ctx, ∃ out, Settles (fun k => compileRepeat k ctx p count) out := by
    induction count with
    | zero => exact fun ctx => ⟨([], ctx), Settles.of_succ (settles_some _) fun k => rfl⟩
    | succ count ih =>
        intro ctx
        obtain ⟨⟨sub, ctx₁⟩, hsub⟩ := hp ctx
        obtain ⟨⟨rest, ctx₂⟩, hrest⟩ := ih ctx₁
        exact ⟨(sub ++ rest, ctx₂),
          Settles.of_succ (hsub.bind (hrest.bind (settles_some _))) fun k => rfl⟩
  intro ctx
  obtain ⟨out, hout⟩ := hloop ctx
  exact ⟨out, Settles.of_succ hout fun k => rfl⟩

theorem compiled_defs (keep : Nat → Bool) (i : Nat) (d : Defs)
    (hd : ∀ j p, defAt d j = some p → Compiled p) (ctx : Pctx) :
    ∃ out, Settles (fun k => compileDefs k ctx keep i d) out := by
  cases d with
  | nil => exact ⟨([], [], ctx), Settles.of_succ (settles_some _) fun k => rfl⟩
  | cons name p rest =>
      have hrest : ∀ j q, defAt rest j = some q → Compiled q := fun j q hq => hd (j + 1) q hq
      by_cases hkeep : keep i = true
      · obtain ⟨⟨fn, ctx₁⟩, hfn⟩ := hd 0 p rfl (takeLabels ctx 1)
        obtain ⟨⟨code, labels, ctx₂⟩, hcode⟩ := compiled_defs keep (i + 1) rest hrest ctx₁
        have hstep : ∀ k, compileDefs (k + 1) ctx keep i (.cons name p rest) =
            (compilePat k (takeLabels ctx 1) p).bind fun x =>
              (compileDefs k x.2 keep (i + 1) rest).bind fun y =>
                some ([.label ctx.nlabels] ++ x.1 ++ [.insn .ret] ++ y.1,
                  some ctx.nlabels :: y.2.1, y.2.2) := by
          intro k
          rw [compileDefs, if_pos hkeep]
          rfl
        exact ⟨([.label ctx.nlabels] ++ fn ++ [.insn .ret] ++ code, some ctx.nlabels :: labels, ctx₂),
          Settles.of_succ (hfn.bind (hcode.bind (settles_some _))) hstep⟩
      · obtain ⟨⟨code, labels, ctx₂⟩, hcode⟩ := compiled_defs keep (i + 1) rest hrest ctx
        have hstep : ∀ k, compileDefs (k + 1) ctx keep i (.cons name p rest) =
            (compileDefs k ctx keep (i + 1) rest).bind fun y => some (y.1, none :: y.2.1, y.2.2) := by
          intro k
          rw [compileDefs, if_neg hkeep]
          rfl
        exact ⟨(code, none :: labels, ctx₂), Settles.of_succ (hcode.bind (settles_some _)) hstep⟩

theorem compiled_grammar {g g' : Defs} (start : String) (hin : Settles (fun k => grammarInline k g) g')
    (hdefs : ∀ i p, defAt g' i = some p → Compiled p) (ctx : Pctx) :
    ∃ out, Settles (fun k => compileGrammar k ctx start g) out := by
  cases hstart : findDef g' start with
  | none =>
      refine ⟨([], setErr ctx start), Settles.of_succ (hin.bind ?_) fun k => rfl⟩
      simp only [hstart]
      exact settles_some _
  | some startidx =>
      by_cases hnil : unresolvedDefs g' = []
      · obtain ⟨p, hp⟩ := findDef_defAt hstart
        obtain ⟨out, hout⟩ := hdefs startidx p hp ctx
        refine ⟨out, Settles.of_succ (hin.bind ?_) fun k => rfl⟩
        simp only [hstart, if_pos hnil, hp, Option.getD_some]
        exact hout
      · obtain ⟨⟨fns, labels, ctx₁⟩, hfns⟩ := compiled_defs
          (fun i => i = startidx || ((unresolvedDefs g').filterMap (findDef g')).contains i) 0 g'
          hdefs (takeLabels ctx 1)
        cases hresolve : resolveCalls
            (fun name => (findDef g' name).bind fun i => labels.getD i none)
            ([.openCall start, .insn (.jump ctx.nlabels)] ++ fns) with
        | mk code err =>
            cases err with
            | none =>
                refine ⟨(code ++ [.label ctx.nlabels], ctx₁),
                  Settles.of_succ (hin.bind ?_) fun k => rfl⟩
                simp only [hstart, if_neg hnil]
                refine hfns.bind ?_
                simp only [pctxLabel, hresolve]
                exact settles_some _
            | some name =>
                refine ⟨(code, setErr ctx₁ name), Settles.of_succ (hin.bind ?_) fun k => rfl⟩
                simp only [hstart, if_neg hnil]
                refine hfns.bind ?_
                simp only [pctxLabel, hresolve]
                exact settles_some _

end Patterns

section Inlining

theorem defAt_part {g : Defs} {p : Pat} {i : Nat} (h : defAt g i = some p) :
    repeatDepth p ≤ repeatDepthDefs g ∧
      (unresolved p).length ≤ (unresolvedDefs g).length ∧ fullSize p ≤ fullSizeDefs g := by
  cases g with
  | nil => cases h
  | cons name q rest =>
      simp only [repeatDepthDefs, unresolvedDefs, List.length_append, fullSizeDefs]
      cases i with
      | zero =>
          cases h
          exact ⟨le_max_left _ _, Nat.le_add_right _ _, Nat.le_add_right _ _⟩
      | succ i =>
          obtain ⟨hdepth, hnames, hsize⟩ := defAt_part (show defAt rest i = some p from h)
          exact ⟨hdepth.trans (le_max_right _ _), hnames.trans (Nat.le_add_left _ _),
            hsize.trans (Nat.le_add_left _ _)⟩

mutual

theorem repeatDepth_inlinePat (g : Defs) (p : Pat) :
    repeatDepth (inlinePat g p) ≤ max (repeatDepth p) (repeatDepthDefs g) := by
  cases p with
  | alt l r =>
      have hl := repeatDepth_inlinePat g l
      have hr := repeatDepth_inlinePat g r
      simp only [inlinePat, repeatDepth]
      omega
  | seq l r =>
      have hl := repeatDepth_inlinePat g l
      have hr := repeatDepth_inlinePat g r
      simp only [inlinePat, repeatDepth]
      omega
  | star p => exact repeatDepth_inlinePat g p
  | plus p => exact repeatDepth_inlinePat g p
  | optional p => exact repeatDepth_inlinePat g p
  | not p => exact repeatDepth_inlinePat g p
  | and p => exact repeatDepth_inlinePat g p
  | cap p id => exact repeatDepth_inlinePat g p
  | memo p id => exact repeatDepth_inlinePat g p
  | check p fn id flag => exact repeatDepth_inlinePat g p
  | search p => exact repeatDepth_inlinePat g p
  | inlined name p => exact repeatDepth_inlinePat g p
  | errorRecover msg p => exact repeatDepth_inlinePat g p
  | grammar start defs => exact repeatDepth_inlineDefs g defs
  | nonterm name =>
      rw [inlinePat]
      split
      · next p hp =>
          obtain ⟨⟨i, -, hdef⟩, -⟩ := inlinable_eq_some hp
          exact (defAt_part hdef).1.trans (le_max_right _ _)
      · exact Nat.zero_le _
  | _ => exact le_max_left _ _

theorem repeatDepth_inlineDefs (g d : Defs) :
    repeatDepthDefs (inlineDefs g d) ≤ max (repeatDepthDefs d) (repeatDepthDefs g) := by
  cases d with
  | nil => exact Nat.zero_le _
  | cons name p rest =>
      have hp := repeatDepth_inlinePat g p
      have hrest := repeatDepth_inlineDefs g rest
      simp only [inlineDefs, repeatDepthDefs]
      omega

end

theorem unresolved_pass {g : Defs} (hany : inlinesAny g = true) :
    (unresolvedDefs (inlineDefs g g)).length < (unresolvedDefs g).length := by
  rw [unresolved_inlineDefs]
  obtain ⟨name, hname, hin⟩ := List.any_eq_true.mp hany
  refine List.length_filter_lt_length_iff_exists.mpr ⟨name, hname, ?_⟩
  simpa [Option.isSome_iff_ne_none] using hin

/-- Inlining returns, either the same definitions or some with fewer non-terminals. -/
theorem grammarInline_returns (g : Defs) : ∃ g', Settles (fun k => grammarInline k g) g' ∧
    repeatDepthDefs g' ≤ repeatDepthDefs g ∧
    (g' = g ∨ (unresolvedDefs g').length < (unresolvedDefs g).length) := by
  induction hlen : (unresolvedDefs g).length using Nat.strong_induction_on generalizing g with
  | h n ih =>
      subst hlen
      by_cases hany : inlinesAny g = true
      · have hless := unresolved_pass hany
        obtain ⟨g', hsettles, hdepth, hcases⟩ := ih _ hless (inlineDefs g g) rfl
        refine ⟨g', Settles.of_succ hsettles fun k => ?_, ?_, .inr ?_⟩
        · rw [grammarInline, if_pos hany]
        · exact hdepth.trans ((repeatDepth_inlineDefs g g).trans (max_self _).le)
        · rcases hcases with rfl | hfewer
          · exact hless
          · exact hfewer.trans hless
      · refine ⟨g, Settles.of_succ (settles_some g) fun k => ?_, le_rfl, .inl rfl⟩
        rw [grammarInline, if_neg hany]

/-- What inlining makes of a grammar has definitions lighter than the grammar. -/
theorem lighter_of_inlined {g g' : Defs} {start : String} {p : Pat} {i : Nat}
    (hdepth : repeatDepthDefs g' ≤ repeatDepthDefs g)
    (hcases : g' = g ∨ (unresolvedDefs g').length < (unresolvedDefs g).length)
    (hp : defAt g' i = some p) : Lighter p (.grammar start g) := by
  obtain ⟨hd, hn, hs⟩ := defAt_part hp
  rw [lighter_iff]
  simp only [repeatDepth, unresolved, fullSize]
  rcases hcases with rfl | hless
  · omega
  · omega

end Inlining

section Totality

variable {p q : Pat}

theorem read_compiled (ih : ∀ q, Lighter q p → Compiled q) (hq : Lighter q p) : ReadCompiled q := by
  obtain ⟨q', hq', hle⟩ := getPat_returns q
  exact ⟨q', hq', ih q' (hle.lighter hq)⟩

theorem readCompiled_plain (hp : Plain p) : ReadCompiled p := by
  obtain ⟨q, hq, hs⟩ := getPat_settles hp
  refine ⟨q, hq, fun ctx => ?_⟩
  obtain ⟨code, ctx', hrun, -⟩ := plain_compiles (patSize q) q le_rfl hs.plain ctx
  exact ⟨(code, ctx'), hrun⟩

theorem star_compiled (ih : ∀ q, Lighter q p → Compiled q) (hq : Lighter q p) :
    Compiled (.star q) := by
  refine compiled_star (read_compiled ih hq) fun body id hmemo => ?_
  obtain ⟨n, hn⟩ := hmemo
  have hbody : NoHeavier body (.memo body id) := ⟨le_rfl, le_rfl, Nat.le_succ _⟩
  exact read_compiled ih ((hbody.trans (getPat_noHeavier (hn n le_rfl))).lighter hq)

theorem inlinable_search (p : Pat) (skip : Option VmCharset) (name : String) :
    inlinable (searchDefs p skip) name = none := by
  cases hin : inlinable (searchDefs p skip) name with
  | none => rfl
  | some q =>
      obtain ⟨⟨i, -, hdef⟩, hnil⟩ := inlinable_eq_some hin
      cases i with
      | zero =>
          cases hdef
          cases skip <;> simp [unresolved] at hnil
      | succ i => cases hdef

theorem search_compiled (hp : ReadCompiled p) (skip : Option VmCharset) (ctx : Pctx) :
    ∃ out, Settles (fun k => compileGrammar k ctx "S" (searchDefs p skip)) out := by
  have hin : Settles (fun k => grammarInline k (searchDefs p skip)) (searchDefs p skip) := by
    refine Settles.of_succ (settles_some _) fun k => ?_
    rw [grammarInline, if_neg]
    simp [inlinesAny, inlinable_search]
  refine compiled_grammar "S" hin (fun i q hq => ?_) ctx
  cases i with
  | zero =>
      cases hq
      refine compiled_alt hp (readCompiled_plain ?_)
      cases skip <;> simp [Plain]
  | succ i => cases hq

theorem compilePat_returns (p : Pat) : Compiled p := by
  induction p using lighter_wf.induction with
  | h p ih =>
      have hread : ∀ q, Lighter q p → ReadCompiled q := fun q => read_compiled ih
      cases p with
      | alt l r =>
          obtain ⟨hl, hr⟩ := lighter_alt l r
          exact compiled_alt (hread l hl) (hread r hr)
      | seq l r =>
          obtain ⟨hl, hr⟩ := lighter_seq l r
          exact compiled_seq (hread l hl) (hread r hr)
      | star p => exact star_compiled ih (lighter_operand rfl rfl rfl)
      | plus p =>
          have hpart : Lighter p (.plus p) := lighter_operand rfl rfl rfl
          obtain ⟨sp, hsp, hle⟩ := getPat_returns p
          exact compiled_plus hsp (star_compiled ih (hle.lighter hpart)) (ih sp (hle.lighter hpart))
      | optional p =>
          have hpart : Lighter p (.optional p) := lighter_operand rfl rfl rfl
          obtain ⟨sp, hsp, hle⟩ := getPat_returns p
          exact compiled_optional hsp (compiled_alt (read_compiled ih (hle.lighter hpart))
            (readCompiled_plain trivial))
      | not p =>
          exact compiled_wrap (hread p (lighter_operand rfl rfl rfl)) id (takeLabels · 1)
            (fun _ ctx' sub => [.insn (.choice ctx'.nlabels)] ++ sub ++
              [.insn .failTwice, .label ctx'.nlabels])
            (fun _ _ => rfl)
      | and p =>
          exact compiled_wrap (hread p (lighter_operand rfl rfl rfl)) id (takeLabels · 2)
            (fun _ ctx' sub => [.insn (.choice ctx'.nlabels)] ++ sub ++
              [.insn (.backCommit (ctx'.nlabels + 1)), .label ctx'.nlabels, .insn .fail,
                .label (ctx'.nlabels + 1)])
            (fun _ _ => rfl)
      | cap p id' =>
          exact compiled_wrap (hread p (lighter_operand rfl rfl rfl)) id id
            (fun _ _ sub => capCode id' sub) (fun _ _ => rfl)
      | memo p id' =>
          exact compiled_wrap (hread p (lighter_operand rfl rfl rfl)) (takeLabels · 1) id
            (fun ctx _ sub => [.insn (.memoOpen ctx.nlabels id')] ++ sub ++
              [.insn .memoClose, .label ctx.nlabels])
            (fun _ _ => rfl)
      | check p fn id' flag =>
          exact compiled_wrap (hread p (lighter_operand rfl rfl rfl)) (takeLabels · 1) id
            (fun ctx _ sub => [.insn (.checkBegin id' flag)] ++ sub ++
              [.insn (.checkEnd fn), .label ctx.nlabels])
            (fun _ _ => rfl)
      | search p =>
          intro ctx
          have hpart : Lighter p (.search p) := lighter_operand rfl rfl rfl
          obtain ⟨sp, hsp, hle⟩ := getPat_returns p
          obtain ⟨⟨sub, ctx₁⟩, hsub⟩ := ih sp (hle.lighter hpart) ctx
          obtain ⟨out, hout⟩ :=
            search_compiled (read_compiled ih (hle.lighter hpart)) (searchSkip sub) ctx₁
          exact ⟨out, Settles.of_succ (hsp.bind (hsub.bind hout)) fun k => rfl⟩
      | grammar start defs =>
          intro ctx
          obtain ⟨g', hin, hdepth, hcases⟩ := grammarInline_returns defs
          obtain ⟨out, hout⟩ := compiled_grammar start hin
            (fun i q hq => ih q (lighter_of_inlined hdepth hcases hq)) ctx
          exact ⟨out, Settles.of_succ hout fun k => rfl⟩
      | repeated p count =>
          refine compiled_repeated (ih p ?_) count
          rw [lighter_iff]
          exact .inl (Nat.lt_succ_self _)
      | inlined name p =>
          intro ctx
          obtain ⟨out, hout⟩ := ih p (lighter_operand rfl rfl rfl) ctx
          exact ⟨out, Settles.of_succ hout fun k => rfl⟩
      | errorRecover msg p =>
          intro ctx
          obtain ⟨⟨code, ctx'⟩, hrun⟩ := ih p (lighter_operand rfl rfl rfl) ctx
          exact ⟨([.insn (.error msg)] ++ code, ctx'),
            Settles.of_succ (hrun.bind (settles_some _)) fun k => rfl⟩
      | _ => exact compiled_leaf fun _ _ => rfl

end Totality

end Libpeg.CompileReturns
