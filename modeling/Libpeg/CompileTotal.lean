import Libpeg.Compile
import Libpeg.Simplify

namespace Libpeg.CompileTotal

open Libpeg.Charset Libpeg.Opcode Libpeg.Code Libpeg.Pattern Libpeg.Compile Libpeg.Simplify

/-- A computation with a bound returns `x` for every large enough bound. -/
def Settles {α : Type} (f : Nat → Option α) (x : α) : Prop :=
  ∃ n, ∀ k, n ≤ k → f k = some x

theorem Settles.of_succ {α : Type} {f g : Nat → Option α} {x : α} (hg : Settles g x)
    (h : ∀ k, f (k + 1) = g k) : Settles f x := by
  obtain ⟨n, hn⟩ := hg
  refine ⟨n + 1, fun k hk => ?_⟩
  obtain ⟨k, rfl⟩ : ∃ k', k = k' + 1 := ⟨k - 1, by omega⟩
  rw [h]
  exact hn k (by omega)

theorem Settles.bind {α β : Type} {f : Nat → Option α} {g : α → Nat → Option β} {x : α} {y : β}
    (hf : Settles f x) (hg : Settles (g x) y) : Settles (fun k => (f k).bind fun z => g z k) y := by
  obtain ⟨n, hn⟩ := hf
  obtain ⟨n', hn'⟩ := hg
  refine ⟨n + n', fun k hk => ?_⟩
  dsimp only
  rw [hn k (by omega)]
  exact hn' k (by omega)

theorem settles_some {α : Type} (x : α) : Settles (fun _ => some x) x :=
  ⟨0, fun _ _ => rfl⟩

/-- `y` has the value of `x`, if it has one. -/
def Below {α : Type} (x y : Option α) : Prop :=
  ∀ a, x = some a → y = some a

theorem Below.refl {α : Type} (x : Option α) : Below x x :=
  fun _ h => h

theorem Below.bind {α β : Type} {x y : Option α} {f g : α → Option β} (hxy : Below x y)
    (hfg : ∀ a, Below (f a) (g a)) : Below (x.bind f) (y.bind g) := by
  intro b hb
  obtain ⟨a, ha, hfa⟩ := Option.bind_eq_some_iff.mp hb
  exact Option.bind_eq_some_iff.mpr ⟨a, hxy a ha, hfg a b hfa⟩

theorem Settles.of_eq {α : Type} {f : Nat → Option α} {x : α} (hmono : ∀ k, Below (f k) (f (k + 1)))
    {n : Nat} (h : f n = some x) : Settles f x := by
  refine ⟨n, fun k hk => ?_⟩
  induction k, hk using Nat.le_induction with
  | base => exact h
  | succ k _ ih => exact hmono k x ih

theorem Settles.unique {α : Type} {f : Nat → Option α} {x y : α} (hx : Settles f x)
    (hy : Settles f y) : x = y := by
  obtain ⟨n, hn⟩ := hx
  obtain ⟨n', hn'⟩ := hy
  exact Option.some.inj ((hn (n + n') (by omega)).symm.trans (hn' (n + n') (by omega)))

/-- A pattern without nested grammars and searches, where no non-terminal is
inside a repeated pattern. -/
def Plain : Pat → Prop
  | .alt l r | .seq l r => Plain l ∧ Plain r
  | .star p | .plus p | .optional p | .not p | .and p | .cap p _ | .memo p _ | .check p _ _ _
  | .inlined _ p | .errorRecover _ p => Plain p
  | .repeated p _ => Plain p ∧ unresolved p = []
  | .grammar _ _ | .search _ => False
  | _ => True

def patSize : Pat → Nat
  | .alt l r | .seq l r => patSize l + patSize r + 1
  | .star p | .plus p | .optional p | .not p | .and p | .cap p _ | .memo p _ | .check p _ _ _
  | .inlined _ p | .errorRecover _ p | .repeated p _ => patSize p + 1
  | _ => 1

theorem patSize_pos (p : Pat) : 1 ≤ patSize p := by
  cases p <;> simp [patSize]

theorem getPat_below (n : Nat) (p : Pat) : Below (getPat n p) (getPat (n + 1) p) := by
  induction n generalizing p with
  | zero =>
      intro q hq
      cases hq
  | succ n ih =>
      cases p with
      | alt l r =>
          refine Below.bind (ih l) fun l' => Below.bind (ih r) fun r' => ?_
          split
          · exact .refl _
          · split
            · exact ih _
            · exact .refl _
      | optional p => exact Below.bind (ih p) fun _ => .refl _
      | seq l r => exact Below.bind (ih l) fun _ => Below.bind (ih r) fun _ => .refl _
      | _ => exact .refl _

/-- `get_pat` keeps the non-terminals and never makes a pattern larger. -/
structure Simplified (p q : Pat) : Prop where
  plain : Plain q
  size : patSize q ≤ patSize p
  names : ∀ name, name ∈ unresolved q ↔ name ∈ unresolved p

theorem getSeq_simplified {l r l' r' : Pat} (hp : Plain (.seq l r)) (hl : Simplified l l')
    (hr : Simplified r r') : Simplified (.seq l r) (getSeq (.seq l r) l' r') := by
  unfold getSeq
  split
  · next hempty =>
      have hnil := eq_empty_of_isEmpty hempty
      subst hnil
      refine ⟨hl.plain, ?_, fun name => ?_⟩
      · have := hl.size
        simp only [patSize]
        omega
      · have hr' := hr.names name
        simp only [unresolved, List.not_mem_nil, false_iff] at hr'
        simp only [unresolved, List.mem_append, hl.names name, hr', or_false]
  · split
    · next hempty =>
        have hnil := eq_empty_of_isEmpty hempty
        subst hnil
        refine ⟨hr.plain, ?_, fun name => ?_⟩
        · have := hr.size
          simp only [patSize]
          omega
        · have hl' := hl.names name
          simp only [unresolved, List.not_mem_nil, false_iff] at hl'
          simp only [unresolved, List.mem_append, hr.names name, hl', false_or]
    · split
      · next np hnot =>
          split
          · next set hset =>
              obtain ⟨s, hset', hexc⟩ := Option.bind_eq_some_iff.mp hset
              have hnp : unresolved (.not np) = [] := by
                unfold notSet at hset'
                split at hset' <;> first | rfl | cases hset'
              have hrn : unresolved r' = [] := by
                unfold exceptSet at hexc
                split at hexc <;> first | rfl | cases hexc
              refine ⟨trivial, patSize_pos _, fun name => ?_⟩
              have hl' := hl.names name
              have hr' := hr.names name
              rw [hnp] at hl'
              rw [hrn] at hr'
              simp only [List.not_mem_nil, false_iff] at hl' hr'
              simp only [unresolved, List.not_mem_nil, List.mem_append, hl', hr', or_self]
          · exact ⟨hp, le_rfl, fun _ => Iff.rfl⟩
      · exact ⟨hp, le_rfl, fun _ => Iff.rfl⟩

theorem combine_names {l r : Pat} {set : VmCharset} (h : combine l r = some set) :
    unresolved l = [] ∧ unresolved r = [] := by
  unfold combine at h
  split at h <;> first | exact ⟨rfl, rfl⟩ | cases h

theorem getPat_simplified {n : Nat} {p q : Pat} (h : getPat n p = some q) (hp : Plain p) :
    Simplified p q := by
  induction n generalizing p q with
  | zero => cases h
  | succ n ih =>
      cases p with
      | inlined name p =>
          cases h
          exact ⟨hp, by simp [patSize], fun _ => Iff.rfl⟩
      | alt l r =>
          simp only [getPat, Option.bind_eq_bind, Option.bind_eq_some_iff] at h
          obtain ⟨l', hl, r', hr, h⟩ := h
          have hl := ih hl hp.1
          have hr := ih hr hp.2
          split at h
          · next hempty =>
              cases h
              have hnil := eq_empty_of_isEmpty hempty
              subst hnil
              refine ⟨hr.plain, ?_, fun name => ?_⟩
              · have := hr.size
                simp only [patSize]
                omega
              · have hl' := hl.names name
                simp only [unresolved, List.not_mem_nil, false_iff] at hl'
                simp only [unresolved, List.mem_append, hr.names name, hl', false_or]
          · split at h
            · next hempty =>
                have hnil := eq_empty_of_isEmpty hempty
                subst hnil
                have hopt := ih h (show Plain (.optional l') from hl.plain)
                refine ⟨hopt.plain, ?_, fun name => ?_⟩
                · have h1 := hopt.size
                  have h2 := hl.size
                  have h3 := patSize_pos r
                  simp only [patSize] at h1 ⊢
                  omega
                · have hr' := hr.names name
                  simp only [unresolved, List.not_mem_nil, false_iff] at hr'
                  rw [hopt.names name]
                  simp only [unresolved, List.mem_append, hl.names name, hr', or_false]
            · split at h
              · next set hset =>
                  cases h
                  obtain ⟨hln, hrn⟩ := combine_names hset
                  refine ⟨trivial, patSize_pos _, fun name => ?_⟩
                  have hl' := hl.names name
                  have hr' := hr.names name
                  rw [hln] at hl'
                  rw [hrn] at hr'
                  simp only [List.not_mem_nil, false_iff] at hl' hr'
                  simp only [unresolved, List.not_mem_nil, List.mem_append, hl', hr', or_self]
              · cases h
                exact ⟨hp, le_rfl, fun _ => Iff.rfl⟩
      | optional p =>
          simp only [getPat, Option.bind_eq_bind, Option.bind_eq_some_iff] at h
          obtain ⟨p', hp', h⟩ := h
          have hs := ih hp' hp
          split at h
          · cases h
            refine ⟨hs.plain, ?_, hs.names⟩
            have := hs.size
            simp only [patSize]
            omega
          · cases h
            exact ⟨hp, le_rfl, fun _ => Iff.rfl⟩
      | seq l r =>
          simp only [getPat, Option.bind_eq_bind, Option.bind_eq_some_iff] at h
          obtain ⟨l', hl, r', hr, h⟩ := h
          cases h
          exact getSeq_simplified hp (ih hl hp.1) (ih hr hp.2)
      | _ =>
          cases h
          exact ⟨hp, le_rfl, fun _ => Iff.rfl⟩

theorem getPat_settles {p : Pat} (hp : Plain p) :
    ∃ q, Settles (fun k => getPat k p) q ∧ Simplified p q := by
  obtain ⟨q, hq, -⟩ := getPat_total (getSize p) p le_rfl
  exact ⟨q, Settles.of_eq (fun k => getPat_below k p) hq, getPat_simplified hq hp⟩

def openName : Pir → Option String
  | .openCall name => some name
  | _ => none

def openCalls (code : List Pir) : List String :=
  code.filterMap openName

@[simp] theorem openCalls_nil : openCalls [] = [] :=
  rfl

@[simp] theorem openCalls_append (code code' : List Pir) :
    openCalls (code ++ code') = openCalls code ++ openCalls code' :=
  List.filterMap_append

@[simp] theorem openCalls_label (l : Nat) (code : List Pir) :
    openCalls (.label l :: code) = openCalls code :=
  rfl

@[simp] theorem openCalls_insn (i : PirInsn) (code : List Pir) :
    openCalls (.insn i :: code) = openCalls code :=
  rfl

@[simp] theorem openCalls_openCall (name : String) (code : List Pir) :
    openCalls (.openCall name :: code) = name :: openCalls code :=
  rfl

theorem openCalls_tail {code : List Pir} {i : PirInsn} (h : nextInsn code = some (.insn i)) :
    openCalls code.tail = openCalls code := by
  cases code with
  | nil => rfl
  | cons c code =>
      cases c with
      | label l => rfl
      | insn i => rfl
      | openCall name => simp [nextInsn, isReal] at h

theorem disjointTest_next {l1 : Nat} {c d : Option Pir} {test : PirInsn}
    (h : disjointTest l1 c d = some test) : ∃ i, c = some (.insn i) := by
  unfold disjointTest at h
  split at h <;> first | exact ⟨_, rfl⟩ | cases h

theorem openCalls_altCode (l1 l2 : Nat) (l r : List Pir) :
    openCalls (altCode l1 l2 l r) = openCalls l ++ openCalls r := by
  unfold altCode
  split
  · next test htest =>
      obtain ⟨i, hi⟩ := disjointTest_next htest
      simp [openCalls_tail hi]
  · simp

theorem openCalls_starCode (l1 l2 : Nat) (sub : List Pir) :
    openCalls (starCode l1 l2 sub) = openCalls sub := by
  simp [starCode]

theorem openCalls_memoTreeCode (l1 l2 l3 nojump : Nat) (id : Int) (sub : List Pir) :
    openCalls (memoTreeCode l1 l2 l3 nojump id sub) = openCalls sub := by
  simp [memoTreeCode]

theorem openCalls_capCode (id : Int) (sub : List Pir) :
    openCalls (capCode id sub) = openCalls sub := by
  have hsplit : openCalls (sub.takeWhile fun i => (matchWidth i).isSome) ++
      openCalls (sub.dropWhile fun i => (matchWidth i).isSome) = openCalls sub := by
    rw [← openCalls_append, List.takeWhile_append_dropWhile]
  unfold capCode
  dsimp only
  split
  · simp
  · split
    · simp
    · simp [hsplit]

/-- A pattern compiles, without an error, to code with its non-terminals as open
calls. -/
def Compiles (p : Pat) : Prop :=
  ∀ ctx, ∃ code ctx', Settles (fun k => compilePat k ctx p) (code, ctx') ∧ ctx'.err = ctx.err ∧
    ∀ name, name ∈ openCalls code ↔ name ∈ unresolved p

section Patterns

variable {n : Nat} {p l r : Pat}

def takeLabels (ctx : Pctx) (k : Nat) : Pctx :=
  { ctx with nlabels := ctx.nlabels + k }

theorem alt_compiles (ih : ∀ q, patSize q ≤ n → Plain q → Compiles q) (hl : Plain l)
    (hr : Plain r) (hln : patSize l ≤ n) (hrn : patSize r ≤ n) : Compiles (.alt l r) := by
  intro ctx
  obtain ⟨lp, hlp, hls⟩ := getPat_settles hl
  obtain ⟨rp, hrp, hrs⟩ := getPat_settles hr
  cases hset : combine lp rp with
  | some set =>
      obtain ⟨hl', hr'⟩ := combine_names hset
      refine ⟨[.insn (.set set)], ctx, ?_, rfl, fun name => ?_⟩
      · refine Settles.of_succ (hlp.bind (hrp.bind ?_)) fun k => rfl
        simp only [hset]
        exact settles_some _
      · simp [unresolved, ← hls.names name, ← hrs.names name, hl', hr']
  | none =>
      obtain ⟨lc, ctx₁, hlc, herr₁, hlo⟩ := ih lp (hls.size.trans hln) hls.plain ctx
      obtain ⟨rc, ctx₂, hrc, herr₂, hro⟩ := ih rp (hrs.size.trans hrn) hrs.plain ctx₁
      refine ⟨altCode ctx₂.nlabels (ctx₂.nlabels + 1) lc rc, takeLabels ctx₂ 2, ?_,
        herr₂.trans herr₁, fun name => ?_⟩
      · refine Settles.of_succ (hlp.bind (hrp.bind ?_)) fun k => rfl
        simp only [hset]
        exact hlc.bind (hrc.bind (settles_some _))
      · rw [openCalls_altCode, unresolved, List.mem_append, List.mem_append, hlo, hro,
          hls.names, hrs.names]

theorem seq_compiles (ih : ∀ q, patSize q ≤ n → Plain q → Compiles q) (hl : Plain l)
    (hr : Plain r) (hln : patSize l ≤ n) (hrn : patSize r ≤ n) : Compiles (.seq l r) := by
  intro ctx
  obtain ⟨lp, hlp, hls⟩ := getPat_settles hl
  obtain ⟨rp, hrp, hrs⟩ := getPat_settles hr
  obtain ⟨lc, ctx₁, hlc, herr₁, hlo⟩ := ih lp (hls.size.trans hln) hls.plain ctx
  obtain ⟨rc, ctx₂, hrc, herr₂, hro⟩ := ih rp (hrs.size.trans hrn) hrs.plain ctx₁
  refine ⟨lc ++ rc, ctx₂, ?_, herr₂.trans herr₁, fun name => ?_⟩
  · exact Settles.of_succ (hlp.bind (hlc.bind (hrp.bind (hrc.bind (settles_some _))))) fun k => rfl
  · rw [openCalls_append, unresolved, List.mem_append, List.mem_append, hlo, hro, hls.names,
      hrs.names]

theorem wrap_compiles {q : Pat} (p : Pat) (ih : ∀ q, patSize q ≤ n → Plain q → Compiles q)
    (hp : Plain p) (hpn : patSize p ≤ n) (pre post : Pctx → Pctx)
    (wrap : Pctx → Pctx → List Pir → List Pir)
    (heq : ∀ k ctx, compilePat (k + 1) ctx q = (getPat k p).bind fun sp =>
      (compilePat k (pre ctx) sp).bind fun x => some (wrap ctx x.2 x.1, post x.2))
    (hpre : ∀ ctx, (pre ctx).err = ctx.err) (hpost : ∀ ctx, (post ctx).err = ctx.err)
    (hcalls : ∀ ctx ctx' sub, openCalls (wrap ctx ctx' sub) = openCalls sub)
    (hnames : unresolved q = unresolved p) : Compiles q := by
  intro ctx
  obtain ⟨sp, hsp, hs⟩ := getPat_settles hp
  obtain ⟨sub, ctx₁, hsub, herr, ho⟩ := ih sp (hs.size.trans hpn) hs.plain (pre ctx)
  refine ⟨wrap ctx ctx₁ sub, post ctx₁, ?_, ?_, fun name => ?_⟩
  · exact Settles.of_succ (hsp.bind (hsub.bind (settles_some _))) fun k => heq k ctx
  · rw [hpost, herr, hpre]
  · rw [hcalls, hnames, ho, hs.names]

theorem star_compiles (ih : ∀ q, patSize q ≤ n → Plain q → Compiles q) (hp : Plain p)
    (hpn : patSize p ≤ n) : Compiles (.star p) := by
  intro ctx
  obtain ⟨sp, hsp, hs⟩ := getPat_settles hp
  have hgeneral : ∃ code ctx', Settles (fun k => (compilePat k ctx sp).bind fun x =>
        some (starCode x.2.nlabels (x.2.nlabels + 1) x.1, takeLabels x.2 2)) (code, ctx') ∧
      ctx'.err = ctx.err ∧ ∀ name, name ∈ openCalls code ↔ name ∈ unresolved p := by
    obtain ⟨sub, ctx₁, hsub, herr, ho⟩ := ih sp (hs.size.trans hpn) hs.plain ctx
    refine ⟨starCode ctx₁.nlabels (ctx₁.nlabels + 1) sub, takeLabels ctx₁ 2,
      hsub.bind (settles_some _), herr, fun name => ?_⟩
    rw [openCalls_starCode, ho, hs.names]
  cases sp with
  | cls set =>
      refine ⟨[.insn (.span set)], ctx, Settles.of_succ (hsp.bind (settles_some _)) fun k => rfl,
        rfl, fun name => ?_⟩
      have hname := hs.names name
      simp only [unresolved, List.not_mem_nil, false_iff] at hname
      simp [unresolved, hname]
  | memo body id =>
      have hbody : Plain body := hs.plain
      obtain ⟨bp, hbp, hbs⟩ := getPat_settles hbody
      have hsize : patSize bp ≤ n := by
        have h1 := hbs.size
        have h2 := hs.size
        simp only [patSize] at h2
        omega
      obtain ⟨sub, ctx₁, hsub, herr, ho⟩ := ih bp hsize hbs.plain ctx
      refine ⟨memoTreeCode ctx₁.nlabels (ctx₁.nlabels + 1) (ctx₁.nlabels + 2) (ctx₁.nlabels + 3)
        ctx₁.memoCounter sub, { takeLabels ctx₁ 4 with memoCounter := ctx₁.memoCounter + 1 }, ?_,
        herr, fun name => ?_⟩
      · exact Settles.of_succ (hsp.bind (hbp.bind (hsub.bind (settles_some _)))) fun k => rfl
      · have hname := hs.names name
        simp only [unresolved] at hname
        rw [openCalls_memoTreeCode, ho, hbs.names, unresolved, hname]
  | _ =>
      obtain ⟨code, ctx', hsettles, herr, ho⟩ := hgeneral
      exact ⟨code, ctx', Settles.of_succ (hsp.bind hsettles) fun k => rfl, herr, ho⟩

theorem optional_compiles (ih : ∀ q, patSize q ≤ n → Plain q → Compiles q) (hp : Plain p)
    (hpn : patSize p ≤ n) : Compiles (.optional p) := by
  intro ctx
  obtain ⟨sp, hsp, hs⟩ := getPat_settles hp
  have hempty : patSize .empty ≤ n := (patSize_pos p).trans hpn
  obtain ⟨code, ctx', hsettles, herr, ho⟩ :=
    alt_compiles ih hs.plain (show Plain .empty from trivial) (hs.size.trans hpn) hempty ctx
  have ho' : ∀ name, name ∈ openCalls code ↔ name ∈ unresolved p := by
    intro name
    rw [ho, ← hs.names name]
    simp [unresolved]
  have htest : ∀ i : PirInsn, unresolved sp = [] →
      ∀ name, name ∈ openCalls [.insn i, .label ctx.nlabels] ↔ name ∈ unresolved p := by
    intro i hnil name
    rw [← hs.names name, hnil]
    simp
  cases sp with
  | literal str =>
      match str with
      | [b] =>
          refine ⟨[.insn (.testCharNoChoice b.toNat ctx.nlabels), .label ctx.nlabels],
            takeLabels ctx 1, ?_, rfl, htest _ rfl⟩
          exact Settles.of_succ (hsp.bind (settles_some _)) fun k => rfl
      | [] => exact ⟨code, ctx', Settles.of_succ (hsp.bind hsettles) fun k => rfl, herr, ho'⟩
      | b :: c :: str =>
          exact ⟨code, ctx', Settles.of_succ (hsp.bind hsettles) fun k => rfl, herr, ho'⟩
  | cls set =>
      refine ⟨[.insn (.testSetNoChoice set ctx.nlabels), .label ctx.nlabels],
        takeLabels ctx 1, ?_, rfl, htest _ rfl⟩
      exact Settles.of_succ (hsp.bind (settles_some _)) fun k => rfl
  | _ => exact ⟨code, ctx', Settles.of_succ (hsp.bind hsettles) fun k => rfl, herr, ho'⟩

theorem plus_compiles (ih : ∀ q, patSize q ≤ n → Plain q → Compiles q) (hp : Plain p)
    (hpn : patSize p ≤ n) : Compiles (.plus p) := by
  intro ctx
  obtain ⟨sp, hsp, hs⟩ := getPat_settles hp
  obtain ⟨star, ctx₁, hstar, herr₁, ho₁⟩ := star_compiles ih hs.plain (hs.size.trans hpn) ctx
  obtain ⟨sub, ctx₂, hsub, herr₂, ho₂⟩ := ih sp (hs.size.trans hpn) hs.plain ctx₁
  refine ⟨sub ++ star, ctx₂, ?_, herr₂.trans herr₁, fun name => ?_⟩
  · exact Settles.of_succ (hsp.bind (hstar.bind (hsub.bind (settles_some _)))) fun k => rfl
  · rw [openCalls_append, List.mem_append, ho₁, ho₂]
    simp only [unresolved, hs.names, or_self]

theorem repeat_compiles (hp : Compiles p) (hnil : unresolved p = []) (count : Nat) (ctx : Pctx) :
    ∃ code ctx', Settles (fun k => compileRepeat k ctx p count) (code, ctx') ∧
      ctx'.err = ctx.err ∧ openCalls code = [] := by
  induction count generalizing ctx with
  | zero => exact ⟨[], ctx, Settles.of_succ (settles_some _) fun k => rfl, rfl, rfl⟩
  | succ count ih =>
      obtain ⟨sub, ctx₁, hsub, herr₁, ho⟩ := hp ctx
      obtain ⟨rest, ctx₂, hrest, herr₂, hnone⟩ := ih ctx₁
      refine ⟨sub ++ rest, ctx₂, ?_, herr₂.trans herr₁, ?_⟩
      · exact Settles.of_succ (hsub.bind (hrest.bind (settles_some _))) fun k => rfl
      · have hsubnil : openCalls sub = [] := by
          refine List.eq_nil_iff_forall_not_mem.mpr fun name hname => ?_
          have := (ho name).mp hname
          simp [hnil] at this
        simp [hsubnil, hnone]

theorem leaf_compiles {code : List Pir} (hcode : ∀ k ctx, compilePat (k + 1) ctx p = some (code, ctx))
    (hcalls : openCalls code = unresolved p) : Compiles p := by
  intro ctx
  refine ⟨code, ctx, Settles.of_succ (settles_some _) fun k => hcode k ctx, rfl, fun name => ?_⟩
  rw [hcalls]

theorem plain_compiles (n : Nat) (p : Pat) (hpn : patSize p ≤ n) (hp : Plain p) : Compiles p := by
  induction n generalizing p with
  | zero => exact absurd (patSize_pos p) (by omega)
  | succ n ih =>
      cases p with
      | alt l r =>
          simp only [patSize] at hpn
          exact alt_compiles ih hp.1 hp.2 (by omega) (by omega)
      | seq l r =>
          simp only [patSize] at hpn
          exact seq_compiles ih hp.1 hp.2 (by omega) (by omega)
      | star p => exact star_compiles ih hp (by simpa [patSize] using hpn)
      | plus p => exact plus_compiles ih hp (by simpa [patSize] using hpn)
      | optional p => exact optional_compiles ih hp (by simpa [patSize] using hpn)
      | not p =>
          exact wrap_compiles p ih hp (by simpa [patSize] using hpn) id (takeLabels · 1)
            (fun _ ctx' sub => [.insn (.choice ctx'.nlabels)] ++ sub ++
              [.insn .failTwice, .label ctx'.nlabels])
            (fun _ _ => rfl) (fun _ => rfl) (fun _ => rfl) (by simp) rfl
      | and p =>
          exact wrap_compiles p ih hp (by simpa [patSize] using hpn) id (takeLabels · 2)
            (fun _ ctx' sub => [.insn (.choice ctx'.nlabels)] ++ sub ++
              [.insn (.backCommit (ctx'.nlabels + 1)), .label ctx'.nlabels, .insn .fail,
                .label (ctx'.nlabels + 1)])
            (fun _ _ => rfl) (fun _ => rfl) (fun _ => rfl) (by simp) rfl
      | cap p id' =>
          exact wrap_compiles p ih hp (by simpa [patSize] using hpn) id id
            (fun _ _ sub => capCode id' sub)
            (fun _ _ => rfl) (fun _ => rfl) (fun _ => rfl) (fun _ _ => openCalls_capCode id') rfl
      | memo p id' =>
          exact wrap_compiles p ih hp (by simpa [patSize] using hpn) (takeLabels · 1) id
            (fun ctx _ sub => [.insn (.memoOpen ctx.nlabels id')] ++ sub ++
              [.insn .memoClose, .label ctx.nlabels])
            (fun _ _ => rfl) (fun _ => rfl) (fun _ => rfl) (by simp) rfl
      | check p fn id' flag =>
          exact wrap_compiles p ih hp (by simpa [patSize] using hpn) (takeLabels · 1) id
            (fun ctx _ sub => [.insn (.checkBegin id' flag)] ++ sub ++
              [.insn (.checkEnd fn), .label ctx.nlabels])
            (fun _ _ => rfl) (fun _ => rfl) (fun _ => rfl) (by simp) rfl
      | grammar start defs => cases hp
      | search p => cases hp
      | repeated p count =>
          have hsub := ih p (by simpa [patSize] using hpn) hp.1
          intro ctx
          obtain ⟨code, ctx', hsettles, herr, hnone⟩ := repeat_compiles hsub hp.2 count ctx
          refine ⟨code, ctx', Settles.of_succ hsettles fun k => rfl, herr, fun name => ?_⟩
          simp [hnone, unresolved]
      | inlined name p =>
          intro ctx
          obtain ⟨code, ctx', hsettles, herr, ho⟩ := ih p (by simpa [patSize] using hpn) hp ctx
          exact ⟨code, ctx', Settles.of_succ hsettles fun k => rfl, herr, ho⟩
      | errorRecover msg p =>
          intro ctx
          obtain ⟨code, ctx', hsettles, herr, ho⟩ := ih p (by simpa [patSize] using hpn) hp ctx
          refine ⟨[.insn (.error msg)] ++ code, ctx', ?_, herr, by simpa [unresolved] using ho⟩
          exact Settles.of_succ (hsettles.bind (settles_some _)) fun k => rfl
      | literal str =>
          refine leaf_compiles (fun _ _ => rfl) ?_
          simp [openCalls, openName, unresolved, List.filterMap_map, Function.comp_def]
      | _ => exact leaf_compiles (fun _ _ => rfl) rfl

end Patterns

theorem grammarInline_below (n : Nat) (g : Defs) :
    Below (grammarInline n g) (grammarInline (n + 1) g) := by
  induction n generalizing g with
  | zero =>
      intro g' hg'
      cases hg'
  | succ n ih =>
      rw [grammarInline, grammarInline]
      split
      · exact ih _
      · exact .refl _

theorem compile_below (n : Nat) :
    (∀ ctx p, Below (compilePat n ctx p) (compilePat (n + 1) ctx p)) ∧
      (∀ ctx p count, Below (compileRepeat n ctx p count) (compileRepeat (n + 1) ctx p count)) ∧
      (∀ ctx start g, Below (compileGrammar n ctx start g) (compileGrammar (n + 1) ctx start g)) ∧
      ∀ ctx keep i g, Below (compileDefs n ctx keep i g) (compileDefs (n + 1) ctx keep i g) := by
  induction n with
  | zero =>
      refine ⟨?_, ?_, ?_, ?_⟩ <;>
        · intros
          rintro x ⟨⟩
  | succ n ih =>
      obtain ⟨ihp, ihr, ihg, ihd⟩ := ih
      have hget : ∀ p, Below (getPat n p) (getPat (n + 1) p) := getPat_below n
      refine ⟨fun ctx p => ?_, fun ctx p count => ?_, fun ctx start g => ?_,
        fun ctx keep i g => ?_⟩
      · cases p with
        | alt l r =>
            refine Below.bind (hget l) fun lp => Below.bind (hget r) fun rp => ?_
            split
            · exact .refl _
            · exact Below.bind (ihp _ _) fun x => Below.bind (ihp _ _) fun y => .refl _
        | seq l r =>
            exact Below.bind (hget l) fun lp => Below.bind (ihp _ _) fun x =>
              Below.bind (hget r) fun rp => Below.bind (ihp _ _) fun y => .refl _
        | star p =>
            refine Below.bind (hget p) fun sp => ?_
            split
            · exact .refl _
            · exact Below.bind (hget _) fun bp => Below.bind (ihp _ _) fun x => .refl _
            · exact Below.bind (ihp _ _) fun x => .refl _
        | plus p =>
            exact Below.bind (hget p) fun sp => Below.bind (ihp _ _) fun x =>
              Below.bind (ihp _ _) fun y => .refl _
        | optional p =>
            refine Below.bind (hget p) fun sp => ?_
            split
            · exact .refl _
            · exact .refl _
            · exact ihp _ _
        | not p => exact Below.bind (hget p) fun sp => Below.bind (ihp _ _) fun x => .refl _
        | and p => exact Below.bind (hget p) fun sp => Below.bind (ihp _ _) fun x => .refl _
        | cap p id => exact Below.bind (hget p) fun sp => Below.bind (ihp _ _) fun x => .refl _
        | memo p id => exact Below.bind (hget p) fun sp => Below.bind (ihp _ _) fun x => .refl _
        | check p fn id flag =>
            exact Below.bind (hget p) fun sp => Below.bind (ihp _ _) fun x => .refl _
        | search p => exact Below.bind (hget p) fun sp => Below.bind (ihp _ _) fun x => ihg _ _ _
        | grammar start defs => exact ihg ctx start defs
        | inlined name p => exact ihp ctx p
        | errorRecover msg p => exact Below.bind (ihp ctx p) fun x => .refl _
        | repeated p count => exact ihr ctx p count
        | _ => exact .refl _
      · cases count with
        | zero => exact .refl _
        | succ count => exact Below.bind (ihp ctx p) fun x => Below.bind (ihr _ _ _) fun y => .refl _
      · refine Below.bind (grammarInline_below n g) fun g' => ?_
        dsimp only
        split
        · exact .refl _
        · split
          · exact ihp _ _
          · exact Below.bind (ihd _ _ _ _) fun x => .refl _
      · cases g with
        | nil => exact .refl _
        | cons name p rest =>
            rw [compileDefs, compileDefs]
            split
            · exact Below.bind (ihp _ _) fun x => Below.bind (ihd _ _ _ _) fun y => .refl _
            · exact Below.bind (ihd _ _ _ _) fun y => .refl _

theorem patCompile_below (memoCounter : Int) (p : Pat) (n : Nat) :
    Below (patCompile n memoCounter p) (patCompile (n + 1) memoCounter p) :=
  Below.bind ((compile_below n).1 _ _) fun _ => .refl _

end Libpeg.CompileTotal
