import Libpeg.MemoIds
import Libpeg.Scoping
import Libpeg.Simplify

namespace Libpeg.Reading

open Libpeg.Charset Libpeg.Code Libpeg.Memo Libpeg.Pattern Libpeg.Semantics Libpeg.Simplify
open Libpeg.Denotation Libpeg.Scoping Libpeg.GrammarCompile Libpeg.Compile Libpeg.CompileTotal
open Libpeg.MemoIds

mutual

/-- No memo, check, error or empty pattern inside. -/
def basic : Pat → Bool
  | .alt l r | .seq l r => basic l && basic r
  | .star p | .plus p | .optional p | .not p | .and p | .search p | .cap p _ | .inlined _ p
  | .repeated p _ => basic p
  | .grammar _ defs => basicDefs defs
  | .memo _ _ | .check _ _ _ _ | .error _ | .errorRecover _ _ | .empty => false
  | .cls _ | .literal _ | .nonterm _ | .dot _ | .emptyop _ => true

def basicDefs : Defs → Bool
  | .nil => true
  | .cons _ p rest => basic p && basicDefs rest

end

theorem basicDefs_lookup {g : Defs} {name : String} {p : Pat} (hg : basicDefs g = true)
    (h : lookupDef g name = some p) : basic p = true := by
  induction g using Defs.rec (motive_1 := fun _ => True) with
  | nil => simp [lookupDef, findDef] at h
  | cons name' q rest _ ih =>
      rw [basicDefs, Bool.and_eq_true] at hg
      rw [lookupDef_cons] at h
      split at h
      · cases h
        exact hg.1
      · exact ih hg.2 h
  | _ => trivial

mutual

theorem basic_inlinePat {g : Defs} (hg : basicDefs g = true) (p : Pat) (hp : basic p = true) :
    basic (inlinePat g p) = true := by
  cases p with
  | alt l r =>
      rw [basic, Bool.and_eq_true] at hp
      rw [inlinePat, basic, basic_inlinePat hg l hp.1, basic_inlinePat hg r hp.2]
      rfl
  | seq l r =>
      rw [basic, Bool.and_eq_true] at hp
      rw [inlinePat, basic, basic_inlinePat hg l hp.1, basic_inlinePat hg r hp.2]
      rfl
  | star p => exact basic_inlinePat hg p hp
  | plus p => exact basic_inlinePat hg p hp
  | optional p => exact basic_inlinePat hg p hp
  | not p => exact basic_inlinePat hg p hp
  | and p => exact basic_inlinePat hg p hp
  | cap p id => exact basic_inlinePat hg p hp
  | search p => exact basic_inlinePat hg p hp
  | inlined name p => exact basic_inlinePat hg p hp
  | grammar start defs => exact basic_inlineDefs hg defs hp
  | nonterm name =>
      rw [inlinePat]
      split
      · next q hq =>
          show basic q = true
          exact basicDefs_lookup hg (lookupDef_of_inlinable hq).1
      · rfl
  | repeated p n => exact hp
  | cls set => exact hp
  | literal str => exact hp
  | dot n => exact hp
  | emptyop op => exact hp
  | memo p id => cases hp
  | check p fn id flag => cases hp
  | error msg => cases hp
  | errorRecover msg p => cases hp
  | empty => cases hp

theorem basic_inlineDefs {g : Defs} (hg : basicDefs g = true) (d : Defs) (hd : basicDefs d = true) :
    basicDefs (inlineDefs g d) = true := by
  cases d with
  | nil => rfl
  | cons name p rest =>
      rw [basicDefs, Bool.and_eq_true] at hd
      rw [inlineDefs, basicDefs, basic_inlinePat hg p hd.1, basic_inlineDefs hg rest hd.2]
      rfl

end

theorem basicDefs_grammarInline {n : Nat} {g g' : Defs} (hg : basicDefs g = true)
    (h : grammarInline n g = some g') : basicDefs g' = true := by
  induction n generalizing g with
  | zero => cases h
  | succ n ih =>
      rw [grammarInline] at h
      split at h
      · exact ih (basic_inlineDefs hg g hg) h
      · cases h
        exact hg

variable {w : List UInt8} {k i : Nat} {ρ : Bindings} {o : Outcome}

theorem denote_leaf {p : Pat} {o' : Outcome} (h : leafOutcome w i p = some o') :
    denote w k p ρ i o ↔ o = o' := by
  have heq : denote w k p ρ i o ↔ leafOutcome w i p = some o := by
    cases p with
    | cls set => exact Iff.rfl
    | literal str => exact Iff.rfl
    | dot n => exact Iff.rfl
    | error msg => exact Iff.rfl
    | emptyop op => exact Iff.rfl
    | empty => exact Iff.rfl
    | _ => cases h
  rw [heq, h]
  exact ⟨fun h => (Option.some.inj h).symm, fun h => congrArg some h.symm⟩

theorem eval_of_denote_byte {p : Pat} {f : UInt8 → Bool} (hp : MatchesByte p f)
    (h : denote w k p ρ i o) : Eval w k [] p i o := by
  rw [denote_leaf (hp w i)] at h
  exact (eval_leaf (hp w i)).mpr h

theorem combine_bytes {l r : Pat} {set : VmCharset} (h : combine l r = some set) :
    (∃ f, MatchesByte l f) ∧ ∃ f, MatchesByte r f := by
  unfold combine at h
  split at h
  · exact ⟨⟨_, matchesByte_literal _⟩, ⟨_, matchesByte_cls _⟩⟩
  · exact ⟨⟨_, matchesByte_literal _⟩, ⟨_, matchesByte_literal _⟩⟩
  · exact ⟨⟨_, matchesByte_cls _⟩, ⟨_, matchesByte_cls _⟩⟩
  · exact ⟨⟨_, matchesByte_cls _⟩, ⟨_, matchesByte_literal _⟩⟩
  · cases h

theorem exceptSet_byte {r : Pat} {set set' : VmCharset} (h : exceptSet set r = some set') :
    ∃ f, MatchesByte r f := by
  unfold exceptSet at h
  split at h
  · split at h
    · next hn =>
        rw [hn]
        exact ⟨_, matchesByte_dot⟩
    · cases h
  · exact ⟨_, matchesByte_cls _⟩
  · exact ⟨_, matchesByte_literal _⟩
  · cases h

theorem denote_combine {l r : Pat} {set : VmCharset} (h : combine l r = some set) :
    choice (denote w k l ρ) (denote w k r ρ) ≤ denote w k (.cls set) ρ := by
  obtain ⟨⟨f, hf⟩, ⟨g, hg⟩⟩ := combine_bytes h
  intro i o ho
  have heval : Eval w k [] (.alt l r) i o := by
    rcases ho with ⟨hl, ho⟩ | ⟨hl, hr⟩
    · exact .altLeft (eval_of_denote_byte hf hl) ho
    · exact .altRight (eval_of_denote_byte hf hl) (eval_of_denote_byte hg hr)
  have hset := (same_combine h w k [] i o).mp heval
  rw [eval_leaf (matchesByte_cls set w i)] at hset
  exact (denote_leaf (matchesByte_cls set w i)).mpr hset

theorem denote_except {n r : Pat} {set set' : VmCharset} (hn : notSet n = some set)
    (h : exceptSet set r = some set') :
    followed (negated (denote w k n ρ)) (denote w k r ρ) ≤ denote w k (.cls set') ρ := by
  have hf := matchesByte_notSet hn
  obtain ⟨g, hg⟩ := exceptSet_byte h
  have hnot : ∀ {i o}, negated (denote w k n ρ) i o → Eval w k [] (.not n) i o := by
    rintro i o (⟨hb, rfl⟩ | ⟨⟨j, c, hb⟩, rfl⟩ | ⟨hb, rfl⟩)
    · exact .notFail (eval_of_denote_byte hf hb)
    · exact .notOk (eval_of_denote_byte hf hb)
    · exact .notStop (eval_of_denote_byte hf hb)
  intro i o ho
  have heval : Eval w k [] (.seq (.not n) r) i o := by
    rcases ho with ⟨hl, ho⟩ | ⟨j, c, o', hl, hr, ho⟩
    · exact .seqLeft (hnot hl) ho
    · exact .seqRight (hnot hl) (eval_of_denote_byte hg hr) ho
  have hset := (same_exceptSet hn h w k [] i o).mp heval
  rw [eval_leaf (matchesByte_cls set' w i)] at hset
  exact (denote_leaf (matchesByte_cls set' w i)).mpr hset

theorem iterated_ne_fail {b : Behaviour} : ¬Iterated b i .fail := by
  intro h
  generalize ho : Outcome.fail = o at h
  induction h with
  | halt => cases ho
  | stop => cases ho
  | @step i j c o o' _ _ hafter ih =>
      subst ho
      cases o with
      | fail => exact ih rfl
      | ok pos c' => cases hafter
      | stop => cases hafter

/-- What the compiler reads in place of a pattern. -/
structure Reads (p p' : Pat) : Prop where
  basic : basic p' = true
  scopes : ∀ inside, Scoped inside p → Scoped inside p'
  denote : ∀ w k ρ, denote w k p ρ ≤ denote w k p' ρ

theorem reads_self {p : Pat} (h : basic p = true) : Reads p p :=
  ⟨h, fun _ hs => hs, fun _ _ _ => le_rfl⟩

theorem basic_ne_empty {p : Pat} (h : basic p = true) : isEmpty p = false := by
  unfold isEmpty
  split
  · cases h
  · rfl

theorem getSeq_reads {l r l' r' : Pat} (hp : basic (.seq l r) = true) (hl : Reads l l')
    (hr : Reads r r') : Reads (.seq l r) (getSeq (.seq l r) l' r') := by
  unfold getSeq
  rw [basic_ne_empty hl.basic, basic_ne_empty hr.basic]
  simp only [Bool.false_eq_true, if_false]
  split
  · next np =>
      split
      · next set hset =>
          obtain ⟨set', hn, hexcept⟩ := Option.bind_eq_some_iff.mp hset
          refine ⟨rfl, fun _ _ => .cls, fun w k ρ => ?_⟩
          exact (followed_mono (hl.denote w k ρ) (hr.denote w k ρ)).trans (denote_except hn hexcept)
      · exact reads_self hp
  · exact reads_self hp

theorem getPat_reads {n : Nat} {p p' : Pat} (h : getPat n p = some p') (hp : basic p = true) :
    Reads p p' := by
  induction n generalizing p p' with
  | zero => cases h
  | succ n ih =>
      cases p with
      | inlined name q =>
          cases h
          refine ⟨hp, fun inside hs => ?_, fun _ _ _ => le_rfl⟩
          cases hs with
          | inlined hq => exact hq
      | alt l r =>
          simp only [getPat, Option.bind_eq_bind, Option.bind_eq_some_iff] at h
          obtain ⟨l', hl, r', hr, h⟩ := h
          obtain ⟨hbl, hbr⟩ := Bool.and_eq_true_iff.mp hp
          have hl := ih hl hbl
          have hr := ih hr hbr
          rw [basic_ne_empty hl.basic, basic_ne_empty hr.basic] at h
          simp only [Bool.false_eq_true, if_false] at h
          split at h
          · next set hset =>
              cases h
              refine ⟨rfl, fun _ _ => .cls, fun w k ρ => ?_⟩
              exact (choice_mono (hl.denote w k ρ) (hr.denote w k ρ)).trans (denote_combine hset)
          · cases h
            exact reads_self hp
      | optional q =>
          simp only [getPat, Option.bind_eq_bind, Option.bind_eq_some_iff] at h
          obtain ⟨q', hq, h⟩ := h
          have hq := ih hq hp
          split at h
          · next hstar =>
              cases h
              obtain ⟨s, rfl⟩ := eq_star_of_isStar hstar
              refine ⟨hq.basic, fun inside hs => ?_, fun w k ρ => ?_⟩
              · cases hs with
                | optional hs => exact hq.scopes inside hs
              · rintro i o (⟨hb, -⟩ | ⟨hb, -⟩)
                · exact hq.denote w k ρ i o hb
                · exact absurd (hq.denote w k ρ i _ hb) iterated_ne_fail
          · cases h
            exact reads_self hp
      | seq l r =>
          simp only [getPat, Option.bind_eq_bind, Option.bind_eq_some_iff] at h
          obtain ⟨l', hl, r', hr, h⟩ := h
          obtain ⟨hbl, hbr⟩ := Bool.and_eq_true_iff.mp hp
          cases h
          exact getSeq_reads hp (ih hl hbl) (ih hr hbr)
      | _ =>
          cases h
          exact reads_self hp

theorem basic_searchDefs {p : Pat} (hp : basic p = true) (skip : Option VmCharset) :
    basicDefs (searchDefs p skip) = true := by
  cases skip <;> simp [searchDefs, basicDefs, basic, hp]

theorem combine_empty (l : Pat) : combine l .empty = none := by
  unfold combine
  split <;> first | rfl | contradiction

theorem compile_orEmpty (n : Nat) (ctx : Pctx) (p : Pat) : Returns (fun z => ∃ q x ctx' l1 l2,
    getPat n p = some q ∧ compilePat n ctx q = some x ∧ z = (altCode l1 l2 x.1 [], ctx') ∧
      ctx'.err = x.2.err) (compilePat n ctx (.alt p .empty)) := by
  cases n with
  | zero => rintro z ⟨⟩
  | succ n =>
      have hempty : Returns (fun q => q = .empty) (getPat n .empty) := by
        cases n <;> rintro q ⟨⟩
        rfl
      have hnothing : ∀ ctx, Returns (fun y => y = ([], ctx)) (compilePat n ctx .empty) := by
        intro ctx
        cases n <;> rintro y ⟨⟩
        rfl
      have hread : Returns (fun q => getPat (n + 1) p = some q) (getPat n p) :=
        fun q hq => getPat_below n p q hq
      have hcompile : ∀ q, Returns (fun x => compilePat (n + 1) ctx q = some x)
          (compilePat n ctx q) := fun q x hx => (compile_below n).1 ctx q x hx
      refine Returns.bind hread fun q hq => Returns.bind hempty ?_
      rintro r rfl
      rw [combine_empty]
      refine Returns.bind (hcompile q) fun x hx => Returns.bind (hnothing x.2) ?_
      rintro y rfl
      exact returns_some ⟨q, x, _, _, _, hq, hx, rfl, rfl⟩

end Libpeg.Reading
