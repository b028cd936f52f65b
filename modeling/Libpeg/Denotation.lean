import Libpeg.Forest
import Libpeg.Semantics
import Mathlib.Order.FixedPoints

namespace Libpeg.Denotation

open Libpeg.Code Libpeg.Memo Libpeg.Pattern Libpeg.Semantics

abbrev Behaviour := Nat → Outcome → Prop

abbrev Bindings := String → Behaviour

section Combinators

def nothing : Behaviour :=
  fun i o => o = .ok i .nil

def choice (b b' : Behaviour) : Behaviour :=
  fun i o => b i o ∧ o ≠ .fail ∨ b i .fail ∧ b' i o

def followed (b b' : Behaviour) : Behaviour :=
  fun i o => b i o ∧ o.ends = true ∨ ∃ j c o', b i (.ok j c) ∧ b' j o' ∧ o = o'.after c

inductive Iterated (b : Behaviour) : Behaviour
  | halt {i : Nat} (h : b i .fail) : Iterated b i (.ok i .nil)
  | stop {i : Nat} (h : b i .stop) : Iterated b i .stop
  | step {i j : Nat} {c : CapForest} {o o' : Outcome} (h : b i (.ok j c)) (hrest : Iterated b j o)
      (ho : o' = o.after c) : Iterated b i o'

def negated (b : Behaviour) : Behaviour :=
  fun i o => b i .fail ∧ o = .ok i .nil ∨ (∃ j c, b i (.ok j c)) ∧ o = .fail ∨
    b i .stop ∧ o = .stop

def ahead (b : Behaviour) : Behaviour :=
  fun i o => (∃ j c, b i (.ok j c) ∧ o = .ok i c) ∨ b i o ∧ o.ends = true

def captured (id : Int) (b : Behaviour) : Behaviour :=
  fun i o => (∃ j c, b i (.ok j c) ∧ o = .ok j (.cons id i ((j : Int) - i) c .nil)) ∨
    b i o ∧ o.ends = true

def checked (w : List UInt8) (k : Nat) (fn : Option VmChecker) (id flag : Int) (b : Behaviour) :
    Behaviour :=
  fun i o => (∃ j c, b i (.ok j c) ∧ o = checkOutcome w k fn id flag i j c) ∨
    b i o ∧ o.ends = true

inductive Searched (w : List UInt8) (b : Behaviour) : Behaviour
  | here {i : Nat} {o : Outcome} (h : b i o) (ho : o ≠ .fail ∨ i ≥ w.length) : Searched w b i o
  | next {i : Nat} {o : Outcome} (h : b i .fail) (hi : i < w.length)
      (hrest : Searched w b (i + 1) o) : Searched w b i o

variable {b b' d d' : Behaviour} {w : List UInt8}

theorem choice_mono (h : b ≤ d) (h' : b' ≤ d') : choice b b' ≤ choice d d' := by
  rintro i o (⟨hb, ho⟩ | ⟨hb, hb'⟩)
  · exact .inl ⟨h i o hb, ho⟩
  · exact .inr ⟨h i .fail hb, h' i o hb'⟩

theorem followed_mono (h : b ≤ d) (h' : b' ≤ d') : followed b b' ≤ followed d d' := by
  rintro i o (⟨hb, ho⟩ | ⟨j, c, o', hb, hb', ho⟩)
  · exact .inl ⟨h i o hb, ho⟩
  · exact .inr ⟨j, c, o', h i _ hb, h' j o' hb', ho⟩

theorem iterated_mono (h : b ≤ d) : Iterated b ≤ Iterated d := by
  intro i o hb
  induction hb with
  | halt hb => exact .halt (h _ _ hb)
  | stop hb => exact .stop (h _ _ hb)
  | step hb _ ho ih => exact .step (h _ _ hb) ih ho

theorem negated_mono (h : b ≤ d) : negated b ≤ negated d := by
  rintro i o (⟨hb, ho⟩ | ⟨⟨j, c, hb⟩, ho⟩ | ⟨hb, ho⟩)
  · exact .inl ⟨h _ _ hb, ho⟩
  · exact .inr (.inl ⟨⟨j, c, h _ _ hb⟩, ho⟩)
  · exact .inr (.inr ⟨h _ _ hb, ho⟩)

theorem ahead_mono (h : b ≤ d) : ahead b ≤ ahead d := by
  rintro i o (⟨j, c, hb, ho⟩ | ⟨hb, ho⟩)
  · exact .inl ⟨j, c, h _ _ hb, ho⟩
  · exact .inr ⟨h _ _ hb, ho⟩

theorem captured_mono (id : Int) (h : b ≤ d) : captured id b ≤ captured id d := by
  rintro i o (⟨j, c, hb, ho⟩ | ⟨hb, ho⟩)
  · exact .inl ⟨j, c, h _ _ hb, ho⟩
  · exact .inr ⟨h _ _ hb, ho⟩

theorem checked_mono (k : Nat) (fn : Option VmChecker) (id flag : Int) (h : b ≤ d) :
    checked w k fn id flag b ≤ checked w k fn id flag d := by
  rintro i o (⟨j, c, hb, ho⟩ | ⟨hb, ho⟩)
  · exact .inl ⟨j, c, h _ _ hb, ho⟩
  · exact .inr ⟨h _ _ hb, ho⟩

theorem searched_mono (h : b ≤ d) : Searched w b ≤ Searched w d := by
  intro i o hb
  induction hb with
  | here hb ho => exact .here (h _ _ hb) ho
  | next hb hi _ ih => exact .next (h _ _ hb) hi ih

theorem iterate_mono (n : Nat) (h : b ≤ d) : (followed b)^[n] nothing ≤ (followed d)^[n] nothing := by
  induction n with
  | zero => exact le_rfl
  | succ n ih =>
      rw [Function.iterate_succ_apply', Function.iterate_succ_apply']
      exact followed_mono h ih

end Combinators

def leaf (w : List UInt8) (p : Pat) : Behaviour :=
  fun i o => leafOutcome w i p = some o

mutual

/-- The behaviour of a pattern on a subject, where checkers answer as at their `k`-th
call. -/
def denote (w : List UInt8) (k : Nat) : Pat → Bindings → Behaviour
  | .alt l r, ρ => choice (denote w k l ρ) (denote w k r ρ)
  | .seq l r, ρ => followed (denote w k l ρ) (denote w k r ρ)
  | .star p, ρ => Iterated (denote w k p ρ)
  | .plus p, ρ => followed (denote w k p ρ) (Iterated (denote w k p ρ))
  | .optional p, ρ => choice (denote w k p ρ) nothing
  | .not p, ρ => negated (denote w k p ρ)
  | .and p, ρ => ahead (denote w k p ρ)
  | .cap p id, ρ => captured id (denote w k p ρ)
  | .memo p _, ρ => denote w k p ρ
  | .check p fn id flag, ρ => checked w k fn id flag (denote w k p ρ)
  | .grammar start defs, ρ => sInf {σ | denoteDefs w k defs ρ σ ≤ σ} start
  | .search p, ρ => Searched w (denote w k p ρ)
  | .repeated p n, ρ => (followed (denote w k p ρ))^[n] nothing
  | .nonterm name, ρ => ρ name
  | .inlined _ p, ρ => denote w k p ρ
  | .errorRecover _ p, ρ => denote w k p ρ
  | .cls set, _ => leaf w (.cls set)
  | .literal str, _ => leaf w (.literal str)
  | .dot n, _ => leaf w (.dot n)
  | .error msg, _ => leaf w (.error msg)
  | .emptyop op, _ => leaf w (.emptyop op)
  | .empty, _ => leaf w .empty

/-- One step of the definitions from the bindings `σ`; other names keep the meaning
they have outside. -/
def denoteDefs (w : List UInt8) (k : Nat) : Defs → Bindings → Bindings → Bindings
  | .nil, ρ, _ => ρ
  | .cons name p rest, ρ, σ => fun name' =>
      if name = name' then denote w k p σ else denoteDefs w k rest ρ σ name'

end

def bindings (w : List UInt8) (k : Nat) (g : Defs) (ρ : Bindings) : Bindings :=
  sInf {σ | denoteDefs w k g ρ σ ≤ σ}

/-- The bindings of the names inside some grammars. -/
def scope (w : List UInt8) (k : Nat) : List Defs → Bindings
  | [] => ⊥
  | g :: env => bindings w k g (scope w k env)

def lookupDef (g : Defs) (name : String) : Option Pat :=
  (findDef g name).bind (defAt g)

section Fixpoints

variable {w : List UInt8} {k : Nat}

mutual

theorem denote_mono (p : Pat) {ρ σ : Bindings} (h : ρ ≤ σ) : denote w k p ρ ≤ denote w k p σ := by
  cases p with
  | alt l r => exact choice_mono (denote_mono l h) (denote_mono r h)
  | seq l r => exact followed_mono (denote_mono l h) (denote_mono r h)
  | star p => exact iterated_mono (denote_mono p h)
  | plus p => exact followed_mono (denote_mono p h) (iterated_mono (denote_mono p h))
  | optional p => exact choice_mono (denote_mono p h) le_rfl
  | not p => exact negated_mono (denote_mono p h)
  | and p => exact ahead_mono (denote_mono p h)
  | cap p id => exact captured_mono id (denote_mono p h)
  | memo p id => exact denote_mono p h
  | check p fn id flag => exact checked_mono k fn id flag (denote_mono p h)
  | grammar start g =>
      have hsub : {τ | denoteDefs w k g σ τ ≤ τ} ⊆ {τ | denoteDefs w k g ρ τ ≤ τ} :=
        fun τ hτ => (denoteDefs_mono g h le_rfl).trans hτ
      exact sInf_le_sInf hsub start
  | search p => exact searched_mono (denote_mono p h)
  | repeated p n => exact iterate_mono n (denote_mono p h)
  | nonterm name => exact h name
  | inlined name p => exact denote_mono p h
  | errorRecover msg p => exact denote_mono p h
  | cls set => exact le_rfl
  | literal str => exact le_rfl
  | dot n => exact le_rfl
  | error msg => exact le_rfl
  | emptyop op => exact le_rfl
  | empty => exact le_rfl

theorem denoteDefs_mono (g : Defs) {ρ ρ' σ σ' : Bindings} (hρ : ρ ≤ ρ') (h : σ ≤ σ') :
    denoteDefs w k g ρ σ ≤ denoteDefs w k g ρ' σ' := by
  cases g with
  | nil => exact hρ
  | cons name p rest =>
      intro name'
      simp only [denoteDefs]
      split
      · exact denote_mono p h
      · exact denoteDefs_mono rest hρ h name'

end

/-- One step of the definitions as a monotone function. -/
def stepHom (w : List UInt8) (k : Nat) (g : Defs) (ρ : Bindings) : Bindings →o Bindings where
  toFun := denoteDefs w k g ρ
  monotone' := fun _ _ h => denoteDefs_mono g le_rfl h

theorem bindings_fixed (g : Defs) (ρ : Bindings) :
    denoteDefs w k g ρ (bindings w k g ρ) = bindings w k g ρ :=
  (stepHom w k g ρ).map_lfp

theorem bindings_le {g : Defs} {ρ σ : Bindings} (h : denoteDefs w k g ρ σ ≤ σ) :
    bindings w k g ρ ≤ σ :=
  (stepHom w k g ρ).lfp_le h

theorem lookupDef_cons (name : String) (p : Pat) (rest : Defs) (name' : String) :
    lookupDef (.cons name p rest) name' =
      if name = name' then some p else lookupDef rest name' := by
  unfold lookupDef
  rw [findDef]
  split
  · rfl
  · cases findDef rest name' with
    | none => rfl
    | some i => rfl

theorem denoteDefs_eq (g : Defs) (ρ σ : Bindings) (name : String) :
    denoteDefs w k g ρ σ name =
      match lookupDef g name with
      | some p => denote w k p σ
      | none => ρ name := by
  induction g using Defs.rec (motive_1 := fun _ => True) with
  | nil => rfl
  | cons name' p rest _ ih =>
      rw [denoteDefs, lookupDef_cons]
      by_cases hname : name' = name
      · simp only [hname, if_true]
      · simp only [hname, if_false]
        exact ih
  | _ => trivial

theorem bindings_eq (g : Defs) (ρ : Bindings) (name : String) :
    bindings w k g ρ name =
      match lookupDef g name with
      | some p => denote w k p (bindings w k g ρ)
      | none => ρ name := by
  have hfixed := congrFun (bindings_fixed (w := w) (k := k) g ρ) name
  rw [denoteDefs_eq] at hfixed
  exact hfixed.symm

end Fixpoints

section Adequacy

variable {w : List UInt8} {k : Nat}

theorem resolve_scope {env env' : List Defs} {name : String} {p : Pat}
    (h : resolve env name = some (p, env')) :
    denote w k p (scope w k env') = scope w k env name := by
  induction env with
  | nil => cases h
  | cons g env ih =>
      rw [resolve] at h
      rw [scope, bindings_eq, lookupDef]
      cases hdef : (findDef g name).bind (defAt g) with
      | some q =>
          rw [hdef] at h
          cases h
          rfl
      | none =>
          rw [hdef] at h
          exact ih h

theorem denote_of_eval {env : List Defs} {p : Pat} {i : Nat} {o : Outcome}
    (h : Eval w k env p i o) : denote w k p (scope w k env) i o := by
  induction h with
  | @leaf env p i o h =>
      cases p with
      | cls set => exact h
      | literal str => exact h
      | dot n => exact h
      | error msg => exact h
      | emptyop op => exact h
      | empty => exact h
      | _ => cases h
  | altLeft _ ho ih => exact .inl ⟨ih, ho⟩
  | altRight _ _ ih ihr => exact .inr ⟨ih, ihr⟩
  | seqLeft _ ho ih => exact .inl ⟨ih, ho⟩
  | seqRight _ _ ho ih ihr => exact .inr ⟨_, _, _, ih, ihr, ho⟩
  | starEnd _ ih => exact .halt ih
  | starStop _ ih => exact .stop ih
  | starStep _ _ ho ih ihr => exact .step ih ihr ho
  | plus _ ih => exact ih
  | optional _ ih =>
      rcases ih with ⟨ih, ho⟩ | ⟨ih, hempty⟩
      · exact .inl ⟨ih, ho⟩
      · exact .inr ⟨ih, (Option.some.inj hempty).symm⟩
  | notFail _ ih => exact .inl ⟨ih, rfl⟩
  | notOk _ ih => exact .inr (.inl ⟨⟨_, _, ih⟩, rfl⟩)
  | notStop _ ih => exact .inr (.inr ⟨ih, rfl⟩)
  | andOk _ ih => exact .inl ⟨_, _, ih, rfl⟩
  | andEnds _ ho ih => exact .inr ⟨ih, ho⟩
  | capOk _ ih => exact .inl ⟨_, _, ih, rfl⟩
  | capEnds _ ho ih => exact .inr ⟨ih, ho⟩
  | memo _ ih => exact ih
  | checkOk _ ih => exact .inl ⟨_, _, ih, rfl⟩
  | checkEnds _ ho ih => exact .inr ⟨ih, ho⟩
  | grammar _ ih => exact ih
  | nonterm hname _ ih =>
      rw [resolve_scope hname] at ih
      exact ih
  | inlined _ ih => exact ih
  | searchHere _ ho ih => exact .here ih ho
  | searchNext _ hi _ ih ihr => exact .next ih hi ihr
  | repeatedZero => exact rfl
  | repeatedSucc _ ih =>
      simp only [denote, Function.iterate_succ_apply'] at ih ⊢
      exact ih
  | errorRecover _ ih => exact ih

end Adequacy

end Libpeg.Denotation
