import Libpeg.Denotation
import Libpeg.GrammarCompile
import Mathlib.Logic.Relation

namespace Libpeg.Scoping

open Libpeg.Code Libpeg.Memo Libpeg.Pattern Libpeg.Semantics Libpeg.Denotation
open Libpeg.GrammarCompile

def boundNames : Defs → List String
  | .nil => []
  | .cons name _ rest => name :: boundNames rest

mutual

/-- The names that a pattern takes from the grammars around it. -/
def freeNames : Pat → List String
  | .alt l r | .seq l r => freeNames l ++ freeNames r
  | .star p | .plus p | .optional p | .not p | .and p | .search p | .cap p _ | .memo p _
  | .check p _ _ _ | .inlined _ p | .errorRecover _ p | .repeated p _ => freeNames p
  | .grammar start defs =>
      (start :: freeNamesDefs defs).filter fun name => !(boundNames defs).contains name
  | .nonterm name => [name]
  | _ => []

def freeNamesDefs : Defs → List String
  | .nil => []
  | .cons _ p rest => freeNames p ++ freeNamesDefs rest

end

mutual

/-- The pattern asks the grammars around it for a name. A grammar asks for what its first
definition leads to, and a repetition of no count for nothing. -/
def Uses : Pat → String → Prop
  | .alt l r, x | .seq l r, x => Uses l x ∨ Uses r x
  | .star p, x | .plus p, x | .optional p, x | .not p, x | .and p, x | .search p, x | .cap p _, x
  | .memo p _, x | .check p _ _ _, x | .inlined _ p, x | .errorRecover _ p, x => Uses p x
  | .repeated p n, x => n ≠ 0 ∧ Uses p x
  | .grammar start g, x => Relation.ReflTransGen (UsesAt g) start x ∧ lookupDef g x = none
  | .nonterm name, x => name = x
  | _, _ => False

def UsesAt : Defs → String → String → Prop
  | .nil, _, _ => False
  | .cons name' p rest, name, x => if name' = name then Uses p x else UsesAt rest name x

end

def Reached (g : Defs) (start : String) : String → Prop :=
  Relation.ReflTransGen (UsesAt g) start

variable {w : List UInt8} {k : Nat}

theorem usesAt_iff {g : Defs} {name x : String} :
    UsesAt g name x ↔ ∃ q, lookupDef g name = some q ∧ Uses q x := by
  induction g using Defs.rec (motive_1 := fun _ => True) with
  | nil => simp [UsesAt, lookupDef, findDef]
  | cons name' p rest _ ih =>
      rw [UsesAt, lookupDef_cons]
      split
      · simp
      · exact ih
  | _ => trivial

theorem Reached.use {g : Defs} {start name x : String} {q : Pat} (h : Reached g start name)
    (hdef : lookupDef g name = some q) (hx : Uses q x) : Reached g start x :=
  h.tail (usesAt_iff.mpr ⟨q, hdef, hx⟩)

theorem lookupDef_eq_none {g : Defs} {name : String} :
    lookupDef g name = none ↔ name ∉ boundNames g := by
  induction g using Defs.rec (motive_1 := fun _ => True) with
  | nil => simp [lookupDef, findDef, boundNames]
  | cons name' p rest _ ih =>
      rw [lookupDef_cons, boundNames, List.mem_cons, not_or]
      by_cases hname : name' = name
      · simp [hname]
      · simp [hname, Ne.symm hname, ih]
  | _ => trivial

mutual

theorem mem_freeNames (p : Pat) {x : String} (h : Uses p x) : x ∈ freeNames p := by
  cases p with
  | alt l r => exact List.mem_append.mpr (h.imp (mem_freeNames l) (mem_freeNames r))
  | seq l r => exact List.mem_append.mpr (h.imp (mem_freeNames l) (mem_freeNames r))
  | star p => exact mem_freeNames p h
  | plus p => exact mem_freeNames p h
  | optional p => exact mem_freeNames p h
  | not p => exact mem_freeNames p h
  | and p => exact mem_freeNames p h
  | search p => exact mem_freeNames p h
  | cap p id => exact mem_freeNames p h
  | memo p id => exact mem_freeNames p h
  | check p fn id flag => exact mem_freeNames p h
  | inlined name p => exact mem_freeNames p h
  | errorRecover msg p => exact mem_freeNames p h
  | repeated p n => exact mem_freeNames p h.2
  | grammar start g =>
      obtain ⟨hreached, hnone⟩ := h
      refine List.mem_filter.mpr ⟨?_, by simpa [lookupDef_eq_none] using hnone⟩
      cases hreached with
      | refl => exact List.mem_cons_self
      | tail _ huse => exact List.mem_cons_of_mem _ (mem_freeNamesDefs g huse)
  | nonterm name => exact List.mem_singleton.mpr h.symm
  | _ => exact absurd h not_false

theorem mem_freeNamesDefs (g : Defs) {name x : String} (h : UsesAt g name x) :
    x ∈ freeNamesDefs g := by
  cases g with
  | nil => exact absurd h not_false
  | cons name' p rest =>
      rw [UsesAt] at h
      split at h
      · exact List.mem_append_left _ (mem_freeNames p h)
      · exact List.mem_append_right _ (mem_freeNamesDefs rest h)

end

/-- What a grammar promises, for the names that the first definition leads to. -/
theorem bindings_start_le {g : Defs} {start : String} {ρ σ : Bindings}
    (hnone : ∀ x, Reached g start x → lookupDef g x = none → ρ x ≤ σ x)
    (hdef : ∀ x q, Reached g start x → lookupDef g x = some q →
      ∀ τ : Bindings, (∀ y, Uses q y → τ y ≤ σ y) → denote w k q τ ≤ σ x) :
    bindings w k g ρ start ≤ σ start := by
  let τ : Bindings := fun x i o => Reached g start x → σ x i o
  have hτ : ∀ {x}, Reached g start x → τ x ≤ σ x := fun hx _ _ h => h hx
  have hle : bindings w k g ρ ≤ τ := by
    refine bindings_le fun x i o h hx => ?_
    rw [denoteDefs_eq] at h
    cases hlookup : lookupDef g x with
    | none =>
        rw [hlookup] at h
        exact hnone x hx hlookup i o h
    | some q =>
        rw [hlookup] at h
        exact hdef x q hx hlookup τ (fun y hy => hτ (hx.use hlookup hy)) i o h
  exact (hle start).trans (hτ .refl)

mutual

theorem denote_agree (p : Pat) {ρ σ : Bindings} (h : ∀ x, Uses p x → ρ x ≤ σ x) :
    denote w k p ρ ≤ denote w k p σ := by
  cases p with
  | alt l r =>
      exact choice_mono (denote_agree l fun x hx => h x (.inl hx))
        (denote_agree r fun x hx => h x (.inr hx))
  | seq l r =>
      exact followed_mono (denote_agree l fun x hx => h x (.inl hx))
        (denote_agree r fun x hx => h x (.inr hx))
  | star p => exact iterated_mono (denote_agree p h)
  | plus p => exact followed_mono (denote_agree p h) (iterated_mono (denote_agree p h))
  | optional p => exact choice_mono (denote_agree p h) le_rfl
  | not p => exact negated_mono (denote_agree p h)
  | and p => exact ahead_mono (denote_agree p h)
  | cap p id => exact captured_mono id (denote_agree p h)
  | memo p id => exact denote_agree p h
  | check p fn id flag => exact checked_mono k fn id flag (denote_agree p h)
  | grammar start g =>
      have hfixed := bindings_eq (w := w) (k := k) g σ
      refine bindings_start_le (fun x hx hnone => ?_) fun x q _ hdef τ hτ => ?_
      · have hx' := hfixed x
        rw [hnone] at hx'
        exact (h x ⟨hx, hnone⟩).trans hx'.ge
      · have hx' := hfixed x
        rw [hdef] at hx'
        exact (denoteDefs_agree g hdef hτ).trans hx'.ge
  | search p => exact searched_mono (denote_agree p h)
  | repeated p n =>
      cases n with
      | zero => exact le_rfl
      | succ n => exact iterate_mono (n + 1) (denote_agree p fun x hx => h x ⟨n.succ_ne_zero, hx⟩)
  | nonterm name => exact h name rfl
  | inlined name p => exact denote_agree p h
  | errorRecover msg p => exact denote_agree p h
  | cls set => exact le_rfl
  | literal str => exact le_rfl
  | dot n => exact le_rfl
  | error msg => exact le_rfl
  | emptyop op => exact le_rfl
  | empty => exact le_rfl

theorem denoteDefs_agree (g : Defs) {name : String} {q : Pat} (hdef : lookupDef g name = some q)
    {ρ σ : Bindings} (h : ∀ x, Uses q x → ρ x ≤ σ x) : denote w k q ρ ≤ denote w k q σ := by
  cases g with
  | nil => simp [lookupDef, findDef] at hdef
  | cons name' p rest =>
      rw [lookupDef_cons] at hdef
      split at hdef
      · obtain rfl : p = q := Option.some.inj hdef
        exact denote_agree p h
      · exact denoteDefs_agree rest hdef h

end

theorem lookupDef_inlineDefs (g d : Defs) (name : String) :
    lookupDef (inlineDefs g d) name = (lookupDef d name).map (inlinePat g) := by
  rw [lookupDef, lookupDef, findDef_inlineDefs]
  cases findDef d name with
  | none => rfl
  | some i => exact defAt_inlineDefs g d i

theorem boundNames_inlineDefs (g d : Defs) : boundNames (inlineDefs g d) = boundNames d := by
  cases d with
  | nil => rfl
  | cons name p rest => rw [inlineDefs, boundNames, boundNames, boundNames_inlineDefs g rest]

mutual

/-- A pass over `g` that meets this pattern inside grammars that bind `ns` does not mix
up names: neither a reference that it inlines nor a name that the definition in its place
asks for is bound there. Inside a grammar only what its first definition leads to counts. -/
def KeepsScopes (g : Defs) : List String → Pat → Prop
  | ns, .alt l r | ns, .seq l r => KeepsScopes g ns l ∧ KeepsScopes g ns r
  | ns, .star p | ns, .plus p | ns, .optional p | ns, .not p | ns, .and p | ns, .search p
  | ns, .cap p _ | ns, .memo p _ | ns, .check p _ _ _ | ns, .inlined _ p
  | ns, .errorRecover _ p => KeepsScopes g ns p
  | ns, .grammar start defs =>
      ∀ name, Reached defs start name → KeepsScopesAt g (boundNames defs ++ ns) defs name
  | ns, .nonterm name =>
      ∀ q, inlinable g name = some q → name ∉ ns ∧ ∀ x, Uses q x → x ∉ ns
  | _, _ => True

def KeepsScopesAt (g : Defs) : List String → Defs → String → Prop
  | _, .nil, _ => True
  | ns, .cons name' p rest, name =>
      if name' = name then KeepsScopes g ns p else KeepsScopesAt g ns rest name

end

/-- An inlined definition gives at least what its name stands for, where none of the
names involved is bound anew. -/
def Justified (w : List UInt8) (k : Nat) (g : Defs) (ns : List String) (σ : Bindings) : Prop :=
  ∀ name q, inlinable g name = some q → name ∉ ns → (∀ x, Uses q x → x ∉ ns) →
    σ name ≤ denote w k q σ

theorem Justified.inner {g defs : Defs} {ns : List String} {σ : Bindings}
    (h : Justified w k g ns σ) : Justified w k g (boundNames defs ++ ns) (bindings w k defs σ) := by
  intro name q hq hname hns
  have hout : ∀ x, x ∉ boundNames defs ++ ns → bindings w k defs σ x = σ x := by
    intro x hx
    have hnone := lookupDef_eq_none.mpr fun hmem => hx (List.mem_append_left _ hmem)
    rw [bindings_eq, hnone]
  rw [hout name hname]
  refine (h name q hq (fun hmem => hname (List.mem_append_right _ hmem))
    fun x hx hmem => hns x hx (List.mem_append_right _ hmem)).trans ?_
  exact denote_agree q fun x hx => (hout x (hns x hx)).ge

/-- A pass keeps what a grammar promises if it keeps every outcome of the definitions that the
first one leads to. -/
theorem bindings_inlineDefs_le {g defs : Defs} {start : String} {ρ : Bindings}
    (h : ∀ name q, Reached defs start name → lookupDef defs name = some q →
      denote w k q (bindings w k (inlineDefs g defs) ρ) ≤
        denote w k (inlinePat g q) (bindings w k (inlineDefs g defs) ρ)) :
    bindings w k defs ρ start ≤ bindings w k (inlineDefs g defs) ρ start := by
  have hfixed := bindings_eq (w := w) (k := k) (inlineDefs g defs) ρ
  simp only [lookupDef_inlineDefs] at hfixed
  refine bindings_start_le (fun x _ hnone => ?_) fun x q hx hdef τ hτ => ?_
  · have hx := hfixed x
    rw [hnone] at hx
    exact hx.ge
  · have hx' := hfixed x
    rw [hdef] at hx'
    exact ((denote_agree q hτ).trans (h x q hx hdef)).trans hx'.ge

mutual

theorem denote_inlinePat {g : Defs} (p : Pat) {ns : List String} {σ : Bindings}
    (hp : KeepsScopes g ns p) (h : Justified w k g ns σ) :
    denote w k p σ ≤ denote w k (inlinePat g p) σ := by
  cases p with
  | alt l r => exact choice_mono (denote_inlinePat l hp.1 h) (denote_inlinePat r hp.2 h)
  | seq l r => exact followed_mono (denote_inlinePat l hp.1 h) (denote_inlinePat r hp.2 h)
  | star p => exact iterated_mono (denote_inlinePat p hp h)
  | plus p =>
      exact followed_mono (denote_inlinePat p hp h) (iterated_mono (denote_inlinePat p hp h))
  | optional p => exact choice_mono (denote_inlinePat p hp h) le_rfl
  | not p => exact negated_mono (denote_inlinePat p hp h)
  | and p => exact ahead_mono (denote_inlinePat p hp h)
  | cap p id => exact captured_mono id (denote_inlinePat p hp h)
  | memo p id => exact denote_inlinePat p hp h
  | check p fn id flag => exact checked_mono k fn id flag (denote_inlinePat p hp h)
  | grammar start defs =>
      have hinner := @Justified.inner w k g (inlineDefs g defs) ns σ h
      rw [boundNames_inlineDefs] at hinner
      exact bindings_inlineDefs_le fun name q hname hdef =>
        denote_inlineDefs defs (hp name hname) hinner hdef
  | search p => exact searched_mono (denote_inlinePat p hp h)
  | repeated p n => exact le_rfl
  | nonterm name =>
      rw [inlinePat]
      split
      · next q hq => exact h name q hq (hp q hq).1 (hp q hq).2
      · exact le_rfl
  | inlined name p => exact denote_inlinePat p hp h
  | errorRecover msg p => exact denote_inlinePat p hp h
  | cls set => exact le_rfl
  | literal str => exact le_rfl
  | dot n => exact le_rfl
  | error msg => exact le_rfl
  | emptyop op => exact le_rfl
  | empty => exact le_rfl

theorem denote_inlineDefs {g : Defs} (d : Defs) {ns : List String} {σ : Bindings} {name : String}
    (hd : KeepsScopesAt g ns d name) (h : Justified w k g ns σ) {q : Pat}
    (hdef : lookupDef d name = some q) : denote w k q σ ≤ denote w k (inlinePat g q) σ := by
  cases d with
  | nil => simp [lookupDef, findDef] at hdef
  | cons name' p rest =>
      rw [lookupDef_cons] at hdef
      rw [KeepsScopesAt] at hd
      split at hdef
      · next hname =>
          rw [if_pos hname] at hd
          obtain rfl : p = q := Option.some.inj hdef
          exact denote_inlinePat p hd h
      · next hname =>
          rw [if_neg hname] at hd
          exact denote_inlineDefs rest hd h hdef

end

def inlinePass (g : Defs) : Defs :=
  inlineDefs g g

theorem lookupDef_of_inlinable {g : Defs} {name : String} {q : Pat}
    (h : inlinable g name = some q) : lookupDef g name = some q ∧ unresolved q = [] := by
  obtain ⟨⟨i, hi, hq⟩, hnil⟩ := inlinable_eq_some h
  exact ⟨Option.bind_eq_some_iff.mpr ⟨i, hi, hq⟩, hnil⟩

theorem bindings_inlinePass {g : Defs} {start : String}
    (hg : ∀ name, Reached g start name → KeepsScopesAt g [] g name) (ρ : Bindings) :
    bindings w k g ρ start ≤ bindings w k (inlinePass g) ρ start := by
  have hjust : Justified w k g [] (bindings w k (inlinePass g) ρ) := by
    intro name q hq _ _
    obtain ⟨hdef, hnil⟩ := lookupDef_of_inlinable hq
    have hname := bindings_eq (w := w) (k := k) (inlinePass g) ρ name
    simp only [inlinePass, lookupDef_inlineDefs, hdef, Option.map_some,
      inlinePat_self g q (by simp [hnil])] at hname
    exact hname.le
  exact bindings_inlineDefs_le fun name q hname hdef =>
    denote_inlineDefs g (hg name hname) hjust hdef

/-- No pass of `grammar_inline` mixes up names in what the first definition leads to. -/
def InlinesSoundly (g : Defs) (start : String) : Prop :=
  ∀ m name, Reached (inlinePass^[m] g) start name →
    KeepsScopesAt (inlinePass^[m] g) [] (inlinePass^[m] g) name

theorem InlinesSoundly.pass {g : Defs} {start : String} (h : InlinesSoundly g start) :
    InlinesSoundly (inlinePass g) start :=
  fun m => h (m + 1)

theorem bindings_grammarInline {n : Nat} {g g' : Defs} {start : String}
    (hg : InlinesSoundly g start) (h : grammarInline n g = some g') (ρ : Bindings) :
    bindings w k g ρ start ≤ bindings w k g' ρ start := by
  induction n generalizing g with
  | zero => cases h
  | succ n ih =>
      rw [grammarInline] at h
      split at h
      · exact (bindings_inlinePass (hg 0) ρ).trans (ih hg.pass h)
      · cases h
        exact le_rfl

/-- Every name in what is compiled means what the innermost grammar around it says, and the
id of every capture has 16 bits. The argument is set inside a grammar. -/
inductive Scoped : Bool → Pat → Prop
  | alt {inside : Bool} {l r : Pat} (hl : Scoped inside l) (hr : Scoped inside r) :
      Scoped inside (.alt l r)
  | seq {inside : Bool} {l r : Pat} (hl : Scoped inside l) (hr : Scoped inside r) :
      Scoped inside (.seq l r)
  | star {inside : Bool} {p : Pat} (h : Scoped inside p) : Scoped inside (.star p)
  | plus {inside : Bool} {p : Pat} (h : Scoped inside p) : Scoped inside (.plus p)
  | optional {inside : Bool} {p : Pat} (h : Scoped inside p) : Scoped inside (.optional p)
  | not {inside : Bool} {p : Pat} (h : Scoped inside p) : Scoped inside (.not p)
  | and {inside : Bool} {p : Pat} (h : Scoped inside p) : Scoped inside (.and p)
  | cap {inside : Bool} {p : Pat} {id : Int} (h : Scoped inside p)
      (hid : -32768 ≤ id ∧ id ≤ 32767) : Scoped inside (.cap p id)
  | memo {inside : Bool} {p : Pat} {id : Int} (h : Scoped inside p) : Scoped inside (.memo p id)
  | check {inside : Bool} {p : Pat} {fn : Option VmChecker} {id flag : Int}
      (h : Scoped inside p) : Scoped inside (.check p fn id flag)
  | repeated {inside : Bool} {p : Pat} {n : Nat} (h : n ≠ 0 → Scoped inside p) :
      Scoped inside (.repeated p n)
  | inlined {inside : Bool} {name : String} {p : Pat} (h : Scoped inside p) :
      Scoped inside (.inlined name p)
  | errorRecover {inside : Bool} {msg : String} {p : Pat} (h : Scoped inside p) :
      Scoped inside (.errorRecover msg p)
  | cls {inside : Bool} {set : Charset.VmCharset} : Scoped inside (.cls set)
  | literal {inside : Bool} {str : List UInt8} : Scoped inside (.literal str)
  | nonterm {inside : Bool} {name : String} : Scoped inside (.nonterm name)
  | dot {inside : Bool} {n : UInt8} : Scoped inside (.dot n)
  | error {inside : Bool} {msg : String} : Scoped inside (.error msg)
  | emptyop {inside : Bool} {op : UInt8} : Scoped inside (.emptyop op)
  | empty {inside : Bool} : Scoped inside .empty
  /-- The hidden rule of a search is named `S`. -/
  | search {inside : Bool} {p : Pat} (h : Scoped true p) (hname : ¬Uses p "S") :
      Scoped inside (.search p)
  /-- The first definition and those of the references that are left are compiled. A grammar
  in a grammar whose references are all inlined leaves those under a repeat to the grammar
  around it. -/
  | grammar {inside : Bool} {start : String} {g : Defs} (hinline : InlinesSoundly g start)
      (hdefs : ∀ n g', grammarInline n g = some g' → ∀ name q,
        name = start ∨ name ∈ unresolvedDefs g' → lookupDef g' name = some q → Scoped true q)
      (hrepeats : inside = true → ∀ n g', grammarInline n g = some g' → unresolvedDefs g' = [] →
        ∀ q, lookupDef g' start = some q → ∀ x, Uses q x → lookupDef g' x = none) :
      Scoped inside (.grammar start g)

theorem Scoped.kept {inside : Bool} {start : String} {g g' : Defs} {m i j : Nat} {q : Pat}
    (h : Scoped inside (.grammar start g)) (hin : grammarInline m g = some g')
    (hstart : findDef g' start = some i)
    (hkeep : (j = i || ((unresolvedDefs g').filterMap (findDef g')).contains j) = true)
    (hq : defAt g' j = some q) : Scoped true q := by
  have hname : ∃ name, (name = start ∨ name ∈ unresolvedDefs g') ∧ findDef g' name = some j := by
    simp only [Bool.or_eq_true, decide_eq_true_eq, List.contains_eq_mem,
      List.mem_filterMap] at hkeep
    rcases hkeep with rfl | ⟨name, hmem, hname⟩
    · exact ⟨start, .inl rfl, hstart⟩
    · exact ⟨name, .inr hmem, hname⟩
  obtain ⟨name, hused, hname⟩ := hname
  cases h with
  | grammar _ hdefs _ =>
      refine hdefs m g' hin name q hused ?_
      rw [lookupDef, hname]
      exact hq

end Libpeg.Scoping
