import Libpeg.CompileTotal

namespace Libpeg.PatternHeap

open Libpeg.Charset Libpeg.Code

/-- `struct pat`, with the addresses of its sub-patterns; `none` is the null
pointer. -/
inductive PatNode where
  | alt (l r : Nat)
  | seq (l r : Nat)
  | star (p : Nat)
  | plus (p : Nat)
  | optional (p : Nat)
  | not (p : Nat)
  | and (p : Nat)
  | cap (p : Nat) (id : Int)
  | memo (p : Nat) (id : Int)
  | check (p : Nat) (fn : Option VmChecker) (id flag : Int)
  | grammar (start : String) (defs : List (String × Nat))
  | search (p : Nat)
  | repeated (p : Nat) (n : Nat)
  | cls (set : VmCharset)
  | literal (str : List UInt8)
  | nonterm (name : String) (inlined : Option Nat)
  | dot (n : UInt8)
  | error (msg : String) (recover : Option Nat)
  | emptyop (op : UInt8)
  | empty

abbrev PatHeap := List PatNode

def node (h : PatHeap) (p : Nat) : PatNode :=
  h.getD p .empty

def subpatterns : PatNode → List Nat
  | .alt l r | .seq l r => [l, r]
  | .star p | .plus p | .optional p | .not p | .and p | .search p | .cap p _ | .memo p _
  | .check p _ _ _ | .repeated p _ => [p]
  | .error _ recover => recover.toList
  | .grammar _ defs => defs.map Prod.snd
  | _ => []

/-- The patterns that `walk_pat` goes on to. -/
def walked (followInline : Bool) : PatNode → List Nat
  | .repeated _ _ => []
  | .nonterm _ inlined => if followInline then inlined.toList else []
  | n => subpatterns n

/-- All pointers of a pattern: its sub-patterns and its inlined definition. -/
def pointers : PatNode → List Nat
  | .nonterm _ inlined => inlined.toList
  | n => subpatterns n

def PointsTo (h : PatHeap) (a b : Nat) : Prop :=
  b ∈ pointers (node h a)

/-- A walk that follows inlined definitions goes on from a pattern to another. -/
def WalksTo (h : PatHeap) (a b : Nat) : Prop :=
  b ∈ walked true (node h a)

/-- `walk_pat`, where the callback updates `ud` and the patterns are read from it. -/
def walkPat {σ : Type} (heap : σ → PatHeap) (followInline : Bool) (fn : Nat → σ → σ) :
    Nat → Nat → σ → Option σ
  | 0, _, _ => none
  | fuel + 1, p, ud =>
      let ud := fn p ud
      (walked followInline (node (heap ud) p)).foldlM
        (fun ud q => walkPat heap followInline fn fuel q ud) ud

/-- `struct size_leaf_data`. -/
structure SizeLeafData where
  size : Nat
  leaf : Bool

def isOpen : PatNode → Bool
  | .nonterm _ none => true
  | _ => false

/-- `count_size_leaf_fn`. -/
def countSizeLeafFn (h : PatHeap) (sub : Nat) (d : SizeLeafData) : SizeLeafData :=
  { size := d.size + 1, leaf := d.leaf && !isOpen (node h sub) }

/-- `struct inline_data`, without the grammar and the counts of its definitions. -/
structure InlineData where
  heap : PatHeap
  did : Bool

/-- The definition that may stand for a non-terminal. -/
def leafDef (defs : List (String × Nat)) (counts : List SizeLeafData) (name : String) :
    Option Nat := do
  let di ← defs.findIdx? fun d => d.1 = name
  let d ← defs[di]?
  let count ← counts[di]?
  if count.size < 100 ∧ count.leaf = true then some d.2 else none

/-- `inline_fn`. -/
def inlineFn (defs : List (String × Nat)) (counts : List SizeLeafData) (sub : Nat)
    (d : InlineData) : InlineData :=
  match node d.heap sub with
  | .nonterm name none =>
      match leafDef defs counts name with
      | some p => { heap := d.heap.set sub (.nonterm name (some p)), did := true }
      | none => d
  | _ => d

def defsOf : PatNode → List (String × Nat)
  | .grammar _ defs => defs
  | _ => []

/-- `grammar_inline_once`. -/
def grammarInlineOnce (fuel g : Nat) (h : PatHeap) : Option InlineData := do
  let defs := defsOf (node h g)
  let counts ← defs.mapM fun d =>
    walkPat (fun _ => h) true (countSizeLeafFn h) fuel d.2 { size := 0, leaf := true }
  walkPat InlineData.heap true (inlineFn defs counts) fuel g { heap := h, did := false }

/-- `grammar_inline`. -/
def grammarInline : Nat → Nat → PatHeap → Option PatHeap
  | 0, _, _ => none
  | fuel + 1, g, h => do
      let d ← grammarInlineOnce fuel g h
      if d.did then grammarInline fuel g d.heap else some d.heap

/-- A pattern that a constructor returns refers to no definition yet. -/
def isFresh : PatNode → Bool
  | .nonterm _ (some _) => false
  | _ => true

/-- The memory of a program: the constructors make patterns from patterns that
have no owner yet, and `grammar_inline` runs on a grammar anywhere, owned or not.
The list has the patterns without owner. -/
inductive Built : PatHeap → List Nat → Prop
  | nil : Built [] []
  | new {h : PatHeap} {roots : List Nat} {n : PatNode} (hb : Built h roots)
      (hfresh : isFresh n = true) (hsub : ∀ p ∈ subpatterns n, p ∈ roots) :
      Built (h ++ [n]) (h.length :: roots.filter (· ∉ subpatterns n))
  | inline {h h' : PatHeap} {roots : List Nat} {fuel g : Nat} {start : String}
      {defs : List (String × Nat)} (hb : Built h roots) (hg : node h g = .grammar start defs)
      (hinline : grammarInline fuel g h = some h') : Built h' roots

end Libpeg.PatternHeap
