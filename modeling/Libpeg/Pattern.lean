import Libpeg.Code

namespace Libpeg.Pattern

open Libpeg.Charset
open Libpeg.Code

mutual

/-- `struct pat`. A non-terminal whose `inlined` reference is set is `inlined`,
with the definition it refers to; `error` is without a recovery pattern and
`errorRecover` with one. `pat_repeat` only builds `repeated` with a positive count. -/
inductive Pat where
  | alt (l r : Pat)
  | seq (l r : Pat)
  | star (p : Pat)
  | plus (p : Pat)
  | optional (p : Pat)
  | not (p : Pat)
  | and (p : Pat)
  | cap (p : Pat) (id : Int)
  | memo (p : Pat) (id : Int)
  | check (p : Pat) (fn : Option VmChecker) (id flag : Int)
  | grammar (start : String) (defs : Defs)
  | search (p : Pat)
  | repeated (p : Pat) (n : Nat)
  | cls (set : VmCharset)
  | literal (str : List UInt8)
  | nonterm (name : String)
  | inlined (name : String) (p : Pat)
  | dot (n : UInt8)
  | error (msg : String)
  | errorRecover (msg : String) (recover : Pat)
  | emptyop (op : UInt8)
  | empty

/-- The names and definitions of a grammar, in order. -/
inductive Defs where
  | nil
  | cons (name : String) (p : Pat) (rest : Defs)

end

/-- `combine`: the set that stands for two single-byte matchers. -/
def combine : Pat → Pat → Option VmCharset
  | .literal [b], .cls set => some (set.union (.fill [b]))
  | .literal [b], .literal [c] => some ((VmCharset.fill [b]).set c true)
  | .cls set, .cls set' => some (set.union set')
  | .cls set, .literal [c] => some (set.union (.fill [c]))
  | _, _ => none

/-- The set of a pattern that may stand under a `!` before a single byte. -/
def notSet : Pat → Option VmCharset
  | .literal [b] => some (.fill [b])
  | .cls set => some set
  | _ => none

/-- `!set r` as one set, when `r` matches single bytes. -/
def exceptSet (set : VmCharset) : Pat → Option VmCharset
  | .dot n => if n = 1 then some set.negate else none
  | .cls set' => some (set'.sub set)
  | .literal [b] => some ((VmCharset.fill [b]).sub set)
  | _ => none

def isEmpty : Pat → Bool
  | .empty => true
  | _ => false

def isStar : Pat → Bool
  | .star _ => true
  | _ => false

/-- The end of the sequence case of `get_pat`, for simplified parts. -/
def getSeq (p l r : Pat) : Pat :=
  if isEmpty r then l
  else if isEmpty l then r
  else
    match l with
    | .not np =>
        match (notSet np).bind fun set => exceptSet set r with
        | some set => .cls set
        | none => p
    | _ => p

/-- `get_pat`: the simplified version of a pattern. The first argument bounds
the recursion; `none` when it does not suffice. -/
def getPat : Nat → Pat → Option Pat
  | 0, _ => none
  | _ + 1, .inlined _ p => some p
  | fuel + 1, .alt l r => do
      let l' ← getPat fuel l
      let r' ← getPat fuel r
      if isEmpty l' then return r'
      if isEmpty r' then getPat fuel (.optional l')
      else
        match combine l' r' with
        | some set => return .cls set
        | none => return .alt l r
  | fuel + 1, .optional p => do
      let p' ← getPat fuel p
      if isStar p' then return p' else return .optional p
  | fuel + 1, .seq l r => do
      let l' ← getPat fuel l
      let r' ← getPat fuel r
      return getSeq (.seq l r) l' r'
  | _ + 1, p => some p

mutual

/-- The non-terminals that `walk_pat` meets without a definition, in order. It
follows inlined definitions and does not look into repeated patterns. -/
def unresolved : Pat → List String
  | .alt l r | .seq l r => unresolved l ++ unresolved r
  | .star p | .plus p | .optional p | .not p | .and p | .search p | .cap p _ | .memo p _
  | .check p _ _ _ | .inlined _ p | .errorRecover _ p => unresolved p
  | .grammar _ defs => unresolvedDefs defs
  | .nonterm name => [name]
  | _ => []

def unresolvedDefs : Defs → List String
  | .nil => []
  | .cons _ p rest => unresolved p ++ unresolvedDefs rest

end

mutual

/-- The number of patterns that `walk_pat` meets. -/
def walkSize : Pat → Nat
  | .alt l r | .seq l r => walkSize l + walkSize r + 1
  | .star p | .plus p | .optional p | .not p | .and p | .search p | .cap p _ | .memo p _
  | .check p _ _ _ | .inlined _ p | .errorRecover _ p => walkSize p + 1
  | .grammar _ defs => walkSizeDefs defs + 1
  | _ => 1

def walkSizeDefs : Defs → Nat
  | .nil => 0
  | .cons _ p rest => walkSize p + walkSizeDefs rest

end

/-- `find_def`: the index of the first definition of a name. -/
def findDef : Defs → String → Option Nat
  | .nil, _ => none
  | .cons name' _ rest, name =>
      if name' = name then some 0 else (findDef rest name).map (· + 1)

def defAt : Defs → Nat → Option Pat
  | .nil, _ => none
  | .cons _ p _, 0 => some p
  | .cons _ _ rest, i + 1 => defAt rest i

/-- The definition that may stand for a non-terminal: it is small and has no
unresolved non-terminal. -/
def inlinable (g : Defs) (name : String) : Option Pat :=
  match (findDef g name).bind (defAt g) with
  | some p => if walkSize p < 100 ∧ unresolved p = [] then some p else none
  | none => none

mutual

/-- The walk of `grammar_inline_once` over a pattern. -/
def inlinePat (g : Defs) : Pat → Pat
  | .alt l r => .alt (inlinePat g l) (inlinePat g r)
  | .seq l r => .seq (inlinePat g l) (inlinePat g r)
  | .star p => .star (inlinePat g p)
  | .plus p => .plus (inlinePat g p)
  | .optional p => .optional (inlinePat g p)
  | .not p => .not (inlinePat g p)
  | .and p => .and (inlinePat g p)
  | .search p => .search (inlinePat g p)
  | .cap p id => .cap (inlinePat g p) id
  | .memo p id => .memo (inlinePat g p) id
  | .check p fn id flag => .check (inlinePat g p) fn id flag
  | .errorRecover msg p => .errorRecover msg (inlinePat g p)
  | .grammar start defs => .grammar start (inlineDefs g defs)
  | .inlined name p => .inlined name (inlinePat g p)
  | .nonterm name =>
      match inlinable g name with
      | some p => .inlined name p
      | none => .nonterm name
  | p => p

def inlineDefs (g : Defs) : Defs → Defs
  | .nil => .nil
  | .cons name p rest => .cons name (inlinePat g p) (inlineDefs g rest)

end

/-- Whether a pass of `grammar_inline_once` inlines anything. -/
def inlinesAny (g : Defs) : Bool :=
  (unresolvedDefs g).any fun name => (inlinable g name).isSome

/-- `grammar_inline`: passes until nothing is inlined. -/
def grammarInline : Nat → Defs → Option Defs
  | 0, _ => none
  | fuel + 1, g => if inlinesAny g then grammarInline fuel (inlineDefs g g) else some g

end Libpeg.Pattern
