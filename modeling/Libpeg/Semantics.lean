import Libpeg.Pattern
import Libpeg.Vm

/-!
What patterns mean: the standard big-step semantics of parsing expressions. It is
a statement of its own and knows nothing of the compiler.
-/

namespace Libpeg.Semantics

open Libpeg.Charset Libpeg.Code Libpeg.Memo Libpeg.Vm Libpeg.Pattern

/-- What a pattern does at a position. An error without recovery stops the parse. -/
inductive Outcome where
  | fail
  | ok (pos : Nat) (capt : CapForest)
  | stop
  deriving DecidableEq

/-- The outcome behind a match that made some captures. -/
def Outcome.after (capt : CapForest) : Outcome → Outcome
  | .ok pos capt' => .ok pos (capt.append capt')
  | o => o

def Outcome.ends : Outcome → Bool
  | .ok _ _ => false
  | _ => true

def leafOutcome (w : List UInt8) (i : Nat) : Pat → Option Outcome
  | .cls set => some (if w[i]?.any set.has then .ok (i + 1) .nil else .fail)
  | .literal str => some (if str.isPrefixOf (w.drop i) then .ok (i + str.length) .nil else .fail)
  | .dot n => some (if i + n.toNat ≤ w.length then .ok (i + n.toNat) .nil else .fail)
  | .emptyop op =>
      let r1 := if i > 0 then w[i - 1]? else none
      some (if emptyOpContext r1 w[i]? &&& op.toNat ≠ 0 then .ok i .nil else .fail)
  | .empty => some (.ok i .nil)
  | .error _ => some .stop
  | _ => none

/-- The verdict of a checker on a match from `i` to `j`, at its `k`-th call. -/
def checkOutcome (w : List UInt8) (k : Nat) (fn : Option VmChecker) (id flag : Int) (i j : Nat)
    (capt : CapForest) : Outcome :=
  match fn with
  | none => .ok j capt
  | some fn =>
      let n := fn k ((w.drop i).take (j - i)) w id flag
      if n < 0 then .fail
      else if j + n.toNat > w.length then .fail
      else .ok (j + n.toNat) capt

/-- The definition of a name in the innermost grammar that has one, with the
grammars around it. -/
def resolve : List Defs → String → Option (Pat × List Defs)
  | [], _ => none
  | g :: env, name =>
      match (findDef g name).bind (defAt g) with
      | some p => some (p, g :: env)
      | none => resolve env name

/-- The outcome of a pattern at a position of the subject `w`, inside some
grammars; checkers answer as at their `k`-th call. -/
inductive Eval (w : List UInt8) (k : Nat) : List Defs → Pat → Nat → Outcome → Prop
  | leaf {env : List Defs} {p : Pat} {i : Nat} {o : Outcome} (h : leafOutcome w i p = some o) :
      Eval w k env p i o
  | altLeft {env : List Defs} {l r : Pat} {i : Nat} {o : Outcome} (h : Eval w k env l i o)
      (ho : o ≠ .fail) : Eval w k env (.alt l r) i o
  | altRight {env : List Defs} {l r : Pat} {i : Nat} {o : Outcome} (h : Eval w k env l i .fail)
      (hr : Eval w k env r i o) : Eval w k env (.alt l r) i o
  | seqLeft {env : List Defs} {l r : Pat} {i : Nat} {o : Outcome} (h : Eval w k env l i o)
      (ho : o.ends = true) : Eval w k env (.seq l r) i o
  | seqRight {env : List Defs} {l r : Pat} {i j : Nat} {c : CapForest} {o o' : Outcome}
      (h : Eval w k env l i (.ok j c)) (hr : Eval w k env r j o) (ho : o' = o.after c) :
      Eval w k env (.seq l r) i o'
  | starEnd {env : List Defs} {p : Pat} {i : Nat} (h : Eval w k env p i .fail) :
      Eval w k env (.star p) i (.ok i .nil)
  | starStop {env : List Defs} {p : Pat} {i : Nat} (h : Eval w k env p i .stop) :
      Eval w k env (.star p) i .stop
  | starStep {env : List Defs} {p : Pat} {i j : Nat} {c : CapForest} {o o' : Outcome}
      (h : Eval w k env p i (.ok j c)) (hr : Eval w k env (.star p) j o) (ho : o' = o.after c) :
      Eval w k env (.star p) i o'
  | plus {env : List Defs} {p : Pat} {i : Nat} {o : Outcome}
      (h : Eval w k env (.seq p (.star p)) i o) : Eval w k env (.plus p) i o
  | optional {env : List Defs} {p : Pat} {i : Nat} {o : Outcome}
      (h : Eval w k env (.alt p .empty) i o) : Eval w k env (.optional p) i o
  | notFail {env : List Defs} {p : Pat} {i : Nat} (h : Eval w k env p i .fail) :
      Eval w k env (.not p) i (.ok i .nil)
  | notOk {env : List Defs} {p : Pat} {i j : Nat} {c : CapForest} (h : Eval w k env p i (.ok j c)) :
      Eval w k env (.not p) i .fail
  | notStop {env : List Defs} {p : Pat} {i : Nat} (h : Eval w k env p i .stop) :
      Eval w k env (.not p) i .stop
  | andOk {env : List Defs} {p : Pat} {i j : Nat} {c : CapForest} (h : Eval w k env p i (.ok j c)) :
      Eval w k env (.and p) i (.ok i c)
  | andEnds {env : List Defs} {p : Pat} {i : Nat} {o : Outcome} (h : Eval w k env p i o)
      (ho : o.ends = true) : Eval w k env (.and p) i o
  | capOk {env : List Defs} {p : Pat} {id : Int} {i j : Nat} {c : CapForest}
      (h : Eval w k env p i (.ok j c)) :
      Eval w k env (.cap p id) i (.ok j (.cons id i ((j : Int) - i) c .nil))
  | capEnds {env : List Defs} {p : Pat} {id : Int} {i : Nat} {o : Outcome} (h : Eval w k env p i o)
      (ho : o.ends = true) : Eval w k env (.cap p id) i o
  | memo {env : List Defs} {p : Pat} {id : Int} {i : Nat} {o : Outcome} (h : Eval w k env p i o) :
      Eval w k env (.memo p id) i o
  | checkOk {env : List Defs} {p : Pat} {fn : Option VmChecker} {id flag : Int} {i j : Nat}
      {c : CapForest} (h : Eval w k env p i (.ok j c)) :
      Eval w k env (.check p fn id flag) i (checkOutcome w k fn id flag i j c)
  | checkEnds {env : List Defs} {p : Pat} {fn : Option VmChecker} {id flag : Int} {i : Nat}
      {o : Outcome} (h : Eval w k env p i o) (ho : o.ends = true) :
      Eval w k env (.check p fn id flag) i o
  | grammar {env : List Defs} {start : String} {defs : Defs} {i : Nat} {o : Outcome}
      (h : Eval w k (defs :: env) (.nonterm start) i o) : Eval w k env (.grammar start defs) i o
  | nonterm {env env' : List Defs} {name : String} {p : Pat} {i : Nat} {o : Outcome}
      (hname : resolve env name = some (p, env')) (h : Eval w k env' p i o) :
      Eval w k env (.nonterm name) i o
  | inlined {env : List Defs} {name : String} {p : Pat} {i : Nat} {o : Outcome}
      (h : Eval w k env p i o) : Eval w k env (.inlined name p) i o
  | searchHere {env : List Defs} {p : Pat} {i : Nat} {o : Outcome} (h : Eval w k env p i o)
      (ho : o ≠ .fail ∨ i ≥ w.length) : Eval w k env (.search p) i o
  | searchNext {env : List Defs} {p : Pat} {i : Nat} {o : Outcome} (h : Eval w k env p i .fail)
      (hi : i < w.length) (hr : Eval w k env (.search p) (i + 1) o) : Eval w k env (.search p) i o
  | repeatedZero {env : List Defs} {p : Pat} {i : Nat} : Eval w k env (.repeated p 0) i (.ok i .nil)
  | repeatedSucc {env : List Defs} {p : Pat} {n i : Nat} {o : Outcome}
      (h : Eval w k env (.seq p (.repeated p n)) i o) : Eval w k env (.repeated p (n + 1)) i o
  | errorRecover {env : List Defs} {msg : String} {p : Pat} {i : Nat} {o : Outcome}
      (h : Eval w k env p i o) : Eval w k env (.errorRecover msg p) i o

/-- Two patterns with the same outcomes everywhere. -/
def SameOutcome (p q : Pat) : Prop :=
  ∀ w k env i o, Eval w k env p i o ↔ Eval w k env q i o

namespace SameOutcome

theorem refl (p : Pat) : SameOutcome p p :=
  fun _ _ _ _ _ => Iff.rfl

theorem symm {p q : Pat} (h : SameOutcome p q) : SameOutcome q p :=
  fun w k env i o => (h w k env i o).symm

theorem trans {p q r : Pat} (h : SameOutcome p q) (h' : SameOutcome q r) : SameOutcome p r :=
  fun w k env i o => (h w k env i o).trans (h' w k env i o)

end SameOutcome

variable {w : List UInt8} {k i : Nat} {env : List Defs} {o : Outcome}

theorem Outcome.after_nil (o : Outcome) : o.after .nil = o := by
  cases o <;> rfl

theorem eval_leaf {p : Pat} {o' : Outcome} (hp : leafOutcome w i p = some o') :
    Eval w k env p i o ↔ o = o' := by
  constructor
  · intro h
    cases h with
    | leaf h =>
        rw [hp] at h
        exact (Option.some.inj h).symm
    | _ => cases hp
  · rintro rfl
    exact .leaf hp

theorem eval_alt {l r : Pat} : Eval w k env (.alt l r) i o ↔
    Eval w k env l i o ∧ o ≠ .fail ∨ Eval w k env l i .fail ∧ Eval w k env r i o := by
  constructor
  · intro h
    cases h with
    | leaf h => cases h
    | altLeft h ho => exact .inl ⟨h, ho⟩
    | altRight h hr => exact .inr ⟨h, hr⟩
  · rintro (⟨h, ho⟩ | ⟨h, hr⟩)
    · exact .altLeft h ho
    · exact .altRight h hr

theorem eval_seq {l r : Pat} : Eval w k env (.seq l r) i o ↔
    Eval w k env l i o ∧ o.ends = true ∨
      ∃ j c o', Eval w k env l i (.ok j c) ∧ Eval w k env r j o' ∧ o = o'.after c := by
  constructor
  · intro h
    cases h with
    | leaf h => cases h
    | seqLeft h ho => exact .inl ⟨h, ho⟩
    | seqRight h hr ho => exact .inr ⟨_, _, _, h, hr, ho⟩
  · rintro (⟨h, ho⟩ | ⟨j, c, o', h, hr, ho⟩)
    · exact .seqLeft h ho
    · exact .seqRight h hr ho

theorem eval_optional {p : Pat} :
    Eval w k env (.optional p) i o ↔ Eval w k env (.alt p .empty) i o := by
  constructor
  · intro h
    cases h with
    | leaf h => cases h
    | optional h => exact h
  · exact .optional

theorem eval_not {p : Pat} : Eval w k env (.not p) i o ↔
    Eval w k env p i .fail ∧ o = .ok i .nil ∨ (∃ j c, Eval w k env p i (.ok j c)) ∧ o = .fail ∨
      Eval w k env p i .stop ∧ o = .stop := by
  constructor
  · intro h
    cases h with
    | leaf h => cases h
    | notFail h => exact .inl ⟨h, rfl⟩
    | notOk h => exact .inr (.inl ⟨⟨_, _, h⟩, rfl⟩)
    | notStop h => exact .inr (.inr ⟨h, rfl⟩)
  · rintro (⟨h, rfl⟩ | ⟨⟨j, c, h⟩, rfl⟩ | ⟨h, rfl⟩)
    · exact .notFail h
    · exact .notOk h
    · exact .notStop h

theorem eval_inlined {name : String} {p : Pat} :
    Eval w k env (.inlined name p) i o ↔ Eval w k env p i o := by
  constructor
  · intro h
    cases h with
    | leaf h => cases h
    | inlined h => exact h
  · exact .inlined

theorem star_not_fail {p : Pat} : ¬Eval w k env (.star p) i .fail := by
  intro h
  generalize hp : Pat.star p = q at h
  generalize ho : Outcome.fail = o at h
  induction h with
  | leaf h =>
      subst hp
      cases h
  | starStep _ _ heq _ ih =>
      subst ho
      rename_i o' _ _ _
      cases o' with
      | fail => exact ih hp rfl
      | ok pos c => cases heq
      | stop => cases heq
  | starEnd => cases ho
  | starStop => cases ho
  | _ => cases hp

theorem Eval.unique {p : Pat} {o' : Outcome} (h : Eval w k env p i o) (h' : Eval w k env p i o') :
    o = o' := by
  induction h generalizing o' with
  | leaf h => exact ((eval_leaf h).mp h').symm
  | altLeft _ ho ih =>
      rcases eval_alt.mp h' with ⟨h', -⟩ | ⟨h', -⟩
      · exact ih h'
      · exact absurd (ih h') ho
  | altRight _ _ ih ihr =>
      rcases eval_alt.mp h' with ⟨h', ho'⟩ | ⟨-, hr'⟩
      · exact absurd (ih h').symm ho'
      · exact ihr hr'
  | seqLeft _ ho ih =>
      rcases eval_seq.mp h' with ⟨h', -⟩ | ⟨j, c, o', h', -, -⟩
      · exact ih h'
      · rw [ih h'] at ho
        cases ho
  | seqRight _ _ ho ih ihr =>
      rcases eval_seq.mp h' with ⟨hl', ho'⟩ | ⟨j, c, x, hl', hr', ho'⟩
      · rw [← ih hl'] at ho'
        cases ho'
      · cases ih hl'
        rw [ho, ho', ihr hr']
  | starEnd _ ih =>
      cases h' with
      | leaf h' => cases h'
      | starEnd => rfl
      | starStop h' => cases ih h'
      | starStep h' => cases ih h'
  | starStop _ ih =>
      cases h' with
      | leaf h' => cases h'
      | starEnd h' => cases ih h'
      | starStop => rfl
      | starStep h' => cases ih h'
  | starStep _ _ ho ih ihr =>
      cases h' with
      | leaf h' => cases h'
      | starEnd h' => cases ih h'
      | starStop h' => cases ih h'
      | starStep h' hr' ho' =>
          cases ih h'
          rw [ho, ho', ihr hr']
  | plus _ ih =>
      cases h' with
      | leaf h' => cases h'
      | plus h' => exact ih h'
  | optional _ ih => exact ih (eval_optional.mp h')
  | notFail _ ih =>
      rcases eval_not.mp h' with ⟨-, rfl⟩ | ⟨⟨j, c, h'⟩, -⟩ | ⟨h', -⟩
      · rfl
      · cases ih h'
      · cases ih h'
  | notOk _ ih =>
      rcases eval_not.mp h' with ⟨h', -⟩ | ⟨-, rfl⟩ | ⟨h', -⟩
      · cases ih h'
      · rfl
      · cases ih h'
  | notStop _ ih =>
      rcases eval_not.mp h' with ⟨h', -⟩ | ⟨⟨j, c, h'⟩, -⟩ | ⟨-, rfl⟩
      · cases ih h'
      · cases ih h'
      · rfl
  | andOk _ ih =>
      cases h' with
      | leaf h' => cases h'
      | andOk h' =>
          cases ih h'
          rfl
      | andEnds h' ho' =>
          cases ih h'
          cases ho'
  | andEnds _ ho ih =>
      cases h' with
      | leaf h' => cases h'
      | andOk h' =>
          cases ih h'
          cases ho
      | andEnds h' => exact ih h'
  | capOk _ ih =>
      cases h' with
      | leaf h' => cases h'
      | capOk h' =>
          cases ih h'
          rfl
      | capEnds h' ho' =>
          cases ih h'
          cases ho'
  | capEnds _ ho ih =>
      cases h' with
      | leaf h' => cases h'
      | capOk h' =>
          cases ih h'
          cases ho
      | capEnds h' => exact ih h'
  | memo _ ih =>
      cases h' with
      | leaf h' => cases h'
      | memo h' => exact ih h'
  | checkOk _ ih =>
      cases h' with
      | leaf h' => cases h'
      | checkOk h' =>
          cases ih h'
          rfl
      | checkEnds h' ho' =>
          cases ih h'
          cases ho'
  | checkEnds _ ho ih =>
      cases h' with
      | leaf h' => cases h'
      | checkOk h' =>
          cases ih h'
          cases ho
      | checkEnds h' => exact ih h'
  | grammar _ ih =>
      cases h' with
      | leaf h' => cases h'
      | grammar h' => exact ih h'
  | nonterm hname _ ih =>
      cases h' with
      | leaf h' => cases h'
      | nonterm hname' h' =>
          rw [hname] at hname'
          cases hname'
          exact ih h'
  | inlined _ ih => exact ih (eval_inlined.mp h')
  | searchHere _ ho ih =>
      cases h' with
      | leaf h' => cases h'
      | searchHere h' => exact ih h'
      | searchNext h' hi =>
          have ho := ho.resolve_left fun hne => hne (ih h')
          omega
  | searchNext _ hi _ ih ihr =>
      cases h' with
      | leaf h' => cases h'
      | searchHere h' ho' =>
          have ho' := ho'.resolve_left fun hne => hne (ih h').symm
          omega
      | searchNext _ _ hr' => exact ihr hr'
  | repeatedZero =>
      cases h' with
      | leaf h' => cases h'
      | repeatedZero => rfl
  | repeatedSucc _ ih =>
      cases h' with
      | leaf h' => cases h'
      | repeatedSucc h' => exact ih h'
  | errorRecover _ ih =>
      cases h' with
      | leaf h' => cases h'
      | errorRecover h' => exact ih h'

end Libpeg.Semantics
