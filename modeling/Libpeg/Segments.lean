import Mathlib.Algebra.Group.Defs

/-!
Stacks whose entries collect values. Some entries only mark a place: they are skipped, and
what they collected belongs to the entry below. A view of a stack is what lies above one of
the skipped entries, or above the bottom, with the skipped entries in it taken out.
-/

namespace Libpeg.Segments

/-- A stack; `base` collects what no entry does. The top is the head of the list. -/
structure Pile (E C : Type*) where
  frames : List (E × C)
  base : C

namespace Pile

variable {E C : Type*}

def add [Add C] (S : Pile E C) (c : C) : Pile E C :=
  match S.frames with
  | [] => ⟨[], S.base + c⟩
  | (e, d) :: frames => ⟨(e, d + c) :: frames, S.base⟩

def push (S : Pile E C) (f : E × C) : Pile E C :=
  ⟨f :: S.frames, S.base⟩

def pop (S : Pile E C) : Pile E C :=
  ⟨S.frames.tail, S.base⟩

def onto [Add C] (S below : Pile E C) : Pile E C :=
  ⟨S.frames ++ (below.add S.base).frames, (below.add S.base).base⟩

end Pile

section Unwinding

variable {E C R : Type*} {S : Pile E C} {stop : E → Option R} {f : E × C} {r : R}

/-- The entries up to the first one that stops are taken off. -/
def unwindFrames (stop : E → Option R) (base : C) : List (E × C) → Option (R × Pile E C)
  | [] => none
  | f :: frames =>
      match stop f.1 with
      | some r => some (r, ⟨frames, base⟩)
      | none => unwindFrames stop base frames

def unwind (stop : E → Option R) (S : Pile E C) : Option (R × Pile E C) :=
  unwindFrames stop S.base S.frames

theorem unwind_push_some (h : stop f.1 = some r) : unwind stop (S.push f) = some (r, S) := by
  simp only [unwind, Pile.push, unwindFrames, h]

theorem unwind_push_none (h : stop f.1 = none) : unwind stop (S.push f) = unwind stop S := by
  simp only [unwind, Pile.push, unwindFrames, h]

end Unwinding

section Laws

variable {E C R : Type*} [AddMonoid C] {U : Pile E C} {stop : E → Option R}

@[simp] theorem Pile.add_zero (S : Pile E C) : S.add 0 = S := by
  obtain ⟨_ | ⟨⟨e, d⟩, frames⟩, base⟩ := S <;> simp [Pile.add]

theorem Pile.add_add (S : Pile E C) (c d : C) : S.add (c + d) = (S.add c).add d := by
  obtain ⟨_ | ⟨⟨e, d⟩, frames⟩, base⟩ := S <;> simp [Pile.add, add_assoc]

@[simp] theorem empty_onto (B : Pile E C) : (⟨[], 0⟩ : Pile E C).onto B = B := by
  simp [Pile.onto]

theorem add_onto (S B : Pile E C) (c : C) : (S.add c).onto B = (S.onto B).add c := by
  obtain ⟨_ | ⟨⟨e, d⟩, frames⟩, base⟩ := S
  · exact Pile.add_add B base c
  · rfl

theorem push_onto (S B : Pile E C) (f : E × C) : (S.push f).onto B = (S.onto B).push f :=
  rfl

theorem unwind_add (S : Pile E C) (c : C) : unwind stop (S.add c) = unwind stop S := by
  obtain ⟨_ | ⟨⟨e, d⟩, frames⟩, base⟩ := S <;> rfl

theorem unwind_onto (S B : Pile E C) : unwind stop (S.onto B) =
    ((unwind stop S).map (.map id (·.onto B))).or (unwind stop B) := by
  obtain ⟨frames, base⟩ := S
  induction frames with
  | nil => exact unwind_add B base
  | cons f frames ih =>
      cases h : stop f.1 with
      | none =>
          have hcons : (⟨f :: frames, base⟩ : Pile E C) = .push ⟨frames, base⟩ f := rfl
          rw [hcons, push_onto, unwind_push_none h, unwind_push_none h, ih]
      | some r =>
          have hcons : (⟨f :: frames, base⟩ : Pile E C) = .push ⟨frames, base⟩ f := rfl
          rw [hcons, push_onto, unwind_push_some h, unwind_push_some h]
          rfl

end Laws

section Views

variable {E C R : Type*} [AddMonoid C] {keep : E → Prop} {b c : C} {frames : List (E × C)}
  {S S' U U' : Pile E C} {o : Option E} {e : E} {r : R} {stop : E → Option R}

/-- What lies above an entry that is skipped, or above the bottom. -/
inductive View (keep : E → Prop) (b : C) : List (E × C) → Option E → Pile E C → Prop
  | bottom : View keep b [] none ⟨[], b⟩
  | here {e : E} {c : C} {frames : List (E × C)} (he : ¬keep e) :
      View keep b ((e, c) :: frames) (some e) ⟨[], c⟩
  | skip {e : E} {c : C} {frames : List (E × C)} {o : Option E} {U : Pile E C} (he : ¬keep e)
      (h : View keep b frames o U) : View keep b ((e, c) :: frames) o (U.add c)
  | kept {e : E} {c : C} {frames : List (E × C)} {o : Option E} {U : Pile E C} (he : keep e)
      (h : View keep b frames o U) : View keep b ((e, c) :: frames) o (U.push (e, c))

def Pile.Shows (keep : E → Prop) (S : Pile E C) (o : Option E) (U : Pile E C) : Prop :=
  View keep S.base S.frames o U

theorem exists_shows (keep : E → Prop) (S : Pile E C) : ∃ U, S.Shows keep none U := by
  obtain ⟨frames, b⟩ := S
  induction frames with
  | nil => exact ⟨_, .bottom⟩
  | cons f frames ih =>
      obtain ⟨U, h⟩ := ih
      by_cases he : keep f.1
      · exact ⟨_, .kept he h⟩
      · exact ⟨_, .skip he h⟩

theorem shows_none_unique (h : S.Shows keep none U) (h' : S.Shows keep none U') : U = U' := by
  obtain ⟨frames, b⟩ := S
  induction frames generalizing U U' with
  | nil =>
      cases h
      cases h'
      rfl
  | cons f frames ih =>
      cases h with
      | skip he h =>
          cases h' with
          | skip _ h' => rw [ih h h']
          | kept he' => exact absurd he' he
      | kept he h =>
          cases h' with
          | skip he' => exact absurd he he'
          | kept _ h' => rw [ih h h']

theorem shows_add (h : (S.add c).Shows keep o U') : ∃ U, S.Shows keep o U ∧ U' = U.add c := by
  obtain ⟨_ | ⟨⟨e, d⟩, frames⟩, b⟩ := S
  · cases h
    exact ⟨_, .bottom, rfl⟩
  · cases h with
    | here he => exact ⟨_, .here he, rfl⟩
    | skip he h => exact ⟨_, .skip he h, Pile.add_add _ d c⟩
    | kept he h => exact ⟨_, .kept he h, rfl⟩

theorem shows_push (he : keep e) (h : (S.push (e, c)).Shows keep o U') :
    ∃ U, S.Shows keep o U ∧ U' = U.push (e, c) := by
  cases h with
  | here hn => exact absurd he hn
  | skip hn => exact absurd he hn
  | kept _ h => exact ⟨_, h, rfl⟩

theorem shows_mark (he : ¬keep e) (h : (S.push (e, c)).Shows keep o U') :
    o = some e ∧ U' = ⟨[], c⟩ ∨ ∃ U, S.Shows keep o U ∧ U' = U.add c := by
  cases h with
  | here => exact .inl ⟨rfl, rfl⟩
  | skip _ h => exact .inr ⟨_, h, rfl⟩
  | kept hk => exact absurd hk he

theorem shows_merge (he : ¬keep e) (h : (S.add c).Shows keep o U) :
    (S.push (e, c)).Shows keep o U := by
  obtain ⟨U₀, h₀, rfl⟩ := shows_add h
  exact .skip he h₀

theorem shows_unwind (hstop : ∀ e r, stop e = some r → keep e) (hS : unwind stop S = some (r, S'))
    (h : S'.Shows keep o U') : ∃ U, S.Shows keep o U ∧ unwind stop U = some (r, U') := by
  obtain ⟨frames, b⟩ := S
  induction frames with
  | nil => cases hS
  | cons f frames ih =>
      obtain ⟨e, c⟩ := f
      cases he : stop e with
      | none =>
          obtain ⟨U, hU, hunwind⟩ := ih ((unwind_push_none (f := (e, c)) he).symm.trans hS)
          by_cases hk : keep e
          · exact ⟨_, .kept hk hU, (unwind_push_none he).trans hunwind⟩
          · exact ⟨_, .skip hk hU, (unwind_add U c).trans hunwind⟩
      | some r' =>
          obtain ⟨rfl, rfl⟩ : r' = r ∧ ⟨frames, b⟩ = S' := by
            simpa using (unwind_push_some (S := ⟨frames, b⟩) (f := (e, c)) he).symm.trans hS
          exact ⟨_, .kept (hstop e r' he) h, unwind_push_some he⟩

theorem shows_unwind_none (hS : unwind stop S = none) (h : S.Shows keep o U) :
    unwind stop U = none := by
  obtain ⟨frames, b⟩ := S
  change View keep b frames o U at h
  induction h with
  | bottom => rfl
  | here => rfl
  | @skip e c frames o U he h ih =>
      cases hstop : stop e with
      | none =>
          rw [unwind_add]
          exact ih ((unwind_push_none (f := (e, c)) hstop).symm.trans hS)
      | some r => cases (unwind_push_some (S := ⟨frames, b⟩) (f := (e, c)) hstop).symm.trans hS
  | @kept e c frames o U he h ih =>
      cases hstop : stop e with
      | none =>
          rw [unwind_push_none hstop]
          exact ih ((unwind_push_none (f := (e, c)) hstop).symm.trans hS)
      | some r => cases (unwind_push_some (S := ⟨frames, b⟩) (f := (e, c)) hstop).symm.trans hS

def Reached (stop : E → Option R) : List (E × C) → E → Prop
  | [], _ => False
  | f :: frames, e => f.1 = e ∨ stop f.1 = none ∧ Reached stop frames e

theorem shows_reached (he : ¬keep e) (h : Reached stop S.frames e) :
    ∃ U, S.Shows keep (some e) U ∧ unwind stop U = none := by
  obtain ⟨frames, b⟩ := S
  induction frames with
  | nil => exact h.elim
  | cons f frames ih =>
      obtain ⟨d, c⟩ := f
      rcases h with rfl | ⟨hstop, h⟩
      · exact ⟨_, .here he, rfl⟩
      · obtain ⟨U, hU, hunwind⟩ := ih h
        by_cases hk : keep d
        · exact ⟨_, .kept hk hU, (unwind_push_none hstop).trans hunwind⟩
        · exact ⟨_, .skip hk hU, (unwind_add U c).trans hunwind⟩

end Views

end Libpeg.Segments
