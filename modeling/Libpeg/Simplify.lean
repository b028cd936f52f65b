import Libpeg.Semantics
import Libpeg.Forest
import Mathlib.Data.List.Basic

namespace Libpeg.Simplify

open Libpeg.Charset Libpeg.Memo Libpeg.Pattern Libpeg.Semantics

section Rules

variable {p q l r l' r' : Pat}

theorem same_alt (hl : SameOutcome l l') (hr : SameOutcome r r') :
    SameOutcome (.alt l r) (.alt l' r') := by
  intro w k env i o
  rw [eval_alt, eval_alt, hl w k env i o, hl w k env i .fail, hr w k env i o]

theorem same_seq (hl : SameOutcome l l') (hr : SameOutcome r r') :
    SameOutcome (.seq l r) (.seq l' r') := by
  intro w k env i o
  rw [eval_seq, eval_seq, hl w k env i o]
  refine or_congr Iff.rfl ?_
  constructor
  · rintro ⟨j, c, o', h, h', ho⟩
    exact ⟨j, c, o', (hl w k env i _).mp h, (hr w k env j o').mp h', ho⟩
  · rintro ⟨j, c, o', h, h', ho⟩
    exact ⟨j, c, o', (hl w k env i _).mpr h, (hr w k env j o').mpr h', ho⟩

theorem same_optional (h : SameOutcome p q) : SameOutcome (.optional p) (.optional q) := by
  intro w k env i o
  rw [eval_optional, eval_optional]
  exact same_alt h (.refl .empty) w k env i o

theorem same_alt_empty : SameOutcome (.alt p .empty) (.optional p) :=
  fun _ _ _ _ _ => eval_optional.symm

theorem same_empty_alt : SameOutcome (.alt .empty r) .empty := by
  intro w k env i o
  rw [eval_alt, eval_leaf (p := .empty) rfl, eval_leaf (p := .empty) rfl]
  constructor
  · rintro (⟨h, -⟩ | ⟨h, -⟩)
    · exact h
    · cases h
  · rintro rfl
    exact .inl ⟨rfl, by simp⟩

theorem same_optional_star : SameOutcome (.optional (.star p)) (.star p) := by
  intro w k env i o
  rw [eval_optional, eval_alt]
  constructor
  · rintro (⟨h, -⟩ | ⟨h, -⟩)
    · exact h
    · exact absurd h star_not_fail
  · intro h
    refine .inl ⟨h, ?_⟩
    rintro rfl
    exact star_not_fail h

theorem same_seq_empty : SameOutcome (.seq p .empty) p := by
  intro w k env i o
  rw [eval_seq]
  constructor
  · rintro (⟨h, -⟩ | ⟨j, c, o', h, h', rfl⟩)
    · exact h
    · obtain rfl := (eval_leaf (p := .empty) rfl).mp h'
      simpa [Outcome.after, Forest.append_nil] using h
  · intro h
    cases o with
    | ok j c =>
        refine .inr ⟨j, c, .ok j .nil, h, .leaf rfl, ?_⟩
        simp [Outcome.after, Forest.append_nil]
    | fail => exact .inl ⟨h, rfl⟩
    | stop => exact .inl ⟨h, rfl⟩

theorem same_empty_seq : SameOutcome (.seq .empty p) p := by
  intro w k env i o
  rw [eval_seq]
  constructor
  · rintro (⟨h, ho⟩ | ⟨j, c, o', h, h', rfl⟩)
    · obtain rfl := (eval_leaf (p := .empty) rfl).mp h
      cases ho
    · cases (eval_leaf (p := .empty) rfl).mp h
      rw [Outcome.after_nil]
      exact h'
  · intro h
    exact .inr ⟨i, .nil, o, .leaf rfl, h, (Outcome.after_nil o).symm⟩

end Rules

def byteOutcome (w : List UInt8) (i : Nat) (f : UInt8 → Bool) : Outcome :=
  if w[i]?.any f then .ok (i + 1) .nil else .fail

/-- A pattern matches one byte that passes a test. -/
def MatchesByte (p : Pat) (f : UInt8 → Bool) : Prop :=
  ∀ w i, leafOutcome w i p = some (byteOutcome w i f)

theorem matchesByte_cls (set : VmCharset) : MatchesByte (.cls set) set.has :=
  fun _ _ => rfl

theorem matchesByte_literal (b : UInt8) : MatchesByte (.literal [b]) (fun c => decide (c = b)) := by
  intro w i
  simp only [leafOutcome, byteOutcome]
  congr 1
  have hget : w[i]? = (w.drop i).head? := by simp [List.head?_drop]
  rw [hget]
  cases w.drop i with
  | nil => rfl
  | cons c rest =>
      by_cases hc : c = b
      · simp [hc]
      · simp [hc, Ne.symm hc]

theorem matchesByte_dot : MatchesByte (.dot 1) (fun _ => true) := by
  intro w i
  simp only [leafOutcome, byteOutcome]
  by_cases hi : i < w.length
  · have hle : i + (1 : UInt8).toNat ≤ w.length := hi
    simp only [if_pos hle, List.getElem?_eq_getElem hi, Option.any_some, if_true]
    rfl
  · have hle : ¬i + (1 : UInt8).toNat ≤ w.length := hi
    simp only [if_neg hle, List.getElem?_eq_none (by omega : w.length ≤ i), Option.any_none,
      Bool.false_eq_true, if_false]

theorem same_alt_byte {l r : Pat} {f g : UInt8 → Bool} {set : VmCharset} (hl : MatchesByte l f)
    (hr : MatchesByte r g) (hset : ∀ b, set.has b = (f b || g b)) :
    SameOutcome (.alt l r) (.cls set) := by
  intro w k env i o
  rw [eval_alt, eval_leaf (hl w i), eval_leaf (hl w i), eval_leaf (hr w i),
    eval_leaf (matchesByte_cls set w i)]
  unfold byteOutcome
  cases w[i]? with
  | none => simp
  | some b =>
      simp only [Option.any_some, hset]
      by_cases hf : f b = true
      · simp only [hf, if_true, Bool.true_or, reduceCtorEq, false_and, or_false]
        exact ⟨fun h => h.1, fun h => ⟨h, by simp [h]⟩⟩
      · by_cases hg : g b = true <;> simp [hf, hg]

theorem same_not_byte {n r : Pat} {f g : UInt8 → Bool} {set : VmCharset} (hn : MatchesByte n f)
    (hr : MatchesByte r g) (hset : ∀ b, set.has b = (g b && !f b)) :
    SameOutcome (.seq (.not n) r) (.cls set) := by
  intro w k env i o
  have hnot : ∀ o, Eval w k env (.not n) i o ↔
      o = if w[i]?.any f then .fail else .ok i .nil := by
    intro o
    rw [eval_not, eval_leaf (hn w i), eval_leaf (hn w i)]
    simp only [eval_leaf (hn w i), byteOutcome]
    split <;> simp
  rw [eval_seq, hnot, eval_leaf (matchesByte_cls set w i)]
  simp only [hnot, eval_leaf (hr w _), byteOutcome]
  cases hb : w[i]? with
  | none =>
      simp only [Option.any_none, Bool.false_eq_true, if_false]
      constructor
      · rintro (⟨rfl, ho⟩ | ⟨j, c, o', heq, ho', rfl⟩)
        · cases ho
        · cases heq
          rw [hb] at ho'
          simp only [Option.any_none, Bool.false_eq_true, if_false] at ho'
          subst ho'
          rfl
      · rintro rfl
        exact .inr ⟨i, .nil, .fail, rfl, by simp [hb], rfl⟩
  | some b =>
      simp only [Option.any_some, hset]
      by_cases hf : f b = true
      · simp only [hf, if_true, Bool.not_true, Bool.and_false, Bool.false_eq_true, if_false]
        constructor
        · rintro (⟨rfl, -⟩ | ⟨j, c, o', heq, -⟩)
          · rfl
          · cases heq
        · rintro rfl
          exact .inl ⟨rfl, rfl⟩
      · have hf : f b = false := by simpa using hf
        simp only [hf, Bool.false_eq_true, if_false, Bool.not_false, Bool.and_true]
        constructor
        · rintro (⟨rfl, ho⟩ | ⟨j, c, o', heq, ho', rfl⟩)
          · cases ho
          · cases heq
            rw [hb, Option.any_some] at ho'
            rw [ho', Outcome.after_nil]
        · rintro rfl
          refine .inr ⟨i, .nil, _, rfl, rfl, ?_⟩
          rw [hb, Option.any_some, Outcome.after_nil]

theorem same_combine {l r : Pat} {set : VmCharset} (h : combine l r = some set) :
    SameOutcome (.alt l r) (.cls set) := by
  unfold combine at h
  split at h
  · next b set' =>
      cases h
      refine same_alt_byte (matchesByte_literal b) (matchesByte_cls set') fun c => ?_
      simp [has_fill_singleton, Bool.or_comm]
  · next b c =>
      cases h
      refine same_alt_byte (matchesByte_literal b) (matchesByte_literal c) fun d => ?_
      simp [has_set_true, has_fill_singleton]
  · next set₁ set₂ =>
      cases h
      exact same_alt_byte (matchesByte_cls set₁) (matchesByte_cls set₂) fun c => by simp
  · next set' c =>
      cases h
      refine same_alt_byte (matchesByte_cls set') (matchesByte_literal c) fun d => ?_
      simp [has_fill_singleton]
  · cases h

theorem matchesByte_notSet {n : Pat} {set : VmCharset} (h : notSet n = some set) :
    MatchesByte n set.has := by
  unfold notSet at h
  split at h
  · next b =>
      cases h
      have hset : (VmCharset.fill [b]).has = fun c => decide (c = b) := by
        funext c
        exact has_fill_singleton b c
      rw [hset]
      exact matchesByte_literal b
  · cases h
    exact matchesByte_cls _
  · cases h

theorem same_exceptSet {n r : Pat} {set set' : VmCharset} (hn : notSet n = some set)
    (h : exceptSet set r = some set') : SameOutcome (.seq (.not n) r) (.cls set') := by
  have hnot := matchesByte_notSet hn
  unfold exceptSet at h
  split at h
  · next m =>
      split at h
      · next hm =>
          cases h
          subst hm
          exact same_not_byte hnot matchesByte_dot fun b => by simp
      · cases h
  · next set₂ =>
      cases h
      exact same_not_byte hnot (matchesByte_cls set₂) fun b => by simp
  · next b =>
      cases h
      exact same_not_byte hnot (matchesByte_literal b) fun c => by simp [has_fill_singleton]
  · cases h

/-- Every choice that `get_pat` meets with a left operand that simplifies to the
empty pattern has a right operand that is as good as empty. -/
def EmptyLeftHarmless : Nat → Pat → Prop
  | 0, _ => True
  | fuel + 1, .alt l r =>
      EmptyLeftHarmless fuel l ∧ EmptyLeftHarmless fuel r ∧
        ∀ l' r', getPat fuel l = some l' → getPat fuel r = some r' →
          (isEmpty l' = true → SameOutcome r .empty) ∧
          (isEmpty l' = false → isEmpty r' = true → EmptyLeftHarmless fuel (.optional l'))
  | fuel + 1, .optional p => EmptyLeftHarmless fuel p
  | fuel + 1, .seq l r => EmptyLeftHarmless fuel l ∧ EmptyLeftHarmless fuel r
  | _ + 1, _ => True

/-- `get_pat` keeps the meaning of a pattern and of every pattern that it
simplifies on the way. -/
def SimplifiesSoundly : Nat → Pat → Prop
  | 0, _ => True
  | fuel + 1, .alt l r =>
      (∀ p', getPat (fuel + 1) (.alt l r) = some p' → SameOutcome (.alt l r) p') ∧
        SimplifiesSoundly fuel l ∧ SimplifiesSoundly fuel r ∧
        ∀ l' r', getPat fuel l = some l' → getPat fuel r = some r' → isEmpty l' = false →
          isEmpty r' = true → SimplifiesSoundly fuel (.optional l')
  | fuel + 1, .optional p =>
      (∀ p', getPat (fuel + 1) (.optional p) = some p' → SameOutcome (.optional p) p') ∧
        SimplifiesSoundly fuel p
  | fuel + 1, .seq l r =>
      (∀ p', getPat (fuel + 1) (.seq l r) = some p' → SameOutcome (.seq l r) p') ∧
        SimplifiesSoundly fuel l ∧ SimplifiesSoundly fuel r
  | fuel + 1, p => ∀ p', getPat (fuel + 1) p = some p' → SameOutcome p p'

theorem eq_empty_of_isEmpty {p : Pat} (h : isEmpty p = true) : p = .empty := by
  unfold isEmpty at h
  split at h
  · rfl
  · cases h

theorem eq_star_of_isStar {p : Pat} (h : isStar p = true) : ∃ q, p = .star q := by
  unfold isStar at h
  split at h
  · exact ⟨_, rfl⟩
  · cases h

theorem same_getSeq {l r l' r' : Pat} (hl : SameOutcome l l') (hr : SameOutcome r r') :
    SameOutcome (.seq l r) (getSeq (.seq l r) l' r') := by
  have hboth := same_seq hl hr
  unfold getSeq
  split
  · next hempty =>
      rw [eq_empty_of_isEmpty hempty] at hboth
      exact hboth.trans same_seq_empty
  · split
    · next hempty =>
        rw [eq_empty_of_isEmpty hempty] at hboth
        exact hboth.trans same_empty_seq
    · split
      · next np =>
          split
          · next set hset =>
              obtain ⟨set', hn, hexcept⟩ := Option.bind_eq_some_iff.mp hset
              exact hboth.trans (same_exceptSet hn hexcept)
          · exact .refl _
      · exact .refl _

/-- `get_pat` keeps the meaning of a pattern when the empty left operands that it
drops do no harm. -/
theorem getPat_sameOutcome {fuel : Nat} {p p' : Pat} (h : getPat fuel p = some p')
    (hharmless : EmptyLeftHarmless fuel p) : SameOutcome p p' := by
  induction fuel generalizing p p' with
  | zero => cases h
  | succ fuel ih =>
      cases p with
      | inlined name q =>
          cases h
          exact fun w k env i o => eval_inlined
      | alt l r =>
          simp only [getPat, Option.bind_eq_bind, Option.bind_eq_some_iff] at h
          obtain ⟨l', hl, r', hr, h⟩ := h
          obtain ⟨hhl, hhr, hrest⟩ := hharmless
          obtain ⟨hleft, hopt⟩ := hrest l' r' hl hr
          have hboth := same_alt (ih hl hhl) (ih hr hhr)
          split at h
          · next hempty =>
              cases h
              rw [eq_empty_of_isEmpty hempty] at hboth
              exact ((hboth.trans same_empty_alt).trans (hleft hempty).symm).trans (ih hr hhr)
          · next hne =>
              have hne : isEmpty l' = false := by simpa using hne
              split at h
              · next hempty =>
                  have hnext := ih h (hopt hne hempty)
                  rw [eq_empty_of_isEmpty hempty] at hboth
                  exact (hboth.trans same_alt_empty).trans hnext
              · split at h
                · next set hset =>
                    cases h
                    exact hboth.trans (same_combine hset)
                · cases h
                  exact .refl _
      | optional q =>
          simp only [getPat, Option.bind_eq_bind, Option.bind_eq_some_iff] at h
          obtain ⟨q', hq, h⟩ := h
          split at h
          · next hstar =>
              cases h
              obtain ⟨s, rfl⟩ := eq_star_of_isStar hstar
              exact (same_optional (ih hq hharmless)).trans same_optional_star
          · cases h
            exact .refl _
      | seq l r =>
          simp only [getPat, Option.bind_eq_bind, Option.bind_eq_some_iff] at h
          obtain ⟨l', hl, r', hr, h⟩ := h
          cases h
          exact same_getSeq (ih hl hharmless.1) (ih hr hharmless.2)
      | _ =>
          cases h
          exact .refl _

theorem SimplifiesSoundly.self {fuel : Nat} {p p' : Pat} (hs : SimplifiesSoundly fuel p)
    (h : getPat fuel p = some p') : SameOutcome p p' := by
  cases fuel with
  | zero => cases h
  | succ fuel =>
      cases p with
      | alt l r => exact hs.1 p' h
      | optional q => exact hs.1 p' h
      | seq l r => exact hs.1 p' h
      | _ => exact hs p' h

/-- The empty left operands that `get_pat` drops are the only harm it does. -/
theorem simplifiesSoundly_iff (fuel : Nat) (p : Pat) :
    SimplifiesSoundly fuel p ↔ EmptyLeftHarmless fuel p := by
  induction fuel generalizing p with
  | zero => exact Iff.rfl
  | succ fuel ih =>
      cases p with
      | alt l r =>
          constructor
          · rintro ⟨hself, hl, hr, hopt⟩
            refine ⟨(ih l).mp hl, (ih r).mp hr, fun l' r' hgl hgr => ⟨fun hempty => ?_, ?_⟩⟩
            · have hget : getPat (fuel + 1) (.alt l r) = some r' := by
                simp [getPat, hgl, hgr, hempty]
              have hsl := hl.self hgl
              rw [eq_empty_of_isEmpty hempty] at hsl
              have hempty' : SameOutcome .empty (.alt l r) :=
                (same_empty_alt (r := r)).symm.trans (same_alt hsl (.refl r)).symm
              exact ((hempty'.trans (hself r' hget)).trans (hr.self hgr).symm).symm
            · intro hne hempty
              exact (ih _).mp (hopt l' r' hgl hgr hne hempty)
          · intro h
            obtain ⟨hl, hr, hrest⟩ := id h
            refine ⟨fun p' hp' => getPat_sameOutcome hp' h, (ih l).mpr hl, (ih r).mpr hr, ?_⟩
            intro l' r' hgl hgr hne hempty
            exact (ih _).mpr ((hrest l' r' hgl hgr).2 hne hempty)
      | optional q =>
          constructor
          · rintro ⟨-, hq⟩
            exact (ih q).mp hq
          · intro h
            exact ⟨fun p' hp' => getPat_sameOutcome hp' h, (ih q).mpr h⟩
      | seq l r =>
          constructor
          · rintro ⟨-, hl, hr⟩
            exact ⟨(ih l).mp hl, (ih r).mp hr⟩
          · intro h
            exact ⟨fun p' hp' => getPat_sameOutcome hp' h, (ih l).mpr h.1, (ih r).mpr h.2⟩
      | _ => exact ⟨fun _ => trivial, fun h p' hp' => getPat_sameOutcome hp' h⟩

/-- The part of a pattern that `get_pat` looks through. -/
def getSize : Pat → Nat
  | .alt l r | .seq l r => getSize l + getSize r + 1
  | .optional p | .inlined _ p => getSize p + 1
  | _ => 1

theorem getSize_pos (p : Pat) : 1 ≤ getSize p := by
  cases p <;> simp [getSize]

theorem getSize_getSeq {p l r : Pat} (hl : getSize l ≤ getSize p) (hr : getSize r ≤ getSize p) :
    getSize (getSeq p l r) ≤ getSize p := by
  unfold getSeq
  split
  · exact hl
  · split
    · exact hr
    · split
      · split
        · exact getSize_pos p
        · exact le_rfl
      · exact le_rfl

theorem getPat_total (n : Nat) (p : Pat) (hp : getSize p ≤ n) :
    ∃ p', getPat n p = some p' ∧ getSize p' ≤ getSize p := by
  induction n generalizing p with
  | zero => exact absurd (getSize_pos p) (by omega)
  | succ n ih =>
      cases p with
      | inlined name q => exact ⟨q, rfl, by simp [getSize]⟩
      | alt l r =>
          simp only [getSize] at hp
          have hl1 := getSize_pos l
          have hr1 := getSize_pos r
          obtain ⟨l', hl, hlsize⟩ := ih l (by omega)
          obtain ⟨r', hr, hrsize⟩ := ih r (by omega)
          simp only [getPat, hl, hr, Option.bind_eq_bind, Option.bind_some]
          split
          · exact ⟨r', rfl, by simp only [getSize]; omega⟩
          · split
            · obtain ⟨q, hq, hqsize⟩ := ih (.optional l') (by simp only [getSize]; omega)
              refine ⟨q, hq, ?_⟩
              simp only [getSize] at hqsize ⊢
              omega
            · split
              · exact ⟨_, rfl, by simp only [getSize]; omega⟩
              · exact ⟨_, rfl, le_rfl⟩
      | optional q =>
          simp only [getSize] at hp
          obtain ⟨q', hq, hqsize⟩ := ih q (by omega)
          simp only [getPat, hq, Option.bind_eq_bind, Option.bind_some]
          split
          · exact ⟨q', rfl, by simp only [getSize]; omega⟩
          · exact ⟨_, rfl, le_rfl⟩
      | seq l r =>
          simp only [getSize] at hp
          have hl1 := getSize_pos l
          have hr1 := getSize_pos r
          obtain ⟨l', hl, hlsize⟩ := ih l (by omega)
          obtain ⟨r', hr, hrsize⟩ := ih r (by omega)
          simp only [getPat, hl, hr, Option.bind_eq_bind, Option.bind_some]
          refine ⟨_, rfl, getSize_getSeq ?_ ?_⟩
          · simp only [getSize]
            omega
          · simp only [getSize]
            omega
      | _ => exact ⟨_, rfl, le_rfl⟩

/-- `get_pat` returns. It keeps the meaning of the pattern and of all patterns that
it simplifies on the way exactly when every choice that it meets with an empty left
operand has a right operand as good as empty. -/
theorem getPat_preserves_iff (p : Pat) :
    ∃ p', getPat (getSize p) p = some p' ∧
      (SimplifiesSoundly (getSize p) p ↔ EmptyLeftHarmless (getSize p) p) ∧
      (EmptyLeftHarmless (getSize p) p → SameOutcome p p') := by
  obtain ⟨p', hp', -⟩ := getPat_total (getSize p) p le_rfl
  exact ⟨p', hp', simplifiesSoundly_iff _ p, getPat_sameOutcome hp'⟩

/-- The choice between nothing and an `a` is read as an `a`. -/
theorem getPat_changes_outcome :
    ¬∀ (fuel : Nat) (p p' : Pat), getPat fuel p = some p' → SameOutcome p p' := by
  intro h
  have hsame := h 2 (.alt .empty (.literal [97])) (.literal [97]) rfl [98] 0 [] 0 (.ok 0 .nil)
  have hempty : Eval [98] 0 [] (.alt .empty (.literal [97])) 0 (.ok 0 .nil) :=
    .altLeft (.leaf rfl) (by decide)
  have hleaf : leafOutcome [98] 0 (.literal [97]) = some .fail := by decide
  cases (eval_leaf hleaf).mp (hsame.mp hempty)

end Libpeg.Simplify
