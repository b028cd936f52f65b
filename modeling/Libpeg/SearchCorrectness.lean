import Libpeg.CompilerCorrectness

namespace Libpeg.SearchCorrectness

open Libpeg.Opcode Libpeg.Code Libpeg.Memo Libpeg.Vm Libpeg.MemoView Libpeg.Pattern
open Libpeg.Compile Libpeg.Semantics Libpeg.Denotation Libpeg.Scoping Libpeg.Reading
open Libpeg.Relocation Libpeg.ReferenceCounts Libpeg.CaptureIds Libpeg.ListResults
open Libpeg.CompilerCorrectness

variable {w : List UInt8} {k : Nat}

section Outcomes

def Unstopped (b : Behaviour) : Prop :=
  ∀ i, ¬b i .stop

variable {b b' : Behaviour} {p : Pat}

theorem Unstopped.choice (h : Unstopped b) (h' : Unstopped b') : Unstopped (choice b b') := by
  rintro i (⟨hb, -⟩ | ⟨-, hb⟩)
  · exact h i hb
  · exact h' i hb

theorem Unstopped.followed (h : Unstopped b) (h' : Unstopped b') : Unstopped (followed b b') := by
  rintro i (⟨hb, -⟩ | ⟨j, c, o, -, hb, ho⟩)
  · exact h i hb
  · cases o with
    | stop => exact h' j hb
    | _ => cases ho

theorem Unstopped.iterated (h : Unstopped b) : Unstopped (Iterated b) := by
  intro i hb
  generalize ho : Outcome.stop = o at hb
  induction hb with
  | halt => cases ho
  | stop hb => exact h _ hb
  | @step i j c o o' _ _ ho' ih =>
      subst ho
      cases o with
      | stop => exact ih rfl
      | _ => cases ho'

theorem Unstopped.searched (h : Unstopped b) : Unstopped (Searched w b) := by
  intro i hb
  generalize ho : Outcome.stop = o at hb
  induction hb with
  | here hb => exact h _ (ho ▸ hb)
  | next _ _ _ ih => exact ih ho

theorem unstopped_iterate (h : Unstopped b) (n : Nat) :
    Unstopped ((followed b)^[n] nothing) := by
  induction n with
  | zero => rintro i ⟨⟩
  | succ n ih =>
      rw [Function.iterate_succ_apply']
      exact h.followed ih

theorem unstopped_leaf (hp : basic p = true) : Unstopped (leaf w p) := by
  have hite : ∀ (q : Prop) [Decidable q] (j : Nat),
      (if q then Outcome.ok j .nil else .fail) ≠ .stop := by
    intro q _ j
    split
    · simp
    · simp
  intro i h
  cases p with
  | cls set => exact hite _ _ (Option.some.inj h)
  | literal str => exact hite _ _ (Option.some.inj h)
  | dot n => exact hite _ _ (Option.some.inj h)
  | emptyop op => exact hite _ _ (Option.some.inj h)
  | error msg => cases hp
  | empty => cases hp
  | _ => cases h

mutual

theorem denote_unstopped (p : Pat) (hp : basic p = true) {ρ : Bindings}
    (hρ : ∀ name, Unstopped (ρ name)) : Unstopped (denote w k p ρ) := by
  cases p with
  | alt l r =>
      obtain ⟨hl, hr⟩ := Bool.and_eq_true_iff.mp hp
      exact (denote_unstopped l hl hρ).choice (denote_unstopped r hr hρ)
  | seq l r =>
      obtain ⟨hl, hr⟩ := Bool.and_eq_true_iff.mp hp
      exact (denote_unstopped l hl hρ).followed (denote_unstopped r hr hρ)
  | star p => exact (denote_unstopped p hp hρ).iterated
  | plus p => exact (denote_unstopped p hp hρ).followed (denote_unstopped p hp hρ).iterated
  | optional p => exact (denote_unstopped p hp hρ).choice (by rintro i ⟨⟩)
  | not p =>
      rintro i (⟨-, ho⟩ | ⟨-, ho⟩ | ⟨h, -⟩)
      · cases ho
      · cases ho
      · exact denote_unstopped p hp hρ i h
  | and p =>
      rintro i (⟨j, c, -, ho⟩ | ⟨h, -⟩)
      · cases ho
      · exact denote_unstopped p hp hρ i h
  | cap p id =>
      rintro i (⟨j, c, -, ho⟩ | ⟨h, -⟩)
      · cases ho
      · exact denote_unstopped p hp hρ i h
  | grammar start g =>
      have hle : bindings w k g ρ ≤ fun _ _ o => o ≠ .stop := by
        refine bindings_le fun name => ?_
        rw [denoteDefs_eq]
        cases hdef : lookupDef g name with
        | none =>
            rintro i o h rfl
            exact hρ name i h
        | some q =>
            rintro i o h rfl
            exact denoteDefs_unstopped g hp hdef (by rintro name i h; exact h rfl) i h
      exact fun i h => hle start i .stop h rfl
  | search p => exact (denote_unstopped p hp hρ).searched
  | repeated p n => exact unstopped_iterate (denote_unstopped p hp hρ) n
  | nonterm name => exact hρ name
  | inlined name p => exact denote_unstopped p hp hρ
  | cls set => exact unstopped_leaf hp
  | literal str => exact unstopped_leaf hp
  | dot n => exact unstopped_leaf hp
  | emptyop op => exact unstopped_leaf hp
  | memo p id => cases hp
  | check p fn id flag => cases hp
  | error msg => cases hp
  | errorRecover msg p => cases hp
  | empty => cases hp

theorem denoteDefs_unstopped (g : Defs) (hg : basicDefs g = true) {name : String} {q : Pat}
    (hdef : lookupDef g name = some q) {ρ : Bindings} (hρ : ∀ name, Unstopped (ρ name)) :
    Unstopped (denote w k q ρ) := by
  cases g with
  | nil => simp [lookupDef, findDef] at hdef
  | cons name' p rest =>
      obtain ⟨hp, hrest⟩ := Bool.and_eq_true_iff.mp hg
      rw [lookupDef_cons] at hdef
      split at hdef
      · obtain rfl : p = q := Option.some.inj hdef
        exact denote_unstopped p hp hρ
      · exact denoteDefs_unstopped rest hrest hdef hρ

end

theorem eval_ne_stop {i : Nat} {o : Outcome} (h : Eval w k [] p i o) (hp : basic p = true) :
    o ≠ .stop := by
  rintro rfl
  exact denote_unstopped p hp (fun name i h => h) i (denote_of_eval h)

theorem eval_search {env : List Defs} {i : Nat} (hi : i ≤ w.length)
    (hdef : ∀ i ≤ w.length, Eval w k env p i .fail ∨ ∃ j c, Eval w k env p i (.ok j c)) :
    (∃ l j c, i ≤ l ∧ l ≤ w.length ∧ (∀ i', i ≤ i' → i' < l → Eval w k env p i' .fail) ∧
        Eval w k env p l (.ok j c) ∧ Eval w k env (.search p) i (.ok j c)) ∨
      (∀ i', i ≤ i' → i' ≤ w.length → Eval w k env p i' .fail) ∧
        Eval w k env (.search p) i .fail := by
  induction hn : w.length - i generalizing i with
  | zero =>
      obtain rfl : i = w.length := by omega
      rcases hdef w.length le_rfl with h | ⟨j, c, h⟩
      · refine .inr ⟨fun i' hle hle' => ?_, .searchHere h (.inr le_rfl)⟩
        rwa [show i' = w.length by omega]
      · exact .inl ⟨w.length, j, c, le_rfl, le_rfl, fun i' hle hlt => absurd hle (by omega), h,
          .searchHere h (.inl (by simp))⟩
  | succ n ih =>
      rcases hdef i hi with h | ⟨j, c, h⟩
      · have hlt : i < w.length := by omega
        rcases ih (show i + 1 ≤ w.length by omega) (by omega) with
          ⟨l, j, c, hle, hl, hfail, hok, hs⟩ | ⟨hfail, hs⟩
        · refine .inl ⟨l, j, c, by omega, hl, fun i' hi' hl' => ?_, hok, .searchNext h hlt hs⟩
          rcases Nat.eq_or_lt_of_le hi' with rfl | hi'
          · exact h
          · exact hfail i' hi' hl'
        · refine .inr ⟨fun i' hi' hl' => ?_, .searchNext h hlt hs⟩
          rcases Nat.eq_or_lt_of_le hi' with rfl | hi'
          · exact h
          · exact hfail i' hi' hl'
      · exact .inl ⟨i, j, c, le_rfl, hi, fun i' hle hlt => absurd hle (by omega), h,
          .searchHere h (.inl (by simp))⟩

end Outcomes

/-- A run of a search reports the first match of the pattern, and fails when there is none. -/
def FindsFirst (w : List UInt8) (k : Nat) (p : Pat) (m : Mem) (r : VmResult) : Prop :=
  (r.success = true ↔ ∃ i ≤ w.length, ∃ j c, Eval w k [] p i (.ok j c)) ∧
    ∀ i j c, i ≤ w.length → Eval w k [] p i (.ok j c) →
      (∀ i' < i, ∀ j' c', ¬Eval w k [] p i' (.ok j' c')) → Reports m r (.ok j c)

/-- The definitions of `U` and `A` are not compiled: `P <- "a"`,
`U <- (B <- A, A <- {"b"})`, `A <- "c"`. -/
def unusedDefs : Defs :=
  .cons "P" (.literal [97]) (.cons "U" (.grammar "B" (.cons "B" (.nonterm "A")
    (.cons "A" (.cap (.literal [98]) 40000) .nil))) (.cons "A" (.literal [99]) .nil))

theorem lookupDef_unusedDefs (m : Nat) :
    ∃ rest, inlinePass^[m] unusedDefs = .cons "P" (.literal [97]) rest := by
  induction m with
  | zero => exact ⟨_, rfl⟩
  | succ m ih =>
      obtain ⟨rest, hrest⟩ := ih
      rw [Function.iterate_succ_apply', hrest]
      exact ⟨_, rfl⟩

theorem scoped_unusedDefs : Scoped true (.grammar "P" unusedDefs) := by
  have hinline : ∀ n g, grammarInline n unusedDefs = some g → g = inlinePass unusedDefs
      ∧ unresolvedDefs g = [] := by
    intro n g h
    match n with
    | 0 => cases h
    | 1 => cases h
    | n + 2 =>
        cases h
        exact ⟨rfl, rfl⟩
  refine .grammar (fun m name h => ?_) (fun n g hin name q hname hq => ?_)
    fun _ n g hin _ q hq x hx => ?_
  · obtain ⟨rest, hrest⟩ := lookupDef_unusedDefs m
    rw [hrest] at h ⊢
    cases h.cases_head with
    | inl h =>
        subst h
        trivial
    | inr h =>
        obtain ⟨x, hx, -⟩ := h
        exact absurd hx not_false
  · obtain ⟨rfl, hnil⟩ := hinline n g hin
    rw [hnil] at hname
    obtain rfl : name = "P" := by simpa using hname
    cases hq
    exact .literal
  · obtain ⟨rfl, -⟩ := hinline n g hin
    cases hq
    exact absurd hx not_false

/-- A grammar with an `A` of its own in a grammar with another `A`:
`P <- (B <- A, A <- "b")`, `A <- "c"`. -/
def shadowPat : Pat :=
  .grammar "P" (.cons "P" (.grammar "B" (.cons "B" (.nonterm "A")
    (.cons "A" (.literal [98]) .nil))) (.cons "A" (.literal [99]) .nil))

theorem eval_shadowPat (w : List UInt8) (k i : Nat) :
    Eval w k [] shadowPat i
      (if ([98] : List UInt8).isPrefixOf (w.drop i) then .ok (i + 1) .nil else .fail) :=
  .grammar (.nonterm rfl (.grammar (.nonterm rfl (.nonterm rfl (.leaf rfl)))))

theorem shadowPat_search : ∃ c r, patCompile 20 0 (.search shadowPat) = some (.ok c) ∧
    vmExec 40 ⟨c, [98], -1, -1⟩ Mem.empty none 0 = some (.ok r) ∧ r.1.success = false :=
  ⟨_, _, rfl, rfl, rfl⟩

end Libpeg.SearchCorrectness
