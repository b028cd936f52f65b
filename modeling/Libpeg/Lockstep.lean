namespace Libpeg.Lockstep

variable {S R O : Type}

/-- The run from a state ends with a result after some steps. -/
inductive Yields (step : S → S ⊕ R) : Nat → S → R → Prop
  | stop {s : S} {r : R} (h : step s = .inr r) : Yields step 1 s r
  | step {s s' : S} {n : Nat} {r : R} (h : step s = .inl s') (hrest : Yields step n s' r) :
      Yields step (n + 1) s r

/-- The state after some steps, if the run has not ended. -/
def after (step : S → S ⊕ R) : Nat → S → Option S
  | 0, s => some s
  | n + 1, s =>
      match step s with
      | .inl s' => after step n s'
      | .inr _ => none

/-- Some steps that do not change what is observed. -/
inductive Quiet (step : S → S ⊕ R) (obs : S → O) : Nat → S → S → Prop
  | refl (s : S) : Quiet step obs 0 s s
  | step {s s' s'' : S} {n : Nat} (h : step s = .inl s') (hobs : obs s' = obs s)
      (hrest : Quiet step obs n s' s'') : Quiet step obs (n + 1) s s''

variable {f g : S → S ⊕ R} {obs : S → O} {Good : S → Prop}

theorem Quiet.yields {n m : Nat} {s s' : S} {r : R} (hquiet : Quiet f obs m s s')
    (h : Yields f n s' r) : Yields f (n + m) s r := by
  induction hquiet with
  | refl s => exact h
  | step hstep _ _ ih => exact .step hstep (ih h)

theorem Yields.of_quiet {n m : Nat} {s s' : S} {r : R} (h : Yields f n s r)
    (hquiet : Quiet f obs m s s') : ∃ k, n = k + m ∧ Yields f k s' r := by
  induction hquiet generalizing n with
  | refl s => exact ⟨n, rfl, h⟩
  | step hstep _ _ ih =>
      cases h with
      | stop hstop => cases hstep.symm.trans hstop
      | step hstep' hrest =>
          cases hstep.symm.trans hstep'
          obtain ⟨k, rfl, hk⟩ := ih hrest
          exact ⟨k, rfl, hk⟩

theorem Quiet.after_eq {n m : Nat} {s s' : S} (h : Quiet f obs m s s') :
    after f (m + n) s = after f n s' := by
  induction h with
  | refl s => rw [Nat.zero_add]
  | @step s s' s'' k hstep _ _ ih =>
      rw [Nat.add_right_comm]
      simp only [after, hstep]
      exact ih

theorem Quiet.after_obs {n m : Nat} {s s' t : S} (h : Quiet f obs m s s') (hle : n ≤ m)
    (ht : after f n s = some t) : obs t = obs s := by
  induction h generalizing n with
  | refl s =>
      obtain rfl : n = 0 := by omega
      cases ht
      rfl
  | step hstep hobs _ ih =>
      cases n with
      | zero =>
          cases ht
          rfl
      | succ n =>
          simp only [after, hstep] at ht
          exact (ih (by omega) ht).trans hobs

/-- From a state both machines come, quietly, to states whose steps agree. -/
def Meets (f g : S → S ⊕ R) (obs : S → O) (Good : S → Prop) (s : S) : Prop :=
  ∃ m n s₁ s₂, Quiet f obs m s s₁ ∧ Quiet g obs n s s₂ ∧ f s₁ = g s₂ ∧
    ∀ s', g s₂ = .inl s' → Good s'

theorem Meets.symm {s : S} (h : Meets f g obs Good s) : Meets g f obs Good s := by
  obtain ⟨m, n, s₁, s₂, hf, hg, heq, hgood⟩ := h
  exact ⟨n, m, s₂, s₁, hg, hf, heq.symm, heq ▸ hgood⟩

theorem Yields.meets (hmeets : ∀ s, Good s → Meets f g obs Good s) {n : Nat} {s : S} {r : R}
    (hs : Good s) (h : Yields f n s r) : ∃ k, Yields g k s r := by
  induction n using Nat.strongRecOn generalizing s with
  | ind n ih =>
      obtain ⟨m, k, s₁, s₂, hf, hg, heq, hgood⟩ := hmeets s hs
      obtain ⟨n', rfl, h₁⟩ := h.of_quiet hf
      cases h₁ with
      | stop hstop => exact ⟨_, hg.yields (.stop (heq ▸ hstop))⟩
      | @step _ s' n' _ hstep hrest =>
          obtain ⟨j, hj⟩ := ih n' (by omega) (hgood s' (heq ▸ hstep)) hrest
          exact ⟨_, hg.yields (.step (heq ▸ hstep) hj)⟩

theorem yields_iff (hmeets : ∀ s, Good s → Meets f g obs Good s) {s : S} (hs : Good s) (r : R) :
    (∃ n, Yields f n s r) ↔ ∃ n, Yields g n s r :=
  ⟨fun ⟨_, h⟩ => h.meets hmeets hs,
    fun ⟨_, h⟩ => h.meets (fun s hs => (hmeets s hs).symm) hs⟩

theorem after_meets (hmeets : ∀ s, Good s → Meets f g obs Good s) {n : Nat} {s t : S}
    (hs : Good s) (h : after f n s = some t) : ∃ k t', after g k s = some t' ∧ obs t' = obs t := by
  induction n using Nat.strongRecOn generalizing s with
  | ind n ih =>
      obtain ⟨m, k, s₁, s₂, hf, hg, heq, hgood⟩ := hmeets s hs
      by_cases hle : n ≤ m
      · exact ⟨0, s, rfl, (hf.after_obs hle h).symm⟩
      · obtain ⟨d, rfl⟩ := Nat.exists_eq_add_of_lt (Nat.lt_of_not_le hle)
        rw [Nat.add_assoc, hf.after_eq] at h
        cases hstep : f s₁ with
        | inr r => simp [after, hstep] at h
        | inl s' =>
            simp only [after, hstep] at h
            have hstep' : g s₂ = .inl s' := heq ▸ hstep
            obtain ⟨j, t', ht', hobs⟩ := ih d (by omega) (hgood s' hstep') h
            refine ⟨k + (j + 1), t', ?_, hobs⟩
            rw [hg.after_eq]
            simp only [after, hstep', ht']

theorem observed_iff (hmeets : ∀ s, Good s → Meets f g obs Good s) {s : S} (hs : Good s) (o : O) :
    (∃ n t, after f n s = some t ∧ obs t = o) ↔ ∃ n t, after g n s = some t ∧ obs t = o := by
  constructor
  · rintro ⟨n, t, ht, rfl⟩
    exact after_meets hmeets hs ht
  · rintro ⟨n, t, ht, rfl⟩
    exact after_meets (fun s hs => (hmeets s hs).symm) hs ht

end Libpeg.Lockstep
