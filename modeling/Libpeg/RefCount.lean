import Mathlib.Data.List.Count
import Mathlib.Data.List.Flatten
import Mathlib.Data.List.GetD
import Mathlib.Data.List.Perm.Basic

/-!
Reference counts in a heap whose cells point to older cells. A cell is given by
the list of its pointers and is live as long as its count is not zero. The counts
are exact when they count the pointers from outside and from live cells.
-/

namespace Libpeg.RefCount

def livePointers (kids : List (List Nat)) (refs : List Nat) : List Nat :=
  (kids.zip refs).flatMap fun x => if x.2 = 0 then [] else x.1

structure Exact (kids : List (List Nat)) (refs roots : List Nat) : Prop where
  length : refs.length = kids.length
  older : ∀ (c : Nat) (l : List Nat), kids[c]? = some l → ∀ d ∈ l, d < c
  count : ∀ c, refs.getD c 0 = roots.count c + (livePointers kids refs).count c

/-- Give a reference back. A cell whose count drops to zero gives back those it
holds. -/
def release (kids : List (List Nat)) : Nat → List Nat → Nat → List Nat
  | 0, refs, _ => refs
  | fuel + 1, refs, c =>
      let refs := refs.modify c (· - 1)
      if refs.getD c 0 ≠ 0 then refs
      else (kids.getD c []).foldl (release kids fuel) refs

theorem getD_modify (refs : List Nat) (c d : Nat) (f : Nat → Nat) :
    (refs.modify c f).getD d 0 =
      if c = d ∧ d < refs.length then f (refs.getD d 0) else refs.getD d 0 := by
  rw [List.getD_eq_getElem?_getD, List.getD_eq_getElem?_getD, List.getElem?_modify]
  by_cases hd : d < refs.length
  · by_cases hcd : c = d <;> simp [hd, hcd]
  · simp [hd]

@[simp] theorem livePointers_nil (refs : List Nat) : livePointers [] refs = [] :=
  rfl

@[simp] theorem livePointers_cons (l : List Nat) (kids : List (List Nat)) (n : Nat)
    (refs : List Nat) :
    livePointers (l :: kids) (n :: refs) = (if n = 0 then [] else l) ++ livePointers kids refs := by
  simp [livePointers]

theorem livePointers_modify (kids : List (List Nat)) (refs : List Nat) (c : Nat) (f : Nat → Nat)
    (hlive : f (refs.getD c 0) = 0 ↔ refs.getD c 0 = 0) :
    livePointers kids (refs.modify c f) = livePointers kids refs := by
  induction kids generalizing refs c with
  | nil => rfl
  | cons l kids ih =>
      cases refs with
      | nil => simp
      | cons n refs =>
          cases c with
          | zero =>
              have hn : f n = 0 ↔ n = 0 := by simpa using hlive
              simp [hn]
          | succ c =>
              have hc := ih refs c (by simpa using hlive)
              simp [hc]

theorem livePointers_kill (kids : List (List Nat)) (refs : List Nat) (c : Nat) (f : Nat → Nat)
    (hlen : refs.length = kids.length) (hlive : refs.getD c 0 ≠ 0) (hdead : f (refs.getD c 0) = 0) :
    (livePointers kids refs).Perm (kids.getD c [] ++ livePointers kids (refs.modify c f)) := by
  induction kids generalizing refs c with
  | nil =>
      have hnil : refs = [] := List.length_eq_zero_iff.mp hlen
      simp [hnil] at hlive
  | cons l kids ih =>
      cases refs with
      | nil => simp at hlen
      | cons n refs =>
          cases c with
          | zero =>
              have hn : n ≠ 0 := by simpa using hlive
              have hfn : f n = 0 := by simpa using hdead
              simp [hn, hfn]
          | succ c =>
              have hc := ih refs c (by simpa using hlen) (by simpa using hlive)
                (by simpa using hdead)
              simp only [livePointers_cons, List.modify_succ_cons, List.getD_cons_succ]
              refine (hc.append_left _).trans ?_
              rw [← List.append_assoc, ← List.append_assoc]
              exact List.perm_append_comm.append_right _

theorem livePointers_add (kids : List (List Nat)) (refs : List Nat) (c child : Nat)
    (hlen : refs.length = kids.length) (hlive : refs.getD c 0 ≠ 0) :
    (livePointers (kids.modify c (· ++ [child])) refs).Perm (child :: livePointers kids refs) := by
  induction kids generalizing refs c with
  | nil =>
      have hnil : refs = [] := List.length_eq_zero_iff.mp hlen
      simp [hnil] at hlive
  | cons l kids ih =>
      cases refs with
      | nil => simp at hlen
      | cons n refs =>
          cases c with
          | zero =>
              have hn : n ≠ 0 := by simpa using hlive
              simp only [List.modify_zero_cons, livePointers_cons, hn, if_false]
              rw [List.append_assoc]
              exact List.perm_middle
          | succ c =>
              have hc := ih refs c (by simpa using hlen) (by simpa using hlive)
              simp only [livePointers_cons, List.modify_succ_cons]
              exact (hc.append_left _).trans List.perm_middle

theorem livePointers_snoc (kids : List (List Nat)) (refs l : List Nat) (n : Nat)
    (hlen : refs.length = kids.length) :
    livePointers (kids ++ [l]) (refs ++ [n]) =
      livePointers kids refs ++ if n = 0 then [] else l := by
  simp [livePointers, List.zip_append hlen.symm]

namespace Exact

variable {kids : List (List Nat)} {refs roots : List Nat} {c : Nat}

theorem perm {roots' : List Nat} (h : Exact kids refs roots) (hperm : roots.Perm roots') :
    Exact kids refs roots' := by
  refine ⟨h.length, h.older, fun c => ?_⟩
  rw [← hperm.count_eq]
  exact h.count c

theorem live (h : Exact kids refs roots) (hc : c ∈ roots) : refs.getD c 0 ≠ 0 := by
  have hpos := List.count_pos_iff.mpr hc
  have hcount := h.count c
  omega

theorem lt (h : Exact kids refs roots) (hc : c ∈ roots) : c < kids.length := by
  have hlive := h.live hc
  rw [← h.length]
  by_contra hge
  exact hlive (List.getD_eq_default _ _ (by omega))

theorem ref (h : Exact kids refs roots) (hc : c ∈ roots) :
    Exact kids (refs.modify c (· + 1)) (c :: roots) := by
  have hlive := h.live hc
  have hlt : c < refs.length := h.length ▸ h.lt hc
  refine ⟨by simpa using h.length, h.older, fun d => ?_⟩
  rw [livePointers_modify _ _ _ _ (by omega), getD_modify, List.count_cons, h.count d]
  by_cases hcd : c = d
  · subst hcd
    simp only [hlt, and_self, if_true, beq_self_eq_true]
    omega
  · simp [hcd]

theorem releaseOne (fuel : Nat) (h : Exact kids refs (c :: roots)) (hfuel : c < fuel) :
    Exact kids (release kids fuel refs c) roots := by
  induction fuel generalizing refs roots c with
  | zero => omega
  | succ fuel ih =>
      have hlive := h.live (List.mem_cons_self)
      have hlt : c < refs.length := h.length ▸ h.lt List.mem_cons_self
      have hmod : (refs.modify c (· - 1)).getD c 0 = refs.getD c 0 - 1 := by
        rw [getD_modify, if_pos ⟨rfl, hlt⟩]
      have hcount : ∀ d, (refs.modify c (· - 1)).getD d 0 =
          roots.count d + (livePointers kids refs).count d := by
        intro d
        have hd := h.count d
        rw [List.count_cons] at hd
        rw [getD_modify]
        by_cases hcd : c = d
        · subst hcd
          simp only [hlt, and_self, if_true, beq_self_eq_true] at hd ⊢
          omega
        · simpa [hcd] using hd
      rw [release]
      split
      · next hstill =>
          refine ⟨by simpa using h.length, h.older, fun d => ?_⟩
          rw [livePointers_modify _ _ _ _ (by omega)]
          exact hcount d
      · next hdies =>
          have hzero : refs.getD c 0 - 1 = 0 := by
            rw [hmod] at hdies
            omega
          have hkill := livePointers_kill kids refs c (· - 1) h.length hlive hzero
          -- the pointers of the dead cell are now held by nobody but this loop
          have hheld : Exact kids (refs.modify c (· - 1)) (kids.getD c [] ++ roots) := by
            refine ⟨by simpa using h.length, h.older, fun d => ?_⟩
            rw [hcount d, hkill.count_eq, List.count_append, List.count_append]
            omega
          have hyoung : ∀ d ∈ kids.getD c [], d < fuel := by
            intro d hd
            have hlt' : c < kids.length := h.length ▸ hlt
            have hget : kids[c]? = some (kids.getD c []) := by
              rw [List.getD_eq_getElem?_getD, List.getElem?_eq_getElem hlt']
              rfl
            have := h.older c _ hget d hd
            omega
          clear hkill hcount hdies hmod
          generalize kids.getD c [] = l at hheld hyoung
          generalize refs.modify c (· - 1) = refs' at hheld
          induction l generalizing refs' with
          | nil => exact hheld
          | cons d l ihl =>
              exact ihl (fun x hx => hyoung x (List.mem_cons_of_mem _ hx)) _
                (ih hheld (hyoung d List.mem_cons_self))

theorem alloc (h : Exact kids refs roots) :
    Exact (kids ++ [[]]) (refs ++ [1]) (kids.length :: roots) := by
  refine ⟨by simp [h.length], fun c l hl d hd => ?_, fun c => ?_⟩
  · rcases Nat.lt_or_ge c kids.length with hlt | hge
    · rw [List.getElem?_append_left hlt] at hl
      exact h.older c l hl d hd
    · rw [List.getElem?_append_right hge] at hl
      have hnil : l = [] := by
        have := List.mem_of_getElem? hl
        simpa using this
      simp [hnil] at hd
  · rw [livePointers_snoc _ _ _ _ h.length, List.count_cons]
    have hc := h.count c
    have hlen := h.length
    rcases Nat.lt_trichotomy c kids.length with hlt | rfl | hgt
    · rw [List.getD_append _ _ _ _ (h.length ▸ hlt), hc]
      simp [Nat.ne_of_gt hlt]
    · have hzero : refs.getD kids.length 0 = 0 := List.getD_eq_default _ _ (by omega)
      have hone : (refs ++ [1]).getD kids.length 0 = 1 := by
        rw [List.getD_append_right _ _ _ _ (by omega)]
        simp [h.length]
      rw [hone]
      simp only [Nat.one_ne_zero, if_false, List.append_nil, beq_self_eq_true, if_true]
      omega
    · have hzero : refs.getD c 0 = 0 := List.getD_eq_default _ _ (by omega)
      have hnone : (refs ++ [1]).getD c 0 = 0 := by
        refine List.getD_eq_default _ _ ?_
        simp only [List.length_append, List.length_singleton]
        omega
      rw [hnone]
      simp only [Nat.one_ne_zero, if_false, List.append_nil]
      rw [if_neg (by simpa using Nat.ne_of_lt hgt)]
      omega

theorem addPointer {child : Nat} (h : Exact kids refs roots) (hc : c ∈ roots) (hchild : child ∈ roots)
    (hlt : child < c) :
    Exact (kids.modify c (· ++ [child])) (refs.modify child (· + 1)) roots := by
  have hlive := h.live hchild
  have hlen : child < refs.length := h.length ▸ h.lt hchild
  refine ⟨by simpa using h.length, fun i l hl d hd => ?_, fun d => ?_⟩
  · rw [List.getElem?_modify, Option.map_eq_map, Option.map_eq_some_iff] at hl
    obtain ⟨l₀, hl₀, rfl⟩ := hl
    by_cases hci : c = i
    · subst hci
      simp only [if_true, List.mem_append, List.mem_singleton] at hd
      rcases hd with hd | rfl
      · exact h.older c l₀ hl₀ d hd
      · exact hlt
    · simp only [hci, if_false] at hd
      exact h.older i l₀ hl₀ d hd
  · rw [livePointers_modify _ _ _ _ (by omega),
      (livePointers_add kids refs c child h.length (h.live hc)).count_eq, getD_modify,
      List.count_cons, h.count d]
    by_cases hcd : child = d
    · subst hcd
      simp only [hlen, and_self, if_true, beq_self_eq_true]
      omega
    · simp [hcd]

theorem all_zero (h : Exact kids refs []) (c : Nat) : refs.getD c 0 = 0 := by
  -- a live cell is held by a younger live one, so the youngest cannot be live
  by_contra hlive
  have hstep : ∀ c, refs.getD c 0 ≠ 0 → ∃ d, c < d ∧ refs.getD d 0 ≠ 0 := by
    intro c hc
    have hcount := h.count c
    rw [List.count_nil, Nat.zero_add] at hcount
    have hmem : c ∈ livePointers kids refs :=
      List.count_pos_iff.mp (hcount ▸ Nat.pos_of_ne_zero hc)
    obtain ⟨⟨l, n⟩, hzip, hin⟩ := List.mem_flatMap.mp hmem
    by_cases hn : n = 0
    · simp [hn] at hin
    · obtain ⟨d, hd⟩ := List.mem_iff_getElem?.mp hzip
      obtain ⟨hl, hr⟩ := List.getElem?_zip_eq_some.mp hd
      refine ⟨d, h.older d l hl c (by simpa [hn] using hin), ?_⟩
      rw [List.getD_eq_getElem?_getD, hr]
      exact hn
  have hall : ∀ n, ∃ d, n ≤ d ∧ refs.getD d 0 ≠ 0 := by
    intro n
    induction n with
    | zero => exact ⟨c, Nat.zero_le c, hlive⟩
    | succ n ih =>
        obtain ⟨d, hle, hd⟩ := ih
        obtain ⟨d', hlt, hd'⟩ := hstep d hd
        exact ⟨d', by omega, hd'⟩
  obtain ⟨d, hle, hd⟩ := hall refs.length
  exact hd (List.getD_eq_default _ _ hle)

end Exact

end Libpeg.RefCount
