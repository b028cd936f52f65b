import Libpeg.CodeShape

namespace Libpeg.TailCalls

open Libpeg.Charset Libpeg.Opcode Libpeg.Code Libpeg.Pattern Libpeg.Compile Libpeg.MemoIds
open Libpeg.CompileTotal Libpeg.CodeShape

/-- Every `Nop` stands behind a jump. The argument is set when a jump stands in front of
the code. -/
def Guarded : Bool → List Pir → Prop
  | _, [] => True
  | jumped, .insn .nop :: rest => jumped = true ∧ Guarded false rest
  | _, .insn (.jump _) :: rest => Guarded true rest
  | _, _ :: rest => Guarded false rest

variable {jumped : Bool} {code code' l r sub : List Pir}

@[simp] theorem guarded_nil : Guarded jumped [] ↔ True :=
  Iff.rfl

@[simp] theorem guarded_label {x : Nat} : Guarded jumped (.label x :: code) ↔ Guarded false code :=
  Iff.rfl

@[simp] theorem guarded_openCall {name : String} :
    Guarded jumped (.openCall name :: code) ↔ Guarded false code :=
  Iff.rfl

@[simp] theorem guarded_nop :
    Guarded jumped (.insn .nop :: code) ↔ jumped = true ∧ Guarded false code :=
  Iff.rfl

@[simp] theorem guarded_jump {x : Nat} :
    Guarded jumped (.insn (.jump x) :: code) ↔ Guarded true code :=
  Iff.rfl

def isOrdinary : PirInsn → Bool
  | .nop | .jump _ => false
  | _ => true

theorem guarded_insn {i : PirInsn} (hi : isOrdinary i = true) :
    Guarded jumped (.insn i :: code) ↔ Guarded false code := by
  cases i <;> first | exact Iff.rfl | cases hi

theorem Guarded.weaken (h : Guarded false code) : Guarded jumped code := by
  cases code with
  | nil => trivial
  | cons i code =>
      cases i with
      | label x => exact h
      | openCall name => exact h
      | insn i =>
          by_cases hi : isOrdinary i = true
          · rw [guarded_insn hi] at h ⊢
            exact h
          · cases i <;> first | exact absurd rfl hi | skip
            · exact h
            · cases h.1

theorem Guarded.append (h : Guarded jumped code) (h' : Guarded false code') :
    Guarded jumped (code ++ code') := by
  induction code generalizing jumped with
  | nil => exact h'.weaken
  | cons i code ih =>
      cases i with
      | label x => exact ih h
      | openCall name => exact ih h
      | insn i =>
          by_cases hi : isOrdinary i = true
          · rw [guarded_insn hi] at h
            rw [List.cons_append, guarded_insn hi]
            exact ih h
          · cases i <;> first | exact absurd rfl hi | skip
            · exact ih h
            · exact ⟨h.1, ih h.2⟩

theorem guarded_matcher {i : Pir} (hi : (matchWidth i).isSome = true) :
    Guarded jumped (i :: code) ↔ Guarded false code := by
  unfold matchWidth at hi
  split at hi
  · exact Iff.rfl
  · exact Iff.rfl
  · exact Iff.rfl
  · cases hi

theorem guarded_run {run : List Pir} (hrun : ∀ i ∈ run, (matchWidth i).isSome = true) :
    Guarded false (run ++ code) ↔ Guarded false code := by
  induction run with
  | nil => exact Iff.rfl
  | cons i run ih =>
      rw [List.cons_append, guarded_matcher (hrun i List.mem_cons_self)]
      exact ih fun j hj => hrun j (List.mem_cons_of_mem _ hj)

theorem guarded_literal (str : List UInt8) :
    Guarded false (str.map fun x => .insn (.char x.toNat)) := by
  have h := (@guarded_run [] (str.map fun x => .insn (.char x.toNat)) ?_).mpr trivial
  · rwa [List.append_nil] at h
  · intro i hi
    obtain ⟨x, -, rfl⟩ := List.mem_map.mp hi
    rfl

theorem guarded_alt (l1 l2 : Nat) (hl : Guarded false l) (hr : Guarded false r) (h : HeadFirst l) :
    Guarded false (altCode l1 l2 l r) := by
  have hend : Guarded false (r ++ [.label l2]) := hr.append trivial
  unfold altCode
  split
  · next test htest =>
      obtain ⟨i, hi, hm, htarget, -⟩ := disjointTest_spec htest
      have htail : Guarded false (l.drop 1) := by
        rw [h.matcher hi hm] at hl
        unfold isMatcher at hm
        split at hm
        · next heq =>
            cases heq
            exact hl
        · next heq =>
            cases heq
            exact hl
        · cases hm
      have hplain : isOrdinary test = true := by
        unfold disjointTest at htest
        split at htest <;> first
          | (split at htest <;> cases htest <;> rfl)
          | cases htest
      simp only [List.append_assoc, List.cons_append, List.nil_append]
      rw [guarded_insn hplain]
      exact htail.append hend
  · simp only [List.append_assoc, List.cons_append, List.nil_append]
    exact hl.append hend

theorem guarded_star (l1 l2 : Nat) (h : Guarded false sub) : Guarded false (starCode l1 l2 sub) := by
  unfold starCode
  simp only [List.cons_append, List.nil_append]
  exact h.append trivial

theorem guarded_memoTree (l1 l2 l3 nojump : Nat) (id : Int) (h : Guarded false sub) :
    Guarded false (memoTreeCode l1 l2 l3 nojump id sub) := by
  unfold memoTreeCode
  simp only [List.cons_append, List.nil_append]
  exact h.append trivial

theorem guarded_cap (id : Int) (h : Guarded false sub) : Guarded false (capCode id sub) := by
  have hsplit := List.takeWhile_append_dropWhile (p := fun i => (matchWidth i).isSome) (l := sub)
  have hrun := List.all_eq_true.mp (List.all_takeWhile (l := sub)
    (p := fun i => (matchWidth i).isSome))
  unfold capCode
  generalize sub.takeWhile (fun i => (matchWidth i).isSome) = run at hsplit hrun ⊢
  generalize sub.dropWhile (fun i => (matchWidth i).isSome) = rest at hsplit ⊢
  dsimp only
  split
  · simp only [List.cons_append, List.nil_append]
    exact h.append trivial
  · split
    · exact h.append trivial
    · rw [← hsplit, guarded_run hrun] at h
      simp only [List.append_assoc, List.cons_append, List.nil_append]
      rw [guarded_run hrun]
      exact h.append trivial

section Calls

variable {labelOf : String → Option Nat}

/-- A call is in tail position only right in front of a return, apart from labels. -/
theorem nextInsn_ret {rest : List Pir} (h : Guarded false rest)
    (hnext : nextInsn rest = some (.insn .ret)) :
    ∃ (ls : List Nat) (more : List Pir), rest = ls.map Pir.label ++ .insn .ret :: more := by
  induction rest with
  | nil => cases hnext
  | cons i rest ih =>
      cases i with
      | label x =>
          obtain ⟨ls, more, rfl⟩ := ih h hnext
          exact ⟨x :: ls, more, rfl⟩
      | openCall name => cases hnext
      | insn i =>
          by_cases hi : i = .nop
          · subst hi
            cases h.1
          · have hreal : isReal (.insn i) = true := by
              cases i <;> first | rfl | exact absurd rfl hi
            rw [nextInsn, List.find?_cons_of_pos hreal] at hnext
            cases hnext
            exact ⟨[], rest, rfl⟩

theorem hadLabel_cons {x : Nat} {rest : List Pir} : hadLabel (.label x :: rest) = true :=
  rfl

theorem resolveCalls_guarded (h : Guarded jumped code) :
    Guarded jumped (resolveCalls labelOf code).1 := by
  induction code generalizing jumped with
  | nil => exact h
  | cons i rest ih =>
      cases i with
      | label x => exact ih h
      | insn i =>
          change Guarded jumped (.insn i :: (resolveCalls labelOf rest).1)
          by_cases hi : isOrdinary i = true
          · rw [guarded_insn hi] at h ⊢
            exact ih h
          · cases i <;> first | exact absurd rfl hi | skip
            · exact ih h
            · exact ⟨h.1, ih h.2⟩
      | openCall name =>
          rw [resolveCalls]
          cases labelOf name with
          | none => exact h
          | some x =>
              have hrest := ih h
              dsimp only
              split
              · next hnext =>
                  rw [guarded_jump]
                  obtain ⟨ls, more, rfl⟩ := nextInsn_ret h hnext
                  cases ls with
                  | nil => exact ⟨rfl, hrest⟩
                  | cons y ls =>
                      rw [List.map_cons, List.cons_append, hadLabel_cons, if_pos rfl]
                      exact hrest.weaken
              · exact hrest

end Calls

theorem compile_guarded (n : Nat) :
    (∀ ctx p, Returns (fun x => Guarded false x.1) (compilePat n ctx p)) ∧
    (∀ ctx p count, Returns (fun x => Guarded false x.1) (compileRepeat n ctx p count)) ∧
    (∀ ctx start g, Returns (fun x => Guarded false x.1) (compileGrammar n ctx start g)) ∧
    ∀ ctx keep i g, Returns (fun x => Guarded false x.1) (compileDefs n ctx keep i g) := by
  induction n with
  | zero =>
      refine ⟨?_, ?_, ?_, ?_⟩ <;>
        · intros
          rintro x ⟨⟩
  | succ n ih =>
      obtain ⟨ihp, ihr, ihg, ihd⟩ := ih
      refine ⟨fun ctx p => ?_, fun ctx p count => ?_, fun ctx start g => ?_,
        fun ctx keep i g => ?_⟩
      · cases p with
        | alt l r =>
            refine Returns.skip fun lp => Returns.skip fun rp => ?_
            split
            · exact returns_some trivial
            · have hshape : Returns (fun x => Guarded false x.1 ∧ HeadFirst x.1)
                  (compilePat n ctx lp) := fun x hx =>
                ⟨ihp ctx lp x hx, ((compile_shaped n).1 ctx lp x hx).2⟩
              exact Returns.bind hshape fun x hx => Returns.bind (ihp _ _) fun y hy =>
                returns_some (guarded_alt _ _ hx.1 hy hx.2)
        | seq l r =>
            exact Returns.skip fun lp => Returns.bind (ihp _ _) fun x hx =>
              Returns.skip fun rp => Returns.bind (ihp _ _) fun y hy => returns_some (hx.append hy)
        | star p =>
            refine Returns.skip fun sp => ?_
            split
            · exact returns_some trivial
            · exact Returns.skip fun bp => Returns.bind (ihp _ _) fun x hx =>
                returns_some (guarded_memoTree _ _ _ _ _ hx)
            · exact Returns.bind (ihp _ _) fun x hx => returns_some (guarded_star _ _ hx)
        | plus p =>
            exact Returns.skip fun sp => Returns.bind (ihp _ _) fun x hx =>
              Returns.bind (ihp _ _) fun y hy => returns_some (hy.append hx)
        | optional p =>
            refine Returns.skip fun sp => ?_
            split
            · exact returns_some trivial
            · exact returns_some trivial
            · exact ihp _ _
        | not p =>
            refine Returns.skip fun sp => Returns.bind (ihp _ _) fun x hx => returns_some ?_
            simp only [List.cons_append, List.nil_append]
            exact hx.append trivial
        | and p =>
            refine Returns.skip fun sp => Returns.bind (ihp _ _) fun x hx => returns_some ?_
            simp only [List.cons_append, List.nil_append]
            exact hx.append trivial
        | cap p id =>
            exact Returns.skip fun sp => Returns.bind (ihp _ _) fun x hx =>
              returns_some (guarded_cap id hx)
        | memo p id =>
            refine Returns.skip fun sp => Returns.bind (ihp _ _) fun x hx => returns_some ?_
            simp only [List.cons_append, List.nil_append]
            exact hx.append trivial
        | check p fn id flag =>
            refine Returns.skip fun sp => Returns.bind (ihp _ _) fun x hx => returns_some ?_
            simp only [List.cons_append, List.nil_append]
            exact hx.append trivial
        | search p => exact Returns.skip fun sp => Returns.skip fun x => ihg _ _ _
        | grammar start defs => exact ihg ctx start defs
        | inlined name p => exact ihp ctx p
        | errorRecover msg p => exact Returns.bind (ihp ctx p) fun x hx => returns_some hx
        | repeated p count => exact ihr ctx p count
        | literal str => exact returns_some (guarded_literal str)
        | _ => exact returns_some trivial
      · cases count with
        | zero => exact returns_some trivial
        | succ count =>
            exact Returns.bind (ihp ctx p) fun x hx => Returns.bind (ihr _ _ _) fun y hy =>
              returns_some (hx.append hy)
      · refine Returns.skip fun g' => ?_
        dsimp only
        split
        · exact returns_some trivial
        · split
          · exact ihp _ _
          · refine Returns.bind (ihd _ _ _ _) fun x hx => ?_
            have hcode := fun labelOf start lend => @resolveCalls_guarded false
              ([.openCall start, .insn (.jump lend)] ++ x.1) labelOf hx.weaken
            obtain ⟨fns, labels, ctx'⟩ := x
            dsimp only
            split
            · exact returns_some (hcode _ _ _)
            · exact returns_some ((hcode _ _ _).append trivial)
      · cases g with
        | nil => exact returns_some trivial
        | cons name p rest =>
            rw [compileDefs]
            split
            · refine Returns.bind (ihp _ _) fun x hx => Returns.bind (ihd _ _ _ _) fun y hy => ?_
              refine returns_some ?_
              simp only [List.append_assoc, List.cons_append, List.nil_append]
              exact hx.append hy
            · exact Returns.bind (ihd _ _ _ _) fun y hy => returns_some hy

end Libpeg.TailCalls
