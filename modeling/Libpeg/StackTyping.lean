import Libpeg.TailCalls

/-!
Types for compiled code. A shape says which entries lie on the stack above the return
entry of the current call; every instruction turns the shape in front of it into the one
behind it, and a label has one shape for all jumps to it.
-/

namespace Libpeg.StackTyping

open Libpeg.Charset Libpeg.Opcode Libpeg.Code Libpeg.Vm Libpeg.Pattern Libpeg.Compile
open Libpeg.CodeShape

/-- The entries with one partner in the code. -/
inductive Kind where
  | btrack
  | capt
  | check
  | memo (l : Nat) (id : Int)
  deriving DecidableEq

/-- The entries of an activation. The entries that a tree memo loop pushes are one item,
with at least one of them when it is `entered`. -/
inductive Shape where
  | main
  | fn
  | push (kind : Kind) (below : Shape)
  | tree (entered : Bool) (l : Nat) (id : Int) (below : Shape)
  deriving DecidableEq

def Shielded : Shape → Prop
  | .tree _ _ _ _ => False
  | _ => True

/-- The second shape allows what the first one says. -/
inductive Sub : Shape → Shape → Prop
  | refl (sh : Shape) : Sub sh sh
  | enter {sh : Shape} (h : Shielded sh) (l : Nat) (id : Int) : Sub sh (.tree false l id sh)
  | forget (l : Nat) (id : Int) (sh : Shape) : Sub (.tree true l id sh) (.tree false l id sh)

/-- An instruction turns the shape `sh` into `next`, when `R` gives the shapes of targets and
`after` is the target right behind it. Behind an instruction that does not go on any shape
will do; a run only ends without entries, unless it ends with an error. -/
def Turns {E K : Type} (R : Nat → Shape → Prop) (sh : Shape) (after : Option Nat) (next : Shape) :
    Insn Nat Int Int E K → Prop
  | .char _ | .set _ | .any _ | .span _ | .empty _ | .captureFull _ _ | .error _ | .nop => next = sh
  | .jump l => R l sh
  | .choice l | .testChar _ l | .testSet _ l | .testAny _ l => R l sh ∧ next = .push .btrack sh
  | .testCharNoChoice _ l | .testSetNoChoice _ l => R l sh ∧ next = sh
  | .call l => R l .fn ∧ next = sh
  | .commit l | .backCommit l => ∃ r, sh = .push .btrack r ∧ R l r
  | .partialCommit l => (∃ r, sh = .push .btrack r) ∧ R l sh
  | .ret => sh = .fn
  | .fail => True
  | .endOp b => b = 1 ∨ sh = .main
  | .failTwice => ∃ r, sh = .push .btrack r
  | .captureBegin _ | .captureLate _ _ => next = .push .capt sh
  | .captureEnd => sh = .push .capt next
  | .checkBegin _ _ => next = .push .check sh
  | .checkEnd _ => sh = .push .check next
  | .memoOpen l id => R l sh ∧ next = .push (.memo l id) sh
  | .memoClose => ∃ l id, sh = .push (.memo l id) next ∧ after = some l
  | .memoTreeOpen l id => ∃ r, sh = .tree false l id r ∧ next = .tree true l id r ∧ R l next
  | .memoTreeInsert => (∃ l id r, sh = .tree true l id r ∧ after = some l) ∧ next = sh
  | .memoTree => False
  | .memoTreeClose id => ∃ l, sh = .tree true l id next

def headLabel (code : List Pir) : Option Nat :=
  code.head?.bind ownLabel

/-- The code turns one shape into another; the labels that are placed in it are listed with
their shapes. The entries of a tree memo loop are merged right behind the label of the loop. -/
inductive Flow (R : Nat → Shape → Prop) : Shape → List Pir → Shape → List (Nat × Shape) → Prop
  | nil {sh out : Shape} (hsub : Sub sh out) : Flow R sh [] out []
  | label {sh sh' out : Shape} {l : Nat} {rest : List Pir} {placed : List (Nat × Shape)}
      (hsub : Sub sh sh') (hrest : Flow R sh' rest out placed) :
      Flow R sh (.label l :: rest) out ((l, sh') :: placed)
  | openCall {sh sh' out : Shape} {name : String} {rest : List Pir} {placed : List (Nat × Shape)}
      (hsub : Sub sh sh') (hrest : Flow R sh' rest out placed) :
      Flow R sh (.openCall name :: rest) out placed
  | insn {sh sh' next out : Shape} {i : PirInsn} {rest : List Pir} {placed : List (Nat × Shape)}
      (hsub : Sub sh sh') (hi : Turns R sh' (headLabel rest) next i)
      (hrest : Flow R next rest out placed) : Flow R sh (.insn i :: rest) out placed
  | merge {sh r out : Shape} {l : Nat} {id : Int} {rest : List Pir} {placed : List (Nat × Shape)}
      (hsub : Sub sh (.tree true l id r)) (hrest : Flow R (.tree true l id r) rest out placed) :
      Flow R sh (.label l :: .insn .memoTree :: rest) out ((l, .tree true l id r) :: placed)

/-- The code keeps every shape that it may be entered with, and its jumps stay inside. -/
def Typable (code : List Pir) : Prop :=
  ∀ sh, Shielded sh → ∃ placed, Flow (fun l s => (l, s) ∈ placed) sh code sh placed

variable {R R' : Nat → Shape → Prop} {sh sh' mid out next : Shape} {code code' run : List Pir}
  {placed placed' : List (Nat × Shape)} {i : PirInsn}

section Basics

theorem Sub.trans (h : Sub sh mid) (h' : Sub mid out) : Sub sh out := by
  cases h with
  | refl => exact h'
  | enter hs =>
      cases h' with
      | refl => exact .enter hs _ _
      | enter hs' => exact absurd hs' id
  | forget =>
      cases h' with
      | refl => exact .forget _ _ _
      | enter hs' => exact absurd hs' id

theorem Sub.eq_of_shielded (h : Sub sh out) (hout : Shielded out) : sh = out := by
  cases h with
  | refl => rfl
  | enter => exact absurd hout id
  | forget => exact absurd hout id

theorem Turns.mono {after : Option Nat} (h : Turns R sh after next i)
    (hR : ∀ l s, R l s → R' l s) : Turns R' sh after next i := by
  cases i with
  | jump l => exact hR l _ h
  | choice l => exact h.imp_left (hR l _)
  | testChar b l => exact h.imp_left (hR l _)
  | testSet s l => exact h.imp_left (hR l _)
  | testAny n l => exact h.imp_left (hR l _)
  | testCharNoChoice b l => exact h.imp_left (hR l _)
  | testSetNoChoice s l => exact h.imp_left (hR l _)
  | call l => exact h.imp_left (hR l _)
  | commit l => exact h.imp fun r hr => hr.imp_right (hR l r)
  | backCommit l => exact h.imp fun r hr => hr.imp_right (hR l r)
  | partialCommit l => exact h.imp_right (hR l _)
  | memoOpen l id => exact h.imp_left (hR l _)
  | memoTreeOpen l id => exact h.imp fun r hr => ⟨hr.1, hr.2.1, hR l _ hr.2.2⟩
  | _ => exact h

theorem Turns.after {after after' : Option Nat} (h : Turns R sh after next i)
    (hafter : ∀ l, after = some l → after' = some l) : Turns R sh after' next i := by
  cases i with
  | memoClose =>
      obtain ⟨l, id, hsh, hl⟩ := h
      exact ⟨l, id, hsh, hafter l hl⟩
  | memoTreeInsert =>
      obtain ⟨⟨l, id, r, hsh, hl⟩, hnext⟩ := h
      exact ⟨⟨l, id, r, hsh, hafter l hl⟩, hnext⟩
  | _ => exact h

theorem headLabel_append {l : Nat} (h : headLabel code = some l) (more : List Pir) :
    headLabel (code ++ more) = some l := by
  cases code with
  | nil => cases h
  | cons c code => exact h

theorem Flow.mono (h : Flow R sh code out placed) (hR : ∀ l s, R l s → R' l s) :
    Flow R' sh code out placed := by
  induction h with
  | nil hsub => exact .nil hsub
  | label hsub _ ih => exact .label hsub ih
  | openCall hsub _ ih => exact .openCall hsub ih
  | insn hsub hi _ ih => exact .insn hsub (hi.mono hR) ih
  | merge hsub _ ih => exact .merge hsub ih

theorem Flow.sub (hsub : Sub sh' sh) (h : Flow R sh code out placed) :
    Flow R sh' code out placed := by
  cases h with
  | nil h => exact .nil (hsub.trans h)
  | label h hrest => exact .label (hsub.trans h) hrest
  | openCall h hrest => exact .openCall (hsub.trans h) hrest
  | insn h hi hrest => exact .insn (hsub.trans h) hi hrest
  | merge h hrest => exact .merge (hsub.trans h) hrest

theorem Flow.append (h : Flow R sh code mid placed) (h' : Flow R mid code' out placed') :
    Flow R sh (code ++ code') out (placed ++ placed') := by
  induction h with
  | nil hsub => exact h'.sub hsub
  | label hsub _ ih => exact .label hsub (ih h')
  | openCall hsub _ ih => exact .openCall hsub (ih h')
  | insn hsub hi _ ih => exact .insn hsub (hi.after fun l hl => headLabel_append hl code') (ih h')
  | merge hsub _ ih => exact .merge hsub (ih h')

theorem flow_insn (hi : Turns R sh none next i) : Flow R sh [.insn i] next [] :=
  .insn (.refl _) hi (.nil (.refl _))

theorem flow_label (l : Nat) (sh : Shape) : Flow R sh [.label l] sh [(l, sh)] :=
  .label (.refl _) (.nil (.refl _))

theorem turns_matcher {after : Option Nat} (hi : (matchWidth (.insn i)).isSome = true) :
    Turns R sh after next i ↔ next = sh := by
  cases i <;> first | exact Iff.rfl | cases hi

theorem flow_run (hrun : ∀ i ∈ run, (matchWidth i).isSome = true) (sh : Shape) :
    Flow R sh run sh [] := by
  induction run with
  | nil => exact .nil (.refl _)
  | cons c run ih =>
      cases c with
      | insn i =>
          refine .insn (.refl _) ((turns_matcher (hrun _ List.mem_cons_self)).mpr rfl) ?_
          exact ih fun j hj => hrun j (List.mem_cons_of_mem _ hj)
      | label l => cases hrun _ List.mem_cons_self
      | openCall name => cases hrun _ List.mem_cons_self

theorem Flow.drop_run {run : List Pir} (hrun : ∀ i ∈ run, (matchWidth i).isSome = true)
    (h : Flow R sh (run ++ code) out placed) : Flow R sh code out placed := by
  induction run generalizing sh with
  | nil => exact h
  | cons c run ih =>
      have hrest := fun sh => @ih sh fun j hj => hrun j (List.mem_cons_of_mem _ hj)
      cases c with
      | insn i =>
          cases h with
          | insn hsub hi h =>
              obtain rfl := (turns_matcher (hrun _ List.mem_cons_self)).mp hi
              exact (hrest _ h).sub hsub
      | label => cases hrun _ List.mem_cons_self
      | openCall => cases hrun _ List.mem_cons_self

end Basics

section Constructs

variable {l r sub : List Pir} {l1 l2 l3 nojump : Nat} {id : Int}

theorem typable_nil : Typable [] :=
  fun _ _ => ⟨[], .nil (.refl _)⟩

theorem typable_insn (hi : ∀ R sh, Turns R sh none sh i) : Typable [.insn i] :=
  fun sh _ => ⟨[], flow_insn (hi _ sh)⟩

theorem typable_openCall (name : String) : Typable [.openCall name] :=
  fun _ _ => ⟨[], .openCall (.refl _) (.nil (.refl _))⟩

theorem typable_run (hrun : ∀ i ∈ run, (matchWidth i).isSome = true) : Typable run :=
  fun sh _ => ⟨[], flow_run hrun sh⟩

theorem Typable.append (h : Typable code) (h' : Typable code') : Typable (code ++ code') := by
  intro sh hs
  obtain ⟨placed, hflow⟩ := h sh hs
  obtain ⟨placed', hflow'⟩ := h' sh hs
  refine ⟨placed ++ placed', (hflow.mono fun l s hl => ?_).append (hflow'.mono fun l s hl => ?_)⟩
  · exact List.mem_append_left _ hl
  · exact List.mem_append_right _ hl

theorem typable_wrap {pre post : List Pir} (inner : Shape → Shape)
    (before after : Shape → List (Nat × Shape)) (h : Typable sub)
    (hinner : ∀ sh, Shielded sh → Shielded (inner sh))
    (hpre : ∀ R sh, Shielded sh → (∀ x ∈ before sh ++ after sh, R x.1 x.2) →
      Flow R sh pre (inner sh) (before sh))
    (hpost : ∀ R sh, Shielded sh → (∀ x ∈ before sh ++ after sh, R x.1 x.2) →
      Flow R (inner sh) post sh (after sh)) : Typable (pre ++ sub ++ post) := by
  intro sh hs
  obtain ⟨placed, hflow⟩ := h (inner sh) (hinner sh hs)
  let R : Nat → Shape → Prop := fun l s => (l, s) ∈ before sh ++ placed ++ after sh
  have hR : ∀ x ∈ before sh ++ after sh, R x.1 x.2 := by
    intro x hx
    simp only [R, List.mem_append] at hx ⊢
    tauto
  refine ⟨before sh ++ placed ++ after sh, ((hpre R sh hs hR).append ?_).append (hpost R sh hs hR)⟩
  refine hflow.mono fun l s hl => ?_
  simp only [R, List.mem_append]
  tauto

theorem typable_choice (hl : Typable l) (hr : Typable r) :
    Typable ([.insn (.choice l1)] ++ l ++ [.insn (.commit l2), .label l1] ++ r ++ [.label l2]) := by
  have hleft : Typable ([.insn (.choice l1)] ++ l ++ ([.insn (.commit l2), .label l1] ++ r ++
      [.label l2])) := by
    intro sh hs
    obtain ⟨placed, hflow⟩ := hl (.push .btrack sh) trivial
    obtain ⟨placed', hflow'⟩ := hr sh hs
    let R : Nat → Shape → Prop := fun x s => (x, s) ∈ placed ++ ((l1, sh) :: placed' ++ [(l2, sh)])
    have h1 : R l1 sh := by simp [R]
    have h2 : R l2 sh := by simp [R]
    have hpre : Flow R sh [.insn (.choice l1)] (.push .btrack sh) [] := flow_insn ⟨h1, rfl⟩
    have hmid : Flow R (.push .btrack sh) [.insn (.commit l2), .label l1] sh [(l1, sh)] :=
      .insn (.refl _) ⟨sh, rfl, h2⟩ (flow_label l1 sh)
    have hfirst : Flow R (.push .btrack sh) l _ placed :=
      hflow.mono fun x s hx => List.mem_append_left _ hx
    have hsecond : Flow R sh r sh placed' := hflow'.mono fun x s hx => by
      simp only [R, List.mem_append, List.mem_cons]
      tauto
    exact ⟨_, (hpre.append hfirst).append ((hmid.append hsecond).append (flow_label l2 sh))⟩
  simpa only [List.append_assoc] using hleft

theorem typable_disjoint {test : PirInsn} {c : Pir} (htest : ∀ R sh, R l1 sh → Turns R sh none sh test)
    (hc : (matchWidth c).isSome = true) (hl : Typable (c :: l)) (hr : Typable r) :
    Typable ([.insn test] ++ l ++ [.insn (.jump l2), .label l1] ++ r ++ [.label l2]) := by
  have hwhole : Typable ([.insn test] ++ l ++ ([.insn (.jump l2), .label l1] ++ r ++
      [.label l2])) := by
    intro sh hs
    obtain ⟨placed, hflow⟩ := hl sh hs
    obtain ⟨placed', hflow'⟩ := hr sh hs
    have hmatcher : ∀ i ∈ [c], (matchWidth i).isSome = true :=
      fun i hi => List.mem_singleton.mp hi ▸ hc
    have hrest := Flow.drop_run hmatcher hflow
    let R : Nat → Shape → Prop := fun x s => (x, s) ∈ placed ++ ((l1, sh) :: placed' ++ [(l2, sh)])
    have h1 : R l1 sh := by simp [R]
    have h2 : R l2 sh := by simp [R]
    have hpre : Flow R sh [.insn test] sh [] := flow_insn (htest R sh h1)
    have hmid : Flow R sh [.insn (.jump l2), .label l1] sh [(l1, sh)] :=
      .insn (.refl _) h2 (flow_label l1 sh)
    have hfirst : Flow R sh l sh placed := hrest.mono fun x s hx => List.mem_append_left _ hx
    have hsecond : Flow R sh r sh placed' := hflow'.mono fun x s hx => by
      simp only [R, List.mem_append, List.mem_cons]
      tauto
    exact ⟨_, (hpre.append hfirst).append ((hmid.append hsecond).append (flow_label l2 sh))⟩
  simpa only [List.append_assoc] using hwhole

theorem typable_alt (hl : Typable l) (hr : Typable r) (hhead : HeadFirst l) :
    Typable (altCode l1 l2 l r) := by
  unfold altCode
  split
  · next test htest =>
      obtain ⟨i, hi, hm, htarget, -⟩ := disjointTest_spec htest
      have hcode := hhead.matcher hi hm
      rw [hcode] at hl
      refine typable_disjoint (fun R sh h => ?_) ?_ hl hr
      · unfold disjointTest at htest
        split at htest <;> first
          | (split at htest <;> cases htest <;> exact ⟨h, rfl⟩)
          | cases htest
      · unfold isMatcher at hm
        split at hm
        · next heq =>
            cases heq
            rfl
        · next heq =>
            cases heq
            rfl
        · cases hm
  · exact typable_choice hl hr

theorem typable_star (h : Typable sub) : Typable (starCode l1 l2 sub) := by
  refine typable_wrap (.push .btrack) (fun sh => [(l1, .push .btrack sh)]) (fun sh => [(l2, sh)]) h
    (fun _ _ => trivial) (fun R sh _ hR => ?_) fun R sh _ hR => ?_
  · exact .insn (.refl _) ⟨hR (l2, sh) (by simp), rfl⟩ (flow_label l1 _)
  · exact .insn (.refl _) ⟨⟨sh, rfl⟩, hR (l1, _) (by simp)⟩ (flow_label l2 sh)

theorem typable_memoTree (h : Typable sub) : Typable (memoTreeCode l1 l2 l3 nojump id sub) := by
  refine typable_wrap (fun sh => .push .btrack (.tree true l3 id sh))
    (fun sh => [(l1, .tree false l3 id sh)])
    (fun sh => [(nojump, .tree true l3 id sh), (l3, .tree true l3 id sh),
      (l2, .tree true l3 id sh)]) h (fun _ _ => trivial) (fun R sh hs hR => ?_) fun R sh _ hR => ?_
  · refine .label (.enter hs l3 id) (.insn (.refl _) ⟨sh, rfl, rfl, ?_⟩ (flow_insn ⟨?_, rfl⟩))
    · exact hR (l3, _) (by simp)
    · exact hR (l2, _) (by simp)
  · have hback : R l1 (.tree false l3 id sh) := hR (l1, _) (by simp)
    have hcommit : R nojump (.tree true l3 id sh) := hR (nojump, _) (by simp)
    have hlast : Flow R (.tree true l3 id sh) [.label l2, .insn (.memoTreeClose id)] sh
        [(l2, .tree true l3 id sh)] := .label (.refl _) (flow_insn ⟨l3, rfl⟩)
    refine .insn (.refl _) ⟨_, rfl, hcommit⟩ (.label (.refl _) ?_)
    exact .insn (.refl _) ⟨⟨l3, id, sh, rfl, rfl⟩, rfl⟩
      (.merge (.refl _) (.insn (.forget l3 id sh) hback hlast))

theorem typable_not (h : Typable sub) :
    Typable ([.insn (.choice l1)] ++ sub ++ [.insn .failTwice, .label l1]) := by
  refine typable_wrap (.push .btrack) (fun _ => []) (fun sh => [(l1, sh)]) h
    (fun _ _ => trivial) (fun R sh _ hR => ?_) fun R sh _ hR => ?_
  · exact flow_insn ⟨hR (l1, sh) (by simp), rfl⟩
  · exact .insn (.refl _) ⟨sh, rfl⟩ (flow_label l1 sh)

theorem typable_and (h : Typable sub) : Typable ([.insn (.choice l1)] ++ sub ++
    [.insn (.backCommit l2), .label l1, .insn .fail, .label l2]) := by
  refine typable_wrap (.push .btrack) (fun _ => []) (fun sh => [(l1, sh), (l2, sh)]) h
    (fun _ _ => trivial) (fun R sh _ hR => ?_)
    fun R sh _ hR => ?_
  · exact flow_insn ⟨hR (l1, sh) (by simp), rfl⟩
  · refine .insn (.refl _) ⟨sh, rfl, hR (l2, sh) (by simp)⟩ (.label (.refl _) ?_)
    exact .insn (.refl _) trivial (flow_label l2 sh)

theorem typable_memo (h : Typable sub) :
    Typable ([.insn (.memoOpen l1 id)] ++ sub ++ [.insn .memoClose, .label l1]) := by
  refine typable_wrap (.push (.memo l1 id)) (fun _ => []) (fun sh => [(l1, sh)]) h
    (fun _ _ => trivial) (fun R sh _ hR => ?_) fun R sh _ hR => ?_
  · exact flow_insn ⟨hR (l1, sh) (by simp), rfl⟩
  · exact .insn (.refl _) ⟨l1, id, rfl, rfl⟩ (flow_label l1 sh)

theorem typable_check (h : Typable sub) (flag : Int) (fn : Option VmChecker) :
    Typable ([.insn (.checkBegin id flag)] ++ sub ++ [.insn (.checkEnd fn), .label l1]) := by
  refine typable_wrap (.push .check) (fun _ => []) (fun sh => [(l1, sh)]) h
    (fun _ _ => trivial) (fun R sh _ hR => flow_insn rfl) fun R sh _ hR => ?_
  exact .insn (.refl _) rfl (flow_label l1 sh)

theorem typable_test {test : PirInsn} (htest : ∀ R sh, R l1 sh → Turns R sh (some l1) sh test) :
    Typable [.insn test, .label l1] :=
  fun sh _ => ⟨[(l1, sh)], .insn (.refl _) (htest _ sh (by simp)) (flow_label l1 sh)⟩

theorem typable_cap (h : Typable sub) (id : Int) : Typable (capCode id sub) := by
  have hsplit := List.takeWhile_append_dropWhile (p := fun i => (matchWidth i).isSome) (l := sub)
  have hrun := List.all_eq_true.mp (List.all_takeWhile (l := sub)
    (p := fun i => (matchWidth i).isSome))
  unfold capCode
  generalize sub.takeWhile (fun i => (matchWidth i).isSome) = run at hsplit hrun ⊢
  generalize sub.dropWhile (fun i => (matchWidth i).isSome) = rest at hsplit ⊢
  dsimp only
  split
  · exact typable_wrap (.push .capt) (fun _ => []) (fun _ => []) h (fun _ _ => trivial)
       (fun R sh _ _ => flow_insn rfl) fun R sh _ _ => flow_insn rfl
  · split
    · exact h.append (typable_insn fun _ _ => rfl)
    · -- the matchers do not care that the capture is opened behind them
      intro sh hs
      rw [← hsplit] at h
      obtain ⟨placed, hflow⟩ := h (.push .capt sh) trivial
      have hrest := hflow.drop_run hrun
      have hpre := (flow_run hrun sh).append (flow_insn (R := fun l s => (l, s) ∈ placed)
        (i := .captureLate (run.filterMap matchWidth).sum id) rfl)
      refine ⟨placed, ?_⟩
      have hpost : Flow (fun l s => (l, s) ∈ placed) (.push .capt sh) [.insn .captureEnd] sh [] :=
        flow_insn rfl
      simpa using (hpre.append hrest).append hpost

end Constructs

end Libpeg.StackTyping
