import Libpeg.ListMachine
import Libpeg.Reading

/-!
What a piece of code does wherever it stands in a list: it leads from its start to
where it leaves off, for every outcome of what it was compiled from. Calls that are
still open do what the bindings say.
-/

namespace Libpeg.Fragments

open Libpeg.Charset Libpeg.Opcode Libpeg.Code Libpeg.Memo Libpeg.Vm Libpeg.AbstractVm
open Libpeg.Pattern Libpeg.Compile Libpeg.Optimize Libpeg.CodeShape Libpeg.Semantics
open Libpeg.StepSimulation Libpeg.Denotation Libpeg.Reading Libpeg.ListMachine

/-- The run ends with `r` from where an outcome leaves off: behind the code at `e`, or
at the next choice below. Captures made on the way do not matter for a failure. -/
def Leaves (a : VmArgs) (code : List Pir) (s : AState) (e : Nat) (r : Outcome) : Outcome → Prop
  | .ok j c => ∀ f, Final a code (.running (goto (aAddCapt s c) e j f)) r
  | .fail => ∀ i p f c, Final a code (aGoFail a (goto (aAddCapt s c) i p f)) r
  | .stop => r = .stop

/-- The code from `k` to `e` behaves like `b`. -/
def Carries (a : VmArgs) (code : List Pir) (k e : Nat) (b : Behaviour) : Prop :=
  ∀ s i f o r, b i o → Leaves a code s e r o → Final a code (.running (goto s k i f)) r

/-- A return that was cut off behind a tail call is put back. -/
def revive : Pir → Pir
  | .insn .nop => .insn .ret
  | i => i

/-- An open call stands for code that behaves as its name says. -/
def EntryAt (a : VmArgs) (code : List Pir) (ρ : Bindings) (k : Nat) : Pir → Prop
  | .openCall name => Carries a code k (k + 1) (ρ name)
  | i => code[k]? = some (revive i)

/-- The list has this piece of code at `k`. -/
def Holds (a : VmArgs) (code : List Pir) (ρ : Bindings) : Nat → List Pir → Prop
  | _, [] => True
  | k, i :: sub => EntryAt a code ρ k i ∧ Holds a code ρ (k + 1) sub

def consume (w : List UInt8) : List Pir → Nat → Option Nat
  | [], i => some i
  | .insn (.char b) :: run, i => if w[i]?.any (isByte b) then consume w run (i + 1) else none
  | .insn (.set set) :: run, i => if w[i]?.any set.has then consume w run (i + 1) else none
  | .insn (.any n) :: run, i =>
      if i + n.toNat ≤ w.length then consume w run (i + n.toNat) else none
  | _ :: _, _ => none

def Fixed (run : List Pir) : Prop :=
  ∀ i ∈ run, (matchWidth i).isSome = true

/-- A piece of code behaves like `b`, also when it is entered behind some matchers that it
starts with, where they have matched. -/
structure Fragment (a : VmArgs) (ρ : Bindings) (b : Behaviour) (sub : List Pir) : Prop where
  fails : ∀ run rest i o, sub = run ++ rest → Fixed run → consume a.input run i = none → b i o →
    o = .fail
  plain : ∀ i j o, Fixed sub → consume a.input sub i = some j → b i o → o = .ok j .nil
  carries : ∀ code, (labelsOf code).Nodup → ∀ run rest k, sub = run ++ rest → Fixed run →
    Holds a code ρ k rest → ∀ s i j f o r, consume a.input run i = some j → b i o →
      Leaves a code s (k + rest.length) r o → Final a code (.running (goto s k j f)) r

section Basics

variable {a : VmArgs} {code sub sub' run rest : List Pir} {ρ : Bindings} {b b' : Behaviour}
  {k e i f : Nat} {s : AState} {o r : Outcome} {w : List UInt8}

theorem Leaves.add {c : CapForest} (h : Leaves a code s e r (o.after c)) :
    Leaves a code (aAddCapt s c) e r o := by
  cases o with
  | ok j c' =>
      intro f
      rw [aAddCapt_append]
      exact h f
  | fail =>
      intro i p f c'
      rw [aAddCapt_append]
      exact h i p f _
  | stop => exact h

theorem Leaves.ends {e' : Nat} (ho : o.ends = true) (h : Leaves a code s e r o) :
    Leaves a code s e' r o := by
  cases o with
  | ok j c => cases ho
  | fail => exact h
  | stop => exact h

theorem Leaves.failed (h : Leaves a code s e r .fail) (i p f : Nat) :
    Final a code (aGoFail a (goto s i p f)) r := by
  have hnil := h i p f .nil
  rw [aAddCapt_nil] at hnil
  exact hnil

theorem Leaves.passed {j : Nat} (h : Leaves a code s e r (.ok j .nil)) (f : Nat) :
    Final a code (.running (goto s e j f)) r := by
  have hnil := h f
  rw [aAddCapt_nil] at hnil
  exact hnil

theorem leaves_btrack {l p : Nat} {c : CapForest}
    (h : ∀ f, Final a code (.running (goto s l p f)) r) :
    Leaves a code (frame s (.btrack l p) c) e r .fail := by
  intro i q f c'
  rw [aAddCapt_frame, aGoFail_btrack]
  exact h f

theorem leaves_ret {l : Nat} {c : CapForest} (h : Leaves a code s e r .fail) :
    Leaves a code (frame s (.ret l) c) e r .fail := by
  intro i q f c'
  rw [aAddCapt_frame, aGoFail_ret]
  exact h.failed i q f

theorem leaves_capt {id p : Int} {c : CapForest} (h : Leaves a code s e r .fail) :
    Leaves a code (frame s (.capt id p) c) e r .fail := by
  intro i q f c'
  rw [aAddCapt_frame, aGoFail_capt]
  exact h.failed i q f

@[simp] theorem holds_nil : Holds a code ρ k [] ↔ True :=
  Iff.rfl

theorem holds_cons {c : Pir} :
    Holds a code ρ k (c :: sub) ↔ EntryAt a code ρ k c ∧ Holds a code ρ (k + 1) sub :=
  Iff.rfl

@[simp] theorem holds_label {l : Nat} : Holds a code ρ k (.label l :: sub) ↔
    code[k]? = some (.label l) ∧ Holds a code ρ (k + 1) sub :=
  Iff.rfl

theorem holds_insn {j : PirInsn} (hj : j ≠ .nop) : Holds a code ρ k (.insn j :: sub) ↔
    code[k]? = some (.insn j) ∧ Holds a code ρ (k + 1) sub := by
  have hrevive : revive (.insn j) = .insn j := by
    cases j <;> first | rfl | exact absurd rfl hj
  rw [holds_cons, EntryAt, hrevive]
  intro name h
  cases h

@[simp] theorem holds_append : Holds a code ρ k (sub ++ sub') ↔
    Holds a code ρ k sub ∧ Holds a code ρ (k + sub.length) sub' := by
  induction sub generalizing k with
  | nil => simp
  | cons c sub ih =>
      rw [List.cons_append, holds_cons, holds_cons, ih, and_assoc, List.length_cons, Nat.add_assoc,
        Nat.add_comm 1]

theorem fixed_nil : Fixed [] :=
  fun _ h => absurd h List.not_mem_nil

theorem fixed_append : Fixed (run ++ rest) ↔ Fixed run ∧ Fixed rest :=
  List.forall_mem_append

theorem consume_append (run rest : List Pir) (i : Nat) :
    consume w (run ++ rest) i = (consume w run i).bind (consume w rest) := by
  induction run generalizing i with
  | nil => rfl
  | cons c run ih =>
      rw [List.cons_append]
      cases c with
      | insn j =>
          cases j with
          | char x =>
              simp only [consume]
              split
              · exact ih _
              · rfl
          | set set =>
              simp only [consume]
              split
              · exact ih _
              · rfl
          | any n =>
              simp only [consume]
              split
              · exact ih _
              · rfl
          | _ => rfl
      | _ => rfl

theorem final_run (hfixed : Fixed run) (hholds : Holds a code ρ k run)
    (hok : ∀ j, consume a.input run i = some j →
      ∀ f, Final a code (.running (goto s (k + run.length) j f)) r)
    (hfail : consume a.input run i = none → ∀ i p f, Final a code (aGoFail a (goto s i p f)) r)
    (f : Nat) : Final a code (.running (goto s k i f)) r := by
  induction run generalizing k i f with
  | nil => exact hok i rfl f
  | cons c run ih =>
      have hrun : Fixed run := fun d hd => hfixed d (List.mem_cons_of_mem _ hd)
      have hlen : k + (c :: run).length = k + 1 + run.length := by
        rw [List.length_cons]
        omega
      rw [hlen] at hok
      have hc := hfixed c List.mem_cons_self
      unfold matchWidth at hc
      split at hc
      · next x =>
          rw [holds_insn (by simp)] at hholds
          rw [consume] at hfail
          simp only [consume] at hok
          refine final_match (p := isByte x) hholds.1 rfl rfl (fun htest f => ?_) fun htest f => ?_
          · simp only [htest, if_true] at hok hfail
            exact ih hrun hholds.2 hok hfail f
          · simp only [htest, Bool.false_eq_true, if_false, forall_const] at hfail
            exact hfail _ _ f
      · next set =>
          rw [holds_insn (by simp)] at hholds
          rw [consume] at hfail
          simp only [consume] at hok
          refine final_match (p := set.has) hholds.1 rfl rfl (fun htest f => ?_) fun htest f => ?_
          · simp only [htest, if_true] at hok hfail
            exact ih hrun hholds.2 hok hfail f
          · simp only [htest, Bool.false_eq_true, if_false, forall_const] at hfail
            exact hfail _ _ f
      · next n =>
          rw [holds_insn (by simp)] at hholds
          rw [consume] at hfail
          simp only [consume] at hok
          refine final_any hholds.1 (fun htest f => ?_) fun htest p f => ?_
          · simp only [htest, if_true] at hok hfail
            exact ih hrun hholds.2 hok hfail f
          · simp only [show ¬i + n.toNat ≤ a.input.length by omega, if_false, forall_const] at hfail
            exact hfail _ _ f
      · cases hc

theorem Fragment.mono (h : Fragment a ρ b sub) (hle : b' ≤ b) : Fragment a ρ b' sub :=
  ⟨fun run rest i o hsub hfixed hnone hb => h.fails run rest i o hsub hfixed hnone (hle i o hb),
    fun i j o hfixed hsome hb => h.plain i j o hfixed hsome (hle i o hb),
    fun code hnodup run rest k hsub hfixed hholds s i j f o r hsome hb hleaves =>
      h.carries code hnodup run rest k hsub hfixed hholds s i j f o r hsome (hle i o hb) hleaves⟩

theorem Fragment.whole (h : Fragment a ρ b sub) (hnodup : (labelsOf code).Nodup)
    (hholds : Holds a code ρ k sub) : Carries a code k (k + sub.length) b :=
  fun s i f o r hb hleaves =>
    h.carries code hnodup [] sub k rfl fixed_nil hholds s i i f o r rfl hb hleaves

theorem run_prefix {pre tail : List Pir} {c : Pir} (hc : matchWidth c = none)
    (heq : pre ++ c :: tail = run ++ rest) (hfixed : Fixed run) :
    ∃ more, pre = run ++ more ∧ rest = more ++ c :: tail := by
  rcases List.append_eq_append_iff.mp heq with ⟨more, rfl, hmore⟩ | ⟨more, rfl, rfl⟩
  · cases more with
    | nil => exact ⟨[], by simp, by simpa using hmore.symm⟩
    | cons d more =>
        obtain ⟨rfl, -⟩ := List.cons.inj hmore
        have hsome := hfixed c (List.mem_append_right _ List.mem_cons_self)
        rw [hc] at hsome
        cases hsome
  · exact ⟨more, rfl, rfl⟩

theorem fragment_of_run {pre tail : List Pir} {c : Pir} (hpre : Fixed pre)
    (hc : matchWidth c = none) (hfail : ∀ i o, consume a.input pre i = none → b i o → o = .fail)
    (h : ∀ code, (labelsOf code).Nodup → ∀ k, Holds a code ρ k (c :: tail) →
      ∀ s i j f o r, consume a.input pre i = some j → b i o →
        Leaves a code s (k + (c :: tail).length) r o → Final a code (.running (goto s k j f)) r) :
    Fragment a ρ b (pre ++ c :: tail) := by
  refine ⟨fun run rest i o heq hfixed hnone hb => ?_, fun i j o hfixed _ _ => ?_,
    fun code hnodup run rest k heq hfixed hholds s i j f o r hsome hb hleaves => ?_⟩
  · obtain ⟨more, rfl, -⟩ := run_prefix hc heq hfixed
    refine hfail i o ?_ hb
    rw [consume_append, hnone]
    rfl
  · have hsome := hfixed c (List.mem_append_right _ List.mem_cons_self)
    rw [hc] at hsome
    cases hsome
  · obtain ⟨more, rfl, rfl⟩ := run_prefix hc heq hfixed
    rw [holds_append] at hholds
    have hsplit := consume_append (w := a.input) run more i
    rw [hsome, Option.bind_some] at hsplit
    refine final_run (fixed_append.mp hpre).2 hholds.1 (fun m hm f => ?_) (fun hnone => ?_) f
    · rw [hm] at hsplit
      rw [List.length_append, ← Nat.add_assoc] at hleaves
      exact h code hnodup _ hholds.2 s i m f o r hsplit hb hleaves
    · rw [hnone] at hsplit
      rw [hfail i o hsplit hb] at hleaves
      exact hleaves.failed

theorem fragment_of_carries {c : Pir} (hc : matchWidth c = none)
    (h : ∀ code, (labelsOf code).Nodup → ∀ k, Holds a code ρ k (c :: sub) →
      Carries a code k (k + (c :: sub).length) b) : Fragment a ρ b (c :: sub) := by
  have hcode : c :: sub = [] ++ c :: sub := rfl
  rw [hcode]
  refine fragment_of_run fixed_nil hc (fun i o hnone => by cases hnone)
    fun code hnodup k hholds s i j f o r hsome hb hleaves => ?_
  cases hsome
  exact h code hnodup k hholds s i f o r hb hleaves

theorem fragment_of_fixed (hfixed : Fixed sub)
    (hok : ∀ i j o, consume a.input sub i = some j → b i o → o = .ok j .nil)
    (hfail : ∀ i o, consume a.input sub i = none → b i o → o = .fail) : Fragment a ρ b sub := by
  refine ⟨fun run rest i o heq _ hnone hb => hfail i o ?_ hb, fun i j o _ hsome => hok i j o hsome,
    fun code _ run rest k heq _ hholds s i j f o r hsome hb hleaves => ?_⟩
  · rw [heq, consume_append, hnone]
    rfl
  · have hsplit := consume_append (w := a.input) run rest i
    rw [← heq, hsome, Option.bind_some] at hsplit
    have hrest : Fixed rest := (fixed_append.mp (heq ▸ hfixed)).2
    refine final_run hrest hholds (fun j' hj' => ?_) (fun hnone => ?_) f
    · rw [hj'] at hsplit
      rw [hok i j' o hsplit hb] at hleaves
      exact hleaves.passed
    · rw [hnone] at hsplit
      rw [hfail i o hsplit hb] at hleaves
      exact hleaves.failed

theorem Fragment.append (h : Fragment a ρ b sub) (h' : Fragment a ρ b' sub') :
    Fragment a ρ (followed b b') (sub ++ sub') := by
  refine ⟨fun run rest i o heq hfixed hnone hb => ?_, fun i j o hfixed hsome hb => ?_,
    fun code hnodup run rest k heq hfixed hholds s i j f o r hsome hb hleaves => ?_⟩
  · rcases List.append_eq_append_iff.mp heq with ⟨more, rfl, rfl⟩ | ⟨more, rfl, rfl⟩
    · -- the matchers reach into the second part
      rw [consume_append] at hnone
      obtain ⟨hsub, hmore⟩ := fixed_append.mp hfixed
      cases hsome : consume a.input sub i with
      | none =>
          have hfail := fun o => h.fails sub [] i o (List.append_nil sub).symm hsub hsome
          rcases hb with ⟨hb, -⟩ | ⟨j, c, o', hb, -, -⟩
          · exact hfail o hb
          · cases hfail _ hb
      | some j =>
          rw [hsome, Option.bind_some] at hnone
          have hplain := fun o => h.plain i j o hsub hsome
          rcases hb with ⟨hb, ho⟩ | ⟨j', c, o', hb, hb', rfl⟩
          · cases hplain o hb
            cases ho
          · cases hplain _ hb
            rw [Outcome.after_nil]
            exact h'.fails more rest j o' rfl hmore hnone hb'
    · have hfail := fun o => h.fails run more i o rfl hfixed hnone
      rcases hb with ⟨hb, -⟩ | ⟨j, c, o', hb, -, -⟩
      · exact hfail o hb
      · cases hfail _ hb
  · obtain ⟨hsub, hsub'⟩ := fixed_append.mp hfixed
    rw [consume_append] at hsome
    obtain ⟨m, hm, hj⟩ := Option.bind_eq_some_iff.mp hsome
    have hplain := fun o => h.plain i m o hsub hm
    rcases hb with ⟨hb, ho⟩ | ⟨j', c, o', hb, hb', rfl⟩
    · cases hplain o hb
      cases ho
    · cases hplain _ hb
      rw [Outcome.after_nil]
      exact h'.plain m j o' hsub' hj hb'
  · rcases List.append_eq_append_iff.mp heq with ⟨more, rfl, rfl⟩ | ⟨more, rfl, rfl⟩
    · obtain ⟨hsub, hmore⟩ := fixed_append.mp hfixed
      rw [consume_append] at hsome
      obtain ⟨m, hm, hj⟩ := Option.bind_eq_some_iff.mp hsome
      have hplain := fun o => h.plain i m o hsub hm
      rcases hb with ⟨hb, ho⟩ | ⟨j', c, o', hb, hb', rfl⟩
      · cases hplain o hb
        cases ho
      · cases hplain _ hb
        rw [Outcome.after_nil] at hleaves
        exact h'.carries code hnodup more rest k rfl hmore hholds s m j f o' r hj hb' hleaves
    · rw [holds_append] at hholds
      rw [List.length_append, ← Nat.add_assoc] at hleaves
      have hrest := h'.whole hnodup hholds.2
      have hfirst := fun o => h.carries code hnodup run more k rfl hfixed hholds.1 s i j f o r hsome
      rcases hb with ⟨hb, ho⟩ | ⟨j', c, o', hb, hb', rfl⟩
      · exact hfirst o hb (hleaves.ends ho)
      · exact hfirst _ hb fun f' => hrest (aAddCapt s c) j' f' o' r hb' hleaves.add

end Basics

section Constructs

variable {a : VmArgs} {code sub l r : List Pir} {ρ : Bindings} {b b' : Behaviour} {l1 l2 : Nat}

theorem fragment_choice (hl : Fragment a ρ b l) (hr : Fragment a ρ b' r) :
    Fragment a ρ (choice b b') ([.insn (.choice l1)] ++ l ++ [.insn (.commit l2), .label l1] ++ r ++
      [.label l2]) := by
  have hcode : [.insn (.choice l1)] ++ l ++ [.insn (.commit l2), .label l1] ++ r ++ [.label l2] =
      .insn (.choice l1) :: (l ++ .insn (.commit l2) :: .label l1 :: (r ++ [.label l2])) := by
    simp
  rw [hcode]
  refine fragment_of_carries rfl fun code hnodup k hholds => ?_
  simp only [holds_append, holds_insn, ne_eq, reduceCtorEq, not_false_eq_true, holds_label,
    holds_nil, and_true] at hholds
  obtain ⟨hchoice, hleft, hcommit, hl1, hright, hl2⟩ := hholds
  have hidx1 := labelIdx_eq hnodup hl1
  have hidx2 := labelIdx_eq hnodup hl2
  have hcarry := hl.whole hnodup hleft
  have hcarry' := hr.whole hnodup hright
  intro s i f o r' hb hleaves
  have hlen : k + (Pir.insn (.choice l1) :: (l ++ .insn (.commit l2) :: .label l1 ::
      (r ++ [.label l2]))).length = k + 1 + l.length + 1 + 1 + r.length + 1 := by
    simp only [List.length_append, List.length_cons, List.length_nil]
    omega
  rw [hlen] at hleaves
  refine final_choice hchoice ?_
  rw [hidx1]
  rcases hb with ⟨hb, ho⟩ | ⟨hb, hb'⟩
  · refine hcarry _ i f o r' hb ?_
    cases o with
    | ok j c =>
        intro f'
        refine final_commit hcommit ?_
        rw [hidx2]
        exact final_label hl2 (hleaves f')
    | fail => exact absurd rfl ho
    | stop => exact hleaves
  · refine hcarry _ i f .fail r' hb (leaves_btrack fun f' => final_label hl1 ?_)
    refine hcarry' s i f' o r' hb' ?_
    cases o with
    | ok j c => exact fun f'' => final_label hl2 (hleaves f'')
    | fail => exact hleaves
    | stop => exact hleaves

theorem fragment_star (h : Fragment a ρ b sub) :
    Fragment a ρ (Iterated b) (starCode l1 l2 sub) := by
  have hcode : starCode l1 l2 sub = .insn (.choice l2) :: .label l1 ::
      (sub ++ [.insn (.partialCommit l1), .label l2]) := by
    simp [starCode]
  rw [hcode]
  refine fragment_of_carries rfl fun code hnodup k hholds => ?_
  simp only [holds_append, holds_insn, ne_eq, reduceCtorEq, not_false_eq_true, holds_label,
    holds_nil, and_true] at hholds
  obtain ⟨hchoice, hl1, hsub, hcommit, hl2⟩ := hholds
  have hidx1 := labelIdx_eq hnodup hl1
  have hidx2 := labelIdx_eq hnodup hl2
  have hcarry := h.whole hnodup hsub
  have hlen : k + (Pir.insn (.choice l2) :: .label l1 :: (sub ++
      [.insn (.partialCommit l1), .label l2])).length = k + 1 + 1 + sub.length + 1 + 1 := by
    simp only [List.length_append, List.length_cons, List.length_nil]
    omega
  -- the loop, entered behind its label with the choice entry at the current position
  have hloop : ∀ {i o}, Iterated b i o → ∀ s f r, Leaves a code s (k + 1 + 1 + sub.length + 1 + 1) r o →
      Final a code (.running (goto (frame s (.btrack (k + 1 + 1 + sub.length + 1) i) .nil)
        (k + 1 + 1) i f)) r := by
    intro i o hb
    induction hb with
    | @halt i hb =>
        intro s f r hleaves
        refine hcarry _ i f .fail r hb (leaves_btrack fun f' => final_label hl2 ?_)
        exact hleaves.passed f'
    | @stop i hb =>
        intro s f r hleaves
        exact hcarry _ i f .stop r hb hleaves
    | @step i j c o o' hb _ ho ih =>
        intro s f r hleaves
        subst ho
        refine hcarry _ i f (.ok j c) r hb fun f' => final_partialCommit hcommit ?_
        rw [hidx1]
        exact final_label hl1 (ih (aAddCapt s c) f' r hleaves.add)
  intro s i f o r hb hleaves
  rw [hlen] at hleaves
  refine final_choice hchoice (final_label hl1 ?_)
  rw [hidx2]
  exact hloop hb s f r hleaves

theorem fragment_not (h : Fragment a ρ b sub) :
    Fragment a ρ (negated b) ([.insn (.choice l1)] ++ sub ++ [.insn .failTwice, .label l1]) := by
  have hcode : [.insn (.choice l1)] ++ sub ++ [.insn .failTwice, .label l1] =
      .insn (.choice l1) :: (sub ++ [.insn .failTwice, .label l1]) := by
    simp
  rw [hcode]
  refine fragment_of_carries rfl fun code hnodup k hholds => ?_
  simp only [holds_append, holds_insn, ne_eq, reduceCtorEq, not_false_eq_true, holds_label,
    holds_nil, and_true] at hholds
  obtain ⟨hchoice, hsub, htwice, hl1⟩ := hholds
  have hidx1 := labelIdx_eq hnodup hl1
  have hcarry := h.whole hnodup hsub
  intro s i f o r hb hleaves
  have hlen : k + (Pir.insn (.choice l1) :: (sub ++ [.insn .failTwice, .label l1])).length =
      k + 1 + sub.length + 1 + 1 := by
    simp only [List.length_append, List.length_cons, List.length_nil]
    omega
  rw [hlen] at hleaves
  refine final_choice hchoice ?_
  rw [hidx1]
  rcases hb with ⟨hb, rfl⟩ | ⟨⟨j, c, hb⟩, rfl⟩ | ⟨hb, rfl⟩
  · exact hcarry _ i f .fail r hb (leaves_btrack fun f' => final_label hl1 (hleaves.passed f'))
  · exact hcarry _ i f (.ok j c) r hb fun f' => final_failTwice htwice (hleaves.failed _ _ f')
  · exact hcarry _ i f .stop r hb hleaves

theorem fragment_and (h : Fragment a ρ b sub) :
    Fragment a ρ (ahead b) ([.insn (.choice l1)] ++ sub ++
      [.insn (.backCommit l2), .label l1, .insn .fail, .label l2]) := by
  have hcode : [.insn (.choice l1)] ++ sub ++
      [.insn (.backCommit l2), .label l1, .insn .fail, .label l2] = .insn (.choice l1) ::
        (sub ++ [.insn (.backCommit l2), .label l1, .insn .fail, .label l2]) := by
    simp
  rw [hcode]
  refine fragment_of_carries rfl fun code hnodup k hholds => ?_
  simp only [holds_append, holds_insn, ne_eq, reduceCtorEq, not_false_eq_true, holds_label,
    holds_nil, and_true] at hholds
  obtain ⟨hchoice, hsub, hcommit, hl1, hfail, hl2⟩ := hholds
  have hidx1 := labelIdx_eq hnodup hl1
  have hidx2 := labelIdx_eq hnodup hl2
  have hcarry := h.whole hnodup hsub
  intro s i f o r hb hleaves
  have hlen : k + (Pir.insn (.choice l1) :: (sub ++ [.insn (.backCommit l2), .label l1,
      .insn .fail, .label l2])).length = k + 1 + sub.length + 1 + 1 + 1 + 1 := by
    simp only [List.length_append, List.length_cons, List.length_nil]
    omega
  rw [hlen] at hleaves
  refine final_choice hchoice ?_
  rw [hidx1]
  rcases hb with ⟨j, c, hb, rfl⟩ | ⟨hb, ho⟩
  · refine hcarry _ i f (.ok j c) r hb fun f' => final_backCommit hcommit ?_
    rw [hidx2]
    exact final_label hl2 (hleaves f')
  · cases o with
    | ok j c => cases ho
    | fail =>
        refine hcarry _ i f .fail r hb (leaves_btrack fun f' => final_label hl1 ?_)
        exact final_fail hfail (hleaves.failed _ _ f')
    | stop => exact hcarry _ i f .stop r hb hleaves

theorem fragment_nothing : Fragment a ρ nothing [] := by
  refine fragment_of_fixed fixed_nil (fun i j o hsome hb => ?_) fun i o hnone _ => ?_
  · cases hsome
    exact hb
  · cases hnone

theorem fragment_openCall (name : String) : Fragment a ρ (ρ name) [.openCall name] :=
  fragment_of_carries rfl fun _ _ _ hholds => hholds.1

theorem fragment_span {set : VmCharset} (hb : ∀ i o, b i o →
    o = .ok (i + Input.spanLength a.input set i) .nil) : Fragment a ρ b [.insn (.span set)] := by
  refine fragment_of_carries rfl fun code _ k hholds s i f o r hbi hleaves => ?_
  rw [holds_insn (by simp)] at hholds
  rw [hb i o hbi] at hleaves
  exact final_span hholds.1 fun f => hleaves.passed f

theorem fragment_emptyop {mask : Int} (hok : ∀ i o, b i o →
    emptyOpContext (if i > 0 then a.input[i - 1]? else none) a.input[i]? &&& mask.toNat ≠ 0 →
      o = .ok i .nil)
    (hfail : ∀ i o, b i o →
      emptyOpContext (if i > 0 then a.input[i - 1]? else none) a.input[i]? &&& mask.toNat = 0 →
        o = .fail) : Fragment a ρ b [.insn (.empty mask)] := by
  refine fragment_of_carries rfl fun code _ k hholds s i f o r hb hleaves => ?_
  rw [holds_insn (by simp)] at hholds
  refine final_empty hholds.1 (fun htest => ?_) fun htest => ?_
  · rw [hok i o hb htest] at hleaves
    exact hleaves.passed f
  · rw [hfail i o hb htest] at hleaves
    exact hleaves.failed _ _ _

/-- The instruction takes a byte that `p` holds of, and jumps to `l` at others. -/
def Tests (p : UInt8 → Bool) (l : Nat) (test : PirInsn) : Prop :=
  isReal (.insn test) = true ∧ matchWidth (.insn test) = none ∧ ∀ a code s k,
    aInsn a none s (linkAt code k test) = aTestInsn a s p false (labelIdx code l)

theorem tests_char (x : Int) (l : Nat) : Tests (isByte x) l (.testCharNoChoice x l) :=
  ⟨rfl, rfl, fun _ _ _ _ => rfl⟩

theorem tests_set (set : VmCharset) (l : Nat) : Tests set.has l (.testSetNoChoice set l) :=
  ⟨rfl, rfl, fun _ _ _ _ => rfl⟩

theorem Tests.ne_nop {p : UInt8 → Bool} {l : Nat} {test : PirInsn} (h : Tests p l test) :
    test ≠ .nop := by
  rintro rfl
  cases h.1

theorem fragment_test {p : UInt8 → Bool} {test : PirInsn} (htest : Tests p l1 test)
    (hok : ∀ i o, b i o → a.input[i]?.any p = true → o = .ok (i + 1) .nil)
    (hfail : ∀ i o, b i o → a.input[i]?.any p = false → o = .ok i .nil) :
    Fragment a ρ b [.insn test, .label l1] := by
  refine fragment_of_carries htest.2.1 fun code hnodup k hholds s i f o r hb hleaves => ?_
  rw [holds_insn htest.ne_nop, holds_label] at hholds
  obtain ⟨hk, hl1, -⟩ := hholds
  have hidx1 := labelIdx_eq hnodup hl1
  refine final_test hk htest.1 (htest.2.2 a code _ k) (fun hp f => ?_) fun hp f => ?_
  · rw [hok i o hb hp] at hleaves
    exact final_label hl1 (hleaves.passed f)
  · rw [hidx1]
    rw [hfail i o hb hp] at hleaves
    exact final_label hl1 (hleaves.passed f)

/-- The first entry takes a byte that `p` holds of. -/
def Starts (w : List UInt8) (p : UInt8 → Bool) (c : Pir) : Prop :=
  Fixed [c] ∧ ∀ i, consume w [c] i = if w[i]?.any p then some (i + 1) else none

theorem starts_char (w : List UInt8) (x : Int) : Starts w (isByte x) (.insn (.char x)) :=
  ⟨fun i hi => by cases List.mem_singleton.mp hi; rfl, fun _ => rfl⟩

theorem starts_set (w : List UInt8) (set : VmCharset) : Starts w set.has (.insn (.set set)) :=
  ⟨fun i hi => by cases List.mem_singleton.mp hi; rfl, fun _ => rfl⟩

/-- The code of an ordered choice whose branches start with matchers that exclude each
other: where the first one matches, the right branch has nothing to try. -/
theorem fragment_disjoint {p q : UInt8 → Bool} {test : PirInsn} {c d : Pir}
    (htest : Tests p l1 test) (hc : Starts a.input p c) (hd : Starts a.input q d)
    (hdisjoint : ∀ x, p x = true → q x = false) (hl : Fragment a ρ b (c :: l))
    (hr : Fragment a ρ b' (d :: r)) :
    Fragment a ρ (choice b b') ([.insn test] ++ l ++ [.insn (.jump l2), .label l1] ++ (d :: r) ++
      [.label l2]) := by
  have hcode : [.insn test] ++ l ++ [.insn (.jump l2), .label l1] ++ (d :: r) ++ [.label l2] =
      .insn test :: (l ++ .insn (.jump l2) :: .label l1 :: ((d :: r) ++ [.label l2])) := by
    simp
  rw [hcode]
  refine fragment_of_carries htest.2.1 fun code hnodup k hholds => ?_
  simp only [holds_append, holds_insn htest.ne_nop, holds_insn, ne_eq, reduceCtorEq,
    not_false_eq_true, holds_label, holds_nil, and_true] at hholds
  obtain ⟨hk, hleft, hjump, hl1, hright, hl2⟩ := hholds
  have hidx1 := labelIdx_eq hnodup hl1
  have hidx2 := labelIdx_eq hnodup hl2
  have hcarry := hl.carries code hnodup [c] l (k + 1) rfl hc.1 hleft
  have hcarry' := hr.whole hnodup hright
  intro s i f o r' hb hleaves
  have hlen : k + (Pir.insn test :: (l ++ .insn (.jump l2) :: .label l1 ::
      ((d :: r) ++ [.label l2]))).length = k + 1 + l.length + 1 + 1 + (d :: r).length + 1 := by
    simp only [List.length_append, List.length_cons, List.length_nil]
    omega
  rw [hlen] at hleaves
  refine final_test hk htest.1 (htest.2.2 a code _ k) (fun hp f => ?_) fun hp f => ?_
  · have htake : consume a.input [c] i = some (i + 1) := by rw [hc.2, if_pos hp]
    have hexcluded : consume a.input [d] i = none := by
      rw [hd.2, if_neg]
      cases hbyte : a.input[i]? with
      | none => simp
      | some x =>
          rw [hbyte, Option.any_some] at hp
          simp [hdisjoint x hp]
    rcases hb with ⟨hb, ho⟩ | ⟨hb, hb'⟩
    · refine hcarry s i (i + 1) f o r' htake hb ?_
      cases o with
      | ok j c =>
          intro f'
          refine final_jump hjump ?_
          rw [hidx2]
          exact final_label hl2 (hleaves f')
      | fail => exact absurd rfl ho
      | stop => exact hleaves
    · rw [hr.fails [d] r i o rfl hd.1 hexcluded hb'] at hleaves
      exact hcarry s i (i + 1) f .fail r' htake hb hleaves
  · have hnone : consume a.input [c] i = none := by
      rw [hc.2, if_neg]
      simp [hp]
    rw [hidx1]
    refine final_label hl1 ?_
    rcases hb with ⟨hb, ho⟩ | ⟨hb, hb'⟩
    · exact absurd (hl.fails [c] l i o rfl hc.1 hnone hb) ho
    · refine hcarry' s i f o r' hb' ?_
      cases o with
      | ok j c => exact fun f' => final_label hl2 (hleaves f')
      | fail => exact hleaves
      | stop => exact hleaves

end Constructs

section Captures

variable {a : VmArgs} {run rest sub : List Pir} {ρ : Bindings} {b : Behaviour} {id : Int}

theorem consume_width {w : List UInt8} {i j : Nat} (hfit : ∀ c, .insn c ∈ run → BytesFit c)
    (h : consume w run i = some j) : ((j : Int) - i) = (run.filterMap matchWidth).sum := by
  induction run generalizing i with
  | nil =>
      cases h
      simp
  | cons c run ih =>
      have hrun := fun c hc => hfit c (List.mem_cons_of_mem _ hc)
      unfold consume at h
      split at h
      · next heq => cases heq
      · next heq =>
          cases heq
          split at h
          · have := ih hrun h
            simp only [List.filterMap_cons, matchWidth, List.sum_cons]
            omega
          · cases h
      · next heq =>
          cases heq
          split at h
          · have := ih hrun h
            simp only [List.filterMap_cons, matchWidth, List.sum_cons]
            omega
          · cases h
      · next n _ heq =>
          cases heq
          have hn : BytesFit (.any n) := hfit _ List.mem_cons_self
          split at h
          · have := ih hrun h
            have := hn.1
            simp only [List.filterMap_cons, matchWidth, List.sum_cons]
            omega
          · cases h
      · cases h

theorem fixed_takeWhile (sub : List Pir) :
    Fixed (sub.takeWhile fun i => (matchWidth i).isSome) := by
  intro i hi
  have hall := List.all_takeWhile (l := sub) (p := fun i => (matchWidth i).isSome)
  exact List.all_eq_true.mp hall i hi

theorem fragment_captureBegin (ha : a.windowed = false) (h : Fragment a ρ b sub) :
    Fragment a ρ (captured id b) ([.insn (.captureBegin id)] ++ sub ++ [.insn .captureEnd]) := by
  have hcode : [.insn (.captureBegin id)] ++ sub ++ [.insn .captureEnd] =
      .insn (.captureBegin id) :: (sub ++ [.insn .captureEnd]) := by
    simp
  rw [hcode]
  refine fragment_of_carries rfl fun code hnodup k hholds s i f o r hb hleaves => ?_
  simp only [holds_append, holds_insn, ne_eq, reduceCtorEq, not_false_eq_true, holds_nil,
    and_true] at hholds
  obtain ⟨hbegin, hsub, hend⟩ := hholds
  have hlen : k + (Pir.insn (.captureBegin id) :: (sub ++ [.insn .captureEnd])).length =
      k + 1 + sub.length + 1 := by
    simp only [List.length_append, List.length_cons, List.length_nil]
    omega
  rw [hlen] at hleaves
  refine final_captureBegin hbegin ?_
  have hcarry := h.whole hnodup hsub
  rcases hb with ⟨j, c, hb, rfl⟩ | ⟨hb, ho⟩
  · exact hcarry _ i f (.ok j c) r hb fun f' => final_captureEnd ha hend (hleaves f')
  · refine hcarry _ i f o r hb ?_
    cases o with
    | ok j c => cases ho
    | fail => exact leaves_capt hleaves
    | stop => exact hleaves

theorem fragment_captureFull (ha : a.windowed = false) (h : Fragment a ρ b run)
    (hrun : Fixed run) (hfit : ∀ c, .insn c ∈ run → BytesFit c) :
    Fragment a ρ (captured id b)
      (run ++ [.insn (.captureFull (run.filterMap matchWidth).sum id)]) := by
  have hfail : ∀ i o, consume a.input run i = none → captured id b i o → o = .fail := by
    intro i o hnone hb
    have hfails := fun o => h.fails run [] i o (List.append_nil run).symm hrun hnone
    rcases hb with ⟨j, c, hb, -⟩ | ⟨hb, -⟩
    · cases hfails _ hb
    · exact hfails o hb
  refine fragment_of_run hrun rfl hfail fun code _ k hholds s i j f o r hsome hb hleaves => ?_
  rw [holds_insn (by simp)] at hholds
  have hplain := fun o => h.plain i j o hrun hsome
  rcases hb with ⟨j', c, hb, rfl⟩ | ⟨hb, ho⟩
  · cases hplain _ hb
    have hwidth := consume_width hfit hsome
    rw [hwidth] at hleaves
    refine final_captureFull ha hholds.1 ?_
    rw [← hwidth, sub_sub_cancel, hwidth]
    exact hleaves f
  · rw [hplain o hb] at ho
    cases ho

theorem fragment_captureLate (ha : a.windowed = false) (h : Fragment a ρ b (run ++ rest))
    (hrun : Fixed run) (hfit : ∀ c, .insn c ∈ run → BytesFit c) :
    Fragment a ρ (captured id b) (run ++ [.insn (.captureLate (run.filterMap matchWidth).sum id)] ++
      rest ++ [.insn .captureEnd]) := by
  have hcode : run ++ [.insn (.captureLate (run.filterMap matchWidth).sum id)] ++ rest ++
      [.insn .captureEnd] = run ++ .insn (.captureLate (run.filterMap matchWidth).sum id) ::
        (rest ++ [.insn .captureEnd]) := by
    simp
  have hfail : ∀ i o, consume a.input run i = none → captured id b i o → o = .fail := by
    intro i o hnone hb
    have hfails := fun o => h.fails run rest i o rfl hrun hnone
    rcases hb with ⟨j, c, hb, -⟩ | ⟨hb, -⟩
    · cases hfails _ hb
    · exact hfails o hb
  rw [hcode]
  refine fragment_of_run hrun rfl hfail fun code hnodup k hholds s i j f o r hsome hb hleaves => ?_
  simp only [holds_append, holds_insn, ne_eq, reduceCtorEq, not_false_eq_true, holds_nil,
    and_true] at hholds
  obtain ⟨hlate, hrest, hend⟩ := hholds
  have hlen : k + (Pir.insn (.captureLate (run.filterMap matchWidth).sum id) ::
      (rest ++ [.insn .captureEnd])).length = k + 1 + rest.length + 1 := by
    simp only [List.length_append, List.length_cons, List.length_nil]
    omega
  rw [hlen] at hleaves
  refine final_captureLate hlate ?_
  rw [← consume_width hfit hsome, sub_sub_cancel]
  have hcarry := h.carries code hnodup run rest (k + 1) rfl hrun hrest
  rcases hb with ⟨j', c, hb, rfl⟩ | ⟨hb, ho⟩
  · exact hcarry _ i j f (.ok j' c) r hsome hb fun f' => final_captureEnd ha hend (hleaves f')
  · refine hcarry _ i j f o r hsome hb ?_
    cases o with
    | ok j c => cases ho
    | fail => exact leaves_capt hleaves
    | stop => exact hleaves

theorem fragment_cap (ha : a.windowed = false) (h : Fragment a ρ b sub)
    (hfit : ∀ c, .insn c ∈ sub → BytesFit c) : Fragment a ρ (captured id b) (capCode id sub) := by
  have hsplit := List.takeWhile_append_dropWhile (p := fun i => (matchWidth i).isSome) (l := sub)
  have hrun := fixed_takeWhile sub
  unfold capCode
  generalize sub.takeWhile (fun i => (matchWidth i).isSome) = run at hsplit hrun ⊢
  generalize sub.dropWhile (fun i => (matchWidth i).isSome) = rest at hsplit ⊢
  have hrunfit : ∀ c, .insn c ∈ run → BytesFit c := by
    intro c hc
    refine hfit c ?_
    rw [← hsplit]
    exact List.mem_append_left _ hc
  dsimp only
  split
  · exact fragment_captureBegin ha h
  · split
    · next hrest =>
        rw [hrest, List.append_nil] at hsplit
        subst hsplit
        exact fragment_captureFull ha h hrun hfit
    · subst hsplit
      exact fragment_captureLate ha h hrun hrunfit

end Captures

section Leaves

variable {a : VmArgs} {ρ : Bindings}

theorem isByte_toNat (x y : UInt8) : isByte x.toNat y = (x == y) := by
  unfold isByte
  by_cases hxy : x = y
  · subst hxy
    simp
  · have hne : y.toNat ≠ x.toNat := fun h => hxy (UInt8.toNat_inj.mp h.symm)
    simp [hxy, hne]

theorem consume_literal (w str : List UInt8) (i : Nat) :
    consume w (str.map fun x => .insn (.char x.toNat)) i =
      if str.isPrefixOf (w.drop i) then some (i + str.length) else none := by
  induction str generalizing i with
  | nil => simp [consume]
  | cons x str ih =>
      rw [List.map_cons, consume, ih]
      cases hw : w[i]? with
      | none =>
          have hle := List.getElem?_eq_none_iff.mp hw
          rw [List.drop_eq_nil_of_le hle]
          simp
      | some y =>
          have hdrop : w.drop i = y :: w.drop (i + 1) := by
            obtain ⟨hlt, rfl⟩ := List.getElem?_eq_some_iff.mp hw
            exact List.drop_eq_getElem_cons hlt
          rw [hdrop, Option.any_some, isByte_toNat, List.isPrefixOf]
          by_cases hxy : x = y
          · subst hxy
            simp [Nat.add_assoc, Nat.add_comm 1]
          · simp [hxy]

theorem fixed_literal (str : List UInt8) : Fixed (str.map fun x => .insn (.char x.toNat)) := by
  intro i hi
  obtain ⟨x, -, rfl⟩ := List.mem_map.mp hi
  rfl

theorem fragment_literal (k : Nat) (str : List UInt8) :
    Fragment a ρ (denote a.input k (.literal str) ρ) (str.map fun x => .insn (.char x.toNat)) := by
  refine fragment_of_fixed (fixed_literal str) (fun i j o hsome hb => ?_) fun i o hnone hb => ?_
  · rw [consume_literal] at hsome
    split at hsome
    · next hpre =>
        cases hsome
        rwa [denote_leaf (show leafOutcome _ _ _ = some (.ok (i + str.length) .nil) by rw [leafOutcome, if_pos hpre])] at hb
    · cases hsome
  · rw [consume_literal] at hnone
    split at hnone
    · cases hnone
    · next hpre => rwa [denote_leaf (show leafOutcome _ _ _ = some (.fail) by rw [leafOutcome, if_neg hpre])] at hb

theorem fragment_cls (k : Nat) (set : VmCharset) :
    Fragment a ρ (denote a.input k (.cls set) ρ) [.insn (.set set)] := by
  refine fragment_of_fixed (starts_set a.input set).1 (fun i j o hsome hb => ?_)
    fun i o hnone hb => ?_
  · rw [(starts_set a.input set).2] at hsome
    split at hsome
    · next htest =>
        cases hsome
        rwa [denote_leaf (show leafOutcome _ _ _ = some (.ok (i + 1) .nil) by rw [leafOutcome, if_pos htest])] at hb
    · cases hsome
  · rw [(starts_set a.input set).2] at hnone
    split at hnone
    · cases hnone
    · next htest => rwa [denote_leaf (show leafOutcome _ _ _ = some (.fail) by rw [leafOutcome, if_neg htest])] at hb

theorem fragment_dot (k : Nat) (n : UInt8) :
    Fragment a ρ (denote a.input k (.dot n) ρ) [.insn (.any n.toNat)] := by
  have hfixed : Fixed [.insn (.any n.toNat)] := by
    intro i hi
    cases List.mem_singleton.mp hi
    rfl
  have htake : ∀ i, consume a.input [.insn (.any n.toNat)] i =
      if i + n.toNat ≤ a.input.length then some (i + n.toNat) else none := fun _ => rfl
  refine fragment_of_fixed hfixed (fun i j o hsome hb => ?_) fun i o hnone hb => ?_
  · rw [htake] at hsome
    split at hsome
    · next htest =>
        cases hsome
        rwa [denote_leaf (show leafOutcome _ _ _ = some (.ok (i + n.toNat) .nil) by rw [leafOutcome, if_pos htest])] at hb
    · cases hsome
  · rw [htake] at hnone
    split at hnone
    · cases hnone
    · next htest => rwa [denote_leaf (show leafOutcome _ _ _ = some (.fail) by rw [leafOutcome, if_neg htest])] at hb

theorem fragment_empty (k : Nat) (op : UInt8) :
    Fragment a ρ (denote a.input k (.emptyop op) ρ) [.insn (.empty op.toNat)] := by
  refine fragment_emptyop (fun i o hb htest => ?_) fun i o hb htest => ?_
  all_goals rw [Int.toNat_natCast] at htest
  · rwa [denote_leaf (show leafOutcome _ _ _ = some (.ok i .nil) by rw [leafOutcome, if_pos htest])] at hb
  · rwa [denote_leaf (show leafOutcome _ _ _ = some (.fail) by rw [leafOutcome, if_neg (not_not_intro htest)])] at hb

theorem iterated_cls {w : List UInt8} {k : Nat} {set : VmCharset} {i : Nat} {o : Outcome}
    (h : Iterated (denote w k (.cls set) ρ) i o) : o = .ok (i + Input.spanLength w set i) .nil := by
  have hleaf : ∀ i o, denote w k (.cls set) ρ i o ↔
      o = if w[i]?.any set.has then .ok (i + 1) .nil else .fail := fun i o => denote_leaf rfl
  have hlen : ∀ i, Input.spanLength w set i =
      if w[i]?.any set.has then Input.spanLength w set (i + 1) + 1 else 0 := by
    intro i
    cases hw : w[i]? with
    | none =>
        rw [Input.spanLength_eq_zero set (List.getElem?_eq_none_iff.mp hw)]
        rfl
    | some y =>
        obtain ⟨hlt, rfl⟩ := List.getElem?_eq_some_iff.mp hw
        rw [Input.spanLength, List.drop_eq_getElem_cons hlt, List.takeWhile_cons, Option.any_some]
        cases set.has w[i] <;> rfl
  induction h with
  | @halt i h =>
      rw [hleaf] at h
      rw [hlen]
      split at h
      · cases h
      · next htest => rw [if_neg htest, Nat.add_zero]
  | stop h =>
      rw [hleaf] at h
      split at h <;> cases h
  | @step i j c o o' h _ ho ih =>
      rw [hleaf] at h
      rw [hlen]
      split at h
      · next htest =>
          cases h
          rw [ho, ih, if_pos htest, Outcome.after_nil, Nat.add_comm (Input.spanLength w set (i + 1)),
            Nat.add_assoc]
      · cases h

end Leaves

end Libpeg.Fragments
