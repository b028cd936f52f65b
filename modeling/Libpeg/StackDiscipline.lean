import Libpeg.ControlSimulation
import Libpeg.StackTyping

namespace Libpeg.StackDiscipline

open Libpeg.Opcode Libpeg.Code Libpeg.Memo Libpeg.Vm Libpeg.ControlMachine Libpeg.StackTyping

/-- The stack has a shape, and every address on it can be entered with the entries below; the
memo entries have known targets and ids. -/
inductive Fits (known : Nat → Int → Prop) (R : Nat → Shape → Prop) : Shape → List StEntry → Prop
  | main : Fits known R .main []
  | fn {t : Nat} {below : Shape} {stack : List StEntry} (ht : R t below)
      (h : Fits known R below stack) : Fits known R .fn (.ret t :: stack)
  | btrack {t off : Nat} {below : Shape} {stack : List StEntry} (ht : R t below)
      (h : Fits known R below stack) : Fits known R (.push .btrack below) (.btrack t off :: stack)
  | capt {id pos : Int} {below : Shape} {stack : List StEntry} (h : Fits known R below stack) :
      Fits known R (.push .capt below) (.capt id pos :: stack)
  | check {id flag : Int} {pos : Nat} {below : Shape} {stack : List StEntry}
      (h : Fits known R below stack) : Fits known R (.push .check below) (.check id pos flag :: stack)
  | memo {l pos : Nat} {id : Int} {below : Shape} {stack : List StEntry} (hl : known l id)
      (h : Fits known R below stack) : Fits known R (.push (.memo l id) below) (.memo id pos :: stack)
  | leave {l : Nat} {id : Int} {below : Shape} {stack : List StEntry} (hb : Shielded below)
      (h : Fits known R below stack) : Fits known R (.tree false l id below) stack
  | tree {entered : Bool} {l pos : Nat} {id count : Int} {below : Shape} {stack : List StEntry}
      (hl : known l id) (h : Fits known R (.tree false l id below) stack) :
      Fits known R (.tree entered l id below) (.memoTree id pos count :: stack)

/-- A running machine has a stack of a shape that its instruction may be entered with, and
nothing is left on the stack of a match. -/
def NextFits (known : Nat → Int → Prop) (R : Nat → Shape → Prop) : CNext → Prop
  | .running c => ∃ sh, R c.ip sh ∧ Fits known R sh c.stack
  | .done c success => success = true → c.stack = []
  | .aborted _ => False
  | _ => True

variable {known : Nat → Int → Prop} {R : Nat → Shape → Prop} {sh sh' next below : Shape} {stack rest chain : List StEntry}
  {a : VmArgs} {thr : Option Int} {c : Ctl} {id : Int} {l : Nat}

section Stacks

theorem Fits.sub (h : Fits known R sh stack) (hsub : Sub sh sh') : Fits known R sh' stack := by
  cases hsub with
  | refl => exact h
  | enter hs => exact .leave hs h
  | forget =>
      cases h with
      | tree hl h => exact .tree hl h

def IsChain (id : Int) (chain : List StEntry) : Prop :=
  ∀ e ∈ chain, ∃ pos count, e = .memoTree id pos count

theorem isChain_cons {e : StEntry} :
    IsChain id (e :: chain) ↔ (∃ pos count, e = .memoTree id pos count) ∧ IsChain id chain :=
  List.forall_mem_cons

def NoTree (stack : List StEntry) : Prop :=
  ∀ id pos count, stack.head? ≠ some (.memoTree id pos count)

theorem Fits.noTree (h : Fits known R sh stack) (hs : Shielded sh) : NoTree stack := by
  intro id pos count hhead
  cases h with
  | leave => exact hs
  | tree => exact hs
  | _ => cases hhead

theorem fits_tree_iff {entered : Bool} : Fits known R (.tree entered l id below) stack ↔
    Shielded below ∧ ∃ chain rest, stack = chain ++ rest ∧ IsChain id chain ∧
      (entered = true → chain ≠ []) ∧ (chain ≠ [] → known l id) ∧ Fits known R below rest := by
  constructor
  · intro h
    generalize hsh : Shape.tree entered l id below = sh at h
    induction h generalizing entered with
    | leave hb h =>
        cases hsh
        exact ⟨hb, [], _, rfl, by simp [IsChain], by simp, by simp, h⟩
    | @tree e l' pos id' count below' stack' hl h ih =>
        cases hsh
        obtain ⟨hb, chain, rest, rfl, hchain, -, -, hrest⟩ := ih rfl
        refine ⟨hb, .memoTree id pos count :: chain, rest, rfl, ?_, by simp, fun _ => hl, hrest⟩
        exact isChain_cons.mpr ⟨⟨pos, count, rfl⟩, hchain⟩
    | _ => cases hsh
  · rintro ⟨hb, chain, rest, rfl, hchain, hne, hknown, hrest⟩
    induction chain generalizing entered with
    | nil =>
        cases entered with
        | true => exact absurd rfl (hne rfl)
        | false => exact .leave hb hrest
    | cons e chain ih =>
        obtain ⟨⟨pos, count, rfl⟩, htail⟩ := isChain_cons.mp hchain
        exact .tree (hknown (by simp)) (ih htail (by simp) fun _ => hknown (by simp))

theorem cFail_fits (h : Fits known R sh stack) (c : Ctl) : NextFits known R (cFail a thr stack c) := by
  induction h generalizing c with
  | main => exact trivial
  | btrack ht h => exact ⟨_, ht, h⟩
  | leave hb h ih => exact ih c
  | _ =>
      rename_i ih
      exact ih _

theorem cGoFail_fits (h : Fits known R sh c.stack) : NextFits known R (cGoFail a thr c) :=
  cFail_fits h c

@[simp] theorem cPush_stack (c : Ctl) (e : StEntry) : (cPush c e).stack = e :: c.stack := by
  unfold cPush
  split <;> rfl

@[simp] theorem cPush_ip (c : Ctl) (e : StEntry) : (cPush c e).ip = c.ip := by
  unfold cPush
  split <;> rfl

@[simp] theorem cPop_ip (c : Ctl) (e : StEntry) (rest : List StEntry) : (cPop c e rest).ip = c.ip := by
  unfold cPop
  split <;> rfl

@[simp] theorem cMemoize_ip (pos : Nat) (mlen : Int) : (cMemoize a thr c pos mlen).ip = c.ip := by
  rcases cMemoize_eq a thr c pos mlen with h | h
  · rw [h]
  · rw [h]
    rfl

end Stacks

section Trees

theorem cTreeClose_chain (hchain : IsChain id chain) (hrest : NoTree rest) (fuel : Nat)
    (hfuel : chain.length ≤ fuel) (hstack : c.stack = chain ++ rest) :
    (cTreeClose id fuel c).stack = rest ∧ (cTreeClose id fuel c).ip = c.ip := by
  induction chain generalizing c fuel with
  | nil =>
      cases fuel with
      | zero => exact ⟨hstack, rfl⟩
      | succ fuel =>
          rw [cTreeClose, hstack]
          cases rest with
          | nil => exact ⟨hstack, rfl⟩
          | cons e rest =>
              cases e with
              | memoTree id' pos count => exact absurd rfl (hrest id' pos count)
              | _ => exact ⟨hstack, rfl⟩
  | cons e chain ih =>
      obtain ⟨⟨pos, count, rfl⟩, htail⟩ := isChain_cons.mp hchain
      cases fuel with
      | zero => cases hfuel
      | succ fuel =>
          have hpop := ih (c := cPop c (.memoTree id pos count) (chain ++ rest)) htail fuel
            (Nat.le_of_succ_le_succ hfuel) (cPop_stack c _ _)
          rw [cPop_ip] at hpop
          rw [cTreeClose, hstack]
          simpa using hpop

theorem cPopMany_drop (n : Nat) (c : Ctl) :
    (cPopMany n c).stack = c.stack.drop n ∧ (cPopMany n c).ip = c.ip := by
  induction n generalizing c with
  | zero => exact ⟨rfl, rfl⟩
  | succ n ih =>
      rw [cPopMany]
      cases hs : c.stack with
      | nil => exact ⟨by simp [hs], rfl⟩
      | cons e rest =>
          obtain ⟨hstack, hip⟩ := ih (cPop c e rest)
          rw [cPop_stack] at hstack
          rw [cPop_ip] at hip
          exact ⟨hstack, hip⟩

theorem cTreeMerge_chain (a : VmArgs) (thr : Option Int) {seen : Nat} (accum : Int)
    (hchain : IsChain id chain)
    (hseen : seen + 1 < chain.length) (hstack : c.stack = chain ++ rest) :
    ∃ chain', (cTreeMerge a thr (seen + 1) accum c).stack = chain' ++ rest ∧ IsChain id chain' ∧
      chain' ≠ [] ∧ (cTreeMerge a thr (seen + 1) accum c).ip = c.ip := by
  obtain ⟨hdrop, hip⟩ := cPopMany_drop seen c
  have htop : ∃ x y chain', chain.drop seen = x :: y :: chain' := by
    have hlen : (chain.drop seen).length = chain.length - seen := List.length_drop
    rcases hd : chain.drop seen with _ | ⟨x, _ | ⟨y, chain'⟩⟩
    · rw [hd] at hlen
      simp at hlen
      omega
    · rw [hd] at hlen
      simp at hlen
      omega
    · exact ⟨x, y, chain', rfl⟩
  obtain ⟨x, y, chain', hd⟩ := htop
  have hmem : IsChain id (x :: y :: chain') := fun e he =>
    hchain e (List.mem_of_mem_drop (hd ▸ he))
  obtain ⟨⟨pos, count, rfl⟩, htail⟩ := isChain_cons.mp hmem
  obtain ⟨⟨pos', count', rfl⟩, hlast⟩ := isChain_cons.mp htail
  rw [hstack, List.drop_append_of_le_length (by omega), hd] at hdrop
  refine ⟨.memoTree id pos' (accum + count') :: chain', ?_, ?_, by simp, ?_⟩
  · simp only [cTreeMerge, Nat.add_sub_cancel, hdrop, List.cons_append, cPop_stack]
    simp
  · exact isChain_cons.mpr ⟨⟨_, _, rfl⟩, hlast⟩
  · simp only [cTreeMerge, Nat.add_sub_cancel, hdrop, List.cons_append, cPop_stack]
    simp [hip]

theorem cTreeLoop_chain (a : VmArgs) (thr : Option Int) (fuel : Nat) {seen : Nat} (accum : Int)
    (hchain : IsChain id chain)
    (hseen : seen < chain.length) (hrest : NoTree rest) (hstack : c.stack = chain ++ rest) :
    ∃ chain', (cTreeLoop a thr fuel seen accum c).stack = chain' ++ rest ∧ IsChain id chain' ∧
      chain' ≠ [] ∧ (cTreeLoop a thr fuel seen accum c).ip = c.ip := by
  induction fuel generalizing c chain seen accum with
  | zero => exact ⟨chain, hstack, hchain, List.ne_nil_of_length_pos (by omega), rfl⟩
  | succ fuel ih =>
      have hstop : ∃ chain', c.stack = chain' ++ rest ∧ IsChain id chain' ∧ chain' ≠ [] ∧
          c.ip = c.ip :=
        ⟨chain, hstack, hchain, List.ne_nil_of_length_pos (by omega), rfl⟩
      rw [cTreeLoop]
      split
      · next id' pos count id'' pos' count' htop hnext =>
          -- below the chain there is another entry
          have hlt : seen + 1 < chain.length := by
            by_contra hge
            have heq : seen + 1 = chain.length := by omega
            rw [hstack, heq, List.getElem?_append_right le_rfl, Nat.sub_self] at hnext
            exact hrest _ _ _ ((List.head?_eq_getElem? ..).trans hnext)
          split
          · exact ih _ hchain hlt hstack
          · obtain ⟨chain', hstack', hchain', hne, hip⟩ :=
              cTreeMerge_chain a thr (accum + count) hchain hlt hstack
            obtain ⟨chain'', hrun⟩ := ih 0 hchain' (List.length_pos_of_ne_nil hne) hstack'
            rw [hip] at hrun
            exact ⟨chain'', hrun⟩
      · exact hstop

end Trees

section Step

variable {i : VmInsn} {hit : Option MemoEntry}

theorem nextFits_next (hnext : R (c.ip + 1) sh) (h : Fits known R sh c.stack) :
    NextFits known R (cNextIp c) :=
  ⟨sh, hnext, h⟩

theorem nextFits_jump (hl : R l sh) (h : Fits known R sh c.stack) : NextFits known R (cJumpTo c l) :=
  ⟨sh, hl, h⟩

theorem cMatch_fits (hnext : R (c.ip + 1) sh) (h : Fits known R sh c.stack) (p : UInt8 → Bool) :
    NextFits known R (cMatch a (cGoFail a thr) c p) := by
  unfold cMatch
  split
  · exact nextFits_next hnext h
  · exact cGoFail_fits h

theorem cTestInsn_fits {choice : Bool} (hl : R l sh)
    (hnext : R (c.ip + 1) (if choice then .push .btrack sh else sh)) (h : Fits known R sh c.stack)
    (p : UInt8 → Bool) : NextFits known R (cTestInsn a c p choice l) := by
  unfold cTestInsn
  dsimp only
  split
  · cases choice with
    | true => exact ⟨_, hnext, .btrack hl h⟩
    | false => exact nextFits_next (c := cAdvance (cPeek c) 1) hnext h
  · exact nextFits_jump (c := cPeek c) hl h

theorem cTree_fits (hnext : R (c.ip + 1) sh) (hsh : sh = .tree true l id below)
    (h : Fits known R sh c.stack) : NextFits known R (cNextIp (cTree a thr c)) := by
  subst hsh
  obtain ⟨hb, chain, rest, hstack, hchain, hne, hknown, hrest⟩ := fits_tree_iff.mp h
  obtain ⟨chain', hstack', hchain', hne', hip⟩ := cTreeLoop_chain a thr
    (2 * c.stack.length + 1) 0 hchain (List.length_pos_of_ne_nil (hne rfl))
    (hrest.noTree hb) hstack
  have hfits : Fits known R (.tree true l id below) (cTree a thr c).stack :=
    fits_tree_iff.mpr ⟨hb, chain', rest, hstack', hchain', fun _ => hne',
      fun _ => hknown (hne rfl), hrest⟩
  refine ⟨_, ?_, hfits⟩
  change R ((cTree a thr c).ip + 1) _
  rw [cTree, hip]
  exact hnext

theorem cTreeClose_fits (hnext : R (c.ip + 1) below) (h : Fits known R (.tree true l id below) c.stack) :
    NextFits known R (cNextIp (cTreeClose id c.stack.length c)) := by
  obtain ⟨hb, chain, rest, hstack, hchain, -, -, hrest⟩ := fits_tree_iff.mp h
  obtain ⟨hstack', hip⟩ := cTreeClose_chain hchain (hrest.noTree hb) c.stack.length
    (by simp [hstack]) hstack
  refine ⟨below, ?_, ?_⟩
  · change R ((cTreeClose id c.stack.length c).ip + 1) below
    rwa [hip]
  · change Fits known R below (cTreeClose id c.stack.length c).stack
    rwa [hstack']

/-- What an instruction of a program does to the shape: entries are merged at the address that
a hit of the loop leads to. -/
def Passes (R : Nat → Shape → Prop) (x : Nat) (sh next : Shape) : VmInsn → Prop
  | .memoTree => next = sh ∧ ∃ id r, sh = .tree true x id r
  | i => Turns R sh (some (x + 1)) next i

/-- An instruction that finds the shape it expects leaves the shape of the next one. -/
theorem cInsn_fits (hturns : Passes R c.ip sh next i) (hnop : i ≠ .nop)
    (hknown : ∀ l id, i = .memoOpen l id ∨ i = .memoTreeOpen l id → known l id)
    (hnext : (∀ b, i ≠ .endOp b) → R (c.ip + 1) next) (h : Fits known R sh c.stack) :
    NextFits known R (cInsn a thr hit (cGoFail a thr) c i) := by
  cases i with
  | nop => exact absurd rfl hnop
  | endOp b =>
      intro hb
      rcases hturns with rfl | rfl
      · simp at hb
      · generalize c.stack = stack at h
        cases h
        rfl
  | char b =>
      obtain rfl : next = sh := hturns
      exact cMatch_fits (hnext (by simp)) h _
  | set set =>
      obtain rfl : next = sh := hturns
      exact cMatch_fits (hnext (by simp)) h _
  | any n =>
      obtain rfl : next = sh := hturns
      simp only [cInsn]
      split
      · exact nextFits_next (c := cAdvance c n.toNat) (hnext (by simp)) h
      · exact cGoFail_fits (c := cAdvance c n.toNat) h
  | span set =>
      obtain rfl : next = sh := hturns
      exact ⟨_, hnext (by simp), h⟩
  | empty mask =>
      obtain rfl : next = sh := hturns
      simp only [cInsn]
      generalize emptyOpContext _ _ &&& mask.toNat = context
      split
      · exact nextFits_next (hnext (by simp)) h
      · exact cGoFail_fits h
  | captureFull back id =>
      obtain rfl : next = sh := hturns
      exact nextFits_next (hnext (by simp)) h
  | error k =>
      obtain rfl : next = sh := hturns
      exact nextFits_next (hnext (by simp)) h
  | jump l => exact nextFits_jump hturns h
  | choice l =>
      obtain ⟨hl, rfl⟩ := hturns
      exact ⟨_, hnext (by simp), .btrack hl h⟩
  | testChar b l =>
      obtain ⟨hl, rfl⟩ := hturns
      exact cTestInsn_fits hl (hnext (by simp)) h _
  | testSet set l =>
      obtain ⟨hl, rfl⟩ := hturns
      exact cTestInsn_fits hl (hnext (by simp)) h _
  | testCharNoChoice b l =>
      obtain ⟨hl, rfl⟩ := hturns
      exact cTestInsn_fits hl (hnext (by simp)) h _
  | testSetNoChoice set l =>
      obtain ⟨hl, rfl⟩ := hturns
      exact cTestInsn_fits hl (hnext (by simp)) h _
  | testAny n l =>
      obtain ⟨hl, rfl⟩ := hturns
      simp only [cInsn]
      split
      · exact ⟨_, hnext (by simp), .btrack hl h⟩
      · exact nextFits_jump hl h
  | call l =>
      obtain ⟨hl, rfl⟩ := hturns
      exact ⟨_, hl, .fn (hnext (by simp)) h⟩
  | ret =>
      obtain rfl : sh = .fn := hturns
      generalize hstack : c.stack = stack at h
      cases h with
      | fn ht h =>
          simp only [cInsn, hstack]
          exact ⟨_, ht, by simpa using h⟩
  | fail => exact cGoFail_fits h
  | failTwice =>
      obtain ⟨r, rfl⟩ := hturns
      generalize hstack : c.stack = stack at h
      cases h with
      | btrack ht h =>
          simp only [cInsn, hstack]
          exact cGoFail_fits (by simpa using h)
  | commit l =>
      obtain ⟨r, rfl, hl⟩ := hturns
      generalize hstack : c.stack = stack at h
      cases h with
      | btrack ht h =>
          simp only [cInsn, hstack]
          exact ⟨_, hl, by simpa using h⟩
  | backCommit l =>
      obtain ⟨r, rfl, hl⟩ := hturns
      generalize hstack : c.stack = stack at h
      cases h with
      | btrack ht h =>
          simp only [cInsn, hstack]
          exact ⟨_, hl, by simpa using h⟩
  | partialCommit l =>
      obtain ⟨⟨r, rfl⟩, hl⟩ := hturns
      generalize hstack : c.stack = stack at h
      cases h with
      | btrack ht h =>
          simp only [cInsn, hstack]
          exact ⟨_, hl, .btrack ht h⟩
  | captureBegin id =>
      obtain rfl : next = .push .capt sh := hturns
      exact ⟨_, hnext (by simp), .capt h⟩
  | captureLate back id =>
      obtain rfl : next = .push .capt sh := hturns
      exact ⟨_, hnext (by simp), .capt h⟩
  | captureEnd =>
      obtain rfl : sh = .push .capt next := hturns
      generalize hstack : c.stack = stack at h
      cases h with
      | capt h =>
          simp only [cInsn, hstack]
          exact nextFits_next (by simpa using hnext) (by simpa using h)
  | checkBegin id flag =>
      obtain rfl : next = .push .check sh := hturns
      exact ⟨_, hnext (by simp), .check h⟩
  | checkEnd k =>
      obtain rfl : sh = .push .check next := hturns
      generalize hstack : c.stack = stack at h
      cases h with
      | check h =>
          simp only [cInsn, hstack]
          split
          · exact nextFits_next (by simpa using hnext) (by simpa using h)
          · split
            · exact cGoFail_fits (by simpa using h)
            · split
              · exact cGoFail_fits (by simpa using h)
              · exact ⟨next, by simpa [cAdvance] using hnext, by simpa [cAdvance] using h⟩
  | memoOpen l id =>
      obtain ⟨hl, rfl⟩ := hturns
      simp only [cInsn]
      split
      · split
        · exact cGoFail_fits (c := record c _) h
        · exact nextFits_jump hl h
      · exact ⟨_, by simpa using hnext, by simpa using Fits.memo (hknown l id (.inl rfl)) h⟩
  | memoClose =>
      obtain ⟨l, id, rfl, -⟩ := hturns
      generalize hstack : c.stack = stack at h
      cases h with
      | memo hl h =>
          simp only [cInsn, hstack]
          exact nextFits_next (by simpa using hnext) (by simpa using h)
  | memoTreeOpen l id =>
      obtain ⟨r, rfl, rfl, hl⟩ := hturns
      simp only [cInsn]
      split
      · split
        · exact cGoFail_fits (c := record c _) h
        · refine nextFits_jump hl ?_
          simpa [record, cPeek, cAdvance] using Fits.tree (hknown l id (.inr rfl)) h
      · exact ⟨_, by simpa using hnext, by simpa using Fits.tree (hknown l id (.inr rfl)) h⟩
  | memoTreeInsert =>
      obtain ⟨⟨l, id, r, rfl, -⟩, rfl⟩ := hturns
      generalize hstack : c.stack = stack at h
      cases h with
      | tree hl h =>
          simp only [cInsn, hstack]
          exact nextFits_next (by simpa using hnext) (by simpa using Fits.tree hl h)
  | memoTree =>
      obtain ⟨rfl, id, r, rfl⟩ := hturns
      exact cTree_fits (hnext (by simp)) rfl h
  | memoTreeClose id =>
      obtain ⟨l, rfl⟩ := hturns
      exact cTreeClose_fits (hnext (by simp)) h

end Step

end Libpeg.StackDiscipline
