import Libpeg.Coarsening
import Libpeg.Control
import Libpeg.Relocation
import Libpeg.Simulation
import Mathlib.Algebra.Order.BigOperators.Group.List

namespace Libpeg.TreeMerge

open Libpeg.Code Libpeg.Memo Libpeg.Input Libpeg.Vm Libpeg.AbstractVm Libpeg.Forest
open Libpeg.IntervalRefinement Libpeg.MemoView Libpeg.Simulation Libpeg.Coarsening
open Libpeg.Control (memoize_stack)

/-- A memo-tree entry with its captures. -/
structure Block where
  id : Int
  pos : Nat
  count : Int
  capt : CapForest

/-- A block on top of another one, merged: the captures of the lower one come first. -/
instance : Mul Block where
  mul x y := ⟨y.id, y.pos, x.count + y.count, y.capt.append x.capt⟩

@[simp] theorem mul_pos (x y : Block) : (x * y).pos = y.pos :=
  rfl

@[simp] theorem mul_count (x y : Block) : (x * y).count = x.count + y.count :=
  rfl

@[simp] theorem mul_capt (x y : Block) : (x * y).capt = y.capt.append x.capt :=
  rfl

instance : Semigroup Block where
  mul_assoc x y z := by
    change Block.mk _ _ _ _ = Block.mk _ _ _ _
    simp only [mul_count, mul_capt, Int.add_assoc, append_assoc]
    rfl

def Block.frame (b : Block) : AFrame :=
  ⟨.memoTree b.id b.pos b.count, b.capt⟩

def isTree : StEntry → Bool
  | .memoTree _ _ _ => true
  | _ => false

def addEntries (new : List AEntry) (t : ATable) : ATable :=
  { t with entries := t.entries ++ new }

/-- An entry for the top of a run: it spans from the start of a block to the current
position, with the repetitions and captures from there on. -/
def Stored (cur : Nat) (run : List Block) (e : AEntry) : Prop :=
  ∃ x xs rest, run = x :: xs ++ rest ∧ e.id = (fuse x xs).id ∧ e.pos = (fuse x xs).pos ∧
    e.length = (cur : Int) - (fuse x xs).pos ∧ e.count = (fuse x xs).count ∧
    e.capt = (fuse x xs).capt

theorem Stored.coarser {cur : Nat} {o r : List Block} {e : AEntry} (h : Stored cur r e)
    (hcoarser : Coarser o r) : Stored cur o e := by
  obtain ⟨x, xs, rest, rfl, he⟩ := h
  obtain ⟨y, ys, o', rfl, heq, -⟩ := hcoarser.split
  rw [heq] at he
  exact ⟨y, ys, o', rfl, he⟩

section Abstract

variable {a : VmArgs} {s : AState} {below : List AFrame}

@[simp] theorem addEntries_nil : addEntries [] = id := by
  funext t
  simp [addEntries]

theorem addEntries_comp (new new' : List AEntry) :
    addEntries new' ∘ addEntries new = addEntries (new ++ new') := by
  funext t
  simp [addEntries]

theorem aMemoize_adds (a : VmArgs) (s : AState) (id : Int) (pos : Nat) (mlen count : Int)
    (capt : CapForest) : ∃ new, aMemoize a s id pos mlen count capt =
        { s with tbl := s.tbl.map (addEntries new) } ∧
      ∀ e ∈ new, e.id = id ∧ e.pos = pos ∧ e.length = mlen ∧ e.count = count ∧ e.capt = capt := by
  have hsame : s = { s with tbl := s.tbl.map (addEntries []) } := by
    rw [addEntries_nil, Option.map_id]
    rfl
  cases ht : s.tbl with
  | none =>
      refine ⟨[], ?_, fun e he => absurd he List.not_mem_nil⟩
      simp only [aMemoize, ht]
      rw [← ht]
      exact hsame
  | some t =>
      unfold aMemoize
      simp only [ht]
      rw [← ht]
      split
      · exact ⟨[], hsame, fun e he => absurd he List.not_mem_nil⟩
      · generalize (if s.furthest > s.pos then s.furthest else s.pos) = seen
        split
        · exact ⟨[], hsame, fun e he => absurd he List.not_mem_nil⟩
        · refine ⟨[_], by rw [ht]; rfl, fun e he => ?_⟩
          cases List.mem_singleton.mp he
          exact ⟨rfl, rfl, rfl, rfl, rfl⟩

theorem aPopMany_blocks (x : Block) (xs : List Block) (c : Int) {rest : List AFrame}
    (hs : s.stack = ⟨.memoTree x.id x.pos c, x.capt⟩ :: (xs.map Block.frame ++ rest)) :
    ∃ c', aPopMany xs.length s = { s with
      stack := ⟨.memoTree (fuse x xs).id (fuse x xs).pos c', (fuse x xs).capt⟩ :: rest } := by
  induction xs generalizing x c s with
  | nil =>
      refine ⟨c, ?_⟩
      change s = { s with stack := ⟨.memoTree x.id x.pos c, x.capt⟩ :: ([].map Block.frame ++ rest) }
      rw [← hs]
  | cons y xs ih =>
      rw [List.length_cons, aPopMany, hs]
      obtain ⟨c', hpop⟩ := ih (x * y) y.count (s := aPop s ⟨.memoTree x.id x.pos c, x.capt⟩
        ((y :: xs).map Block.frame ++ rest)) rfl
      refine ⟨c', hpop.trans ?_⟩
      rfl

theorem aTreeMerge_blocks (x y : Block) (xs : List Block) {rest : List AFrame}
    (hs : s.stack = (x :: xs).map Block.frame ++ y.frame :: rest) :
    ∃ new, aTreeMerge a (xs.length + 1) (fuse x xs).count s =
        { s with stack := (fuse x xs * y).frame :: rest, tbl := s.tbl.map (addEntries new) } ∧
      ∀ e ∈ new, e.id = (fuse x xs * y).id ∧ e.pos = (fuse x xs * y).pos ∧
        e.length = (s.pos : Int) - (fuse x xs * y).pos ∧ e.count = (fuse x xs * y).count ∧
        e.capt = (fuse x xs * y).capt := by
  have hstack : s.stack = ⟨.memoTree x.id x.pos x.count, x.capt⟩ ::
      (xs.map Block.frame ++ y.frame :: rest) := hs
  obtain ⟨c, hpop⟩ := aPopMany_blocks x xs x.count hstack
  have hmerge : aTreeMerge a (xs.length + 1) (fuse x xs).count s =
      aMemoize a { s with stack := (fuse x xs * y).frame :: rest } (fuse x xs * y).id
        (fuse x xs * y).pos ((s.pos : Int) - (fuse x xs * y).pos) (fuse x xs * y).count
        (fuse x xs * y).capt := by
    rw [aTreeMerge, Nat.add_sub_cancel, hpop]
    rfl
  obtain ⟨new, hadds, hnew⟩ := aMemoize_adds a { s with stack := (fuse x xs * y).frame :: rest }
    (fuse x xs * y).id (fuse x xs * y).pos ((s.pos : Int) - (fuse x xs * y).pos)
    (fuse x xs * y).count (fuse x xs * y).capt
  exact ⟨new, hmerge.trans hadds, hnew⟩

theorem getElem?_frames {run : List Block} {k : Nat} (hk : k < run.length) :
    (run.map Block.frame ++ below)[k]? = some (run[k]).frame := by
  rw [List.getElem?_append_left (by simpa using hk)]
  simp [hk]

/-- The loop, from a state in which the first `seen + 1` blocks outweigh those above
them. -/
theorem aTreeLoop_blocks (hbelow : ∀ e ∈ below.head?, isTree e.entry = false) (fuel seen : Nat)
    (accum : Int) {run : List Block} (hs : s.stack = run.map Block.frame ++ below)
    (hseen : seen ≤ run.length - 1) (haccum : accum = ((run.take seen).map Block.count).sum)
    (hdom : Dominating Block.count (run.take (seen + 1)))
    (hfuel : 2 * run.length + 1 ≤ fuel + seen) :
    ∃ run' new, aTreeLoop a fuel seen accum s =
        { s with stack := run'.map Block.frame ++ below, tbl := s.tbl.map (addEntries new) } ∧
      Coarser run run' ∧ Dominating Block.count run' ∧ ∀ e ∈ new, Stored s.pos run e := by
  induction fuel generalizing run seen accum s with
  | zero => omega
  | succ fuel ih =>
      by_cases hlt : seen + 1 < run.length
      · have htop : s.stack[seen]? = some (run[seen]).frame := by
          rw [hs]
          exact getElem?_frames (by omega)
        have hnext : s.stack[seen + 1]? = some (run[seen + 1]).frame := by
          rw [hs]
          exact getElem?_frames hlt
        have htake : run.take (seen + 1) = run.take seen ++ [run[seen]] :=
          List.take_succ_eq_append_getElem (by omega)
        have htake' : run.take (seen + 2) = run.take (seen + 1) ++ [run[seen + 1]] :=
          List.take_succ_eq_append_getElem hlt
        have hsum : accum + (run[seen]).count = ((run.take (seen + 1)).map Block.count).sum := by
          rw [htake, haccum, List.map_append, List.sum_append, List.map_singleton,
            List.sum_singleton]
        rw [aTreeLoop, htop, hnext]
        simp only [Block.frame]
        split
        · next hless =>
            refine ih (seen + 1) _ hs (by omega) hsum ?_ (by omega)
            rw [htake']
            exact hdom.snoc (hsum ▸ hless)
        · obtain ⟨x, xs, hxs⟩ : ∃ x xs, run.take (seen + 1) = x :: xs :=
            List.exists_cons_of_length_pos (by simp; omega)
          have hsplit : run = x :: xs ++ run[seen + 1] :: run.drop (seen + 2) := by
            rw [← hxs, ← List.drop_eq_getElem_cons hlt, List.take_append_drop]
          generalize run[seen + 1] = y at hsplit
          generalize run.drop (seen + 2) = zs at hsplit
          subst hsplit
          have hlen : xs.length = seen := by
            have := congrArg List.length hxs
            simp at this
            omega
          have hcount : (fuse x xs).count = accum + _ :=
            (weight_fuse (w := Block.count) (fun _ _ => rfl) x xs).trans (hxs ▸ hsum.symm)
          rw [← hcount, ← hlen]
          have hstack : s.stack = (x :: xs).map Block.frame ++
              y.frame :: (zs.map Block.frame ++ below) := by
            rw [hs]
            simp
          obtain ⟨new, hmerge, hnew⟩ := aTreeMerge_blocks (a := a) x y xs hstack
          have hmerged : Coarser (x :: xs ++ y :: zs) (fuse x xs * y :: zs) := by
            have hfuse : fuse x xs * y = fuse x (xs ++ [y]) := (fuse_append x y xs []).symm
            have hcons := Coarser.cons x (xs ++ [y]) (.refl zs)
            rw [← hfuse] at hcons
            simpa using hcons
          have hstack' : (fuse x xs * y).frame :: (zs.map Block.frame ++ below) =
              (fuse x xs * y :: zs).map Block.frame ++ below := rfl
          obtain ⟨run', new', hloop, hcoarser, hdom', hnew'⟩ := ih
            (s := { s with stack := _, tbl := s.tbl.map (addEntries new) }) 0 0 hstack'
            (Nat.zero_le _) rfl (dominating_short _ (by simp)) (by simp at hfuel ⊢; omega)
          refine ⟨run', new ++ new', ?_, hmerged.trans hcoarser, hdom', fun e he => ?_⟩
          · rw [hmerge, hloop]
            simp only [Option.map_map, addEntries_comp]
          · rcases List.mem_append.mp he with he | he
            · refine Stored.coarser ?_ hmerged
              exact ⟨fuse x xs * y, [], zs, rfl, hnew e he⟩
            · exact (hnew' e he).coarser hmerged
      · -- what is below the run stops the loop
        have hhead : s.stack[run.length]? = below.head? := by
          rw [hs, List.getElem?_append_right (by simp)]
          simp [List.head?_eq_getElem?]
        have hexit : aTreeLoop a (fuel + 1) seen accum s = s := by
          rw [aTreeLoop]
          split
          · next htop hnext =>
              rcases Nat.lt_or_ge seen run.length with hin | hout
              · rw [show seen + 1 = run.length by omega, hhead] at hnext
                exact absurd (hbelow _ hnext) (by simp [isTree])
              · rw [show seen = run.length by omega, hhead] at htop
                exact absurd (hbelow _ htop) (by simp [isTree])
          · rfl
        refine ⟨run, [], ?_, .refl run, ?_, fun e he => absurd he List.not_mem_nil⟩
        · rw [hexit, ← hs, addEntries_nil, Option.map_id]
          rfl
        · rw [List.take_of_length_le (by omega)] at hdom
          exact hdom

end Abstract

section Frame

variable {a : VmArgs} {s : VmState} {below : List StackEntry}

def under (below : List StackEntry) (s : VmState) : VmState :=
  { s with stack := s.stack ++ below }

theorem appendCapt_under (hs : s.stack ≠ []) (cs : List Nat) :
    appendCapt (under below s) cs = under below (appendCapt s cs) := by
  unfold appendCapt under
  cases h : s.stack with
  | nil => exact absurd h hs
  | cons e rest => rfl

theorem stackAddCapt_under (hs : s.stack ≠ []) (cs : List Nat) :
    stackAddCapt (under below s) cs = under below (stackAddCapt s cs) :=
  appendCapt_under (s := { s with mem := refAll s.mem cs }) hs cs

theorem popClear_under {e : StackEntry} {rest : List StackEntry} (hrest : rest ≠ []) :
    popClear (under below s) true e (rest ++ below) = under below (popClear s true e rest) := by
  cases rest with
  | nil => exact absurd rfl hrest
  | cons f rest => rfl

theorem popMany_under (n : Nat) (hn : n < s.stack.length) :
    popMany n (under below s) = under below (popMany n s) ∧
      (popMany n s).stack.length = s.stack.length - n := by
  induction n generalizing s with
  | zero => exact ⟨rfl, rfl⟩
  | succ n ih =>
      cases hs : s.stack with
      | nil =>
          rw [hs] at hn
          cases hn
      | cons e rest =>
          rw [hs, List.length_cons] at hn
          have hrest : rest ≠ [] := fun h => by simp [h] at hn
          have hlen : (popClear s true e rest).stack.length = rest.length := by
            have := congrArg List.length (popClear_stack (s := s) true e rest)
            simpa using this
          obtain ⟨heq, hlength⟩ := ih (s := popClear s true e rest) (by omega)
          have hunder : (under below s).stack = e :: (rest ++ below) := by
            simp [under, hs]
          rw [popMany, popMany, hunder, hs]
          simp only
          rw [popClear_under hrest, heq, hlength, hlen, List.length_cons]
          exact ⟨rfl, by omega⟩

theorem memoize_under (id : Int) (pos : Nat) (mlen count : Int) (capt : List Nat) :
    memoize a (under below s) id pos mlen count capt =
      under below (memoize a s id pos mlen count capt) := by
  unfold memoize under
  cases s.tbl with
  | none => rfl
  | some t =>
      dsimp only
      split
      · rfl
      · rfl

theorem addDummy_under (hs : s.stack ≠ []) (start length : Int) (children : List Nat) :
    addDummy (under below s) start length children = under below (addDummy s start length children) := by
  unfold addDummy under stackAddCapt appendCapt
  cases h : s.stack with
  | nil => exact absurd h hs
  | cons e rest => rfl

theorem handDown_entries (a : VmArgs) (s : VmState) (pos : Nat) (length : Int) (cs : List Nat) :
    (if cs = [] then s else if a.windowed then
      { stackAddCapt s cs with mem := freeAll (stackAddCapt s cs).mem cs }
      else addDummy s pos length cs).stack.map StackEntry.entry =
    s.stack.map StackEntry.entry := by
  split
  · rfl
  · split
    · exact appendCapt_entries (s := { s with mem := refAll s.mem cs }) cs
    · exact appendCapt_entries _

theorem handDown_under (pos : Nat) (length : Int) (cs : List Nat) (hs : s.stack ≠ []) :
    (if cs = [] then under below s else if a.windowed then
      { stackAddCapt (under below s) cs with
        mem := freeAll (stackAddCapt (under below s) cs).mem cs }
      else addDummy (under below s) pos length cs) =
    under below (if cs = [] then s else if a.windowed then
      { stackAddCapt s cs with mem := freeAll (stackAddCapt s cs).mem cs }
      else addDummy s pos length cs) := by
  split
  · rfl
  · split
    · rw [stackAddCapt_under hs]
      rfl
    · exact addDummy_under hs _ _ _

theorem memoTreeMerge_under (seen : Nat) (accum : Int) (hseen : seen + 1 < s.stack.length) :
    memoTreeMerge a (seen + 1) accum (under below s) =
      under below (memoTreeMerge a (seen + 1) accum s) := by
  obtain ⟨hpop, hlen⟩ : popMany seen (under below s) = under below (popMany seen s) ∧ _ :=
    popMany_under seen (by omega)
  unfold memoTreeMerge
  rw [Nat.add_sub_cancel, hpop]
  generalize popMany seen s = t at hlen
  obtain ⟨⟨entry, cs⟩, ⟨entry', cs'⟩, rest, hstack⟩ : ∃ e f rest, t.stack = e :: f :: rest := by
    cases hstack : t.stack with
    | nil => simp [hstack] at hlen; omega
    | cons e rest =>
        cases rest with
        | nil => simp [hstack] at hlen; omega
        | cons f rest => exact ⟨e, f, rest, rfl⟩
  rcases t with ⟨ip, src, stack, capt, mem, tbl, errs, low, high, n⟩
  change stack = _ at hstack
  subst hstack
  cases entry with
  | memoTree id pos count =>
      let t : VmState :=
        ⟨ip, src, ⟨entry', cs'⟩ :: rest, capt, mem, tbl, errs, low, high, n⟩
      have hentries := handDown_entries a t pos ((vmInputPos src : Int) - pos) cs
      have hhand : _ = under below _ :=
        handDown_under (a := a) (s := t) pos ((vmInputPos src : Int) - pos) cs
          (List.cons_ne_nil _ _)
      simp only [t, under, List.cons_append] at hhand hentries ⊢
      rw [hhand]
      generalize (if cs = [] then _ else _ : VmState) = u at hentries
      cases hu : u.stack with
      | nil =>
          rw [hu] at hentries
          cases hentries
      | cons f rest' =>
          rcases f with ⟨entry'', cs''⟩
          cases entry'' with
          | memoTree id' pos' count' =>
              simp only [List.cons_append]
              exact memoize_under (s := { u with
                stack := ⟨.memoTree id' pos' (accum + count'), cs''⟩ :: rest'
                mem := refAll u.mem cs'' }) _ _ _ _ _
          | _ => simp [hu]
  | _ => rfl

theorem popMany_entries (n : Nat) (s : VmState) :
    (popMany n s).stack.map StackEntry.entry = (s.stack.map StackEntry.entry).drop n := by
  induction n generalizing s with
  | zero => rfl
  | succ n ih =>
      rw [popMany]
      cases hs : s.stack with
      | nil => simp [hs]
      | cons e rest =>
          simp only [ih, popClear_stack]
          rfl

theorem memoTreeMerge_entries {seen : Nat} (accum : Int) {id id' count count' : Int}
    {pos pos' : Nat} {es : List StEntry}
    (h : (s.stack.map StackEntry.entry).drop seen =
      .memoTree id pos count :: .memoTree id' pos' count' :: es) :
    (memoTreeMerge a (seen + 1) accum s).stack.map StackEntry.entry =
      .memoTree id' pos' (accum + count') :: es := by
  rw [← popMany_entries] at h
  unfold memoTreeMerge
  rw [Nat.add_sub_cancel]
  generalize popMany seen s = t at h
  rcases t with ⟨ip, src, stack, capt, mem, tbl, errs, low, high, n⟩
  obtain ⟨⟨entry, cs⟩, rest, rfl, rfl, hrest⟩ := List.map_eq_cons_iff.mp h
  have hdown := handDown_entries a ⟨ip, src, rest, capt, mem, tbl, errs, low, high, n⟩ pos
    ((vmInputPos src : Int) - pos) cs
  dsimp only at hdown ⊢
  generalize (if cs = [] then _ else _ : VmState) = u at hdown
  rw [hrest] at hdown
  obtain ⟨⟨entry', cs'⟩, rest', hstack', rfl, hrest'⟩ := List.map_eq_cons_iff.mp hdown
  rw [hstack']
  simp only [memoize_stack, List.map_cons, hrest']

theorem drop_entries {seen : Nat} {e f : StackEntry} (htop : s.stack[seen]? = some e)
    (hnext : s.stack[seen + 1]? = some f) : (s.stack.map StackEntry.entry).drop seen =
      e.entry :: f.entry :: (s.stack.map StackEntry.entry).drop (seen + 2) := by
  obtain ⟨hlt, rfl⟩ := List.getElem?_eq_some_iff.mp htop
  obtain ⟨hlt', rfl⟩ := List.getElem?_eq_some_iff.mp hnext
  rw [← List.map_drop, List.drop_eq_getElem_cons hlt, List.drop_eq_getElem_cons hlt',
    List.map_cons, List.map_cons, List.map_drop]

theorem memoTreeLoop_under (hbelow : ∀ e ∈ below.head?, isTree e.entry = false) (fuel seen : Nat)
    (accum : Int) (hseen : seen ≤ s.stack.length - 1) :
    memoTreeLoop a fuel seen accum (under below s) =
      under below (memoTreeLoop a fuel seen accum s) := by
  induction fuel generalizing seen accum s with
  | zero => rfl
  | succ fuel ih =>
      have hstack : (under below s).stack = s.stack ++ below := rfl
      rw [memoTreeLoop, memoTreeLoop, hstack]
      by_cases hlt : seen + 1 < s.stack.length
      · rw [List.getElem?_append_left (by omega), List.getElem?_append_left hlt]
        split
        · split
          · exact ih _ _ (by omega)
          · rw [memoTreeMerge_under _ _ hlt]
            exact ih _ _ (Nat.zero_le _)
        · rfl
      · have hhead : (s.stack ++ below)[s.stack.length]? = below.head? := by
          rw [List.getElem?_append_right le_rfl, Nat.sub_self, List.head?_eq_getElem?]
        rw [show s.stack[seen + 1]? = none from List.getElem?_eq_none (by omega)]
        split
        · next htop hnext =>
            rcases Nat.lt_or_ge seen s.stack.length with hin | hout
            · rw [show seen + 1 = s.stack.length by omega, hhead] at hnext
              exact absurd (hbelow _ hnext) (by simp [isTree])
            · rw [show seen = s.stack.length by omega, hhead] at htop
              exact absurd (hbelow _ htop) (by simp [isTree])
        · split
          · next hnone => cases hnone
          · rfl

theorem memoTreeLoop_fuel (fuel seen : Nat) (accum : Int) (hseen : seen ≤ s.stack.length - 1)
    (hfuel : 2 * s.stack.length < fuel + seen) :
    memoTreeLoop a (fuel + 1) seen accum s = memoTreeLoop a fuel seen accum s := by
  induction fuel generalizing seen accum s with
  | zero => omega
  | succ fuel ih =>
      rw [memoTreeLoop, memoTreeLoop]
      split
      · next _ _ _ _ count _ _ _ _ _ htop hnext =>
          have hlt := (List.getElem?_eq_some_iff.mp hnext).1
          split
          · exact ih _ _ (by omega) (by omega)
          · have hentries := memoTreeMerge_entries (a := a) (accum + count)
              (drop_entries htop hnext)
            have hlen := congrArg List.length hentries
            simp only [List.length_map, List.length_cons, List.length_drop] at hlen
            exact ih _ _ (Nat.zero_le _) (by omega)
      · rfl

end Frame

section Entries

variable {a : VmArgs} {s : VmState} {σ : AState}

theorem aPopMany_entries (n : Nat) (σ : AState) :
    (aPopMany n σ).stack.map AFrame.entry = (σ.stack.map AFrame.entry).drop n := by
  induction n generalizing σ with
  | zero => rfl
  | succ n ih =>
      rw [aPopMany]
      cases hs : σ.stack with
      | nil => simp [hs]
      | cons e rest =>
          have hpop : (aPop σ e rest).stack.map AFrame.entry = rest.map AFrame.entry := by
            cases rest <;> rfl
          simp only [ih, hpop, List.map_cons, List.drop_succ_cons]

theorem aTreeMerge_entries {seen : Nat} (accum : Int) {id id' count count' : Int}
    {pos pos' : Nat} {es : List StEntry}
    (h : (σ.stack.map AFrame.entry).drop seen =
      .memoTree id pos count :: .memoTree id' pos' count' :: es) :
    (aTreeMerge a (seen + 1) accum σ).stack.map AFrame.entry =
      .memoTree id' pos' (accum + count') :: es := by
  rw [← aPopMany_entries] at h
  unfold aTreeMerge
  rw [Nat.add_sub_cancel]
  generalize aPopMany seen σ = t at h
  rcases t with ⟨ip, cur, furthest, stack, capt, tbl, errs, n⟩
  obtain ⟨⟨entry, f⟩, rest, rfl, rfl, hrest⟩ := List.map_eq_cons_iff.mp h
  obtain ⟨⟨entry', f'⟩, rest', rfl, rfl, hrest'⟩ := List.map_eq_cons_iff.mp hrest
  dsimp only [aPop, aAddCapt]
  obtain ⟨new, hadds, -⟩ := aMemoize_adds a ⟨ip, cur, furthest,
    ⟨.memoTree id' pos' (accum + count'), f'.append f⟩ :: rest', capt, tbl, errs, n⟩ id' pos'
    ((cur : Int) - pos') (accum + count') (f'.append f)
  rw [hadds, List.map_cons, hrest']

theorem memoTreeLoop_entries (fuel seen : Nat) (accum : Int)
    (h : s.stack.map StackEntry.entry = σ.stack.map AFrame.entry) :
    (memoTreeLoop a fuel seen accum s).stack.map StackEntry.entry =
      (aTreeLoop a fuel seen accum σ).stack.map AFrame.entry := by
  induction fuel generalizing seen accum s σ with
  | zero => exact h
  | succ fuel ih =>
      have hget : ∀ i : Nat, s.stack[i]?.map StackEntry.entry = σ.stack[i]?.map AFrame.entry := by
        intro i
        rw [← List.getElem?_map, h, List.getElem?_map]
      have htop := hget seen
      have hnext := hget (seen + 1)
      rw [memoTreeLoop, aTreeLoop]
      split
      · next id pos count cs id' pos' count' cs' hs hs' =>
          rw [hs] at htop
          rw [hs'] at hnext
          obtain ⟨⟨entry, f⟩, hσ, rfl⟩ := Option.map_eq_some_iff.mp htop.symm
          obtain ⟨⟨entry', f'⟩, hσ', rfl⟩ := Option.map_eq_some_iff.mp hnext.symm
          rw [hσ, hσ']
          dsimp only
          split
          · exact ih _ _ h
          · have hdrop := drop_entries hs hs'
            have hdrop' := hdrop
            rw [h] at hdrop'
            refine ih _ _ ?_
            rw [memoTreeMerge_entries _ hdrop, aTreeMerge_entries _ hdrop', h]
      · next hnot =>
          split
          · next hσ hσ' =>
              rw [hσ] at htop
              rw [hσ'] at hnext
              obtain ⟨⟨entry, cs⟩, hs, rfl⟩ := Option.map_eq_some_iff.mp htop
              obtain ⟨⟨entry', cs'⟩, hs', rfl⟩ := Option.map_eq_some_iff.mp hnext
              exact absurd hs' (hnot _ _ _ _ _ _ _ _ hs)
          · exact h

end Entries

/-- The topmost run of memo-tree entries, from the top. -/
def treeRun (stack : List StackEntry) : List StackEntry :=
  stack.takeWhile fun e => isTree e.entry

def treePos : StEntry → Nat
  | .memoTree _ pos _ => pos
  | _ => 0

def treeCount : StEntry → Int
  | .memoTree _ _ count => count
  | _ => 0

def runCount (run : List StackEntry) : Int :=
  (run.map fun e => treeCount e.entry).sum

def bottomPos (run : List StackEntry) : Option Nat :=
  run.getLast?.map fun e => treePos e.entry

/-- The captures of a run, from the bottom to the top and without dummies. -/
def runCaptures (v : List VCell) (run : List StackEntry) : CapForest :=
  forest v (run.reverse.flatMap StackEntry.capt)

section Machine

variable {a : VmArgs} {s : VmState} {ref : List (RefIv Nat)} {p : Nat → Int}

/-- An entry of a run as a block without captures. -/
def bare (e : StackEntry) : Block :=
  match e.entry with
  | .memoTree id pos count => ⟨id, pos, count, .nil⟩
  | _ => ⟨0, 0, 0, .nil⟩

def block (v : List VCell) (e : StackEntry) : Block :=
  { bare e with capt := forest v e.capt }

theorem block_frame (v : List VCell) {e : StackEntry} (he : isTree e.entry = true) :
    (block v e).frame = absFrame v e := by
  rcases e with ⟨entry, cs⟩
  cases entry <;> first | rfl | cases he

theorem bare_count (e : StackEntry) : (bare e).count = treeCount e.entry := by
  rcases e with ⟨entry, cs⟩
  cases entry <;> rfl

theorem bare_pos (e : StackEntry) : (bare e).pos = treePos e.entry := by
  rcases e with ⟨entry, cs⟩
  cases entry <;> rfl

theorem bare_capt (e : StackEntry) : (bare e).capt = .nil := by
  rcases e with ⟨entry, cs⟩
  cases entry <;> rfl

theorem fuse_run {b : StackEntry → Block} (hcount : ∀ e, (b e).count = treeCount e.entry)
    (hpos : ∀ e, (b e).pos = treePos e.entry) (e : StackEntry) (es : List StackEntry) :
    (fuse (b e) (es.map b)).count = runCount (e :: es) ∧
      some (fuse (b e) (es.map b)).pos = bottomPos (e :: es) := by
  induction es using List.reverseRecOn with
  | nil =>
      refine ⟨?_, ?_⟩
      · simp [fuse, hcount, runCount]
      · simp [fuse, hpos, bottomPos]
  | append_singleton es f ih =>
      obtain ⟨hcount', -⟩ := ih
      have hfuse : fuse (b e) ((es ++ [f]).map b) = fuse (b e) (es.map b) * b f := by
        rw [List.map_append, List.map_singleton, fuse_append]
        rfl
      rw [hfuse, mul_count, mul_pos, hcount', hcount, hpos]
      refine ⟨?_, ?_⟩
      · simp [runCount, Int.add_assoc]
      · rw [bottomPos, ← List.cons_append, List.getLast?_concat]
        rfl

theorem fuse_capt (v : List VCell) (e : StackEntry) (es : List StackEntry) :
    (fuse (block v e) (es.map (block v))).capt = runCaptures v (e :: es) := by
  induction es using List.reverseRecOn with
  | nil => simp [fuse, block, runCaptures]
  | append_singleton es f ih =>
      have hfuse : fuse (block v e) ((es ++ [f]).map (block v)) =
          fuse (block v e) (es.map (block v)) * block v f := by
        rw [List.map_append, List.map_singleton, fuse_append]
        rfl
      rw [hfuse, mul_capt, ih, runCaptures, runCaptures, ← List.cons_append, List.reverse_append,
        List.reverse_singleton, List.singleton_append, List.flatMap_cons, forest_append]
      rfl

theorem frame_block {v : List VCell} {e : StackEntry} {b : Block} (h : absFrame v e = b.frame) :
    isTree e.entry = true ∧ block v e = b := by
  rcases e with ⟨entry, cs⟩
  obtain ⟨hentry, hcapt⟩ := AFrame.mk.inj h
  change entry = _ at hentry
  subst hentry
  refine ⟨rfl, ?_⟩
  change Block.mk b.id b.pos b.count (forest v cs) = b
  rw [hcapt]

theorem frames_blocks {v : List VCell} {es : List StackEntry} {bs : List Block}
    (h : es.map (absFrame v) = bs.map Block.frame) :
    (∀ e ∈ es, isTree e.entry = true) ∧ es.map (block v) = bs := by
  induction es generalizing bs with
  | nil =>
      cases bs with
      | nil => exact ⟨fun e he => absurd he List.not_mem_nil, rfl⟩
      | cons b bs => cases h
  | cons e es ih =>
      cases bs with
      | nil => cases h
      | cons b bs =>
          obtain ⟨hhead, htail⟩ := List.cons.inj h
          obtain ⟨htree, hblock⟩ := frame_block hhead
          obtain ⟨htrees, hblocks⟩ := ih htail
          exact ⟨List.forall_mem_cons.mpr ⟨htree, htrees⟩, by rw [List.map_cons, hblock, hblocks]⟩

theorem entries_blocks {es : List StackEntry} {bs : List Block}
    (h : es.map StackEntry.entry = bs.map fun b => b.frame.entry) (hnil : ∀ b ∈ bs, b.capt = .nil) :
    (∀ e ∈ es, isTree e.entry = true) ∧ es.map bare = bs := by
  induction es generalizing bs with
  | nil =>
      cases bs with
      | nil => exact ⟨fun e he => absurd he List.not_mem_nil, rfl⟩
      | cons b bs => cases h
  | cons e es ih =>
      cases bs with
      | nil => cases h
      | cons b bs =>
          obtain ⟨hhead, htail⟩ := List.cons.inj h
          obtain ⟨hb, hbs⟩ := List.forall_mem_cons.mp hnil
          obtain ⟨htrees, hblocks⟩ := ih htail hbs
          rcases e with ⟨entry, cs⟩
          change entry = _ at hhead
          subst hhead
          refine ⟨List.forall_mem_cons.mpr ⟨rfl, htrees⟩, ?_⟩
          rw [List.map_cons, hblocks]
          change Block.mk b.id b.pos b.count .nil :: bs = b :: bs
          rw [← hb]

def belowRun (stack : List StackEntry) : List StackEntry :=
  stack.dropWhile fun e => isTree e.entry

theorem treeRun_tree {stack : List StackEntry} {e : StackEntry} (he : e ∈ treeRun stack) :
    isTree e.entry = true :=
  List.mem_takeWhile_imp (p := fun e : StackEntry => isTree e.entry) he

theorem belowRun_head (stack : List StackEntry) :
    ∀ e ∈ (belowRun stack).head?, isTree e.entry = false := by
  intro e he
  have hnot := List.head?_dropWhile_not (fun e : StackEntry => isTree e.entry) stack
  rw [show (stack.dropWhile fun e => isTree e.entry).head? = some e from he] at hnot
  simpa using hnot

theorem treeRun_append {run below : List StackEntry} (hrun : ∀ e ∈ run, isTree e.entry = true)
    (hbelow : ∀ e ∈ below.head?, isTree e.entry = false) :
    treeRun (run ++ below) = run ∧ belowRun (run ++ below) = below := by
  have hstop : below.takeWhile (fun e => isTree e.entry) = [] ∧
      below.dropWhile (fun e => isTree e.entry) = below := by
    cases below with
    | nil => exact ⟨rfl, rfl⟩
    | cons e below => simp [hbelow e rfl]
  unfold treeRun belowRun
  rw [List.takeWhile_append_of_pos hrun, List.dropWhile_append_of_pos hrun, hstop.1, hstop.2]
  exact ⟨List.append_nil _, rfl⟩

theorem coarser_runs {b b' : StackEntry → Block} {run run' : List StackEntry}
    (h : Coarser (run.map b) (run'.map b')) : run = [] ∧ run' = [] ∨
      ∃ e es f fs, run = e :: es ∧ run' = f :: fs ∧ fuse (b e) (es.map b) = fuse (b' f) (fs.map b') := by
  cases run' with
  | nil => exact .inl ⟨List.map_eq_nil_iff.mp (eq_nil_of_coarser h), rfl⟩
  | cons f fs =>
      cases run with
      | nil =>
          obtain ⟨y, ys, o, heq, -⟩ := (show Coarser [] (b' f :: [] ++ _) from h).split
          cases heq
      | cons e es => exact .inr ⟨e, es, f, fs, rfl, rfl, h.fuse_eq⟩

theorem coarser_whole {run run' : List StackEntry} (h : Coarser (run.map bare) (run'.map bare)) :
    bottomPos run' = bottomPos run ∧ runCount run' = runCount run := by
  rcases coarser_runs h with ⟨rfl, rfl⟩ | ⟨e, es, f, fs, rfl, rfl, heq⟩
  · exact ⟨rfl, rfl⟩
  · obtain ⟨hcount, hpos⟩ := fuse_run bare_count bare_pos e es
    obtain ⟨hcount', hpos'⟩ := fuse_run bare_count bare_pos f fs
    rw [← hcount, ← hpos, ← hcount', ← hpos', heq]
    exact ⟨rfl, rfl⟩

theorem runCount_blocks (run : List StackEntry) :
    runCount run = ((run.map bare).map Block.count).sum := by
  rw [runCount, List.map_map]
  exact congrArg List.sum (List.map_congr_left fun e _ => (bare_count e).symm)

theorem outweighs {run run' : List StackEntry} (h : Coarser (run.map bare) (run'.map bare))
    (hdom : Dominating Block.count (run'.map bare)) (hcounts : ∀ e ∈ run, 1 ≤ treeCount e.entry)
    {above below : List StackEntry} {e : StackEntry} (heq : run' = above ++ e :: below) :
    runCount above < treeCount e.entry := by
  rw [← bare_count, runCount_blocks]
  rcases above with _ | ⟨d, above⟩
  · -- the top entry has the repetitions of at least one block
    have hmem : bare e ∈ run'.map bare := List.mem_map_of_mem (by simp [heq])
    obtain ⟨x, xs, hfuse, hsub⟩ := h.group hmem
    have hpos : ∀ b ∈ x :: xs, 1 ≤ b.count := by
      intro b hb
      obtain ⟨d, hd, rfl⟩ := List.mem_map.mp (hsub hb)
      rw [bare_count]
      exact hcounts d hd
    rw [hfuse, weight_fuse (w := Block.count) (fun _ _ => rfl)]
    have hsum : 0 ≤ (xs.map Block.count).sum := by
      refine List.sum_nonneg fun c hc => ?_
      obtain ⟨b, hb, rfl⟩ := List.mem_map.mp hc
      have := hpos b (List.mem_cons_of_mem x hb)
      omega
    have hx := hpos x List.mem_cons_self
    simp only [List.map_nil, List.sum_nil, List.map_cons, List.sum_cons]
    omega
  · refine hdom ((d :: above).map bare) (bare e) (below.map bare) ?_ (by simp)
    rw [heq, List.map_append]
    rfl

theorem memoTree_under (a : VmArgs) (s : VmState) :
    memoTree a s = under (belowRun s.stack)
      (memoTreeLoop a (2 * s.stack.length + 1) 0 0 { s with stack := treeRun s.stack }) := by
  have hs : s = under (belowRun s.stack) { s with stack := treeRun s.stack } := by
    change s = { s with stack := treeRun s.stack ++ belowRun s.stack }
    rw [show treeRun s.stack ++ belowRun s.stack = s.stack from List.takeWhile_append_dropWhile]
  rw [← memoTreeLoop_under (belowRun_head s.stack) _ _ _ (Nat.zero_le _), ← hs]
  rfl

theorem treeRun_length (stack : List StackEntry) : (treeRun stack).length ≤ stack.length :=
  (List.takeWhile_sublist _).length_le

theorem fuse_nil {x : Block} {xs : List Block} (h : ∀ b ∈ x :: xs, b.capt = .nil) :
    (fuse x xs).capt = .nil := by
  induction xs generalizing x with
  | nil => exact h x List.mem_cons_self
  | cons y xs ih =>
      refine ih (x := x * y) fun b hb => ?_
      rcases List.mem_cons.mp hb with rfl | hb
      · rw [mul_capt, h x List.mem_cons_self, h y (by simp)]
        rfl
      · exact h b (by simp [hb])

/-- What `MemoTree` does with the entries of the topmost run, for any memory and table: it merges
them until each outweighs those above it. -/
theorem memoTree_shape (a : VmArgs) (s : VmState) :
    Coarser ((treeRun s.stack).map bare) ((treeRun (memoTree a s).stack).map bare) ∧
      Dominating Block.count ((treeRun (memoTree a s).stack).map bare) ∧
      belowRun (memoTree a s).stack = belowRun s.stack := by
  rw [memoTree_under]
  let σ : AState := { absState [] (fun _ => 0) s with
    stack := ((treeRun s.stack).map bare).map Block.frame }
  have hentries : (treeRun s.stack).map StackEntry.entry = σ.stack.map AFrame.entry := by
    simp only [σ, List.map_map]
    refine List.map_congr_left fun e he => ?_
    rcases e with ⟨entry, cs⟩
    have htree := treeRun_tree he
    cases entry <;> first | rfl | cases htree
  obtain ⟨run', new, hloop, hcoarser, hdom, -⟩ := aTreeLoop_blocks (a := a) (s := σ)
    (fun e he => by cases he) (2 * s.stack.length + 1) 0 0 (List.append_nil _).symm (Nat.zero_le _)
    rfl (dominating_short _ (by simp)) (by
      have := treeRun_length s.stack
      simp only [List.length_map]
      omega)
  have hloop' := memoTreeLoop_entries (a := a) (s := { s with stack := treeRun s.stack })
    (2 * s.stack.length + 1) 0 0 hentries
  rw [hloop, List.append_nil] at hloop'
  generalize memoTreeLoop a (2 * s.stack.length + 1) 0 0 _ = t at hloop'
  have hnil : ∀ b ∈ run', b.capt = .nil := by
    intro b hb
    obtain ⟨x, xs, rfl, hsub⟩ := hcoarser.group hb
    refine fuse_nil fun y hy => ?_
    obtain ⟨e, -, rfl⟩ := List.mem_map.mp (hsub hy)
    exact bare_capt e
  obtain ⟨htrees, hbare⟩ := entries_blocks (hloop'.trans List.map_map) hnil
  obtain ⟨hrun, hbelow⟩ := treeRun_append htrees (belowRun_head s.stack)
  have hunder : (under (belowRun s.stack) t).stack = t.stack ++ belowRun s.stack := rfl
  rw [hunder, hrun, hbelow, hbare]
  exact ⟨hcoarser, hdom, rfl⟩

/-- What `MemoTree` does with the topmost run: it merges its blocks and stores
entries for tops of it. -/
structure Merged (s : VmState) (ref : List (RefIv Nat)) (p : Nat → Int) (s' : VmState)
    (ref' : List (RefIv Nat)) (p' : Nat → Int) (new : List AEntry) : Prop where
  coarser : Coarser ((treeRun s.stack).map (block (view s.mem p)))
    ((treeRun s'.stack).map (block (view s'.mem p')))
  table : (absState ref' p' s').tbl = (absState ref p s).tbl.map (addEntries new)
  stored : ∀ e ∈ new, Stored (vmInputPos s.src) ((treeRun s.stack).map (block (view s.mem p))) e

theorem memoTree_merged (h : Ok a.input ref p s)
    (hspans : ∀ e ∈ treeRun s.stack, treePos e.entry ≤ vmInputPos s.src) :
    ∃ ref' p' new, Ok a.input ref' p' (memoTree a s) ∧ Merged s ref p (memoTree a s) ref' p' new := by
  have h₀ : Ok a.input ref p { s with stack := treeRun s.stack } :=
    h.setStack fun e he => h.stack e ((List.takeWhile_sublist _).subset he)
  have hb₀ : PushedBefore (vmInputPos s.src) (treeRun s.stack) := by
    intro e he x hx
    have htree := treeRun_tree he
    have hle := hspans e he
    rcases e with ⟨entry, cs⟩
    cases entry with
    | memoTree id pos count =>
        cases hx
        exact hle
    | _ => cases htree
  obtain ⟨⟨ref', p', hgrown, hok, habs⟩, -⟩ :=
    memoTreeLoop_sim a (2 * s.stack.length + 1) 0 0 h₀ hb₀
  have hunder := memoTree_under a s
  have hblocks : (absState ref p { s with stack := treeRun s.stack }).stack =
      ((treeRun s.stack).map (block (view s.mem p))).map Block.frame ++ [] := by
    rw [List.append_nil, List.map_map]
    refine List.map_congr_left fun e he => (block_frame _ (treeRun_tree he)).symm
  obtain ⟨run', new, hloop, hcoarser, -, hstored⟩ := aTreeLoop_blocks (a := a)
    (fun e he => by cases he) (2 * s.stack.length + 1) 0 0 hblocks (Nat.zero_le _) rfl
    (dominating_short _ (by simp)) (by
      have := treeRun_length s.stack
      simp only [List.length_map]
      omega)
  generalize memoTreeLoop a (2 * s.stack.length + 1) 0 0 _ = t at hgrown hok habs hunder
  rw [← habs, List.append_nil] at hloop
  obtain ⟨htrees, hrun'⟩ := frames_blocks (congrArg AState.stack hloop)
  obtain ⟨hrun, -⟩ := treeRun_append htrees (belowRun_head s.stack)
  have hcaps : s.mem.caps.length ≤ t.mem.caps.length := by
    have := hgrown.view.length_le
    simpa [view] using this
  rw [hunder]
  refine ⟨ref', p', new, ⟨hok.memo, fun e he c hc => ?_, hok.capt, hok.data⟩, ?_,
    congrArg AState.tbl hloop, hstored⟩
  · rcases List.mem_append.mp he with he | he
    · exact hok.stack e he c hc
    · exact (h.stack e ((List.dropWhile_sublist _).subset he) c hc).trans_le hcaps
  · change Coarser _ ((treeRun (t.stack ++ belowRun s.stack)).map (block (view t.mem p')))
    rw [hrun, hrun']
    exact hcoarser

variable {s' : VmState} {ref' : List (RefIv Nat)} {p' : Nat → Int} {new : List AEntry}

theorem Merged.captures (h : Merged s ref p s' ref' p' new) :
    runCaptures (view s'.mem p') (treeRun s'.stack) = runCaptures (view s.mem p) (treeRun s.stack) := by
  rcases coarser_runs h.coarser with ⟨hrun, hrun'⟩ | ⟨e, es, f, fs, hrun, hrun', heq⟩
  · rw [hrun, hrun']
    rfl
  · rw [hrun, hrun', ← fuse_capt, ← fuse_capt, heq]

/-- Every stored entry has the repetitions and captures from its start on. -/
theorem Merged.entry (h : Merged s ref p s' ref' p' new) {e : AEntry} (he : e ∈ new) :
    ∃ top rest pos, treeRun s.stack = top ++ rest ∧ bottomPos top = some pos ∧ e.pos = pos ∧
      e.length = (vmInputPos s.src : Int) - pos ∧ e.count = runCount top ∧
      e.capt = runCaptures (view s.mem p) top := by
  obtain ⟨x, xs, rest, heq, -, hpos, hlength, hcount, hcapt⟩ := h.stored e he
  obtain ⟨top, rest', hrun, htop, -⟩ := List.map_eq_append_iff.mp heq
  obtain ⟨d, ds, rfl, rfl, rfl⟩ := List.map_eq_cons_iff.mp htop
  obtain ⟨hcount', hpos'⟩ := fuse_run (b := block (view s.mem p)) bare_count bare_pos d ds
  exact ⟨d :: ds, rest', _, hrun, hpos'.symm, hpos, hlength, hcount.trans hcount',
    hcapt.trans (fuse_capt (view s.mem p) d ds)⟩

/-- `MemoTree` terminates, with a bound on its rounds; it keeps the bottom and the number
of repetitions of the topmost run and what is below it, and leaves every entry with more
repetitions than those above it have together. It keeps the captures of the run, and an
entry that it stores has the repetitions and the captures from its start to the current
position. -/
theorem memoTree_merges (hspans : ∀ e ∈ treeRun s.stack, treePos e.entry ≤ vmInputPos s.src)
    (hcounts : ∀ e ∈ treeRun s.stack, 1 ≤ treeCount e.entry) :
    ∃ s', vmInsn a s .memoTree = nextIp s' ∧
      (∀ fuel, 2 * s.stack.length < fuel → memoTreeLoop a fuel 0 0 s = s') ∧
      bottomPos (treeRun s'.stack) = bottomPos (treeRun s.stack) ∧
      runCount (treeRun s'.stack) = runCount (treeRun s.stack) ∧
      belowRun s'.stack = belowRun s.stack ∧
      (∀ above e below, treeRun s'.stack = above ++ e :: below →
        runCount above < treeCount e.entry) ∧
      ∀ ref p, Ok a.input ref p s → ∃ ref' p' new, Ok a.input ref' p' s' ∧
        runCaptures (view s'.mem p') (treeRun s'.stack) =
          runCaptures (view s.mem p) (treeRun s.stack) ∧
        (absState ref' p' s').tbl = (absState ref p s).tbl.map (addEntries new) ∧
        ∀ e ∈ new, ∃ top rest pos, treeRun s.stack = top ++ rest ∧ bottomPos top = some pos ∧
          e.pos = pos ∧ e.length = (vmInputPos s.src : Int) - pos ∧ e.count = runCount top ∧
          e.capt = runCaptures (view s.mem p) top := by
  obtain ⟨hcoarser, hdom, hbelow⟩ := memoTree_shape a s
  obtain ⟨hbottom, hcount⟩ := coarser_whole hcoarser
  have hfuel : ∀ fuel, 2 * s.stack.length < fuel → memoTreeLoop a fuel 0 0 s = memoTree a s := by
    intro fuel hlt
    induction fuel, hlt using Nat.le_induction with
    | base => rfl
    | succ fuel hle ih => exact (memoTreeLoop_fuel fuel 0 0 (Nat.zero_le _) hle).trans ih
  refine ⟨memoTree a s, rfl, hfuel, hbottom, hcount, hbelow,
    fun above e below heq => outweighs hcoarser hdom hcounts heq, fun ref p h => ?_⟩
  obtain ⟨ref', p', new, hok, hmerged⟩ := memoTree_merged h hspans
  exact ⟨ref', p', new, hok, hmerged.captures, hmerged.table, fun e he => hmerged.entry he⟩

end Machine

/-- Two repetitions on the stack, each found by itself. -/
def twoTrees : VmState :=
  { ip := 0
    src := inputSeekTo (vmInputNew [97, 97]) 2
    stack := [⟨.memoTree 0 1 1, []⟩, ⟨.memoTree 0 0 1, []⟩]
    capt := []
    mem := Mem.empty
    tbl := some (memoTableNew 0)
    errs := []
    capLow := 0
    capHigh := 0
    nchecks := 0 }

def twoTreesArgs : VmArgs :=
  ⟨⟨[], [], [], [.memoTree], []⟩, [97, 97], -1, -1⟩

theorem twoTrees_ok : Ok twoTreesArgs.input [] (fun _ => 0) twoTrees where
  memo := Relocation.memoOk_new 0
  stack := by simp [twoTrees]
  capt := by simp [twoTrees]
  data := rfl

theorem memoTree_merges_twoTrees :
    ∃ s', vmInsn twoTreesArgs twoTrees .memoTree = nextIp s' ∧
      bottomPos (treeRun s'.stack) = some 0 ∧ runCount (treeRun s'.stack) = 2 ∧
      ∃ p', runCaptures (view s'.mem p') (treeRun s'.stack) = .nil := by
  obtain ⟨s', hstep, -, hbottom, hcount, -, -, hmemory⟩ :=
    memoTree_merges (a := twoTreesArgs) (s := twoTrees) (by decide) (by decide)
  obtain ⟨ref', p', new, -, hcapt, -⟩ := hmemory [] (fun _ => 0) twoTrees_ok
  exact ⟨s', hstep, hbottom, hcount, p', hcapt⟩

end Libpeg.TreeMerge
