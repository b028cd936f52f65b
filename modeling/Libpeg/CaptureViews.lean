import Libpeg.Memo

namespace Libpeg.CaptureViews

open Libpeg.Memo

/-- `capture_each`, where the callback works on a state. The first number bounds the
recursion; `none` when it does not suffice. -/
def captureEach {σ : Type} (m : Mem) (fn : σ → Nat → σ) : Nat → Nat → σ → Option σ
  | 0, _, _ => none
  | fuel + 1, c, ud =>
      (m.cap c).children.foldlM
        (fun ud ch => if (m.cap ch).dummy then captureEach m fn fuel ch ud else some (fn ud ch)) ud

/-- `memo_capture_each_child`. -/
def memoCaptureEachChild {σ : Type} (m : Mem) (fn : σ → Nat → σ) (fuel c : Nat) (ud : σ) :
    Option σ :=
  captureEach m fn fuel c ud

/-- `memo_capture_num_children`. -/
def memoCaptureNumChildren (m : Mem) : Nat → Nat → Option Int
  | 0, _ => none
  | fuel + 1, c =>
      (m.cap c).children.foldlM
        (fun n ch =>
          if (m.cap ch).dummy then (memoCaptureNumChildren m fuel ch).map (n + ·)
          else some (n + 1)) 0

/-- The loop of `memo_capture_child` over the children from the `i`-th visible one on;
`child` and `count` are its calls on dummies. -/
def childLoop (m : Mem) (child : Nat → Int → Option (Option Nat)) (count : Nat → Option Int)
    (n : Int) : List Nat → Int → Option (Option Nat)
  | [], _ => some none
  | ch :: rest, i =>
      if (m.cap ch).dummy then do
        match ← child ch (n - i) with
        | some sub => return some sub
        | none =>
            let k ← count ch
            childLoop m child count n rest (i + k)
      else if i = n then some (some ch)
      else childLoop m child count n rest (i + 1)

/-- `memo_capture_child`; the inner `none` is `NULL`. -/
def memoCaptureChild (m : Mem) : Nat → Nat → Int → Option (Option Nat)
  | 0, _, _ => none
  | fuel + 1, c, n =>
      childLoop m (memoCaptureChild m fuel) (memoCaptureNumChildren m fuel) n (m.cap c).children 0

/-- The captures below a capture, to any depth. -/
inductive CaptureNest where
  | nil
  | cons (addr : Nat) (dummy : Bool) (children rest : CaptureNest)

namespace CaptureNest

def roots : CaptureNest → List Nat
  | .nil => []
  | .cons addr _ _ rest => addr :: rest.roots

/-- The captures that are no dummies, where each dummy is replaced by what is below it. -/
def visible : CaptureNest → List Nat
  | .nil => []
  | .cons addr dummy children rest =>
      (if dummy then children.visible else [addr]) ++ rest.visible

def depth : CaptureNest → Nat
  | .nil => 0
  | .cons _ _ children rest => max (children.depth + 1) rest.depth

end CaptureNest

def Stores (m : Mem) : CaptureNest → Prop
  | .nil => True
  | .cons addr dummy children rest =>
      (∃ cell, m.caps[addr]? = some cell ∧ cell.dummy = dummy ∧ cell.children = children.roots) ∧
        Stores m children ∧ Stores m rest

variable {m : Mem} {f rest : CaptureNest} {fuel c : Nat}

theorem cap_eq {cell : MemoCapture} (h : m.caps[c]? = some cell) : m.cap c = cell := by
  rw [Mem.cap, List.getD_eq_getElem?_getD, h]
  rfl

theorem Stores.root {addr : Nat} {dummy : Bool} {children : CaptureNest}
    (h : Stores m (.cons addr dummy children rest)) :
    (m.cap addr).dummy = dummy ∧ (m.cap addr).children = children.roots := by
  obtain ⟨⟨cell, hcell, hdummy, hchildren⟩, -, -⟩ := h
  rw [cap_eq hcell]
  exact ⟨hdummy, hchildren⟩

theorem captureEach_nest {σ : Type} (fn : σ → Nat → σ) (hf : Stores m f) (hfuel : f.depth ≤ fuel)
    (ud : σ) : f.roots.foldlM (fun ud ch => if (m.cap ch).dummy then captureEach m fn fuel ch ud
      else some (fn ud ch)) ud = some (f.visible.foldl fn ud) := by
  induction f generalizing fuel ud with
  | nil => rfl
  | cons addr dummy children rest ihchildren ihrest =>
      obtain ⟨hdummy, hchildren⟩ := hf.root
      have hdepth : children.depth + 1 ≤ fuel ∧ rest.depth ≤ fuel := Nat.max_le.mp hfuel
      rw [CaptureNest.roots, List.foldlM_cons, CaptureNest.visible, List.foldl_append, hdummy]
      cases dummy with
      | false => exact ihrest hf.2.2 hdepth.2 _
      | true =>
          obtain ⟨fuel, rfl⟩ : ∃ k, fuel = k + 1 := ⟨fuel - 1, by omega⟩
          have hinner : captureEach m fn (fuel + 1) addr ud =
              some (children.visible.foldl fn ud) := by
            rw [captureEach, hchildren]
            exact ihchildren hf.2.1 (by omega) ud
          rw [if_pos rfl, hinner]
          exact ihrest hf.2.2 hdepth.2 _

theorem numChildren_nest (hf : Stores m f) (hfuel : f.depth ≤ fuel) (n : Int) :
    f.roots.foldlM (fun n ch => if (m.cap ch).dummy then
      (memoCaptureNumChildren m fuel ch).map (n + ·) else some (n + 1)) n =
        some (n + f.visible.length) := by
  induction f generalizing fuel n with
  | nil => simp [CaptureNest.roots, CaptureNest.visible]
  | cons addr dummy children rest ihchildren ihrest =>
      obtain ⟨hdummy, hchildren⟩ := hf.root
      have hdepth : children.depth + 1 ≤ fuel ∧ rest.depth ≤ fuel := Nat.max_le.mp hfuel
      rw [CaptureNest.roots, List.foldlM_cons, CaptureNest.visible, List.length_append, hdummy]
      cases dummy with
      | false =>
          have hnext := ihrest hf.2.2 hdepth.2 (n + 1)
          rw [if_neg Bool.false_ne_true, Option.bind_eq_bind, Option.bind_some, hnext, if_neg Bool.false_ne_true,
            List.length_singleton]
          congr 1
          push_cast
          omega
      | true =>
          obtain ⟨fuel, rfl⟩ : ∃ k, fuel = k + 1 := ⟨fuel - 1, by omega⟩
          have hinner : memoCaptureNumChildren m (fuel + 1) addr =
              some ((0 : Int) + children.visible.length) := by
            rw [memoCaptureNumChildren, hchildren]
            exact ihchildren hf.2.1 (by omega) 0
          have hnext := ihrest hf.2.2 hdepth.2 (n + (0 + children.visible.length))
          rw [if_pos rfl, hinner, Option.map_some, Option.bind_eq_bind, Option.bind_some, hnext,
            if_pos rfl]
          congr 1
          push_cast
          omega

theorem memoCaptureNumChildren_eq {cell : MemoCapture} (hc : m.caps[c]? = some cell)
    (hchildren : cell.children = f.roots) (hf : Stores m f) (hfuel : f.depth < fuel) :
    memoCaptureNumChildren m fuel c = some (f.visible.length : Int) := by
  obtain ⟨fuel, rfl⟩ : ∃ k, fuel = k + 1 := ⟨fuel - 1, by omega⟩
  rw [memoCaptureNumChildren, cap_eq hc, hchildren, numChildren_nest hf (by omega), Int.zero_add]

/-- The loop has passed `i` visible captures and looks for the one `k` further on. -/
theorem childLoop_nest (hf : Stores m f) (hfuel : f.depth ≤ fuel) (i k : Nat) :
    childLoop m (memoCaptureChild m fuel) (memoCaptureNumChildren m fuel) ((i + k : Nat) : Int)
      f.roots i = some f.visible[k]? := by
  induction f generalizing fuel i k with
  | nil => rfl
  | cons addr dummy children rest ihchildren ihrest =>
      obtain ⟨hdummy, hchildren⟩ := hf.root
      obtain ⟨⟨cell, hcell, -, hcellchildren⟩, hstored, hrest⟩ := hf
      have hdepth : children.depth + 1 ≤ fuel ∧ rest.depth ≤ fuel := Nat.max_le.mp hfuel
      rw [CaptureNest.roots, childLoop, CaptureNest.visible, hdummy]
      cases dummy with
      | false =>
          rw [if_neg Bool.false_ne_true, if_neg Bool.false_ne_true]
          cases k with
          | zero => rw [if_pos (by simp)]; rfl
          | succ k =>
              have hnext := ihrest hrest hdepth.2 (i + 1) k
              rw [if_neg (by push_cast; omega)]
              rw [Nat.add_right_comm, Nat.add_assoc, Int.natCast_add i 1] at hnext
              exact hnext
      | true =>
          obtain ⟨fuel, rfl⟩ : ∃ k, fuel = k + 1 := ⟨fuel - 1, by omega⟩
          have hinner : memoCaptureChild m (fuel + 1) addr (((i + k : Nat) : Int) - i) =
              some children.visible[k]? := by
            have h := @ihchildren fuel hstored (by omega) 0 k
            rw [memoCaptureChild, hchildren]
            rw [Nat.zero_add] at h
            rw [show ((i + k : Nat) : Int) - i = (k : Nat) by push_cast; omega]
            exact h
          have hcount := @memoCaptureNumChildren_eq m children (fuel + 1) addr cell hcell
            hcellchildren hstored (by omega)
          rw [if_pos rfl, if_pos rfl, hinner]
          by_cases hk : k < children.visible.length
          · rw [List.getElem?_append_left hk, List.getElem?_eq_getElem hk]
            rfl
          · have hle : children.visible.length ≤ k := Nat.le_of_not_lt hk
            have hnext := ihrest hrest hdepth.2 (i + children.visible.length)
              (k - children.visible.length)
            rw [List.getElem?_append_right hle, List.getElem?_eq_none hle, ← hnext]
            rw [show i + children.visible.length + (k - children.visible.length) = i + k by omega]
            simp only [hcount, Option.bind_eq_bind, Option.bind_some]
            push_cast
            rfl

/-- The three views agree on what is below a capture: the callback meets the visible
captures in order, their number is counted, and each is found at its index and none
behind them. -/
theorem capture_views {cell : MemoCapture} (hc : m.caps[c]? = some cell)
    (hchildren : cell.children = f.roots) (hf : Stores m f) :
    ∃ k, ∀ fuel, k ≤ fuel →
      (∀ (σ : Type) (fn : σ → Nat → σ) (ud : σ),
        memoCaptureEachChild m fn fuel c ud = some (f.visible.foldl fn ud)) ∧
        memoCaptureNumChildren m fuel c = some (f.visible.length : Int) ∧
        ∀ n : Nat, memoCaptureChild m fuel c n = some f.visible[n]? := by
  refine ⟨f.depth + 1, fun fuel hfuel => ⟨fun σ fn ud => ?_, ?_, fun n => ?_⟩⟩
  · obtain ⟨fuel, rfl⟩ : ∃ k, fuel = k + 1 := ⟨fuel - 1, by omega⟩
    rw [memoCaptureEachChild, captureEach, cap_eq hc, hchildren]
    exact captureEach_nest fn hf (by omega) ud
  · exact memoCaptureNumChildren_eq hc hchildren hf hfuel
  · obtain ⟨fuel, rfl⟩ : ∃ k, fuel = k + 1 := ⟨fuel - 1, by omega⟩
    have h := @childLoop_nest m f fuel hf (by omega) 0 n
    rw [Nat.zero_add] at h
    rw [memoCaptureChild, cap_eq hc, hchildren]
    exact h

/-- A capture at 4 with a dummy at 3 around an empty dummy and a capture, and one more
capture behind it. -/
def nestedMem : Mem :=
  ⟨[⟨5, false, 0, 1, none, []⟩, ⟨0, true, 0, 0, none, []⟩, ⟨6, false, 1, 1, none, []⟩,
    ⟨0, true, 0, 1, none, [1, 0]⟩, ⟨7, false, 0, 2, none, [3, 2]⟩], [1, 1, 1, 1, 1], []⟩

def nested : CaptureNest :=
  .cons 3 true (.cons 1 true .nil (.cons 0 false .nil .nil)) (.cons 2 false .nil .nil)

theorem capture_views_nested :
    ∃ k, ∀ fuel, k ≤ fuel →
      (∀ (σ : Type) (fn : σ → Nat → σ) (ud : σ),
        memoCaptureEachChild nestedMem fn fuel 4 ud = some (nested.visible.foldl fn ud)) ∧
        memoCaptureNumChildren nestedMem fuel 4 = some (nested.visible.length : Int) ∧
        ∀ n : Nat, memoCaptureChild nestedMem fuel 4 n = some nested.visible[n]? :=
  @capture_views nestedMem nested 4 ⟨7, false, 0, 2, none, [3, 2]⟩ rfl rfl
    ⟨⟨_, rfl, rfl, rfl⟩, ⟨⟨_, rfl, rfl, rfl⟩, trivial, ⟨_, rfl, rfl, rfl⟩, trivial, trivial⟩,
      ⟨_, rfl, rfl, rfl⟩, trivial, trivial⟩

end Libpeg.CaptureViews
