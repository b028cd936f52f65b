import Libpeg.MemoView

namespace Libpeg.Forest

open Libpeg.IntervalTree Libpeg.IntervalRefinement Libpeg.Memo Libpeg.MemoView
open Libpeg.IntervalHandles

@[simp] theorem append_nil (f : CapForest) : f.append .nil = f := by
  induction f with
  | nil => rfl
  | cons id start length children rest _ ih => simp [CapForest.append, ih]

@[simp] theorem nil_append (f : CapForest) : CapForest.nil.append f = f :=
  rfl

theorem append_assoc (f g h : CapForest) : (f.append g).append h = f.append (g.append h) := by
  induction f with
  | nil => rfl
  | cons id start length children rest _ ih => simp [CapForest.append, ih]

/-- The forest behind one address; the first argument bounds the depth. -/
def capTree (v : List VCell) : Nat → Nat → CapForest
  | 0, _ => .nil
  | fuel + 1, c =>
      match v[c]? with
      | none => .nil
      | some cell =>
          let children := cell.children.foldr (fun d f => (capTree v fuel d).append f) .nil
          if cell.dummy then children
          else .cons cell.id cell.start cell.length children .nil

def forest (v : List VCell) (cs : List Nat) : CapForest :=
  cs.foldr (fun c f => (capTree v (c + 1) c).append f) .nil

@[simp] theorem forest_nil (v : List VCell) : forest v [] = .nil :=
  rfl

theorem forest_cons (v : List VCell) (c : Nat) (cs : List Nat) :
    forest v (c :: cs) = (capTree v (c + 1) c).append (forest v cs) :=
  rfl

theorem forest_append (v : List VCell) (cs ds : List Nat) :
    forest v (cs ++ ds) = (forest v cs).append (forest v ds) := by
  induction cs with
  | nil => rfl
  | cons c cs ih => rw [List.cons_append, forest_cons, ih, forest_cons, append_assoc]

def OlderView (v : List VCell) : Prop :=
  ∀ (i : Nat) (c : VCell), v[i]? = some c → ∀ d ∈ c.children, d < i

theorem olderView {m : Mem} (h : Older m.caps) (p : Nat → Int) : OlderView (view m p) := by
  intro i c hc d hd
  rw [view, List.getElem?_map, Option.map_eq_some_iff] at hc
  obtain ⟨cell, hcell, rfl⟩ := hc
  exact h i cell hcell d hd

theorem foldr_append_congr {f g : Nat → CapForest} {cs : List Nat}
    (h : ∀ c ∈ cs, f c = g c) :
    cs.foldr (fun c r => (f c).append r) CapForest.nil =
      cs.foldr (fun c r => (g c).append r) .nil := by
  induction cs with
  | nil => rfl
  | cons c cs ih =>
      rw [List.foldr_cons, List.foldr_cons, h c (by simp),
        ih fun d hd => h d (by simp [hd])]

theorem capTree_fuel {v : List VCell} (hold : OlderView v) {fuel c : Nat} (hlt : c < fuel) :
    capTree v fuel c = capTree v (c + 1) c := by
  induction c using Nat.strong_induction_on generalizing fuel with
  | _ c ih =>
      cases fuel with
      | zero => omega
      | succ fuel =>
          simp only [capTree]
          cases hc : v[c]? with
          | none => rfl
          | some cell =>
              have hchildren := @foldr_append_congr (capTree v fuel) (capTree v c) cell.children (by
                  intro d hd
                  have hdc := hold c cell hc d hd
                  rw [ih d hdc (show d < fuel by omega), ih d hdc hdc])
              simp only [hchildren]

theorem foldr_capTree {v : List VCell} (hold : OlderView v) {fuel : Nat} {cs : List Nat}
    (hlt : ∀ c ∈ cs, c < fuel) :
    cs.foldr (fun c f => (capTree v fuel c).append f) .nil = forest v cs :=
  foldr_append_congr fun c hc => capTree_fuel hold (hlt c hc)

theorem capTree_eq {v : List VCell} (hold : OlderView v) {c : Nat} {cell : VCell}
    (hc : v[c]? = some cell) :
    capTree v (c + 1) c =
      if cell.dummy then forest v cell.children
      else .cons cell.id cell.start cell.length (forest v cell.children) .nil := by
  simp only [capTree, hc, foldr_capTree hold (hold c cell hc)]

theorem capTree_append {v w : List VCell} (hold : OlderView v) {fuel c : Nat}
    (hlt : c < v.length) : capTree (v ++ w) fuel c = capTree v fuel c := by
  induction fuel generalizing c with
  | zero => rfl
  | succ fuel ih =>
      simp only [capTree, List.getElem?_append_left hlt]
      rw [List.getElem?_eq_getElem hlt]
      simp only
      have hchildren := @foldr_append_congr (capTree (v ++ w) fuel) (capTree v fuel)
        v[c].children
        (fun d hd => ih ((hold c _ (List.getElem?_eq_getElem hlt) d hd).trans hlt))
      simp only [hchildren]

theorem forest_grow {v w : List VCell} (hold : OlderView v) {cs : List Nat}
    (hlt : ∀ c ∈ cs, c < v.length) : forest (v ++ w) cs = forest v cs :=
  foldr_append_congr fun c hc => capTree_append hold (hlt c hc)

theorem captureForest_view {m : Mem} {t : MemoTable} {p : Nat → Int} (hold : Older m.caps)
    (hstart : ∀ (c : Nat) (cell : MemoCapture), m.caps[c]? = some cell →
      (memoCaptureStart m t c).2 = absStart p cell) {fuel : Nat} {cs : List Nat}
    (hlt : ∀ c ∈ cs, c < fuel) : captureForest m t fuel cs = forest (view m p) cs := by
  induction fuel generalizing cs with
  | zero =>
      cases cs with
      | nil => rfl
      | cons c cs => exact absurd (hlt c (by simp)) (by omega)
  | succ fuel ih =>
      rw [captureForest]
      induction cs with
      | nil => rfl
      | cons c cs ihcs =>
          rw [List.foldr_cons, ihcs fun d hd => hlt d (by simp [hd]), forest_cons]
          cases hc : m.caps[c]? with
          | none =>
              have hcap : m.cap c = ⟨0, true, 0, 0, none, []⟩ := by
                simp [Mem.cap, List.getD_eq_getElem?_getD, hc]
              have hview : (view m p)[c]? = none := by simp [view, hc]
              have hnil : captureForest m t fuel [] = .nil := by cases fuel <;> rfl
              simp [hcap, capTree, hview, hnil]
          | some cell =>
              have hcap : m.cap c = cell := by simp [Mem.cap, List.getD_eq_getElem?_getD, hc]
              have hview : (view m p)[c]? = some (vcell p cell) := by simp [view, hc]
              have hkids := @ih cell.children (fun d hd => by
                have := hold c cell hc d hd
                have := hlt c (by simp)
                omega)
              rw [capTree_eq (olderView hold p) hview, hcap, hstart c cell hc, hkids]
              simp only [vcell]
              by_cases hdummy : cell.dummy = true <;> simp [hdummy, CapForest.append]

theorem captureForest_eq {m : Mem} {t : MemoTable} {ref : List (RefIv Nat)} {p : Nat → Int}
    (h : MemoOk m (some t) ref p) {fuel : Nat} {cs : List Nat} (hlt : ∀ c ∈ cs, c < fuel) :
    captureForest m t fuel cs = forest (view m p) cs := by
  refine captureForest_view h.older (fun c cell hc => ?_) hlt
  have hcap : m.cap c = cell := by simp [Mem.cap, List.getD_eq_getElem?_getD, hc]
  rw [memoCaptureStart, hcap]
  cases hment : cell.ment with
  | none => simp [absStart, hment]
  | some e =>
      obtain ⟨⟨r, hr, rfl⟩, -⟩ := h.owned c cell hc e hment
      obtain ⟨entry, hentry, hpos, -⟩ := h.entry r hr
      have hread : ∃ q ∈ ref, q.loc = r.loc := ⟨r, hr, rfl⟩
      have hloc : (itreeLocPos t.tree r.loc).2 = some r.low :=
        (step_locPos (h.tree t rfl).toInv (h.tree t rfl).bounds hread).1 r hr rfl
      simp only [memoEntryPos, hentry, hpos, absStart, hment]
      change ((itreeLocPos t.tree r.loc).2.getD 0) + cell.off = _
      rw [hloc, h.pos r hr]
      rfl

theorem captureForest_none {m : Mem} {ref : List (RefIv Nat)} {p : Nat → Int}
    (h : MemoOk m none ref p) (t : MemoTable) {fuel : Nat} {cs : List Nat}
    (hlt : ∀ c ∈ cs, c < fuel) : captureForest m t fuel cs = forest (view m p) cs := by
  refine captureForest_view h.older (fun c cell hc => ?_) hlt
  have hcap : m.cap c = cell := by simp [Mem.cap, List.getD_eq_getElem?_getD, hc]
  rw [memoCaptureStart, hcap]
  cases hment : cell.ment with
  | none => simp [absStart, hment]
  | some e =>
      obtain ⟨⟨r, hr, -⟩, -⟩ := h.owned c cell hc e hment
      rw [h.none rfl] at hr
      cases hr

end Libpeg.Forest
