import Mathlib.Data.List.GetD
import Libpeg.PatternHeap
import Libpeg.RankedGraph

namespace Libpeg.HeapInlining

open Relation
open Libpeg.CompileTotal Libpeg.PatternHeap Libpeg.RankedGraph

section Walk

variable {σ : Type} {heap : σ → PatHeap} {fn : Nat → σ → σ} {children : Nat → List Nat}
  {inside : Nat → Prop} {keeps : σ → Prop} {marked : Nat → σ → Prop} {r : Nat → Nat}
  {followInline : Bool}

/-- A callback that keeps a property of its state, marks every pattern it is called
on, and leaves the children of marked patterns as they are. -/
structure Marks (heap : σ → PatHeap) (fn : Nat → σ → σ) (children : Nat → List Nat)
    (inside : Nat → Prop) (keeps : σ → Prop) (marked : Nat → σ → Prop) : Prop where
  keep : ∀ a ud, inside a → keeps ud → keeps (fn a ud)
  mark : ∀ a ud, inside a → keeps ud → marked a (fn a ud)
  stay : ∀ a b ud, inside a → keeps ud → marked b ud → marked b (fn a ud)
  read : ∀ a ud, inside a → keeps ud → marked a ud → walked true (node (heap ud) a) = children a
  closed : ∀ a b, inside a → b ∈ children a → inside b

def WalkedOver (keeps : σ → Prop) (marked : Nat → σ → Prop) (seen : Nat → Prop) (ud ud' : σ) :
    Prop :=
  keeps ud' ∧ (∀ b, marked b ud → marked b ud') ∧ ∀ b, seen b → marked b ud'

theorem foldlM_walkedOver {f : σ → Nat → Option σ} {seen : Nat → Nat → Prop} {cs : List Nat}
    (hstep : ∀ c ∈ cs, ∀ ud, keeps ud →
      ∃ ud', f ud c = some ud' ∧ WalkedOver keeps marked (seen c) ud ud') :
    ∀ ud, keeps ud → ∃ ud', cs.foldlM f ud = some ud' ∧
      WalkedOver keeps marked (fun b => ∃ c ∈ cs, seen c b) ud ud' := by
  induction cs with
  | nil =>
      intro ud hud
      refine ⟨ud, rfl, hud, fun _ h => h, ?_⟩
      rintro b ⟨c, hc, -⟩
      cases hc
  | cons c cs ih =>
      intro ud hud
      obtain ⟨ud₁, hrun₁, hkeep₁, hstay₁, hseen₁⟩ := hstep c List.mem_cons_self ud hud
      obtain ⟨ud₂, hrun₂, hkeep₂, hstay₂, hseen₂⟩ :=
        ih (fun c' hc' => hstep c' (List.mem_cons_of_mem c hc')) ud₁ hkeep₁
      refine ⟨ud₂, ?_, hkeep₂, fun b hb => hstay₂ b (hstay₁ b hb), ?_⟩
      · rw [List.foldlM_cons, hrun₁]
        exact hrun₂
      · rintro b ⟨c', hc', hb⟩
        rcases List.mem_cons.mp hc' with rfl | hc'
        · exact hstay₂ b (hseen₁ b hb)
        · exact hseen₂ b ⟨c', hc', hb⟩

/-- A walk returns when the children go down in rank, and it marks all that can be
reached. -/
theorem walkPat_marks (hm : Marks heap fn children inside keeps marked)
    (hr : Ranked (fun a b => inside a ∧ b ∈ children a) r) (fuel : Nat) (a : Nat) (ud : σ)
    (hfuel : r a < fuel) (ha : inside a) (hud : keeps ud) :
    ∃ ud', walkPat heap true fn fuel a ud = some ud' ∧
      WalkedOver keeps marked (ReflTransGen (fun a b => b ∈ children a) a) ud ud' := by
  induction fuel generalizing a ud with
  | zero => omega
  | succ fuel ih =>
      have hkeep := hm.keep a ud ha hud
      have hmark := hm.mark a ud ha hud
      have hchildren := hm.read a (fn a ud) ha hkeep hmark
      obtain ⟨ud', hrun, hkeep', hstay, hseen⟩ := @foldlM_walkedOver _ _ _ _ _ (children a)
        (fun c hc ud hud => ih c ud (by have := hr a c ⟨ha, hc⟩; omega) (hm.closed a c ha hc) hud)
        (fn a ud) hkeep
      refine ⟨ud', ?_, hkeep', fun b hb => hstay b (hm.stay a b ud ha hud hb), fun b hb => ?_⟩
      · rw [walkPat, hchildren]
        exact hrun
      · rcases ReflTransGen.cases_head hb with rfl | ⟨c, hc, hcb⟩
        · exact hstay a hmark
        · exact hseen b ⟨c, hc, hcb⟩

theorem foldlM_below {f g : σ → Nat → Option σ} (hfg : ∀ ud c, Below (f ud c) (g ud c))
    (cs : List Nat) (ud : σ) : Below (cs.foldlM f ud) (cs.foldlM g ud) := by
  induction cs generalizing ud with
  | nil => exact .refl _
  | cons c cs ih =>
      rw [List.foldlM_cons, List.foldlM_cons]
      exact Below.bind (hfg ud c) ih

theorem walkPat_below (n a : Nat) (ud : σ) :
    Below (walkPat heap followInline fn n a ud) (walkPat heap followInline fn (n + 1) a ud) := by
  induction n generalizing a ud with
  | zero =>
      intro ud' h
      cases h
  | succ n ih => exact foldlM_below (fun ud c => ih c ud) _ _

end Walk

section Pointers

variable {h : PatHeap} {a b : Nat}

theorem node_of_le (ha : h.length ≤ a) : node h a = .empty := by
  rw [node, List.getD_eq_default _ _ ha]

theorem lt_of_pointsTo (hab : PointsTo h a b) : a < h.length := by
  by_contra hout
  rw [PointsTo, node_of_le (by omega)] at hab
  cases hab

theorem pointsTo_iff : PointsTo h a b ↔ WalksTo h a b ∨ ∃ n, node h a = .repeated b n := by
  unfold PointsTo WalksTo
  cases node h a with
  | repeated p n => simp [pointers, subpatterns, walked, eq_comm]
  | _ => simp [pointers, subpatterns, walked]

theorem WalksTo.pointsTo (hab : WalksTo h a b) : PointsTo h a b :=
  pointsTo_iff.mpr (.inl hab)

/-- How deep patterns are inside of repeated patterns, counted from below. -/
structure Leveled (h : PatHeap) (level : Nat → Nat) : Prop where
  walk : ∀ a b, WalksTo h a b → level b = level a
  repeats : ∀ a p n, node h a = .repeated p n → level p < level a

variable {level : Nat → Nat}

theorem Leveled.le (hl : Leveled h level) (hab : PointsTo h a b) : level b ≤ level a := by
  rcases pointsTo_iff.mp hab with hwalk | ⟨n, hn⟩
  · exact le_of_eq (hl.walk a b hwalk)
  · exact le_of_lt (hl.repeats a b n hn)

theorem Leveled.reach_le (hl : Leveled h level) (hab : ReflTransGen (PointsTo h) a b) :
    level b ≤ level a := by
  induction hab with
  | refl => exact le_rfl
  | tail _ hbc ih => exact le_trans (hl.le hbc) ih

theorem Leveled.walks (hl : Leveled h level) (hab : ReflTransGen (WalksTo h) a b) :
    level b = level a := by
  induction hab with
  | refl => rfl
  | tail _ hbc ih => exact (hl.walk _ _ hbc).trans ih

theorem Leveled.reach_walks (hl : Leveled h level) (hab : ReflTransGen (PointsTo h) a b)
    (hsame : level b = level a) : ReflTransGen (WalksTo h) a b := by
  induction hab using ReflTransGen.head_induction_on with
  | refl => exact .refl
  | head hac hcb ih =>
      have hle := hl.reach_le hcb
      rcases pointsTo_iff.mp hac with hwalk | ⟨n, hn⟩
      · exact .head hwalk (ih (hsame.trans (hl.walk _ _ hwalk).symm))
      · have hlt := hl.repeats _ _ n hn
        omega

/-- Patterns and their owners in memory: no cycle, repeated patterns below the
patterns that repeat them, and no reference from the patterns of one owner to those
of another. -/
structure Sound (h : PatHeap) (roots : List Nat) : Prop where
  bounded : ∀ a b, PointsTo h a b → b < h.length
  ranked : ∃ r, Ranked (PointsTo h) r
  leveled : ∃ level, Leveled h level
  owned : ∃ owner : Nat → Nat, (∀ a b, PointsTo h a b → owner b = owner a) ∧
    ∀ a ∈ roots, owner a = a
  roots_lt : ∀ a ∈ roots, a < h.length

end Pointers

section Mapping

variable {α β : Type} {f : Nat → α → Option β} {R : α → β → Prop} {xs : List α} {ys : List β}

theorem mapM_settles (h : ∀ x ∈ xs, ∃ y, Settles (fun k => f k x) y ∧ R x y) :
    ∃ ys, Settles (fun k => xs.mapM (f k)) ys ∧ List.Forall₂ R xs ys := by
  induction xs with
  | nil => exact ⟨[], settles_some [], .nil⟩
  | cons x xs ih =>
      obtain ⟨y, hy, hxy⟩ := h x List.mem_cons_self
      obtain ⟨ys, hys, hall⟩ := ih fun x' hx' => h x' (List.mem_cons_of_mem x hx')
      refine ⟨y :: ys, ?_, .cons hxy hall⟩
      have hbind : Settles (fun k => (f k x).bind fun z => (xs.mapM (f k)).bind fun zs =>
          some (z :: zs)) (y :: ys) := hy.bind (hys.bind (settles_some _))
      simp only [List.mapM_cons]
      exact hbind

theorem mapM_below (h : ∀ n x, Below (f n x) (f (n + 1) x)) (n : Nat) :
    Below (xs.mapM (f n)) (xs.mapM (f (n + 1))) := by
  induction xs with
  | nil => exact .refl _
  | cons x xs ih =>
      rw [List.mapM_cons, List.mapM_cons]
      exact Below.bind (h n x) fun _ => Below.bind ih fun _ => .refl _

theorem forall₂_getElem? (h : List.Forall₂ R xs ys) {i : Nat} {x : α} {y : β} (hx : xs[i]? = some x)
    (hy : ys[i]? = some y) : R x y := by
  induction h generalizing i with
  | nil => cases hx
  | cons hxy _ ih =>
      cases i with
      | zero =>
          cases hx
          cases hy
          exact hxy
      | succ i => exact ih hx hy

end Mapping

section Construction

variable {h : PatHeap} {roots : List Nat} {n : PatNode} {a b : Nat}

theorem node_append_lt (ha : a < h.length) : node (h ++ [n]) a = node h a := by
  rw [node, node, List.getD_append _ _ _ _ ha]

theorem node_append_length : node (h ++ [n]) h.length = n := by
  rw [node, List.getD_append_right _ _ _ _ le_rfl, Nat.sub_self]
  rfl

theorem pointers_fresh (hfresh : isFresh n = true) : pointers n = subpatterns n := by
  cases n with
  | nonterm name inlined =>
      cases inlined with
      | none => rfl
      | some p => cases hfresh
  | _ => rfl

theorem pointsTo_append (hfresh : isFresh n = true) (hab : PointsTo (h ++ [n]) a b) :
    (a < h.length ∧ PointsTo h a b) ∨ a = h.length ∧ b ∈ subpatterns n := by
  have hlt := lt_of_pointsTo hab
  rw [List.length_append, List.length_singleton] at hlt
  rcases Nat.lt_succ_iff_lt_or_eq.mp hlt with ha | rfl
  · rw [PointsTo, node_append_lt ha] at hab
    exact .inl ⟨ha, hab⟩
  · rw [PointsTo, node_append_length, pointers_fresh hfresh] at hab
    exact .inr ⟨rfl, hab⟩

theorem ranked_append (hs : Sound h roots) (hfresh : isFresh n = true)
    (hsub : ∀ p ∈ subpatterns n, p ∈ roots) : ∃ r, Ranked (PointsTo (h ++ [n])) r := by
  obtain ⟨r, hr⟩ := hs.ranked
  obtain ⟨m, hm⟩ := exists_bound r (subpatterns n)
  refine ⟨fun a => if a < h.length then r a else m, fun a b hab => ?_⟩
  dsimp only
  rcases pointsTo_append hfresh hab with ⟨ha, hab⟩ | ⟨rfl, hb⟩
  · rw [if_pos ha, if_pos (hs.bounded a b hab)]
    exact hr a b hab
  · rw [if_neg (lt_irrefl _), if_pos (hs.roots_lt b (hsub b hb))]
    exact hm b hb

/-- The patterns of the new owner are lifted to one level, below a new repetition. -/
theorem leveled_append (hs : Sound h roots) (hfresh : isFresh n = true)
    (hsub : ∀ p ∈ subpatterns n, p ∈ roots) : ∃ level, Leveled (h ++ [n]) level := by
  obtain ⟨level, hl⟩ := hs.leveled
  obtain ⟨owner, howner, hroots⟩ := hs.owned
  obtain ⟨m, hm⟩ := exists_bound level (subpatterns n)
  let lifted := fun a => if owner a ∈ subpatterns n then level a + (m - level (owner a)) else level a
  have hlifted : ∀ p ∈ subpatterns n, lifted p = m := by
    intro p hp
    have hlt := hm p hp
    simp only [lifted, hroots p (hsub p hp), if_pos hp]
    omega
  have hkept : ∀ a b, PointsTo h a b → lifted b - level b = lifted a - level a := by
    intro a b hab
    simp only [lifted, howner a b hab]
    split <;> omega
  have hle : ∀ a, level a ≤ lifted a := by
    intro a
    simp only [lifted]
    split <;> omega
  have hsub' : ∀ p ∈ subpatterns n, p < h.length := fun p hp => hs.roots_lt p (hsub p hp)
  refine ⟨fun a => if a < h.length then lifted a
    else if walked true n = [] then m + 1 else m, ?_, ?_⟩
  · intro a b hab
    rcases pointsTo_append hfresh (WalksTo.pointsTo hab) with ⟨ha, hpoints⟩ | ⟨rfl, hb⟩
    · rw [WalksTo, node_append_lt ha] at hab
      have hsame := hl.walk a b hab
      have hshift := hkept a b hpoints
      have ha' := hle a
      have hb' := hle b
      rw [if_pos ha, if_pos (hs.bounded a b hpoints)]
      omega
    · rw [WalksTo, node_append_length] at hab
      rw [if_neg (lt_irrefl _), if_pos (hsub' b hb), if_neg (List.ne_nil_of_mem hab), hlifted b hb]
  · intro a p k hnode
    have hpoints : PointsTo (h ++ [n]) a p := pointsTo_iff.mpr (.inr ⟨k, hnode⟩)
    rcases pointsTo_append hfresh hpoints with ⟨ha, hpoints⟩ | ⟨rfl, hp⟩
    · rw [node_append_lt ha] at hnode
      have hless := hl.repeats a p k hnode
      have hshift := hkept a p hpoints
      have ha' := hle a
      have hp' := hle p
      rw [if_pos ha, if_pos (hs.bounded a p hpoints)]
      omega
    · rw [node_append_length] at hnode
      subst hnode
      rw [if_pos (hsub' p hp), if_neg (lt_irrefl _), hlifted p hp]
      exact Nat.lt_succ_self m

theorem owned_append (hs : Sound h roots) (hfresh : isFresh n = true)
    (hsub : ∀ p ∈ subpatterns n, p ∈ roots) : ∃ owner : Nat → Nat,
      (∀ a b, PointsTo (h ++ [n]) a b → owner b = owner a) ∧
      ∀ a ∈ h.length :: roots.filter (· ∉ subpatterns n), owner a = a := by
  obtain ⟨owner, howner, hroots⟩ := hs.owned
  refine ⟨fun a => if a = h.length ∨ owner a ∈ subpatterns n then h.length else owner a, ?_, ?_⟩
  · intro a b hab
    dsimp only
    rcases pointsTo_append hfresh hab with ⟨ha, hab⟩ | ⟨rfl, hb⟩
    · have hb := hs.bounded a b hab
      simp only [howner a b hab, ne_of_lt ha, ne_of_lt hb, false_or]
    · have hb' := hroots b (hsub b hb)
      rw [if_pos (.inr (hb'.symm ▸ hb)), if_pos (.inl rfl)]
  · intro a ha
    dsimp only
    rcases List.mem_cons.mp ha with rfl | ha
    · exact if_pos (.inl rfl)
    · obtain ⟨hroot, hfree⟩ := List.mem_filter.mp ha
      have hlt := hs.roots_lt a hroot
      rw [hroots a hroot, if_neg]
      simpa [ne_of_lt hlt] using hfree

theorem Sound.new (hs : Sound h roots) (hfresh : isFresh n = true)
    (hsub : ∀ p ∈ subpatterns n, p ∈ roots) :
    Sound (h ++ [n]) (h.length :: roots.filter (· ∉ subpatterns n)) where
  bounded := by
    intro a b hab
    rw [List.length_append, List.length_singleton]
    rcases pointsTo_append hfresh hab with ⟨-, hab⟩ | ⟨-, hb⟩
    · exact Nat.lt_succ_of_lt (hs.bounded a b hab)
    · exact Nat.lt_succ_of_lt (hs.roots_lt b (hsub b hb))
  ranked := ranked_append hs hfresh hsub
  leveled := leveled_append hs hfresh hsub
  owned := owned_append hs hfresh hsub
  roots_lt := by
    intro a ha
    rw [List.length_append, List.length_singleton]
    rcases List.mem_cons.mp ha with rfl | ha
    · exact Nat.lt_succ_self _
    · exact Nat.lt_succ_of_lt (hs.roots_lt a (List.mem_of_mem_filter ha))

end Construction

section Pass

variable {h h' : PatHeap} {roots : List Nat} {g a b : Nat} {start name : String} {n : PatNode}
  {defs : List (String × Nat)} {counts : List SizeLeafData} {d : InlineData}

/-- What a pass makes of a pattern that it walks. -/
def resolveNode (defs : List (String × Nat)) (counts : List SizeLeafData) : PatNode → PatNode
  | .nonterm name none => .nonterm name (leafDef defs counts name)
  | n => n

theorem resolveNode_closed (hn : isOpen n = false) : resolveNode defs counts n = n := by
  cases n with
  | nonterm name inlined =>
      cases inlined with
      | none => cases hn
      | some p => rfl
  | _ => rfl

theorem eq_nonterm_of_isOpen (hn : isOpen n = true) : ∃ name, n = .nonterm name none := by
  cases n with
  | nonterm name inlined =>
      cases inlined with
      | none => exact ⟨name, rfl⟩
      | some p => cases hn
  | _ => cases hn

theorem node_set_self (ha : a < h.length) : node (h.set a n) a = n := by
  rw [node, List.getD_eq_getElem?_getD, List.getElem?_set_self ha]
  rfl

theorem node_set_ne (hab : b ≠ a) : node (h.set a n) b = node h b := by
  rw [node, node, List.getD_eq_getElem?_getD, List.getD_eq_getElem?_getD,
    List.getElem?_set_ne hab.symm]

theorem lt_of_isOpen (ha : isOpen (node h a) = true) : a < h.length := by
  by_contra hout
  rw [node_of_le (by omega)] at ha
  cases ha

/-- The number of non-terminals without a definition. -/
def openCount (h : PatHeap) : Nat :=
  h.countP isOpen

theorem openCount_set (ha : isOpen (node h a) = true) (hn : isOpen n = false) :
    openCount (h.set a n) < openCount h := by
  have hlt := lt_of_isOpen ha
  have hnode : node h a = h[a] := List.getD_eq_getElem h _ hlt
  have hpos : 0 < h.countP isOpen :=
    List.countP_pos_iff.mpr ⟨h[a], List.getElem_mem hlt, hnode ▸ ha⟩
  rw [openCount, openCount, List.countP_set hlt, if_pos (hnode ▸ ha), hn]
  simp only [Bool.false_eq_true, if_false]
  omega

theorem inlineFn_spec (sub : Nat) (d : InlineData) :
    (inlineFn defs counts sub d).heap.length = d.heap.length ∧
      node (inlineFn defs counts sub d).heap sub = resolveNode defs counts (node d.heap sub) ∧
      (∀ b, b ≠ sub → node (inlineFn defs counts sub d).heap b = node d.heap b) ∧
      (inlineFn defs counts sub d = d ∨ (inlineFn defs counts sub d).did = true ∧
        openCount (inlineFn defs counts sub d).heap < openCount d.heap) := by
  by_cases hopen : isOpen (node d.heap sub) = true
  · obtain ⟨name, hname⟩ := eq_nonterm_of_isOpen hopen
    have hlt := lt_of_isOpen hopen
    simp only [inlineFn, hname, resolveNode]
    cases leafDef defs counts name with
    | none => exact ⟨rfl, hname, fun _ _ => rfl, .inl rfl⟩
    | some p =>
        exact ⟨List.length_set, node_set_self hlt, fun b hb => node_set_ne hb,
          .inr ⟨rfl, openCount_set hopen rfl⟩⟩
  · have hsame : inlineFn defs counts sub d = d := by
      unfold inlineFn
      split
      · next name hname => simp [hname, isOpen] at hopen
      · rfl
    rw [hsame, resolveNode_closed (by simpa using hopen)]
    exact ⟨rfl, rfl, fun _ _ => rfl, .inl rfl⟩

/-- From a definition that counts as a leaf no non-terminal without a definition is
reached. -/
def LeafCounts (h : PatHeap) (defs : List (String × Nat)) (counts : List SizeLeafData) : Prop :=
  List.Forall₂ (fun d count => count.leaf = true →
    ∀ b, ReflTransGen (WalksTo h) d.2 b → isOpen (node h b) = false) defs counts

theorem leafDef_spec (hleaf : LeafCounts h defs counts) (hp : leafDef defs counts name = some a) :
    (name, a) ∈ defs ∧ ∀ b, ReflTransGen (WalksTo h) a b → isOpen (node h b) = false := by
  simp only [leafDef, Option.bind_eq_bind, Option.bind_eq_some_iff] at hp
  obtain ⟨di, hdi, d, hd, count, hcount, hp⟩ := hp
  have hname := List.of_findIdx?_eq_some hdi
  simp only [hd, decide_eq_true_eq] at hname
  split at hp
  · next hsmall =>
      cases hp
      exact ⟨hname ▸ List.mem_of_getElem? hd, forall₂_getElem? hleaf hd hcount hsmall.2⟩
  · cases hp

theorem countSizeLeaf_settles {r : Nat → Nat} (hr : Ranked (PointsTo h) r) (p : Nat) :
    ∃ count, Settles (fun k => walkPat (fun _ => h) true (countSizeLeafFn h) k p
        { size := 0, leaf := true }) count ∧ (count.leaf = true →
      ∀ b, ReflTransGen (WalksTo h) p b → isOpen (node h b) = false) := by
  have hmarks : Marks (fun _ : SizeLeafData => h) (countSizeLeafFn h)
      (fun a => walked true (node h a)) (fun _ => True) (fun _ => True)
      (fun b ud => ud.leaf = true → isOpen (node h b) = false) := by
    constructor
    · exact fun _ _ _ _ => trivial
    · intro a ud _ _ hleaf
      simpa [countSizeLeafFn] using (Bool.and_eq_true_iff.mp hleaf).2
    · intro a b ud _ _ hb hleaf
      exact hb (Bool.and_eq_true_iff.mp hleaf).1
    · exact fun _ _ _ _ _ => rfl
    · exact fun _ _ _ _ => trivial
  obtain ⟨count, hrun, -, -, hseen⟩ := walkPat_marks hmarks
    (hr.mono fun a b hab => WalksTo.pointsTo hab.2) (r p + 1) p { size := 0, leaf := true }
    (Nat.lt_succ_self _) trivial trivial
  exact ⟨count, Settles.of_eq (fun k => walkPat_below k p _) hrun, fun hleaf b hb => hseen b hb hleaf⟩

theorem counts_settle {r : Nat → Nat} (hr : Ranked (PointsTo h) r) (defs : List (String × Nat)) :
    ∃ counts, Settles (fun k => defs.mapM fun d => walkPat (fun _ => h) true (countSizeLeafFn h) k d.2
      { size := 0, leaf := true }) counts ∧ LeafCounts h defs counts :=
  mapM_settles fun d _ => countSizeLeaf_settles hr d.2

/-- The patterns that a pass over a grammar meets. -/
def Met (h : PatHeap) (g b : Nat) : Prop :=
  ReflTransGen (WalksTo h) g b

def NewRef (h : PatHeap) (g : Nat) (defs : List (String × Nat)) (counts : List SizeLeafData)
    (a b : Nat) : Prop :=
  Met h g a ∧ ∃ name, node h a = .nonterm name none ∧ leafDef defs counts name = some b

/-- The memory during a pass: some of the patterns that the pass meets are as it
leaves them. -/
def Between (h : PatHeap) (g : Nat) (defs : List (String × Nat)) (counts : List SizeLeafData)
    (h' : PatHeap) : Prop :=
  h'.length = h.length ∧
    ∀ b, node h' b = node h b ∨ Met h g b ∧ node h' b = resolveNode defs counts (node h b)

theorem walksTo_def (hg : node h g = .grammar start defs) (hb : (name, b) ∈ defs) :
    WalksTo h g b := by
  rw [WalksTo, hg]
  exact List.mem_map_of_mem (f := Prod.snd) hb

theorem NewRef.walksTo (hg : node h g = .grammar start defs) (hleaf : LeafCounts h defs counts)
    (hab : NewRef h g defs counts a b) : WalksTo h g b := by
  obtain ⟨-, name, -, hdef⟩ := hab
  exact walksTo_def hg (leafDef_spec hleaf hdef).1

theorem resolveNode_cases (n : PatNode) :
    resolveNode defs counts n = n ∨ ∃ name, n = .nonterm name none := by
  by_cases hopen : isOpen n = true
  · exact .inr (eq_nonterm_of_isOpen hopen)
  · exact .inl (resolveNode_closed (by simpa using hopen))

theorem Between.node_cases (hmid : Between h g defs counts h') (a : Nat) :
    node h' a = node h a ∨ ∃ name, node h' a = .nonterm name (leafDef defs counts name) ∧
      Met h g a ∧ node h a = .nonterm name none := by
  rcases hmid.2 a with hsame | ⟨hmet, hresolved⟩
  · exact .inl hsame
  · rcases @resolveNode_cases defs counts (node h a) with hsame | ⟨name, hname⟩
    · exact .inl (hresolved.trans hsame)
    · rw [hname] at hresolved
      exact .inr ⟨name, hresolved, hmet, hname⟩

theorem Between.pointsTo (hmid : Between h g defs counts h') (hab : PointsTo h' a b) :
    PointsTo h a b ∨ NewRef h g defs counts a b := by
  rcases hmid.node_cases a with hsame | ⟨name, hnew, hmet, hname⟩
  · rw [PointsTo, hsame] at hab
    exact .inl hab
  · rw [PointsTo, hnew] at hab
    exact .inr ⟨hmet, name, hname, Option.mem_toList.mp hab⟩

/-- The references of a pass make no cycle: the grammar has one level, and what can be
reached on it from a leaf is closed. -/
theorem newRef_ranked (hs : Sound h roots) (hg : node h g = .grammar start defs)
    (hleaf : LeafCounts h defs counts) :
    ∃ r, Ranked (fun a b => PointsTo h a b ∨ NewRef h g defs counts a b) r := by
  obtain ⟨r, hr⟩ := hs.ranked
  obtain ⟨level, hl⟩ := hs.leveled
  refine hr.add (defs.filterMap fun d => leafDef defs counts d.1) ?_ ?_
  · rintro a b ⟨-, name, -, hdef⟩
    exact List.mem_filterMap.mpr ⟨_, (leafDef_spec hleaf hdef).1, hdef⟩
  · rintro a b ⟨hmet, name, hname, -⟩ ⟨c, hc, hca⟩
    obtain ⟨d, -, hdef⟩ := List.mem_filterMap.mp hc
    obtain ⟨hmem, hclosed⟩ := leafDef_spec hleaf hdef
    have hlevel : level a = level c :=
      (hl.walks hmet).trans (hl.walk g c (walksTo_def hg hmem)).symm
    have hopen := hclosed a (hl.reach_walks hca hlevel)
    rw [hname] at hopen
    cases hopen

theorem Between.sound (hs : Sound h roots) (hg : node h g = .grammar start defs)
    (hleaf : LeafCounts h defs counts) (hmid : Between h g defs counts h') : Sound h' roots := by
  obtain ⟨r, hr⟩ := newRef_ranked hs hg hleaf
  obtain ⟨level, hl⟩ := hs.leveled
  obtain ⟨owner, howner, hroots⟩ := hs.owned
  have hmet : ∀ a, Met h g a → owner a = owner g := by
    intro a ha
    induction ha with
    | refl => rfl
    | tail _ hbc ih => exact (howner _ _ (WalksTo.pointsTo hbc)).trans ih
  constructor
  · intro a b hab
    rw [hmid.1]
    rcases hmid.pointsTo hab with hab | hnew
    · exact hs.bounded a b hab
    · exact hs.bounded g b (WalksTo.pointsTo (hnew.walksTo hg hleaf))
  · exact ⟨r, hr.mono fun a b hab => hmid.pointsTo hab⟩
  · refine ⟨level, fun a b hab => ?_, fun a p n hn => ?_⟩
    · rcases hmid.node_cases a with hsame | ⟨name, hnew, ha, hname⟩
      · rw [WalksTo, hsame] at hab
        exact hl.walk a b hab
      · rw [WalksTo, hnew] at hab
        have hb : NewRef h g defs counts a b := ⟨ha, name, hname, Option.mem_toList.mp hab⟩
        exact (hl.walk g b (hb.walksTo hg hleaf)).trans (hl.walks ha).symm
    · rcases hmid.node_cases a with hsame | ⟨name, hnew, -, -⟩
      · exact hl.repeats a p n (hsame ▸ hn)
      · rw [hn] at hnew
        cases hnew
  · refine ⟨owner, fun a b hab => ?_, hroots⟩
    rcases hmid.pointsTo hab with hab | hnew
    · exact howner a b hab
    · exact (howner g b (WalksTo.pointsTo (hnew.walksTo hg hleaf))).trans (hmet a hnew.1).symm
  · exact fun a ha => hmid.1 ▸ hs.roots_lt a ha

theorem resolveNode_idem (n : PatNode) :
    resolveNode defs counts (resolveNode defs counts n) = resolveNode defs counts n := by
  rcases @resolveNode_cases defs counts n with hsame | ⟨name, rfl⟩
  · rw [hsame, hsame]
  · change resolveNode defs counts (.nonterm name (leafDef defs counts name)) =
      .nonterm name (leafDef defs counts name)
    cases hdef : leafDef defs counts name with
    | none => exact congrArg (PatNode.nonterm name) hdef
    | some p => rfl

theorem resolved_walk (ha : Met h g a) (hb : b ∈ walked true (resolveNode defs counts (node h a))) :
    WalksTo h a b ∨ NewRef h g defs counts a b := by
  rcases @resolveNode_cases defs counts (node h a) with hsame | ⟨name, hname⟩
  · rw [hsame] at hb
    exact .inl hb
  · rw [hname] at hb
    exact .inr ⟨ha, name, hname, Option.mem_toList.mp hb⟩

theorem WalksTo.resolved (hab : WalksTo h a b) :
    b ∈ walked true (resolveNode defs counts (node h a)) := by
  rcases @resolveNode_cases defs counts (node h a) with hsame | ⟨name, hname⟩
  · rw [hsame]
    exact hab
  · rw [WalksTo, hname] at hab
    cases hab

/-- The state of a pass: what it has set, and that it notices when it sets anything. -/
structure Passing (h : PatHeap) (g : Nat) (defs : List (String × Nat)) (counts : List SizeLeafData)
    (d : InlineData) : Prop where
  between : Between h g defs counts d.heap
  quiet : d.did = false → d.heap = h
  opens : openCount d.heap ≤ openCount h
  fewer : d.did = true → openCount d.heap < openCount h

theorem Passing.inlineFn (hp : Passing h g defs counts d) (ha : Met h g a) :
    Passing h g defs counts (inlineFn defs counts a d) ∧
      node (inlineFn defs counts a d).heap a = resolveNode defs counts (node h a) := by
  obtain ⟨hlength, hself, hother, hdid⟩ := @inlineFn_spec defs counts a d
  have hresolved : node (PatternHeap.inlineFn defs counts a d).heap a =
      resolveNode defs counts (node h a) := by
    rw [hself]
    rcases hp.between.2 a with hsame | ⟨-, hdone⟩
    · rw [hsame]
    · rw [hdone, resolveNode_idem]
  refine ⟨⟨⟨hlength.trans hp.between.1, fun b => ?_⟩, ?_, ?_, ?_⟩, hresolved⟩
  · by_cases hb : b = a
    · subst hb
      exact .inr ⟨ha, hresolved⟩
    · rw [hother b hb]
      exact hp.between.2 b
  all_goals
    rcases hdid with hsame | ⟨hdid, hless⟩
  · rw [hsame]
    exact hp.quiet
  · intro hquiet
    rw [hdid] at hquiet
    cases hquiet
  · rw [hsame]
    exact hp.opens
  · exact le_trans (le_of_lt hless) hp.opens
  · rw [hsame]
    exact hp.fewer
  · exact fun _ => lt_of_lt_of_le hless hp.opens

theorem pass_marks (hg : node h g = .grammar start defs) (hleaf : LeafCounts h defs counts) :
    Marks InlineData.heap (inlineFn defs counts)
      (fun a => walked true (resolveNode defs counts (node h a))) (Met h g)
      (Passing h g defs counts)
      (fun b d => node d.heap b = resolveNode defs counts (node h b)) := by
  constructor
  · exact fun a d ha hd => (hd.inlineFn ha).1
  · exact fun a d ha hd => (hd.inlineFn ha).2
  · intro a b d ha hd hb
    by_cases hba : b = a
    · subst hba
      exact (hd.inlineFn ha).2
    · rw [(inlineFn_spec a d).2.2.1 b hba, hb]
  · intro a d _ _ ha
    rw [ha]
  · intro a b ha hb
    rcases resolved_walk ha hb with hwalk | hnew
    · exact ReflTransGen.tail ha hwalk
    · exact .single (hnew.walksTo hg hleaf)

/-- A pass returns. Afterwards every pattern that it meets has its definition, if
there is one for it. -/
theorem grammarInlineOnce_settles (hs : Sound h roots) (hg : node h g = .grammar start defs) :
    ∃ counts d, LeafCounts h defs counts ∧
      Settles (fun k => defs.mapM fun d => walkPat (fun _ => h) true (countSizeLeafFn h) k d.2
        { size := 0, leaf := true }) counts ∧
      Settles (fun k => grammarInlineOnce k g h) d ∧ Passing h g defs counts d ∧
      ∀ b, Met h g b → node d.heap b = resolveNode defs counts (node h b) := by
  obtain ⟨r, hr⟩ := hs.ranked
  obtain ⟨counts, hcounts, hleaf⟩ := counts_settle hr defs
  obtain ⟨r', hr'⟩ := newRef_ranked hs hg hleaf
  have hdown : Ranked (fun a b => Met h g a ∧ b ∈ walked true (resolveNode defs counts (node h a)))
      r' := by
    refine hr'.mono fun a b hab => ?_
    rcases resolved_walk hab.1 hab.2 with hwalk | hnew
    · exact .inl (WalksTo.pointsTo hwalk)
    · exact .inr hnew
  have hstart : Passing h g defs counts { heap := h, did := false } :=
    ⟨⟨rfl, fun _ => .inl rfl⟩, fun _ => rfl, le_rfl, fun h => by cases h⟩
  obtain ⟨d, hrun, hpassing, -, hseen⟩ := walkPat_marks (pass_marks hg hleaf) hdown (r' g + 1) g
    { heap := h, did := false } (Nat.lt_succ_self _) .refl hstart
  have hwalk := Settles.of_eq (fun k => walkPat_below k g _) hrun
  refine ⟨counts, d, hleaf, hcounts, ?_, hpassing, fun b hb => hseen b ?_⟩
  · simp only [grammarInlineOnce, hg, defsOf]
    exact @Settles.bind _ _ _ (fun counts k => walkPat InlineData.heap true (inlineFn defs counts) k g
      { heap := h, did := false }) _ _ hcounts hwalk
  · exact ReflTransGen.mono (fun _ _ => WalksTo.resolved) _ _ hb

end Pass

section Loop

variable {h h' : PatHeap} {roots : List Nat} {g : Nat} {start : String}
  {defs : List (String × Nat)}

theorem grammarInline_last {d : InlineData} (hrun : Settles (fun k => grammarInlineOnce k g h) d)
    (hdid : d.did = false) : Settles (fun k => grammarInline k g h) d.heap := by
  refine Settles.of_succ (@Settles.bind _ _ _ (fun d k => if d.did then grammarInline k g d.heap
    else some d.heap) _ _ hrun ?_) fun k => rfl
  simp only [hdid]
  exact settles_some _

theorem grammarInline_again {d : InlineData} (hrun : Settles (fun k => grammarInlineOnce k g h) d)
    (hdid : d.did = true) (hloop : Settles (fun k => grammarInline k g d.heap) h') :
    Settles (fun k => grammarInline k g h) h' := by
  refine Settles.of_succ (@Settles.bind _ _ _ (fun d k => if d.did then grammarInline k g d.heap
    else some d.heap) _ _ hrun ?_) fun k => rfl
  simp only [hdid]
  exact hloop

/-- `grammar_inline` returns: every pass but the last leaves fewer non-terminals
without a definition. -/
theorem grammarInline_settles (hs : Sound h roots) (hg : node h g = .grammar start defs) :
    ∃ h', Settles (fun k => grammarInline k g h) h' ∧ Sound h' roots := by
  induction hcount : openCount h using Nat.strong_induction_on generalizing h with
  | h count ih =>
      subst hcount
      obtain ⟨counts, d, hleaf, -, hrun, hpassing, hresolved⟩ := grammarInlineOnce_settles hs hg
      have hs' := hpassing.between.sound hs hg hleaf
      cases hdid : d.did with
      | false => exact ⟨d.heap, grammarInline_last hrun hdid, hs'⟩
      | true =>
          have hg' : node d.heap g = .grammar start defs := by
            rw [hresolved g .refl, hg]
            rfl
          obtain ⟨h', hloop, hsound⟩ := ih _ (hpassing.fewer hdid) hs' hg' rfl
          exact ⟨h', grammarInline_again hrun hdid hloop, hsound⟩

theorem grammarInlineOnce_below (n : Nat) (h : PatHeap) :
    Below (grammarInlineOnce n g h) (grammarInlineOnce (n + 1) g h) :=
  Below.bind (mapM_below (fun n (d : String × Nat) => walkPat_below n d.2 _) n) fun _ => walkPat_below n g _

theorem grammarInline_below (n : Nat) (h : PatHeap) :
    Below (grammarInline n g h) (grammarInline (n + 1) g h) := by
  induction n generalizing h with
  | zero =>
      intro h' hrun
      cases hrun
  | succ n ih =>
      refine Below.bind (grammarInlineOnce_below n h) fun d => ?_
      split
      · exact ih d.heap
      · exact .refl _

theorem sound_nil : Sound [] [] := by
  have hnone : ∀ a b, ¬PointsTo [] a b := fun a b hab => absurd (lt_of_pointsTo hab) (by simp)
  constructor
  · exact fun a b hab => absurd hab (hnone a b)
  · exact ⟨fun _ => 0, fun a b hab => absurd hab (hnone a b)⟩
  · refine ⟨fun _ => 0, fun a b _ => rfl, fun a p n hn => ?_⟩
    exact absurd (pointsTo_iff.mpr (.inr ⟨n, hn⟩)) (hnone a p)
  · exact ⟨id, fun a b hab => absurd hab (hnone a b), fun a _ => rfl⟩
  · intro a ha
    cases ha

theorem built_sound (hb : Built h roots) : Sound h roots := by
  induction hb with
  | nil => exact sound_nil
  | new hb hfresh hsub ih => exact ih.new hfresh hsub
  | inline hb hg hinline ih =>
      obtain ⟨h', hsettles, hsound⟩ := grammarInline_settles ih hg
      have hrun := Settles.of_eq (fun k => grammarInline_below k _) hinline
      rw [hrun.unique hsettles]
      exact hsound

end Loop

end Libpeg.HeapInlining
