import Libpeg.IntervalRefinement

namespace Libpeg.IntervalBalance

open Libpeg.IntervalTree Libpeg.IntervalCells Libpeg.IntervalRefinement
open Libpeg.IntervalOps (ivRemoveOverlaps_mono ivRemoveOverlaps_spec)

variable {α : Type}

/-- Stored heights are those of the subtrees, which differ by at most one. -/
def Avl : IvTree α → Prop
  | .nil => True
  | .node n l r =>
      n.height = 1 + max (ivDepth l : Int) (ivDepth r) ∧
        ivDepth l ≤ ivDepth r + 1 ∧ ivDepth r ≤ ivDepth l + 1 ∧ Avl l ∧ Avl r

instance decidableAvl : (t : IvTree α) → Decidable (Avl t)
  | .nil => isTrue trivial
  | .node n l r =>
      have := decidableAvl l
      have := decidableAvl r
      inferInstanceAs (Decidable (n.height = 1 + max (ivDepth l : Int) (ivDepth r) ∧
        ivDepth l ≤ ivDepth r + 1 ∧ ivDepth r ≤ ivDepth l + 1 ∧ Avl l ∧ Avl r))

variable {shifts : List IvShift} {n m : IvNode α} {l r t t' : IvTree α}

theorem Avl.height_eq (h : Avl t) : ivHeight t = ivDepth t := by
  cases t with
  | nil => rfl
  | node n l r =>
      simp only [ivHeight, ivDepth, h.1]
      omega

theorem avl_node (hheight : n.height = 1 + max (ivHeight l) (ivHeight r)) (hl : Avl l)
    (hr : Avl r) (hlr : ivDepth l ≤ ivDepth r + 1) (hrl : ivDepth r ≤ ivDepth l + 1) :
    Avl (.node n l r) := by
  refine ⟨?_, hlr, hrl, hl, hr⟩
  rw [hheight, hl.height_eq, hr.height_eq]

theorem ivUpdateMax_height (n : IvNode α) (l r : IvTree α) :
    (ivUpdateMax n l r).height = n.height := by
  unfold ivUpdateMax
  dsimp only
  split <;> rfl

theorem ivUpdate_height (n : IvNode α) (l r : IvTree α) :
    (ivUpdate n l r).height = 1 + max (ivHeight l) (ivHeight r) := by
  rw [ivUpdate, ivUpdateMax_height]
  rfl

section Mirror

def mirror : IvTree α → IvTree α
  | .nil => .nil
  | .node n l r => .node n (mirror r) (mirror l)

@[simp] theorem mirror_mirror (t : IvTree α) : mirror (mirror t) = t := by
  induction t with
  | nil => rfl
  | node n l r ihl ihr => simp [mirror, ihl, ihr]

@[simp] theorem mirror_height (t : IvTree α) : ivHeight (mirror t) = ivHeight t := by
  cases t <;> rfl

@[simp] theorem mirror_depth (t : IvTree α) : ivDepth (mirror t) = ivDepth t := by
  induction t with
  | nil => rfl
  | node n l r ihl ihr => simp [mirror, ivDepth, ihl, ihr, max_comm]

theorem mirror_balance (t : IvTree α) : ivBalance (mirror t) = -ivBalance t := by
  cases t with
  | nil => rfl
  | node n l r => simp [mirror, ivBalance]

theorem mirror_avl (t : IvTree α) : Avl (mirror t) ↔ Avl t := by
  induction t with
  | nil => exact Iff.rfl
  | node n l r ihl ihr =>
      simp only [mirror, Avl, mirror_depth, ihl, ihr, max_comm (ivDepth r : Int)]
      tauto

theorem maxWith_mirror (k : Int) (t : IvTree α) : maxWith k (mirror t) = maxWith k t := by
  cases t <;> rfl

theorem maxWith_comm (k : Int) (l r : IvTree α) :
    maxWith (maxWith k l) r = maxWith (maxWith k r) l := by
  cases l with
  | nil => rfl
  | node n ll lr =>
      cases r with
      | nil => rfl
      | node m rl rr =>
          simp only [maxWith]
          omega

theorem ivUpdateMax_mirror (n : IvNode α) (l r : IvTree α) :
    ivUpdateMax n (mirror r) (mirror l) = ivUpdateMax n l r := by
  simp only [ivUpdateMax, maxWith_mirror, maxWith_comm _ r l]

theorem ivApplyShifts_mirror (shifts : List IvShift) (n : IvNode α) (l r : IvTree α) :
    ivApplyShifts shifts n (mirror r) (mirror l) = ivApplyShifts shifts n l r := by
  simp only [ivApplyShifts, ivUpdateMax_mirror]

theorem ivUpdate_mirror (n : IvNode α) (l r : IvTree α) :
    ivUpdate n (mirror r) (mirror l) = ivUpdate n l r := by
  simp only [ivUpdate, ivUpdateMax_mirror, ivUpdateHeight, mirror_height, max_comm]

theorem mirror_rotateLeft (shifts : List IvShift) (t : IvTree α) :
    mirror (ivRotateLeft shifts t) = ivRotateRight shifts (mirror t) := by
  cases t with
  | nil => rfl
  | node n l r =>
      cases r with
      | nil => rfl
      | node m rl rr =>
          have hn := ivApplyShifts_mirror shifts n l (.node m rl rr)
          have hm := ivApplyShifts_mirror shifts m rl rr
          simp only [mirror] at hn
          simp only [ivRotateLeft, mirror, ivRotateRight, hn, hm, ivUpdate_mirror]
          congr 1
          exact (ivUpdate_mirror _ (.node _ l rl) rr).symm

theorem mirror_rotateRight (shifts : List IvShift) (t : IvTree α) :
    mirror (ivRotateRight shifts t) = ivRotateLeft shifts (mirror t) := by
  have h := mirror_rotateLeft shifts (mirror t)
  rw [mirror_mirror] at h
  rw [← h, mirror_mirror]

theorem mirror_rebalanceLoop (fuel : Nat) (t : IvTree α) :
    mirror (ivRebalanceLoop shifts fuel t) = ivRebalanceLoop shifts fuel (mirror t) := by
  induction fuel generalizing t with
  | zero => cases t <;> rfl
  | succ fuel ih =>
      cases t with
      | nil => rfl
      | node n l r =>
          simp only [ivRebalanceLoop, mirror, mirror_height, mirror_balance, ivUpdate_mirror]
          by_cases hl : ivHeight l - ivHeight r > 1
          · have hr : ¬ivHeight r - ivHeight l > 1 := by omega
            have hr' : ivHeight r - ivHeight l < -1 := by omega
            have hpre : mirror (if ivBalance l < 0 then ivRotateLeft shifts l else l) =
                if -ivBalance l > 0 then ivRotateRight shifts (mirror l) else mirror l := by
              by_cases hb : ivBalance l < 0
              · rw [if_pos hb, if_pos (by omega), mirror_rotateLeft _]
              · rw [if_neg hb, if_neg (by omega)]
            rw [if_pos hl, if_neg hr, if_pos hr', ← hpre]
            generalize (if ivBalance l < 0 then ivRotateLeft shifts l else l) = l'
            have hrot := mirror_rotateRight shifts (.node (ivUpdate n l r) l' r)
            simp only [mirror] at hrot
            rw [← hrot]
            cases ivRotateRight shifts (.node (ivUpdate n l r) l' r) with
            | nil => rfl
            | node m ml mr => simp only [mirror, ih]
          · by_cases hr : ivHeight l - ivHeight r < -1
            · have hl' : ivHeight r - ivHeight l > 1 := by omega
              have hpre : mirror (if ivBalance r > 0 then ivRotateRight shifts r else r) =
                  if -ivBalance r < 0 then ivRotateLeft shifts (mirror r) else mirror r := by
                by_cases hb : ivBalance r > 0
                · rw [if_pos hb, if_pos (by omega), mirror_rotateRight _]
                · rw [if_neg hb, if_neg (by omega)]
              rw [if_neg hl, if_pos hr, if_pos hl', ← hpre]
              generalize (if ivBalance r > 0 then ivRotateRight shifts r else r) = r'
              have hrot := mirror_rotateLeft shifts (.node (ivUpdate n l r) l r')
              simp only [mirror] at hrot
              rw [← hrot]
              cases ivRotateLeft shifts (.node (ivUpdate n l r) l r') with
              | nil => rfl
              | node m ml mr => simp only [mirror, ih]
            · rw [if_neg hl, if_neg hr, if_neg (by omega), if_neg (by omega)]
              rfl

end Mirror

section Rebalance

theorem rebalanceLoop_even (fuel : Nat) (n : IvNode α) (hl : Avl l) (hr : Avl r)
    (hlr : ivDepth l ≤ ivDepth r + 1) (hrl : ivDepth r ≤ ivDepth l + 1) :
    ivRebalanceLoop shifts (fuel + 1) (.node n l r) = .node (ivUpdate n l r) l r := by
  have hhl := hl.height_eq
  have hhr := hr.height_eq
  rw [ivRebalanceLoop, if_neg (by omega), if_neg (by omega)]

theorem rebalanceLoop_even_avl (shifts : List IvShift) (fuel : Nat) (n : IvNode α) (hl : Avl l) (hr : Avl r)
    (hlr : ivDepth l ≤ ivDepth r + 1) (hrl : ivDepth r ≤ ivDepth l + 1) :
    Avl (ivRebalanceLoop shifts (fuel + 1) (.node n l r)) ∧
      ivDepth (ivRebalanceLoop shifts (fuel + 1) (.node n l r)) =
        1 + max (ivDepth l) (ivDepth r) := by
  rw [rebalanceLoop_even fuel n hl hr hlr hrl]
  exact ⟨avl_node (ivUpdate_height n l r) hl hr hlr hrl, rfl⟩

/-- What the rotations of a left-heavy node leave: the old node is demoted to
the right, with a subtree of the old left child. -/
structure Demoted (l r t : IvTree α) : Prop where
  split : ∃ m n ml mr, t = .node m ml (.node n mr r) ∧ Avl ml ∧ Avl mr ∧
    ivDepth ml + 1 = ivDepth l ∧ ivDepth mr + 1 ≤ ivDepth l ∧ ivDepth l ≤ ivDepth mr + 3 ∧
    (ivDepth l = ivDepth mr + 3 → ∃ k a b, ml = .node k a b ∧ ivDepth a = ivDepth b)

theorem demoted_single (hl : Avl l) (hpos : 0 < ivDepth l) (hbal : ¬ivBalance l < 0)
    (n : IvNode α) (r : IvTree α) : Demoted l r (ivRotateRight shifts (.node n l r)) := by
  cases l with
  | nil => exact absurd hpos (by simp [ivDepth])
  | node m ll lr =>
      obtain ⟨-, hlr, hrl, hll, hlrAvl⟩ := hl
      simp only [ivBalance, hll.height_eq, hlrAvl.height_eq] at hbal
      refine ⟨_, _, ll, lr, rfl, hll, hlrAvl, ?_, ?_, ?_, fun h => ?_⟩
      · simp only [ivDepth]
        omega
      · simp only [ivDepth]
        omega
      · simp only [ivDepth]
        omega
      · simp only [ivDepth] at h
        omega

theorem demoted_double (hl : Avl l) (hbal : ivBalance l < 0) (n : IvNode α) (r : IvTree α) :
    Demoted l r (ivRotateRight shifts (.node n (ivRotateLeft shifts l) r)) := by
  cases l with
  | nil => exact absurd hbal (by simp [ivBalance])
  | node m ll lr =>
      obtain ⟨-, hlr, hrl, hll, hlrAvl⟩ := hl
      simp only [ivBalance, hll.height_eq, hlrAvl.height_eq] at hbal
      cases lr with
      | nil =>
          simp only [ivDepth] at hbal
          omega
      | node x a b =>
          obtain ⟨-, hab, hba, ha, hb⟩ := hlrAvl
          simp only [ivDepth] at hlr hrl hbal
          refine ⟨_, _, _, b, rfl, avl_node (ivUpdate_height _ ll a) hll ha ?_ ?_, hb, ?_, ?_, ?_,
            fun h => ⟨_, ll, a, rfl, ?_⟩⟩
          · omega
          · omega
          · simp only [ivDepth]
            omega
          · simp only [ivDepth]
            omega
          · simp only [ivDepth]
            omega
          · simp only [ivDepth] at h
            omega

theorem demoted_of_heavy (shifts : List IvShift) (hl : Avl l) (hpos : 0 < ivDepth l)
    (n : IvNode α) (r : IvTree α) : Demoted l r (ivRotateRight shifts
      (.node n (if ivBalance l < 0 then ivRotateLeft shifts l else l) r)) := by
  split
  · next hbal => exact demoted_double hl hbal n r
  · next hbal => exact demoted_single hl hpos hbal n r

theorem rebalanceLoop_again (shifts : List IvShift) (fuel : Nat) (n k : IvNode α) {a b : IvTree α}
    (hl : Avl (.node k a b)) (hr : Avl r) (hab : ivDepth a = ivDepth b)
    (hdepth : ivDepth (.node k a b) = ivDepth r + 2) :
    Avl (ivRebalanceLoop shifts (fuel + 2) (.node n (.node k a b) r)) ∧
      ivDepth (ivRebalanceLoop shifts (fuel + 2) (.node n (.node k a b) r)) =
        ivDepth (.node k a b) + 1 := by
  have hhl := hl.height_eq
  have hhr := hr.height_eq
  obtain ⟨-, -, -, ha, hb⟩ := hl
  simp only [ivDepth] at hdepth
  have hbal : ¬ivBalance (.node k a b) < 0 := by
    simp only [ivBalance, ha.height_eq, hb.height_eq]
    omega
  rw [ivRebalanceLoop, if_pos (by rw [hhl, hhr]; simp only [ivDepth]; omega), if_neg hbal]
  simp only [ivRotateRight]
  have hinner := fun n' => rebalanceLoop_even_avl shifts fuel n' hb hr
    (by omega) (by omega)
  generalize ivUpdate (ivApplyShifts shifts (ivUpdate n (.node k a b) r) (.node k a b) r) b r = n'
  obtain ⟨havl, hd⟩ := hinner n'
  obtain ⟨houter, hdouter⟩ := rebalanceLoop_even_avl shifts fuel
    (ivUpdate (ivApplyShifts shifts k a b) a (.node n' b r)) ha havl
    (by omega) (by omega)
  refine ⟨houter, ?_⟩
  rw [hdouter, hd]
  simp only [ivDepth]
  omega

/-- The result of rebalancing is balanced and at most one level deeper. -/
structure Mended (l r t : IvTree α) : Prop where
  avl : Avl t
  le : max (ivDepth l) (ivDepth r) ≤ ivDepth t
  ge : ivDepth t ≤ max (ivDepth l) (ivDepth r) + 1

theorem Mended.mirror (h : Mended l r t) : Mended (mirror r) (mirror l) (mirror t) where
  avl := (mirror_avl t).mpr h.avl
  le := by simpa only [mirror_depth, max_comm] using h.le
  ge := by simpa only [mirror_depth, max_comm] using h.ge

theorem mended_even (fuel : Nat) (n : IvNode α) (hl : Avl l) (hr : Avl r)
    (hlr : ivDepth l ≤ ivDepth r + 1) (hrl : ivDepth r ≤ ivDepth l + 1) :
    Mended l r (ivRebalanceLoop shifts (fuel + 1) (.node n l r)) := by
  obtain ⟨havl, hdepth⟩ := rebalanceLoop_even_avl shifts fuel n hl hr hlr hrl
  exact ⟨havl, by omega, by omega⟩

/-- The left-heavy case: the demoted node is mended first, then the new root. -/
theorem mended_left {fuel d : Nat}
    (ih : ∀ {l r : IvTree α} (n : IvNode α), Avl l → Avl r → ivDepth l ≤ d → ivDepth r ≤ d →
      Mended l r (ivRebalanceLoop shifts (fuel + 2) (.node n l r)))
    (hl : Avl l) (hr : Avl r) (hd : ivDepth l ≤ d + 1) (hheavy : ivDepth r + 1 < ivDepth l)
    (n : IvNode α) : Mended l r (ivRebalanceLoop shifts (fuel + 3) (.node n l r)) := by
  have hhl := hl.height_eq
  have hhr := hr.height_eq
  obtain ⟨m, n', ml, mr, heq, hml, hmr, hdl, hle, hge, heven⟩ :=
    (demoted_of_heavy shifts hl (by omega) (ivUpdate n l r) r).split
  rw [ivRebalanceLoop, if_pos (by omega)]
  dsimp only
  rw [heq]
  dsimp only
  obtain ⟨hinner, hlow, hhigh⟩ := ih n' hmr hr (by omega) (by omega)
  generalize ivRebalanceLoop shifts (fuel + 2) (.node n' mr r) = t at hinner hlow hhigh
  by_cases hclose : ivDepth ml ≤ ivDepth t + 1
  · obtain ⟨havl, hdepth⟩ := rebalanceLoop_even_avl shifts (fuel + 1) m hml hinner
      hclose (by omega)
    have hdepth : ivDepth (ivRebalanceLoop shifts (fuel + 2) (.node m ml t)) =
        1 + max (ivDepth ml) (ivDepth t) := hdepth
    exact ⟨havl, by omega, by omega⟩
  · obtain ⟨k, a, b, rfl, hab⟩ := heven (by omega)
    obtain ⟨havl, hdepth⟩ := rebalanceLoop_again shifts fuel m k hml hinner hab
      (by omega)
    exact ⟨havl, by omega, by omega⟩

theorem ivRebalanceLoop_mended (shifts : List IvShift) (fuel d : Nat) (hl : Avl l)
    (hr : Avl r) (hdl : ivDepth l ≤ d) (hdr : ivDepth r ≤ d) (n : IvNode α) :
    Mended l r (ivRebalanceLoop shifts (fuel + d + 2) (.node n l r)) := by
  induction d generalizing n l r with
  | zero => exact mended_even _ n hl hr (by omega) (by omega)
  | succ d ih =>
      have ih' : ∀ {l r : IvTree α} (n : IvNode α), Avl l → Avl r → ivDepth l ≤ d →
          ivDepth r ≤ d → Mended l r (ivRebalanceLoop shifts (fuel + d + 2) (.node n l r)) :=
        fun n hl hr hdl hdr => ih hl hr hdl hdr n
      by_cases hleft : ivDepth r + 1 < ivDepth l
      · exact mended_left ih' hl hr hdl hleft n
      · by_cases hright : ivDepth l + 1 < ivDepth r
        · have hmirror := (mended_left ih' ((mirror_avl r).mpr hr) ((mirror_avl l).mpr hl)
            (by simpa using hdr) (by simpa using hright) n).mirror
          rw [mirror_rebalanceLoop] at hmirror
          simp only [Libpeg.IntervalBalance.mirror, mirror_mirror] at hmirror
          exact hmirror
        · exact mended_even _ n hl hr (by omega) (by omega)

theorem ivRebalance_avl (hl : Avl l) (hr : Avl r) (n : IvNode α) :
    Avl (ivRebalance shifts (.node n l r)) := by
  have h := ivRebalanceLoop_mended shifts 2
    (max (ivDepth l) (ivDepth r)) hl hr (le_max_left _ _) (le_max_right _ _) n
  rw [ivRebalance, ivDepth, show 1 + max (ivDepth l) (ivDepth r) + 3 =
    2 + max (ivDepth l) (ivDepth r) + 2 by omega]
  exact h.1

theorem ivRebalance_avl_of_avl (h : Avl t) : Avl (ivRebalance shifts t) := by
  cases t with
  | nil => trivial
  | node n l r => exact ivRebalance_avl h.2.2.2.1 h.2.2.2.2 n

end Rebalance

section Shape

/-- The same nodes at the same places, with the same stored heights. -/
def SameShape : IvTree α → IvTree α → Prop
  | .nil, .nil => True
  | .node n l r, .node n' l' r' => n'.height = n.height ∧ SameShape l l' ∧ SameShape r r'
  | _, _ => False

theorem SameShape.refl (t : IvTree α) : SameShape t t := by
  induction t with
  | nil => trivial
  | node n l r ihl ihr => exact ⟨rfl, ihl, ihr⟩

theorem SameShape.depth (h : SameShape t t') : ivDepth t' = ivDepth t := by
  induction t generalizing t' with
  | nil =>
      cases t' with
      | nil => rfl
      | node => exact absurd h id
  | node n l r ihl ihr =>
      cases t' with
      | nil => exact absurd h id
      | node n' l' r' => rw [ivDepth, ivDepth, ihl h.2.1, ihr h.2.2]

theorem SameShape.avl (h : SameShape t t') (ht : Avl t) : Avl t' := by
  induction t generalizing t' with
  | nil =>
      cases t' with
      | nil => trivial
      | node => exact absurd h id
  | node n l r ihl ihr =>
      cases t' with
      | nil => exact absurd h id
      | node n' l' r' =>
          obtain ⟨hheight, hl, hr⟩ := h
          obtain ⟨hn, hlr, hrl, htl, htr⟩ := ht
          refine ⟨?_, ?_, ?_, ihl hl htl, ihr hr htr⟩
          · rw [hheight, hn, hl.depth, hr.depth]
          · rwa [hl.depth, hr.depth]
          · rwa [hl.depth, hr.depth]

theorem ivApplyShifts_height (shifts : List IvShift) (n : IvNode α) (l r : IvTree α) :
    (ivApplyShifts shifts n l r).height = n.height :=
  (ivApplyShifts_same shifts n l r).height.trans (ivReplay_replayed shifts n).height

theorem ivAbsorb_shape (shifts : List IvShift) (t : IvTree α) : SameShape t (ivAbsorb shifts t) := by
  cases t with
  | nil => trivial
  | node n l r => exact ⟨ivApplyShifts_height _ n l r, .refl l, .refl r⟩

theorem ivAbsorbLeft_shape (t : IvTree α) : SameShape t (ivAbsorbLeft shifts t) := by
  induction t with
  | nil => trivial
  | node n l r ihl _ => exact ⟨ivApplyShifts_height _ n l r, ihl, .refl r⟩

theorem ivFindSmallest_shape (shifts : List IvShift) (t : IvTree α) : SameShape t (ivFindSmallest shifts t) := by
  cases t with
  | nil => trivial
  | node n l r => exact ⟨rfl, ivAbsorbLeft_shape l, .refl r⟩

theorem ivLeftmost_findSmallest (shifts : List IvShift) (n : IvNode α) (l r : IvTree α) :
    ∃ succ, ivLeftmost (ivFindSmallest shifts (.node n l r)) = some succ := by
  rw [ivFindSmallest, ivLeftmost]
  cases ivLeftmost (ivAbsorbLeft shifts l) with
  | none => exact ⟨n, rfl⟩
  | some succ => exact ⟨succ, rfl⟩

theorem ivSetLeftmost_shape (f : IvNode α → IvNode α) (hf : ∀ n, (f n).height = n.height)
    (t : IvTree α) : SameShape t (ivSetLeftmost f t) := by
  induction t with
  | nil => trivial
  | node n l r ihl _ =>
      cases l with
      | nil => exact ⟨hf n, trivial, .refl r⟩
      | node m ll lr => exact ⟨rfl, ihl, .refl r⟩

theorem ivSearch_shape (key : IvKey) (t : IvTree α) :
    SameShape t (ivSearch shifts key t).1 := by
  induction t with
  | nil => trivial
  | node n l r ihl ihr =>
      have hheight := ivApplyShifts_height shifts n l r
      rw [ivSearch]
      dsimp only
      split
      · exact ⟨hheight, ihl, .refl r⟩
      · exact ⟨hheight, .refl l, ihr⟩
      · exact ⟨hheight, .refl l, .refl r⟩

theorem ivEach_shape (t : IvTree α) : SameShape t (ivEach shifts t).1 := by
  induction t with
  | nil => trivial
  | node n l r ihl ihr => exact ⟨ivApplyShifts_height _ n _ r, ihl, ihr⟩

theorem ivApplyAt_shape (addr : Nat) (t : IvTree α) :
    SameShape t (ivApplyAt shifts addr t).1 := by
  induction t with
  | nil => trivial
  | node n l r ihl ihr =>
      rw [ivApplyAt]
      split
      · exact ⟨ivApplyShifts_height _ n l r, .refl l, .refl r⟩
      · split
        · next l' found heq =>
            rw [heq] at ihl
            exact ⟨rfl, ihl, .refl r⟩
        · next l' heq =>
            rw [heq] at ihl
            exact ⟨rfl, ihl, ihr⟩

theorem ivApplyAll_shape (t : IvTree α) : SameShape t (ivApplyAll shifts t) := by
  induction t with
  | nil => trivial
  | node n l r ihl ihr => exact ⟨ivApplyShifts_height _ n _ _, ihl, ihr⟩

end Shape

section Operations

theorem ivAdd_avl (tstamp fresh : Nat) (key : IvKey) (high : Int) (value : α) (h : Avl t) :
    Avl (ivAdd shifts tstamp fresh key high value t).1 := by
  induction t with
  | nil => exact ⟨rfl, by simp, by simp, trivial, trivial⟩
  | node n l r ihl ihr =>
      obtain ⟨-, -, -, hl, hr⟩ := h
      rw [ivAdd]
      dsimp only
      split
      · exact ivRebalance_avl (ihl hl) hr _
      · exact ivRebalance_avl hl (ihr hr) _
      · exact ivRebalance_avl hl hr _

/-- The node adopts its successor, which is deleted from the right subtree. -/
theorem adopt_avl {fuel : Nat} (key : IvKey) (n : IvNode α) (f : IvNode α → IvNode α)
    (hf : ∀ n, (f n).height = n.height) (hl : Avl l) (hr : Avl r)
    (ih : ∀ {t : IvTree α} (key : IvKey), Avl t → Avl (ivRemoveLoop shifts fuel key t)) :
    Avl (ivRebalance shifts (.node n (ivAbsorb shifts l) (ivRemoveLoop shifts fuel key
      (ivSetLeftmost f (ivFindSmallest shifts (ivAbsorb shifts r)))))) := by
  have hl' := (ivAbsorb_shape shifts l).avl hl
  have hr₁ := (ivAbsorb_shape shifts r).avl hr
  have hr₂ := (ivFindSmallest_shape shifts _).avl hr₁
  exact ivRebalance_avl hl' (ih key ((ivSetLeftmost_shape f hf _).avl hr₂)) n

theorem ivRemoveLoop_node_avl (fuel : Nat) (key : IvKey) (n : IvNode α) (hl : Avl l) (hr : Avl r)
    (ih : ∀ {t : IvTree α} (key : IvKey), Avl t → Avl (ivRemoveLoop shifts fuel key t)) :
    Avl (ivRemoveLoop shifts (fuel + 1) key (.node n l r)) := by
  simp only [ivRemoveLoop]
  split
  · exact ivRebalance_avl (ih key hl) hr _
  · exact ivRebalance_avl hl (ih key hr) _
  · cases l with
    | nil =>
        cases r with
        | nil => trivial
        | node k rl rr => exact ivRebalance_avl_of_avl ((ivAbsorb_shape _ (.node k rl rr)).avl hr)
    | node m ll lr =>
        cases r with
        | nil => exact ivRebalance_avl_of_avl ((ivAbsorb_shape _ (.node m ll lr)).avl hl)
        | node k rl rr =>
            obtain ⟨succ, hsucc⟩ := ivLeftmost_findSmallest shifts
              (ivApplyShifts shifts k rl rr) rl rr
            simp only [ivAbsorb] at hsucc ⊢
            rw [hsucc]
            exact adopt_avl (l := .node m ll lr) (r := .node k rl rr) _ _ _
              (fun _ => rfl) hl hr ih

theorem ivRemoveLoop_avl (fuel : Nat) (key : IvKey) (h : Avl t) :
    Avl (ivRemoveLoop shifts fuel key t) := by
  induction fuel generalizing key t with
  | zero => exact h
  | succ fuel ih =>
      cases t with
      | nil => trivial
      | node n l r => exact ivRemoveLoop_node_avl fuel key n h.2.2.2.1 h.2.2.2.2 ih

theorem ivRemove_avl (key : IvKey) (n : IvNode α) (hl : Avl l) (hr : Avl r) :
    Avl (ivRemove shifts key (.node n l r)) := by
  rw [ivRemove, ivDepth, Nat.add_comm]
  exact ivRemoveLoop_node_avl _ key n hl hr fun key h => ivRemoveLoop_avl _ key h

theorem ivRemoveOverlaps_avl (shifts : List IvShift) (low high : Int) (fuel : Nat) (h : Avl t)
    {t' : IvTree α} {evicted : List (IvIns α)}
    (hrun : ivRemoveOverlaps shifts low high fuel t = some (t', evicted)) : Avl t' := by
  induction fuel generalizing t t' evicted with
  | zero => simp [ivRemoveOverlaps] at hrun
  | succ fuel ih =>
      cases t with
      | nil =>
          cases hrun
          trivial
      | node n l r =>
          obtain ⟨-, -, -, hl, hr⟩ := id h
          simp only [ivRemoveOverlaps, Option.bind_eq_bind] at hrun
          split at hrun
          · cases hrun
            exact (ivAbsorb_shape shifts (.node n l r)).avl h
          · obtain ⟨⟨l', e⟩, hleft, hrun⟩ := Option.bind_eq_some_iff.mp hrun
            have hl' := ih hl hleft
            dsimp only at hrun
            split at hrun
            · split at hrun
              · obtain ⟨⟨t₂, e₂⟩, hrest, hrun⟩ := Option.bind_eq_some_iff.mp hrun
                cases hrun
                exact ivRebalance_avl_of_avl (ih (ivRemove_avl _ _ hl' hr) hrest)
              · cases hrun
                exact ivRebalance_avl_of_avl (ivRemove_avl _ _ hl' hr)
            · split at hrun
              · cases hrun
                exact ivRebalance_avl hl' hr _
              · obtain ⟨⟨r', e₂⟩, hright, hrun⟩ := Option.bind_eq_some_iff.mp hrun
                cases hrun
                exact ivRebalance_avl hl' (ih hr hright) _

theorem stepWithin_avl {fuel : Nat} {t : Itree α} (h : Avl t.root) {op : Op α}
    {x : Itree α × Obs α} (hstep : stepWithin fuel t op = some x) : Avl x.1.root := by
  cases op with
  | add id low high value =>
      cases hstep
      exact ivAdd_avl t.tstamp t.next ⟨low, id⟩ high value h
  | removeAndShift low high amt =>
      simp only [stepWithin, itreeRemoveAndShift, Option.bind_eq_bind, Option.bind_assoc] at hstep
      obtain ⟨⟨root, evicted⟩, hremove, hstep⟩ := Option.bind_eq_some_iff.mp hstep
      have hroot := ivRemoveOverlaps_avl t.shifts low high fuel h hremove
      cases hstep
      simp only [ivRecordShift]
      split <;> exact hroot
  | findLargest id pos =>
      cases hstep
      exact (ivSearch_shape ⟨pos, id⟩ t.root).avl h
  | size =>
      cases hstep
      exact h
  | each =>
      cases hstep
      exact (ivEach_shape t.root).avl h
  | locPos loc =>
      cases hstep
      dsimp only
      split
      · exact h
      · exact (ivApplyAt_shape _ t.root).avl h
  | applyAllShifts =>
      cases hstep
      exact (ivApplyAll_shape t.root).avl h

theorem step_avl {t : Itree α} (h : Avl t.root) (op : Op α) : Avl (step t op).1.root := by
  rw [step]
  cases hstep : stepWithin (removalDepth t) t op with
  | none => exact h
  | some x => exact stepWithin_avl h hstep

end Operations

section Restarts

variable {low high : Int}

/-- The tree that a removal of `[low, high)` starts again on when the root holds no
other intervals and the range reaches its key. -/
def restart (shifts : List IvShift) (low high : Int) (fuel : Nat) : IvTree α → Option (IvTree α)
  | .nil => none
  | .node n l r =>
      let n := ivApplyShifts shifts n l r
      if low > n.max then none
      else do
        let (l, _) ← ivRemoveOverlaps shifts low high fuel l
        let ins := (ivDropOverlaps low high n.iv.ins.length [] n.iv.ins []).1
        if ins.isEmpty ∧ high ≥ n.key.pos then
          return ivRemove shifts n.key (.node { n with iv := { n.iv with ins := ins } } l r)
        else none

theorem ivRemoveOverlaps_restart {fuel fuel' : Nat} (h : restart shifts low high fuel t = some t')
    (hnone : ivRemoveOverlaps shifts low high fuel' t' = none) :
    ivRemoveOverlaps shifts low high (fuel' + 1) t = none := by
  cases t with
  | nil => cases h
  | node n l r =>
      simp only [restart, Option.bind_eq_bind] at h
      split at h
      · cases h
      · next hprune =>
          obtain ⟨⟨l', e⟩, hleft, h⟩ := Option.bind_eq_some_iff.mp h
          dsimp only at h
          split at h
          · next hempty =>
              cases h
              simp only [ivRemoveOverlaps, if_neg hprune, Option.bind_eq_bind]
              refine Option.bind_eq_none_iff.mpr fun x hx => ?_
              have hx' : x = (l', e) := by
                have hsome := ivRemoveOverlaps_mono (Nat.le_max_left fuel fuel') hleft
                rw [ivRemoveOverlaps_mono (Nat.le_max_right fuel fuel') hx] at hsome
                exact Option.some.inj hsome
              subst hx'
              dsimp only
              rw [if_pos hempty.1, if_pos hempty.2, hnone, Option.bind_none]
          · cases h

/-- A removal that only ever starts again on one of some trees never returns. -/
theorem ivRemoveOverlaps_endless {fuel : Nat} {ts : List (IvTree α)}
    (h : ∀ t ∈ ts, ∃ t' ∈ ts, restart shifts low high fuel t = some t') (ht : t ∈ ts)
    (fuel' : Nat) : ivRemoveOverlaps shifts low high fuel' t = none := by
  induction fuel' generalizing t with
  | zero => rfl
  | succ fuel' ih =>
      obtain ⟨t', ht', hrestart⟩ := h t ht
      exact ivRemoveOverlaps_restart hrestart (ih ht')

/-- The trees that a removal starts again on, one after the other. -/
def restarts (shifts : List IvShift) (low high : Int) (fuel : Nat) :
    Nat → IvTree α → List (IvTree α)
  | 0, _ => []
  | k + 1, t => t :: ((restart shifts low high fuel t).map (restarts shifts low high fuel k)).getD []

end Restarts

def run (ops : List (Op α)) : Itree α :=
  ops.foldl (fun t op => (step t op).1) itreeNew

theorem run_avl (ops : List (Op α)) : Avl (run ops).root := by
  suffices h : ∀ t : Itree α, Avl t.root →
      Avl (ops.foldl (fun t op => (step t op).1) t).root from h itreeNew trivial
  induction ops with
  | nil => exact fun t ht => ht
  | cons op ops ih => exact fun t ht => ih _ (step_avl ht op)

/-- The tree after some operations, when each returns within the given depth of
calls. -/
def runWithin (fuel : Nat) (t : Itree α) : List (Op α) → Option (Itree α)
  | [] => some t
  | op :: ops => do
      let (t, _) ← stepWithin fuel t op
      runWithin fuel t ops

theorem stepWithin_mono {fuel fuel' : Nat} (hle : fuel ≤ fuel') {t : Itree α} {op : Op α}
    {x : Itree α × Obs α} (h : stepWithin fuel t op = some x) :
    stepWithin fuel' t op = some x := by
  cases op with
  | removeAndShift low high amt =>
      simp only [stepWithin, itreeRemoveAndShift, Option.bind_eq_bind, Option.bind_assoc] at h ⊢
      obtain ⟨y, hremove, h⟩ := Option.bind_eq_some_iff.mp h
      rw [ivRemoveOverlaps_mono hle hremove]
      exact h
  | _ => exact h

theorem runWithin_append (fuel : Nat) (t : Itree α) (ops ops' : List (Op α)) :
    runWithin fuel t (ops ++ ops') =
      (runWithin fuel t ops).bind fun t' => runWithin fuel t' ops' := by
  induction ops generalizing t with
  | nil => rfl
  | cons op ops ih =>
      simp only [List.cons_append, runWithin, ih, Option.bind_eq_bind, Option.bind_assoc]

theorem runWithin_mono {fuel fuel' : Nat} (hle : fuel ≤ fuel') {ops : List (Op α)}
    {t t' : Itree α} (h : runWithin fuel t ops = some t') : runWithin fuel' t ops = some t' := by
  induction ops generalizing t with
  | nil => exact h
  | cons op ops ih =>
      obtain ⟨x, hstep, hrest⟩ := Option.bind_eq_some_iff.mp h
      rw [runWithin, stepWithin_mono hle hstep]
      exact ih hrest

theorem runWithin_avl {fuel : Nat} {ops : List (Op α)} {t t' : Itree α} (h : Avl t.root)
    (hrun : runWithin fuel t ops = some t') : Avl t'.root := by
  induction ops generalizing t with
  | nil =>
      cases hrun
      exact h
  | cons op ops ih =>
      obtain ⟨x, hstep, hrest⟩ := Option.bind_eq_some_iff.mp hrun
      exact ih (stepWithin_avl h hstep) hrest

theorem stepWithin_returns {t : Itree α} {ref : List (RefIv α)} (h : Inv t ref)
    (hmax : MaxBounds t.shifts t.root) {op : Op α} {fuel : Nat} (hfuel : ivNodes t.root < fuel) :
    stepWithin fuel t op = some (step t op) := by
  cases op with
  | removeAndShift low high amt =>
      obtain ⟨root, evicted, heq, -⟩ := ivRemoveOverlaps_spec h.log low high (h.sound hmax)
        h.wf.sorted (fun x hx => (h.wf.fits x hx).1)
      rw [step_removeAndShift_eq heq]
      simp [stepWithin, itreeRemoveAndShift, heq fuel hfuel]
  | _ => rfl

theorem runWithin_returns {t : Itree α} {ref : List (RefIv α)} (h : Inv t ref)
    {ops : List (Op α)} (hadm : Admissible t ref ops) (hmax : MaximaHold t ops) :
    ∃ depth, ∀ fuel, depth < fuel → ∃ t', runWithin fuel t ops = some t' := by
  induction ops generalizing t ref with
  | nil => exact ⟨0, fun fuel _ => ⟨t, rfl⟩⟩
  | cons op ops ih =>
      obtain ⟨depth, hdepth⟩ := ih (step_agrees h hmax.1 hadm.1).2 hadm.2 hmax.2
      refine ⟨max depth (ivNodes t.root), fun fuel hfuel => ?_⟩
      obtain ⟨hrest, hnodes⟩ := max_lt_iff.mp hfuel
      obtain ⟨t', ht'⟩ := hdepth fuel hrest
      refine ⟨t', ?_⟩
      rw [runWithin, stepWithin_returns h hmax.1 hnodes]
      exact ht'

/-- After any sequence of operations from the empty tree that return, the stored
heights are right and the subtrees of every node differ by at most one level; and
the operations return when they are admitted and the maxima are bounds before
each. -/
theorem tree_stays_balanced (ops : List (Op α)) :
    (∀ fuel t, runWithin fuel itreeNew ops = some t → Avl t.root) ∧
      (Admissible itreeNew [] ops → MaximaHold itreeNew ops →
        ∃ depth, ∀ fuel, depth < fuel →
          ∃ t, runWithin fuel itreeNew ops = some t ∧ Avl t.root) := by
  have hbalanced : ∀ fuel t, runWithin fuel itreeNew ops = some t → Avl t.root :=
    fun fuel t hrun => runWithin_avl (t := itreeNew) trivial hrun
  refine ⟨hbalanced, fun hadm hmax => ?_⟩
  obtain ⟨depth, hdepth⟩ := runWithin_returns inv_new hadm hmax
  refine ⟨depth, fun fuel hfuel => ?_⟩
  obtain ⟨t, hrun⟩ := hdepth fuel hfuel
  exact ⟨t, hrun, hbalanced fuel t hrun⟩

theorem tree_stays_balanced_shiftedRun :
    (∃ t, runWithin 20 itreeNew shiftedRun = some t ∧ Avl t.root) ∧
      ∃ depth, ∀ fuel, depth < fuel →
        ∃ t, runWithin fuel itreeNew shiftedRun = some t ∧ Avl t.root :=
  ⟨⟨_, rfl, (tree_stays_balanced shiftedRun).1 20 _ rfl⟩,
    (tree_stays_balanced shiftedRun).2 (by decide) (by decide)⟩

/-- The second removal leaves a node at 5 above a node at 6 in the right subtree of
the root. -/
def disorderedRun : List (Op Nat) :=
  [.add 1 5 7 0, .add 1 11 15 1, .add 1 7 8 2, .add 1 6 8 3, .add 1 0 1 4,
    .removeAndShift 8 16 (-8), .removeAndShift 1 3 (-2)]

/-- Then no removal of `[3, 11)` returns: the root is emptied twice, and its
successor at 6 is never found below the node at 5. -/
theorem removal_never_returns :
    ¬∀ ops : List (Op Nat), Admissible itreeNew [] ops →
      ∃ fuel t, runWithin fuel itreeNew ops = some t ∧ Avl t.root := by
  intro h
  obtain ⟨fuel, t, hrun, -⟩ := h (disorderedRun ++ [.removeAndShift 3 11 (-8)]) (by decide)
  rw [runWithin_append] at hrun
  obtain ⟨s, hs, hlast⟩ := Option.bind_eq_some_iff.mp hrun
  have hbefore : runWithin 6 itreeNew disorderedRun = some (run disorderedRun) := rfl
  obtain rfl : s = run disorderedRun := by
    have hmono := runWithin_mono (Nat.le_max_left 6 fuel) hbefore
    rw [runWithin_mono (Nat.le_max_right 6 fuel) hs] at hmono
    exact Option.some.inj hmono
  have hclosed : ∀ t ∈ restarts (run disorderedRun).shifts 3 11 5 4 (run disorderedRun).root,
      ∃ t' ∈ restarts (run disorderedRun).shifts 3 11 5 4 (run disorderedRun).root,
        restart (run disorderedRun).shifts 3 11 5 t = some t' := by decide +kernel
  have hnone := ivRemoveOverlaps_endless hclosed List.mem_cons_self fuel
  simp [runWithin, stepWithin, itreeRemoveAndShift, hnone] at hlast

end Libpeg.IntervalBalance
