import Libpeg.IntervalBalance

namespace Libpeg.IntervalRebalance

open Libpeg.IntervalTree Libpeg.IntervalCells Libpeg.IntervalBalance

variable {α : Type}

/-- `iv_rotate_left` where it reads the right child; `none` when there is none. -/
def ivRotateLeftAt (shifts : List IvShift) : IvTree α → Option (IvTree α)
  | .node n l (.node m rl rr) => some (ivRotateLeft shifts (.node n l (.node m rl rr)))
  | _ => none

/-- `iv_rotate_right` where it reads the left child; `none` when there is none. -/
def ivRotateRightAt (shifts : List IvShift) : IvTree α → Option (IvTree α)
  | .node n (.node m ll lr) r => some (ivRotateRight shifts (.node n (.node m ll lr) r))
  | _ => none

/-- A tall left child that leans right is rotated first. -/
def ivAlignLeft (shifts : List IvShift) (l : IvTree α) : Option (IvTree α) :=
  if ivBalance l < 0 then ivRotateLeftAt shifts l else some l

/-- A tall right child that leans left is rotated first. -/
def ivAlignRight (shifts : List IvShift) (r : IvTree α) : Option (IvTree α) :=
  if ivBalance r > 0 then ivRotateRightAt shifts r else some r

/-- Behind a right rotation: the demoted node is rebalanced by `f`, then the new root. -/
def ivDescendRight (f : IvTree α → Option (IvTree α)) : IvTree α → Option (IvTree α)
  | .nil => none
  | .node m ml mr => do
      let mr ← f mr
      f (.node m ml mr)

def ivDescendLeft (f : IvTree α → Option (IvTree α)) : IvTree α → Option (IvTree α)
  | .nil => none
  | .node m ml mr => do
      let ml ← f ml
      f (.node m ml mr)

/-- The calls of `iv_rebalance`; `none` when the bound of their depth does not suffice or
a null pointer is followed. -/
def ivRebalanceCall (shifts : List IvShift) : Nat → IvTree α → Option (IvTree α)
  | 0, _ => none
  | _ + 1, .nil => some .nil
  | fuel + 1, .node n l r =>
      let n := ivUpdate n l r
      if ivHeight l - ivHeight r > 1 then do
        let l ← ivAlignLeft shifts l
        let t ← ivRotateRightAt shifts (.node n l r)
        ivDescendRight (ivRebalanceCall shifts fuel) t
      else if ivHeight l - ivHeight r < -1 then do
        let r ← ivAlignRight shifts r
        let t ← ivRotateLeftAt shifts (.node n l r)
        ivDescendLeft (ivRebalanceCall shifts fuel) t
      else some (.node n l r)

def nodes : IvTree α → List (IvNode α)
  | .nil => []
  | .node n l r => nodes l ++ n :: nodes r

/-- The same node, which may have absorbed some shifts. -/
structure SameNode (n m : IvNode α) : Prop where
  addr : m.addr = n.addr
  id : m.key.id = n.key.id
  group : m.iv = ivGroupShift n.iv (m.key.pos - n.key.pos)

def SameNodes (t t' : IvTree α) : Prop :=
  List.Forall₂ SameNode (nodes t) (nodes t')

variable {shifts : List IvShift} {n m : IvNode α} {l r t t' t'' : IvTree α}

section Order

theorem SameNode.refl (n : IvNode α) : SameNode n n :=
  ⟨rfl, rfl, by rw [sub_self, ivGroupShift_zero]⟩

theorem SameNode.trans {k : IvNode α} (h : SameNode n m) (h' : SameNode m k) : SameNode n k where
  addr := h'.addr.trans h.addr
  id := h'.id.trans h.id
  group := by
    rw [h'.group, h.group, ivGroupShift_add]
    congr 1
    omega

theorem SameButMax.sameNode (h : SameButMax n m) : SameNode n m where
  addr := h.addr
  id := by rw [h.key]
  group := by rw [h.iv, h.key, sub_self, ivGroupShift_zero]

theorem sameNode_applyShifts (n : IvNode α) (l r : IvTree α) :
    SameNode n (ivApplyShifts shifts n l r) := by
  have hrep := ivReplay_replayed shifts n
  have hfirst : SameNode n (ivReplay shifts n) := ⟨hrep.addr, hrep.id, hrep.group⟩
  exact hfirst.trans (SameButMax.sameNode (ivApplyShifts_same shifts n l r))

theorem sameNode_update (n : IvNode α) (l r : IvTree α) : SameNode n (ivUpdate n l r) := by
  have hheight : SameNode n (ivUpdateHeight n l r) :=
    ⟨rfl, rfl, by rw [ivUpdateHeight, sub_self, ivGroupShift_zero]⟩
  exact hheight.trans (SameButMax.sameNode (ivUpdateMax_same _ l r))

theorem SameNodes.refl (t : IvTree α) : SameNodes t t := by
  have : Std.Refl (SameNode (α := α)) := ⟨SameNode.refl⟩
  exact List.forall₂_refl _

theorem forall₂_trans {β : Type} {R : β → β → Prop} (hR : ∀ a b c, R a b → R b c → R a c)
    {xs ys zs : List β} (h : List.Forall₂ R xs ys) (h' : List.Forall₂ R ys zs) :
    List.Forall₂ R xs zs := by
  induction h generalizing zs with
  | nil => exact h'
  | cons hx _ ih =>
      cases h' with
      | cons hy hrest => exact .cons (hR _ _ _ hx hy) (ih hrest)

theorem SameNodes.trans (h : SameNodes t t') (h' : SameNodes t' t'') : SameNodes t t'' :=
  forall₂_trans (R := SameNode) (fun _ _ _ => SameNode.trans) h h'

theorem SameNodes.node {l' r' : IvTree α} (hl : SameNodes l l') (hn : SameNode n m)
    (hr : SameNodes r r') : SameNodes (.node n l r) (.node m l' r') :=
  List.rel_append hl (.cons hn hr)

theorem nodes_mirror (t : IvTree α) : nodes (mirror t) = (nodes t).reverse := by
  induction t with
  | nil => rfl
  | node n l r ihl ihr => simp [mirror, nodes, ihl, ihr]

theorem sameNodes_mirror : SameNodes (mirror t) (mirror t') ↔ SameNodes t t' := by
  rw [SameNodes, nodes_mirror, nodes_mirror, List.forall₂_reverse_iff]
  exact Iff.rfl

theorem ivRotateRight_nodes (shifts : List IvShift) (t : IvTree α) :
    SameNodes t (ivRotateRight shifts t) := by
  cases t with
  | nil => exact .refl _
  | node n l r =>
      cases l with
      | nil => exact .refl _
      | node m ll lr =>
          let n' := ivUpdate (ivApplyShifts shifts n (.node m ll lr) r) lr r
          have hn : SameNode n n' := (sameNode_applyShifts n (.node m ll lr) r).trans
            (sameNode_update _ lr r)
          have hm := (@sameNode_applyShifts _ shifts m ll lr).trans
            (sameNode_update _ ll (.node n' lr r))
          have hright : SameNodes (.node n lr r) (.node n' lr r) := (SameNodes.refl lr).node hn (.refl r)
          have hrotated := (SameNodes.refl ll).node hm hright
          rw [SameNodes, nodes, nodes, List.append_assoc]
          exact hrotated

theorem ivRotateLeft_nodes (shifts : List IvShift) (t : IvTree α) :
    SameNodes t (ivRotateLeft shifts t) := by
  rw [← sameNodes_mirror, mirror_rotateLeft]
  exact ivRotateRight_nodes shifts (mirror t)

theorem ivRebalanceLoop_nodes (shifts : List IvShift) (fuel : Nat) (t : IvTree α) :
    SameNodes t (ivRebalanceLoop shifts fuel t) := by
  induction fuel generalizing t with
  | zero => exact .refl t
  | succ fuel ih =>
      cases t with
      | nil => exact .refl _
      | node n l r =>
          have hup := sameNode_update n l r
          rw [ivRebalanceLoop]
          dsimp only
          split
          · have hl : SameNodes l (if ivBalance l < 0 then ivRotateLeft shifts l else l) := by
              split
              · exact ivRotateLeft_nodes shifts l
              · exact .refl l
            have hrot := (hl.node hup (.refl r)).trans (ivRotateRight_nodes shifts _)
            generalize ivRotateRight shifts _ = t at hrot ⊢
            cases t with
            | nil => exact hrot
            | node m ml mr =>
                exact (hrot.trans ((SameNodes.refl ml).node (.refl m) (ih mr))).trans (ih _)
          · split
            · have hr : SameNodes r (if ivBalance r > 0 then ivRotateRight shifts r else r) := by
                split
                · exact ivRotateRight_nodes shifts r
                · exact .refl r
              have hrot := ((SameNodes.refl l).node hup hr).trans (ivRotateLeft_nodes shifts _)
              generalize ivRotateLeft shifts _ = t at hrot ⊢
              cases t with
              | nil => exact hrot
              | node m ml mr =>
                  exact (hrot.trans ((ih ml).node (.refl m) (.refl mr))).trans (ih _)
            · exact (SameNodes.refl l).node hup (.refl r)

end Order

section Calls

variable {fuel : Nat}

theorem call_left (h : ivHeight l - ivHeight r > 1) :
    ivRebalanceCall shifts (fuel + 1) (.node n l r) = (ivAlignLeft shifts l).bind fun l' =>
      (ivRotateRightAt shifts (.node (ivUpdate n l r) l' r)).bind
        (ivDescendRight (ivRebalanceCall shifts fuel)) := by
  rw [ivRebalanceCall, if_pos h]
  rfl

theorem call_right (h : ivHeight l - ivHeight r < -1) :
    ivRebalanceCall shifts (fuel + 1) (.node n l r) = (ivAlignRight shifts r).bind fun r' =>
      (ivRotateLeftAt shifts (.node (ivUpdate n l r) l r')).bind
        (ivDescendLeft (ivRebalanceCall shifts fuel)) := by
  rw [ivRebalanceCall, if_neg (by omega), if_pos h]
  rfl

theorem call_even (h : ¬ivHeight l - ivHeight r > 1) (h' : ¬ivHeight l - ivHeight r < -1) :
    ivRebalanceCall shifts (fuel + 1) (.node n l r) = some (.node (ivUpdate n l r) l r) := by
  rw [ivRebalanceCall, if_neg h, if_neg h']

theorem descendRight_mono {f g : IvTree α → Option (IvTree α)}
    (hfg : ∀ t t', f t = some t' → g t = some t') (h : ivDescendRight f t = some t') :
    ivDescendRight g t = some t' := by
  cases t with
  | nil => cases h
  | node m ml mr =>
      obtain ⟨mr', hmr, h⟩ := Option.bind_eq_some_iff.mp h
      exact Option.bind_eq_some_iff.mpr ⟨mr', hfg _ _ hmr, hfg _ _ h⟩

theorem descendLeft_mono {f g : IvTree α → Option (IvTree α)}
    (hfg : ∀ t t', f t = some t' → g t = some t') (h : ivDescendLeft f t = some t') :
    ivDescendLeft g t = some t' := by
  cases t with
  | nil => cases h
  | node m ml mr =>
      obtain ⟨ml', hml, h⟩ := Option.bind_eq_some_iff.mp h
      exact Option.bind_eq_some_iff.mpr ⟨ml', hfg _ _ hml, hfg _ _ h⟩

theorem call_mono (fuel : Nat) (t t' : IvTree α) (h : ivRebalanceCall shifts fuel t = some t') :
    ivRebalanceCall shifts (fuel + 1) t = some t' := by
  induction fuel generalizing t t' with
  | zero => cases h
  | succ fuel ih =>
      cases t with
      | nil => exact h
      | node n l r =>
          by_cases hl : ivHeight l - ivHeight r > 1
          · rw [call_left hl] at h ⊢
            obtain ⟨l', hal, h⟩ := Option.bind_eq_some_iff.mp h
            obtain ⟨t, ht, h⟩ := Option.bind_eq_some_iff.mp h
            refine Option.bind_eq_some_iff.mpr ⟨l', hal, ?_⟩
            exact Option.bind_eq_some_iff.mpr ⟨t, ht, descendRight_mono ih h⟩
          · by_cases hr : ivHeight l - ivHeight r < -1
            · rw [call_right hr] at h ⊢
              obtain ⟨r', har, h⟩ := Option.bind_eq_some_iff.mp h
              obtain ⟨t, ht, h⟩ := Option.bind_eq_some_iff.mp h
              refine Option.bind_eq_some_iff.mpr ⟨r', har, ?_⟩
              exact Option.bind_eq_some_iff.mpr ⟨t, ht, descendLeft_mono ih h⟩
            · rw [call_even hl hr] at h ⊢
              exact h

theorem call_of_le {k : Nat} (h : ivRebalanceCall shifts k t = some t') (hk : k ≤ fuel) :
    ivRebalanceCall shifts fuel t = some t' := by
  induction fuel, hk using Nat.le_induction with
  | base => exact h
  | succ fuel _ ih => exact call_mono fuel t t' ih

theorem mirror_rotateRightAt (t : IvTree α) :
    (ivRotateRightAt shifts t).map mirror = ivRotateLeftAt shifts (mirror t) := by
  cases t with
  | nil => rfl
  | node n l r =>
      cases l with
      | nil => cases r <;> rfl
      | node m ll lr => exact congrArg some (mirror_rotateRight shifts (.node n (.node m ll lr) r))

theorem mirror_rotateLeftAt (t : IvTree α) :
    (ivRotateLeftAt shifts t).map mirror = ivRotateRightAt shifts (mirror t) := by
  cases t with
  | nil => rfl
  | node n l r =>
      cases r with
      | nil => cases l <;> rfl
      | node m rl rr => exact congrArg some (mirror_rotateLeft shifts (.node n l (.node m rl rr)))

theorem mirror_alignLeft (l : IvTree α) :
    (ivAlignLeft shifts l).map mirror = ivAlignRight shifts (mirror l) := by
  unfold ivAlignLeft ivAlignRight
  rw [mirror_balance]
  by_cases h : ivBalance l < 0
  · rw [if_pos h, if_pos (by omega), mirror_rotateLeftAt]
  · rw [if_neg h, if_neg (by omega)]
    rfl

theorem mirror_alignRight (r : IvTree α) :
    (ivAlignRight shifts r).map mirror = ivAlignLeft shifts (mirror r) := by
  have h := @mirror_alignLeft _ shifts (mirror r)
  rw [mirror_mirror] at h
  rw [← h, Option.map_map]
  have hid : mirror ∘ mirror = (id : IvTree α → IvTree α) := by
    funext t
    exact mirror_mirror t
  rw [hid, Option.map_id, id]

section Descend

variable {f : IvTree α → Option (IvTree α)} (hf : ∀ t, (f t).map mirror = f (mirror t))
include hf

theorem mirror_descendRight (t : IvTree α) :
    (ivDescendRight f t).map mirror = ivDescendLeft f (mirror t) := by
  cases t with
  | nil => rfl
  | node m ml mr =>
      change ((f mr).bind fun mr => f (.node m ml mr)).map mirror =
        (f (mirror mr)).bind fun x => f (.node m x (mirror ml))
      rw [← hf mr, Option.map_bind, Option.bind_map]
      congr 1
      funext mr'
      exact hf _

theorem mirror_descendLeft (t : IvTree α) :
    (ivDescendLeft f t).map mirror = ivDescendRight f (mirror t) := by
  cases t with
  | nil => rfl
  | node m ml mr =>
      change ((f ml).bind fun ml => f (.node m ml mr)).map mirror =
        (f (mirror ml)).bind fun x => f (.node m (mirror mr) x)
      rw [← hf ml, Option.map_bind, Option.bind_map]
      congr 1
      funext ml'
      exact hf _

end Descend

theorem mirror_call (fuel : Nat) (t : IvTree α) :
    (ivRebalanceCall shifts fuel t).map mirror = ivRebalanceCall shifts fuel (mirror t) := by
  induction fuel generalizing t with
  | zero => rfl
  | succ fuel ih =>
      cases t with
      | nil => rfl
      | node n l r =>
          rw [mirror]
          by_cases hl : ivHeight l - ivHeight r > 1
          · rw [call_left hl, call_right (by simp only [mirror_height]; omega), ← mirror_alignLeft,
              Option.map_bind, Option.bind_map, ivUpdate_mirror]
            congr 1
            funext l'
            have hrot := @mirror_rotateRightAt _ shifts (.node (ivUpdate n l r) l' r)
            rw [mirror] at hrot
            simp only [Function.comp_apply]
            rw [← hrot, Option.map_bind, Option.bind_map]
            congr 1
            funext t
            exact mirror_descendRight ih t
          · by_cases hr : ivHeight l - ivHeight r < -1
            · rw [call_right hr, call_left (by simp only [mirror_height]; omega),
                ← mirror_alignRight, Option.map_bind, Option.bind_map, ivUpdate_mirror]
              congr 1
              funext r'
              have hrot := @mirror_rotateLeftAt _ shifts (.node (ivUpdate n l r) l r')
              rw [mirror] at hrot
              simp only [Function.comp_apply]
              rw [← hrot, Option.map_bind, Option.bind_map]
              congr 1
              funext t
              exact mirror_descendLeft ih t
            · rw [call_even hl hr, call_even (by simp only [mirror_height]; omega)
                (by simp only [mirror_height]; omega), ivUpdate_mirror]
              rfl

theorem alignLeft_eq (hl : Avl l) : ivAlignLeft shifts l =
    some (if ivBalance l < 0 then ivRotateLeft shifts l else l) := by
  unfold ivAlignLeft
  split
  · next hbal =>
      cases l with
      | nil => exact absurd hbal (by simp [ivBalance])
      | node m ll lr =>
          obtain ⟨-, -, -, hll, hlr⟩ := hl
          simp only [ivBalance, hll.height_eq, hlr.height_eq] at hbal
          cases lr with
          | nil =>
              simp only [ivDepth] at hbal
              omega
          | node k a b => rfl
  · rfl

theorem rotateRightAt_eq (h : ivRotateRight shifts t ≠ t) :
    ivRotateRightAt shifts t = some (ivRotateRight shifts t) := by
  cases t with
  | nil => exact absurd rfl h
  | node n l r =>
      cases l with
      | nil => exact absurd rfl h
      | node m ll lr => rfl

def Follows (shifts : List IvShift) (fuel : Nat) (t : IvTree α) : Prop :=
  ivRebalanceCall shifts fuel t = some (ivRebalanceLoop shifts fuel t)

theorem follows_even (fuel : Nat) (n : IvNode α) (hl : Avl l) (hr : Avl r)
    (hlr : ivDepth l ≤ ivDepth r + 1) (hrl : ivDepth r ≤ ivDepth l + 1) :
    Follows shifts (fuel + 1) (.node n l r) := by
  have hhl := hl.height_eq
  have hhr := hr.height_eq
  rw [Follows, call_even (by omega) (by omega), rebalanceLoop_even fuel n hl hr hlr hrl]

theorem follows_left {ml mr : IvTree α} (hl : Avl l) (hheavy : ivHeight l - ivHeight r > 1)
    (heq : ivRotateRight shifts (.node (ivUpdate n l r)
      (if ivBalance l < 0 then ivRotateLeft shifts l else l) r) = .node m ml mr)
    (hmoved : ivDepth r < ivDepth mr) (hdemoted : Follows shifts fuel mr)
    (hroot : Follows shifts fuel (.node m ml (ivRebalanceLoop shifts fuel mr))) :
    Follows shifts (fuel + 1) (.node n l r) := by
  have hmoves : ivRotateRight shifts (.node (ivUpdate n l r)
      (if ivBalance l < 0 then ivRotateLeft shifts l else l) r) ≠ .node (ivUpdate n l r)
        (if ivBalance l < 0 then ivRotateLeft shifts l else l) r := by
    intro hsame
    rw [heq] at hsame
    cases hsame
    exact lt_irrefl _ hmoved
  have hloop : ivRebalanceLoop shifts (fuel + 1) (.node n l r) =
      ivRebalanceLoop shifts fuel (.node m ml (ivRebalanceLoop shifts fuel mr)) := by
    rw [ivRebalanceLoop, if_pos hheavy]
    dsimp only
    rw [heq]
  rw [Follows, hloop, call_left hheavy, alignLeft_eq hl, Option.bind_some, rotateRightAt_eq hmoves,
    heq, Option.bind_some]
  change ((ivRebalanceCall shifts fuel mr).bind fun t =>
    ivRebalanceCall shifts fuel (.node m ml t)) = _
  rw [hdemoted, Option.bind_some]
  exact hroot

theorem follows_again (fuel : Nat) (n k : IvNode α) {a b : IvTree α} (hl : Avl (.node k a b))
    (hr : Avl r) (hab : ivDepth a = ivDepth b) (hdepth : ivDepth (.node k a b) = ivDepth r + 2) :
    Follows shifts (fuel + 2) (.node n (.node k a b) r) := by
  have hhl := hl.height_eq
  have hhr := hr.height_eq
  have havl := hl
  obtain ⟨-, -, -, ha, hb⟩ := hl
  have hbal : ¬ivBalance (.node k a b) < 0 := by
    simp only [ivBalance, ha.height_eq, hb.height_eq]
    omega
  simp only [ivDepth] at hdepth
  refine follows_left havl (by rw [hhl, hhr]; simp only [ivDepth]; omega)
    (by rw [if_neg hbal]; rfl) (by simp only [ivDepth]; omega) ?_ ?_
  · exact follows_even fuel _ hb hr (by omega) (by omega)
  · generalize ivUpdate _ b r = n'
    obtain ⟨hinner, hd⟩ := rebalanceLoop_even_avl shifts fuel n' hb hr (by omega) (by omega)
    exact follows_even fuel _ ha hinner (by omega) (by omega)

/-- On a left-heavy node the demoted node is rebalanced first, then the new root. -/
theorem follows_heavy {d : Nat}
    (ih : ∀ {l r : IvTree α} (n : IvNode α), Avl l → Avl r → ivDepth l ≤ d → ivDepth r ≤ d →
      Follows shifts (fuel + 2) (.node n l r))
    (hmended : ∀ {l r : IvTree α} (n : IvNode α), Avl l → Avl r → ivDepth l ≤ d → ivDepth r ≤ d →
      Mended l r (ivRebalanceLoop shifts (fuel + 2) (.node n l r)))
    (hl : Avl l) (hr : Avl r) (hd : ivDepth l ≤ d + 1) (hheavy : ivDepth r + 1 < ivDepth l)
    (n : IvNode α) : Follows shifts (fuel + 3) (.node n l r) := by
  have hhl := hl.height_eq
  have hhr := hr.height_eq
  obtain ⟨m, n', ml, mr, heq, hml, hmr, hdl, hle, hge, heven⟩ :=
    (demoted_of_heavy shifts hl (by omega) (ivUpdate n l r) r).split
  refine follows_left hl (by omega) heq (by simp only [ivDepth]; omega)
    (ih n' hmr hr (by omega) (by omega)) ?_
  obtain ⟨hinner, hlow, hhigh⟩ := hmended n' hmr hr (by omega) (by omega)
  generalize ivRebalanceLoop shifts (fuel + 2) (.node n' mr r) = t at hinner hlow hhigh
  by_cases hclose : ivDepth ml ≤ ivDepth t + 1
  · exact follows_even (fuel + 1) m hml hinner hclose (by omega)
  · obtain ⟨k, a, b, rfl, hab⟩ := heven (by omega)
    exact follows_again fuel m k hml hinner hab (by omega)

theorem follows_mirror (h : Follows shifts fuel (mirror t)) : Follows shifts fuel t := by
  have hcall := @mirror_call _ shifts fuel (mirror t)
  rw [mirror_mirror] at hcall
  rw [Follows, ← hcall, h, Option.map_some, mirror_rebalanceLoop, mirror_mirror]

/-- The calls return with a bound of their depth that is not much larger than the depth of
the deeper subtree. -/
theorem follows_of_avl (fuel d : Nat) (hl : Avl l) (hr : Avl r) (hdl : ivDepth l ≤ d)
    (hdr : ivDepth r ≤ d) (n : IvNode α) : Follows shifts (fuel + d + 2) (.node n l r) := by
  induction d generalizing n l r with
  | zero => exact follows_even _ n hl hr (by omega) (by omega)
  | succ d ih =>
      have ih' : ∀ {l r : IvTree α} (n : IvNode α), Avl l → Avl r → ivDepth l ≤ d →
          ivDepth r ≤ d → Follows shifts (fuel + d + 2) (.node n l r) :=
        fun n hl hr hdl hdr => ih hl hr hdl hdr n
      have hmended : ∀ {l r : IvTree α} (n : IvNode α), Avl l → Avl r → ivDepth l ≤ d →
          ivDepth r ≤ d → Mended l r (ivRebalanceLoop shifts (fuel + d + 2) (.node n l r)) :=
        fun n hl hr hdl hdr => ivRebalanceLoop_mended shifts fuel d hl hr hdl hdr n
      by_cases hleft : ivDepth r + 1 < ivDepth l
      · exact follows_heavy ih' hmended hl hr hdl hleft n
      · by_cases hright : ivDepth l + 1 < ivDepth r
        · apply follows_mirror
          exact follows_heavy ih' hmended ((mirror_avl r).mpr hr) ((mirror_avl l).mpr hl)
            (by simpa using hdr) (by simpa using hright) n
        · exact follows_even _ n hl hr (by omega) (by omega)

end Calls

/-- `iv_rebalance` returns on a node whose subtrees are balanced, whatever their heights:
the same tree for every bound from some on, which is balanced and has the same nodes in
order. -/
theorem ivRebalance_returns (shifts : List IvShift) (n : IvNode α) (l r : IvTree α) (hl : Avl l)
    (hr : Avl r) :
    (∃ k, ∀ fuel, k ≤ fuel →
      ivRebalanceCall shifts fuel (.node n l r) = some (ivRebalance shifts (.node n l r))) ∧
      SameNodes (.node n l r) (ivRebalance shifts (.node n l r)) ∧
      Avl (ivRebalance shifts (.node n l r)) := by
  refine ⟨⟨ivDepth (.node n l r) + 3, fun fuel hfuel => ?_⟩, ivRebalanceLoop_nodes shifts _ _,
    ivRebalance_avl hl hr n⟩
  have hfollows : Follows shifts (ivDepth (.node n l r) + 3) (.node n l r) := by
    have h := @follows_of_avl _ shifts _ _ 2 (max (ivDepth l) (ivDepth r)) hl hr
      (le_max_left _ _) (le_max_right _ _) n
    rwa [ivDepth, show 1 + max (ivDepth l) (ivDepth r) + 3 =
      2 + max (ivDepth l) (ivDepth r) + 2 by omega]
  exact call_of_le hfollows hfuel

def fullTree : Nat → IvTree Nat
  | 0 => .nil
  | d + 1 => .node ⟨d, ⟨d, 0⟩, 1, ⟨d, [⟨0, 1, d⟩], d⟩, 0, d + 1⟩ (fullTree d) (fullTree d)

theorem ivRebalance_returns_full :
    (∃ k, ∀ fuel, k ≤ fuel → ivRebalanceCall [] fuel (.node ⟨9, ⟨0, 0⟩, 0, ⟨0, [], 0⟩, 0, 0⟩
      (fullTree 4) .nil) = some (ivRebalance [] (.node ⟨9, ⟨0, 0⟩, 0, ⟨0, [], 0⟩, 0, 0⟩
        (fullTree 4) .nil))) ∧
      SameNodes (.node ⟨9, ⟨0, 0⟩, 0, ⟨0, [], 0⟩, 0, 0⟩ (fullTree 4) .nil)
        (ivRebalance [] (.node ⟨9, ⟨0, 0⟩, 0, ⟨0, [], 0⟩, 0, 0⟩ (fullTree 4) .nil)) ∧
      Avl (ivRebalance [] (.node ⟨9, ⟨0, 0⟩, 0, ⟨0, [], 0⟩, 0, 0⟩ (fullTree 4) .nil)) :=
  ivRebalance_returns [] _ (fullTree 4) .nil (by decide) trivial

end Libpeg.IntervalRebalance
