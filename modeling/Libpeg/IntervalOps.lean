import Libpeg.IntervalCells

namespace Libpeg.IntervalOps

open Libpeg.IntervalTree Libpeg.IntervalCells

variable {α : Type} {F : Prop} {shifts : List IvShift} {now : Nat}

theorem ivKeyCmp_lt {a b : IvKey} :
    ivKeyCmp a b = .lt ↔ a.pos < b.pos ∨ a.pos = b.pos ∧ a.id < b.id := by
  unfold ivKeyCmp
  split
  · simp_all
  · split
    · simp_all
      omega
    · split
      · simp_all
        omega
      · split <;> simp_all

theorem ivKeyCmp_gt {a b : IvKey} : ivKeyCmp a b = .gt ↔ ivKeyCmp b a = .lt := by
  rw [ivKeyCmp_lt]
  unfold ivKeyCmp
  split
  · simp_all
    omega
  · split
    · simp_all
    · split
      · simp_all
        omega
      · split <;> simp_all
        omega

theorem ivKeyCmp_eq {a b : IvKey} : ivKeyCmp a b = .eq ↔ a = b := by
  constructor
  · intro h
    unfold ivKeyCmp at h
    split at h
    · cases h
    · split at h
      · cases h
      · split at h
        · cases h
        · split at h
          · cases h
          · cases a
            cases b
            simp_all
            omega
  · rintro rfl
    simp [ivKeyCmp]

theorem ivKeyCmp_lt_trans {a b c : IvKey} (hab : ivKeyCmp a b = .lt)
    (hbc : ivKeyCmp b c = .lt) : ivKeyCmp a c = .lt := by
  rw [ivKeyCmp_lt] at *
  omega

theorem ne_of_ivKeyCmp_lt {a b : IvKey} (h : ivKeyCmp a b = .lt) : a ≠ b := by
  rintro rfl
  simp [ivKeyCmp] at h

def KeysSorted (cs : List (Cell α)) : Prop :=
  cs.Pairwise fun c d => ivKeyCmp c.key d.key = .lt

theorem keysSorted_node {n : IvNode α} {l r : IvTree α} :
    KeysSorted (cells shifts (.node n l r)) ↔
      KeysSorted (cells shifts l) ∧ KeysSorted (cells shifts r) ∧
        (∀ c ∈ cells shifts l, ivKeyCmp c.key (cell shifts n).key = .lt) ∧
        (∀ c ∈ cells shifts r, ivKeyCmp (cell shifts n).key c.key = .lt) := by
  simp only [KeysSorted, cells, List.pairwise_append, List.pairwise_cons, List.mem_cons]
  constructor
  · rintro ⟨hl, ⟨hn, hr⟩, hlr⟩
    exact ⟨hl, hr, fun c hc => hlr c hc _ (.inl rfl), hn⟩
  · rintro ⟨hl, hr, hln, hnr⟩
    refine ⟨hl, ⟨hnr, hr⟩, ?_⟩
    rintro c hc d (rfl | hd)
    · exact hln c hc
    · exact ivKeyCmp_lt_trans (hln c hc) (hnr d hd)

/-- The tree after an insertion, either of a new node or into the group of its
key. -/
inductive Added (key : IvKey) (i : IvIns α) (fresh : Nat) (cs : List (Cell α))
    (ls : List (Nat × Nat)) : List (Cell α) → List (Nat × Nat) → Nat → Prop
  | fresh (pre post lpre lpost) :
      cs = pre ++ post → ls = lpre ++ lpost →
      (∀ c ∈ pre, ivKeyCmp c.key key = .lt) → (∀ c ∈ post, ivKeyCmp key c.key = .lt) →
      Added key i fresh cs ls (pre ++ ⟨key, fresh, [i]⟩ :: post)
        (lpre ++ (fresh, fresh) :: lpost) fresh
  | joined (pre c post) :
      cs = pre ++ c :: post → c.key = key →
      Added key i fresh cs ls (pre ++ { c with ins := c.ins ++ [i] } :: post) ls c.loc

/-- An insertion into the left part of a list whose rest is above the key. -/
theorem Added.append_right {key : IvKey} {i : IvIns α} {fresh loc : Nat}
    {cs cs' : List (Cell α)} {ls ls' : List (Nat × Nat)}
    (h : Added key i fresh cs ls cs' ls' loc) (ds : List (Cell α)) (ks : List (Nat × Nat))
    (hds : ∀ d ∈ ds, ivKeyCmp key d.key = .lt) :
    Added key i fresh (cs ++ ds) (ls ++ ks) (cs' ++ ds) (ls' ++ ks) loc := by
  cases h with
  | fresh pre post lpre lpost hcs hls hpre hpost =>
      subst hcs hls
      simp only [List.append_assoc, List.cons_append]
      refine .fresh pre (post ++ ds) lpre (lpost ++ ks) rfl rfl hpre ?_
      intro c hc
      rcases List.mem_append.mp hc with hc | hc
      · exact hpost c hc
      · exact hds c hc
  | joined pre c post hcs hkey =>
      subst hcs
      simp only [List.append_assoc, List.cons_append]
      exact .joined pre c (post ++ ds) rfl hkey

theorem Added.append_left {key : IvKey} {i : IvIns α} {fresh loc : Nat}
    {cs cs' : List (Cell α)} {ls ls' : List (Nat × Nat)}
    (h : Added key i fresh cs ls cs' ls' loc) (ds : List (Cell α)) (ks : List (Nat × Nat))
    (hds : ∀ d ∈ ds, ivKeyCmp d.key key = .lt) :
    Added key i fresh (ds ++ cs) (ks ++ ls) (ds ++ cs') (ks ++ ls') loc := by
  cases h with
  | fresh pre post lpre lpost hcs hls hpre hpost =>
      subst hcs hls
      simp only [← List.append_assoc]
      refine .fresh (ds ++ pre) post (ks ++ lpre) lpost rfl rfl ?_ hpost
      intro c hc
      rcases List.mem_append.mp hc with hc | hc
      · exact hds c hc
      · exact hpre c hc
  | joined pre c post hcs hkey =>
      subst hcs
      simp only [← List.append_assoc]
      exact .joined (ds ++ pre) c post rfl hkey

theorem settled_below_maxWith {t : IvTree α} (h : Settled shifts t) (m : Int) :
    Below (cells shifts t) (maxWith m t) := by
  cases t with
  | nil => simp [Below, cells]
  | node n l r => exact h.2.mono (le_max_right _ _)

theorem maxWith_mono {m m' : Int} (h : m ≤ m') (t : IvTree α) : maxWith m t ≤ maxWith m' t := by
  cases t with
  | nil => exact h
  | node n l r => exact max_le_max h le_rfl

theorem settled_left_below {n : IvNode α} {l r : IvTree α} (h : Settled shifts l) :
    Below (cells shifts l) (ivUpdate n l r).max :=
  (settled_below_maxWith h _).mono
    ((le_maxWith _ r).trans (maxWith_le_ivUpdate_max n l r))

theorem settled_right_below {n : IvNode α} {l r : IvTree α} (h : Settled shifts r) :
    Below (cells shifts r) (ivUpdate n l r).max :=
  (settled_below_maxWith h _).mono (maxWith_le_ivUpdate_max n l r)

theorem le_foldl_max (is : List (IvIns α)) (m : Int) :
    m ≤ is.foldl (fun m i => max m i.high) m ∧
      ∀ i ∈ is, i.high ≤ is.foldl (fun m i => max m i.high) m := by
  induction is generalizing m with
  | nil => simp
  | cons j is ih =>
      obtain ⟨hm, his⟩ := ih (max m j.high)
      simp only [List.foldl_cons]
      refine ⟨(le_max_left _ _).trans hm, ?_⟩
      rintro i (_ | ⟨_, hi⟩)
      · exact (le_max_right _ _).trans hm
      · exact his i hi

theorem group_below_ivUpdate_max {n : IvNode α} {l r : IvTree α} {i : IvIns α}
    (hi : i ∈ n.iv.ins) : i.high ≤ (ivUpdate n l r).max :=
  ((le_foldl_max n.iv.ins 0).2 i hi).trans
    (((le_maxWith _ l).trans (le_maxWith _ r)).trans (maxWith_le_ivUpdate_max n l r))

theorem ivAdd_spec (hlog : LogOk shifts now) (fresh : Nat) (key : IvKey) (high : Int)
    (value : α) {t : IvTree α} (h : Sound F shifts now t)
    (hsorted : KeysSorted (cells shifts t)) :
    ∃ t' loc, ivAdd shifts now fresh key high value t = (t', loc) ∧
      Sound F shifts now t' ∧ Settled shifts t' ∧
      Added key ⟨key.pos, high, value⟩ fresh (cells shifts t) (links t)
        (cells shifts t') (links t') loc := by
  induction t with
  | nil =>
      have hcur : Current shifts ({
          addr := fresh
          key := key
          max := high
          iv := ⟨fresh, [⟨key.pos, high, value⟩], fresh⟩
          tstamp := now
          height := 1 } : IvNode α) := (current_iff hlog _).mpr hlog.le_now
      refine ⟨_, _, rfl, ?_⟩
      obtain ⟨hsound, hsettled⟩ := sound_node (l := .nil) (r := .nil) hcur
        ⟨le_rfl, le_rfl⟩ (by simp [cells, cell_of_current hcur, Below]) Sound.nil Sound.nil
      refine ⟨hsound, hsettled, ?_⟩
      simp only [cells, links, cell_of_current hcur]
      exact .fresh [] [] [] [] rfl rfl (by simp) (by simp)
  | node n l r ihl ihr =>
      have hv := ivApplyShifts_visited hlog h
      rw [← hv.cells] at hsorted ⊢
      rw [← hv.links]
      simp only [ivAdd]
      generalize ivApplyShifts shifts n l r = n at hv hsorted ⊢
      rw [keysSorted_node] at hsorted
      obtain ⟨hsl, hsr, hln, hnr⟩ := hsorted
      have hcell := cell_of_current hv.settled.1
      have hbelow := hv.settled.2
      simp only [cells, below_append, below_cons] at hbelow
      rw [hcell] at hln hnr hbelow
      split
      · next hcmp =>
          obtain ⟨l', loc, hadd, hsound, hsettled, hadded⟩ := ihl h.left hsl
          rw [hadd]
          have hreb := ivRebalance_node_visited hlog hv.settled.1 hv.sound.regular.1.2
            (l := l') (r := r) (by
              simp only [cells, below_append, below_cons, hcell]
              refine ⟨settled_left_below hsettled, ?_, ?_⟩
              · exact fun i hi => group_below_ivUpdate_max hi
              · exact hbelow.2.2.mono (ivUpdate_max _ _ _)) hsound h.right
          refine ⟨_, _, rfl, hreb.sound, hreb.settled, ?_⟩
          rw [hreb.cells, hreb.links]
          simp only [cells, links, hcell]
          apply hadded.append_right
          rintro d (_ | ⟨_, hd⟩)
          · exact hcmp
          · exact ivKeyCmp_lt_trans hcmp (hnr d hd)
      · next hcmp =>
          obtain ⟨r', loc, hadd, hsound, hsettled, hadded⟩ := ihr h.right hsr
          rw [hadd]
          have hreb := ivRebalance_node_visited hlog hv.settled.1 hv.sound.regular.1.2
            (l := l) (r := r') (by
              simp only [cells, below_append, below_cons, hcell]
              refine ⟨hbelow.1.mono (ivUpdate_max _ _ _), ?_, settled_right_below hsettled⟩
              exact fun i hi => group_below_ivUpdate_max hi) h.left hsound
          refine ⟨_, _, rfl, hreb.sound, hreb.settled, ?_⟩
          rw [hreb.cells, hreb.links]
          simp only [cells, links, hcell]
          have hcmp' := ivKeyCmp_gt.mp hcmp
          have := hadded.append_left (cells shifts l ++ [⟨n.key, n.iv.loc, n.iv.ins⟩])
            (links l ++ [(n.addr, n.iv.node)]) (by
              intro d hd
              rcases List.mem_append.mp hd with hd | hd
              · exact ivKeyCmp_lt_trans (hln d hd) hcmp'
              · rw [List.mem_singleton.mp hd]
                exact hcmp')
          simpa using this
      · next hcmp =>
          have hkey := ivKeyCmp_eq.mp hcmp
          generalize hm : ({ n with
            iv := ivGroupPush n.iv key.pos high value, tstamp := now } : IvNode α) = m
          have hcur : Current shifts m := by
            rw [current_iff hlog, ← hm]
            exact hlog.le_now
          have hmcell := cell_of_current hcur
          have hreb := ivRebalance_node_visited hlog hcur (by rw [← hm]) (l := l) (r := r) (by
              have hle : n.max ≤ (ivUpdate m l r).max := by
                have := ivUpdate_max m l r
                rw [← hm] at this ⊢
                exact this
              simp only [cells, below_append, below_cons, hmcell]
              refine ⟨hbelow.1.mono hle, ?_, hbelow.2.2.mono hle⟩
              exact fun i hi => group_below_ivUpdate_max hi) h.left h.right
          refine ⟨_, _, rfl, hreb.sound, hreb.settled, ?_⟩
          rw [hreb.cells, hreb.links]
          simp only [cells, links, hcell, hmcell]
          rw [← hm]
          exact .joined _ ⟨n.key, n.iv.loc, n.iv.ins⟩ _ rfl hkey.symm

def Linked (ls : List (Nat × Nat)) : Prop :=
  ∀ p ∈ ls, p.2 = p.1

def SpineSettled (shifts : List IvShift) : IvTree α → Prop
  | .nil => True
  | .node n l r => Settled shifts (.node n l r) ∧ SpineSettled shifts l

theorem ivAbsorbLeft_visited (hlog : LogOk shifts now) {t : IvTree α}
    (h : Sound F shifts now t) :
    Visited F shifts now t (ivAbsorbLeft shifts t) ∧
      SpineSettled shifts (ivAbsorbLeft shifts t) := by
  induction t with
  | nil => exact ⟨.refl h trivial, trivial⟩
  | node n l r ihl _ =>
      have hv := ivApplyShifts_visited hlog h
      obtain ⟨hl, hspine⟩ := ihl h.left
      have hnode := visited_left hv.settled hv.sound.regular.1 hl.sound hl.cells hl.links h.right
      exact ⟨hv.trans hnode, hnode.settled, hspine⟩

theorem ivDepth_ivAbsorbLeft (t : IvTree α) : ivDepth (ivAbsorbLeft shifts t) = ivDepth t := by
  induction t with
  | nil => rfl
  | node n l r ihl _ => simp only [ivAbsorbLeft, ivDepth, ihl]

theorem ivFindSmallest_ivAbsorb (t : IvTree α) :
    ivFindSmallest shifts (ivAbsorb shifts t) = ivAbsorbLeft shifts t := by
  cases t with
  | nil => rfl
  | node n l r => rfl

theorem ivDepth_ivSetLeftmost (f : IvNode α → IvNode α) (t : IvTree α) :
    ivDepth (ivSetLeftmost f t) = ivDepth t := by
  induction t with
  | nil => rfl
  | node n l r ihl _ =>
      cases l with
      | nil => rfl
      | node m ll lr =>
          rw [ivSetLeftmost, ivDepth, ihl, ← ivDepth]
          simp

theorem ivSetLeftmost_spec {t : IvTree α} (h : Sound F shifts now t)
    (hspine : SpineSettled shifts t) (hne : t ≠ .nil) (g : IvGroup α) (hg : g.ins = []) :
    ∃ succ rest, ivLeftmost t = some succ ∧ Current shifts succ ∧ succ.tstamp ≤ now ∧
      cells shifts t = ⟨succ.key, succ.iv.loc, succ.iv.ins⟩ :: rest ∧
      ∃ t', ivSetLeftmost (fun s => { s with iv := { g with node := s.addr } }) t = t' ∧
        Sound F shifts now t' ∧ cells shifts t' = ⟨succ.key, g.loc, []⟩ :: rest ∧
        (links t').map Prod.fst = (links t).map Prod.fst ∧
        (Linked (links t) → Linked (links t')) := by
  induction t with
  | nil => exact absurd rfl hne
  | node n l r ihl _ =>
      have hcur := hspine.1.1
      have hbelow := hspine.1.2
      cases l with
      | nil =>
          have hcur' : Current shifts ({ n with iv := { g with node := n.addr } } : IvNode α) :=
            hcur
          have hcells : cells shifts (.node n .nil r) =
              ⟨n.key, n.iv.loc, n.iv.ins⟩ :: cells shifts r := by
            simp [cells, cell_of_current hcur]
          have hcells' : cells shifts (.node { n with iv := { g with node := n.addr } } .nil r) =
              ⟨n.key, g.loc, []⟩ :: cells shifts r := by
            rw [cells, cell_of_current hcur', hg]
            rfl
          refine ⟨n, cells shifts r, rfl, hcur, h.regular.1.2, hcells,
            .node { n with iv := { g with node := n.addr } } .nil r, rfl, ?_, hcells', rfl, ?_⟩
          · refine (sound_node hcur' h.regular.1 ?_ Sound.nil h.right).1
            rw [hcells', below_cons]
            rw [hcells, below_cons] at hbelow
            exact ⟨by simp, hbelow.2⟩
          · intro hlinked p hp
            rcases List.mem_cons.mp hp with rfl | hp
            · rfl
            · exact hlinked p (by simp [links, hp])
      | node m ll lr =>
          obtain ⟨succ, rest, hsucc, hscur, hsts, hcells, t', hset, hsound, hcells', hlinks, hlinked⟩ :=
            ihl h.left hspine.2 (by simp)
          refine ⟨succ, rest ++ cell shifts n :: cells shifts r, ?_, hscur, hsts, ?_, .node n t' r,
            ?_, ?_, ?_, ?_, ?_⟩
          · rw [ivLeftmost, hsucc]
            rfl
          · rw [cells, hcells]
            rfl
          · rw [ivSetLeftmost, hset]
            simp
          · refine (sound_node hcur h.regular.1 ?_ hsound h.right).1
            rw [cells, below_append, hcells, below_cons] at hbelow
            rw [cells, below_append, hcells', below_cons]
            exact ⟨⟨by simp, hbelow.1.2⟩, hbelow.2⟩
          · rw [cells, hcells']
            rfl
          · rw [links, List.map_append, hlinks, ← List.map_append, ← links]
          · intro hl p hp
            rw [links, List.mem_append] at hp
            rcases hp with hp | hp
            · exact hlinked (fun q hq => hl q (by rw [links]; simp [hq])) p hp
            · exact hl p (by rw [links]; simp [hp])

/-- `t'` is `t` without the cells that fail `p`. -/
structure Removed (F : Prop) (shifts : List IvShift) (now : Nat) (p : Cell α → Bool)
    (t t' : IvTree α) : Prop where
  sound : Sound F shifts now t'
  settled : Settled shifts t'
  cells : cells shifts t' = (cells shifts t).filter p
  addrs : ((links t').map Prod.fst).Sublist ((links t).map Prod.fst)
  linked : Linked (links t) → Linked (links t')

theorem Removed.visit {p : Cell α → Bool} {t t' t'' : IvTree α}
    (h : Removed F shifts now p t t') (hv : Visited F shifts now t' t'') :
    Removed F shifts now p t t'' where
  sound := hv.sound
  settled := hv.settled
  cells := hv.cells.trans h.cells
  addrs := by rw [hv.links]; exact h.addrs
  linked := by rw [hv.links]; exact h.linked

theorem Removed.after {p : Cell α → Bool} {t t' t'' : IvTree α}
    (hv : Visited F shifts now t t') (h : Removed F shifts now p t' t'') :
    Removed F shifts now p t t'' where
  sound := h.sound
  settled := h.settled
  cells := by rw [h.cells, hv.cells]
  addrs := by rw [← hv.links]; exact h.addrs
  linked := by rw [← hv.links]; exact h.linked

theorem linked_append {ls ks : List (Nat × Nat)} :
    Linked (ls ++ ks) ↔ Linked ls ∧ Linked ks := by
  constructor
  · intro h
    exact ⟨fun p hp => h p (by simp [hp]), fun p hp => h p (by simp [hp])⟩
  · rintro ⟨h₁, h₂⟩ p hp
    rcases List.mem_append.mp hp with hp | hp
    · exact h₁ p hp
    · exact h₂ p hp

theorem linked_cons {a : Nat × Nat} {ls : List (Nat × Nat)} :
    Linked (a :: ls) ↔ a.2 = a.1 ∧ Linked ls := by
  simp [Linked]

theorem Below.filter {cs : List (Cell α)} {m : Int} (h : Below cs m) (p : Cell α → Bool) :
    Below (cs.filter p) m :=
  fun c hc => h c (List.mem_of_mem_filter hc)

theorem Removed.left {p : Cell α → Bool} {n : IvNode α} {l l' r : IvTree α}
    (hset : Settled shifts (.node n l r)) (hn : 1 ≤ n.height ∧ n.tstamp ≤ now)
    (h : Removed F shifts now p l l') (hr : Sound F shifts now r)
    (hkeep : ∀ c ∈ IntervalCells.cell shifts n :: IntervalCells.cells shifts r, p c = true) :
    Removed F shifts now p (.node n l r) (.node n l' r) := by
  have hcells : IntervalCells.cells shifts (.node n l' r) =
      (IntervalCells.cells shifts (.node n l r)).filter p := by
    simp only [IntervalCells.cells, List.filter_append, h.cells]
    rw [List.filter_eq_self.mpr hkeep]
  obtain ⟨hsound, hsettled⟩ := sound_node hset.1 hn
    (by rw [hcells]; exact Below.filter hset.2 p) h.sound hr
  refine ⟨hsound, hsettled, hcells, ?_, ?_⟩
  · simp only [links, List.map_append]
    exact h.addrs.append (List.Sublist.refl _)
  · simp only [links, linked_append]
    exact fun hl => ⟨h.linked hl.1, hl.2⟩

theorem Removed.right {p : Cell α → Bool} {n : IvNode α} {l r r' : IvTree α}
    (hset : Settled shifts (.node n l r)) (hn : 1 ≤ n.height ∧ n.tstamp ≤ now)
    (hl : Sound F shifts now l) (h : Removed F shifts now p r r')
    (hkeep : ∀ c ∈ IntervalCells.cells shifts l, p c = true)
    (hkeepn : p (IntervalCells.cell shifts n) = true) :
    Removed F shifts now p (.node n l r) (.node n l r') := by
  have hcells : IntervalCells.cells shifts (.node n l r') =
      (IntervalCells.cells shifts (.node n l r)).filter p := by
    simp only [IntervalCells.cells, List.filter_append, List.filter_eq_self.mpr hkeep,
      List.filter_cons, hkeepn, if_true, h.cells]
  obtain ⟨hsound, hsettled⟩ := sound_node hset.1 hn
    (by rw [hcells]; exact Below.filter hset.2 p) hl h.sound
  refine ⟨hsound, hsettled, hcells, ?_, ?_⟩
  · simp only [links, List.map_append, List.map_cons]
    exact (List.Sublist.refl _).append (h.addrs.cons_cons _)
  · simp only [links, linked_append, linked_cons]
    exact fun hl => ⟨hl.1, hl.2.1, h.linked hl.2.2⟩

theorem filter_key_lt {cs : List (Cell α)} {key : IvKey}
    (h : ∀ c ∈ cs, ivKeyCmp c.key key = .lt) : ∀ c ∈ cs, decide (c.key ≠ key) = true := by
  intro c hc
  simpa using ne_of_ivKeyCmp_lt (h c hc)

theorem filter_key_gt {cs : List (Cell α)} {key : IvKey}
    (h : ∀ c ∈ cs, ivKeyCmp key c.key = .lt) : ∀ c ∈ cs, decide (c.key ≠ key) = true := by
  intro c hc
  simpa using (ne_of_ivKeyCmp_lt (h c hc)).symm

/-- A node takes the key and the group of its successor, which is then removed
from the right subtree. -/
theorem adopt_spec {n : IvNode α} {l l' r r₁ : IvTree α}
    (hset : Settled shifts (.node n l r)) (hn : 1 ≤ n.height ∧ n.tstamp ≤ now)
    (hl : Visited F shifts now l l') (hr : Visited F shifts now r r₁)
    (hspine : SpineSettled shifts r₁) (hne : r₁ ≠ .nil) (hg : n.iv.ins = [])
    (hsorted : KeysSorted (cells shifts r)) :
    ∃ succ r₂, ivLeftmost r₁ = some succ ∧
      ivSetLeftmost (fun s => { s with iv := { n.iv with node := s.addr } }) r₁ = r₂ ∧
      Sound F shifts now r₂ ∧ KeysSorted (cells shifts r₂) ∧
      (∀ c ∈ cells shifts r₂, c.key = succ.key → c.ins = []) ∧
      ∀ r₃, Removed F shifts now (fun c => decide (c.key ≠ succ.key)) r₂ r₃ →
        ∃ t, t = IvTree.node { n with
            key := succ.key
            iv := { succ.iv with node := n.addr }
            tstamp := succ.tstamp } l' r₃ ∧
          Sound F shifts now t ∧ Settled shifts t ∧
          cells shifts t = cells shifts l ++ cells shifts r ∧
          ((links t).map Prod.fst).Sublist ((links (.node n l r)).map Prod.fst) ∧
          (Linked (links (.node n l r)) → Linked (links t)) := by
  obtain ⟨succ, rest, hsucc, hscur, hsts, hcells, r₂, hr₂, hsound, hcells₂, haddrs, hlinked⟩ :=
    ivSetLeftmost_spec hr.sound hspine hne n.iv hg
  rw [hr.cells] at hcells
  have hrest : ∀ c ∈ rest, ivKeyCmp succ.key c.key = .lt := by
    rw [hcells] at hsorted
    exact (List.pairwise_cons.mp hsorted).1
  refine ⟨succ, r₂, hsucc, hr₂, hsound, ?_, ?_, ?_⟩
  · rw [hcells] at hsorted
    rw [hcells₂]
    exact List.pairwise_cons.mpr (List.pairwise_cons.mp hsorted)
  · rw [hcells₂]
    rintro c (_ | ⟨_, hc⟩) hkey
    · rfl
    · exact absurd hkey.symm (ne_of_ivKeyCmp_lt (hrest c hc))
  · intro r₃ hrem
    have hcells₃ : cells shifts r₃ = rest := by
      rw [hrem.cells, hcells₂, List.filter_cons_of_neg (by simp),
        List.filter_eq_self.mpr (filter_key_gt hrest)]
    have hcur : Current shifts ({ n with
        key := succ.key
        iv := { succ.iv with node := n.addr }
        tstamp := succ.tstamp } : IvNode α) := hscur
    have hall : cells shifts (.node { n with
        key := succ.key
        iv := { succ.iv with node := n.addr }
        tstamp := succ.tstamp } l' r₃) = cells shifts l ++ cells shifts r := by
      rw [cells, hl.cells, hcells₃, cell_of_current hcur, hcells]
    obtain ⟨hsnd, hstl⟩ := sound_node hcur ⟨hn.1, hsts⟩ (by
      have hbelow := hset.2
      rw [cells, below_append, below_cons] at hbelow
      rw [hall, below_append]
      exact ⟨hbelow.1, hbelow.2.2⟩) hl.sound hrem.sound
    refine ⟨_, rfl, hsnd, hstl, hall, ?_, ?_⟩
    · simp only [links, List.map_append, List.map_cons, hl.links]
      refine (List.Sublist.refl _).append (List.Sublist.cons_cons _ ?_)
      rw [← hr.links, ← haddrs]
      exact hrem.addrs
    · simp only [links, linked_append, linked_cons, hl.links]
      rintro ⟨hll, -, hlr⟩
      refine ⟨hll, trivial, hrem.linked (hlinked ?_)⟩
      rw [hr.links]
      exact hlr

theorem ivRemoveLoop_spec (hlog : LogOk shifts now) {fuel : Nat} {key : IvKey} {t : IvTree α}
    (h : Sound F shifts now t) (hsorted : KeysSorted (cells shifts t))
    (hempty : ∀ c ∈ cells shifts t, c.key = key → c.ins = []) (hfuel : ivDepth t ≤ fuel) :
    Removed F shifts now (fun c => decide (c.key ≠ key)) t (ivRemoveLoop shifts fuel key t) := by
  induction fuel generalizing key t with
  | zero =>
      cases t with
      | nil => exact ⟨h, trivial, rfl, List.Sublist.refl _, id⟩
      | node n l r =>
          simp only [ivDepth] at hfuel
          omega
  | succ fuel ih =>
      cases t with
      | nil => exact ⟨h, trivial, rfl, List.Sublist.refl _, id⟩
      | node n l r =>
          have hv := ivApplyShifts_visited hlog h
          refine Removed.after hv ?_
          rw [← hv.cells] at hsorted hempty
          simp only [ivRemoveLoop]
          generalize ivApplyShifts shifts n l r = n at hv hsorted hempty ⊢
          simp only [ivDepth] at hfuel
          have hcell := cell_of_current hv.settled.1
          have hn := hv.sound.regular.1
          rw [keysSorted_node, hcell] at hsorted
          obtain ⟨hsl, hsr, hln, hnr⟩ := hsorted
          simp only at hln hnr
          have hel : ∀ c ∈ cells shifts l, c.key = key → c.ins = [] :=
            fun c hc => hempty c (by simp [cells, hc])
          have her : ∀ c ∈ cells shifts r, c.key = key → c.ins = [] :=
            fun c hc => hempty c (by simp [cells, hc])
          split
          · next hcmp =>
              have hrec := ih h.left hsl hel (by omega)
              have hnode := Removed.left hv.settled hn hrec h.right (by
                apply filter_key_gt
                rintro c (_ | ⟨_, hc⟩)
                · rw [hcell]
                  exact hcmp
                · exact ivKeyCmp_lt_trans hcmp (hnr c hc))
              exact hnode.visit (ivRebalance_visited hlog hnode.sound hnode.settled)
          · next hcmp =>
              have hcmp' := ivKeyCmp_gt.mp hcmp
              have hrec := ih h.right hsr her (by omega)
              have hnode := Removed.right hv.settled hn h.left hrec
                (filter_key_lt fun c hc => ivKeyCmp_lt_trans (hln c hc) hcmp')
                (by rw [hcell]; simpa using ne_of_ivKeyCmp_lt hcmp')
              exact hnode.visit (ivRebalance_visited hlog hnode.sound hnode.settled)
          · next hcmp =>
              obtain rfl := ivKeyCmp_eq.mp hcmp
              have hfilter : (cells shifts (.node n l r)).filter
                  (fun c => decide (c.key ≠ n.key)) = cells shifts l ++ cells shifts r := by
                rw [cells, List.filter_append, List.filter_cons_of_neg (by simp [hcell]),
                  List.filter_eq_self.mpr (filter_key_lt hln),
                  List.filter_eq_self.mpr (filter_key_gt hnr)]
              cases l with
              | nil =>
                  cases r with
                  | nil =>
                      exact ⟨Sound.nil, trivial, hfilter.symm, List.nil_sublist _, by simp [Linked, links]⟩
                  | node m rl rr =>
                      have hm := ivApplyShifts_visited hlog h.right
                      have hreb := hm.trans (ivRebalance_visited hlog hm.sound hm.settled)
                      change Removed F shifts now _ _
                        (ivRebalance shifts (.node (ivApplyShifts shifts m rl rr) rl rr))
                      refine ⟨hreb.sound, hreb.settled, ?_, ?_, ?_⟩
                      · exact hreb.cells.trans hfilter.symm
                      · rw [hreb.links, links.eq_2 n]
                        exact List.sublist_cons_self _ _
                      · rw [hreb.links, links.eq_2 n, linked_append, linked_cons]
                        exact fun hl => hl.2.2
              | node m ll lr =>
                  have hm := ivApplyShifts_visited hlog h.left
                  cases r with
                  | nil =>
                      have hreb := hm.trans (ivRebalance_visited hlog hm.sound hm.settled)
                      change Removed F shifts now _ _
                        (ivRebalance shifts (.node (ivApplyShifts shifts m ll lr) ll lr))
                      refine ⟨hreb.sound, hreb.settled, ?_, ?_, ?_⟩
                      · rw [hfilter]
                        exact hreb.cells.trans (List.append_nil _).symm
                      · rw [hreb.links, links.eq_2 n, List.map_append]
                        exact List.sublist_append_left _ _
                      · rw [hreb.links, links.eq_2 n, linked_append]
                        exact fun hl => hl.1
                  | node k rl rr =>
                      obtain ⟨hk, hspine⟩ := ivAbsorbLeft_visited hlog h.right
                      have hg : n.iv.ins = [] := by
                        have := hempty (cell shifts n) (by simp [cells]) (by rw [hcell])
                        rwa [hcell] at this
                      obtain ⟨succ, r₂, hsucc, hr₂, hsound, hsorted₂, hempty₂, hadopt⟩ :=
                        adopt_spec hv.settled hn hm hk hspine (by simp [ivAbsorbLeft]) hg hsr
                      have hdepth : ivDepth r₂ = ivDepth (.node k rl rr) := by
                        rw [← hr₂, ivDepth_ivSetLeftmost, ivDepth_ivAbsorbLeft]
                      obtain ⟨t, ht, hsnd, hstl, hcells, haddrs, hlinked⟩ :=
                        hadopt _ (ih hsound hsorted₂ hempty₂ (by omega))
                      have hrem : Removed F shifts now (fun c => decide (c.key ≠ n.key))
                          (.node n (.node m ll lr) (.node k rl rr)) t :=
                        ⟨hsnd, hstl, hcells.trans hfilter.symm, haddrs, hlinked⟩
                      have hreb := hrem.visit (ivRebalance_visited hlog hsnd hstl)
                      simp only [ivFindSmallest_ivAbsorb, hsucc, hr₂]
                      rw [ht] at hreb
                      exact hreb

theorem ivRemove_spec (hlog : LogOk shifts now) (key : IvKey) {t : IvTree α}
    (h : Sound F shifts now t) (hsorted : KeysSorted (cells shifts t))
    (hempty : ∀ c ∈ cells shifts t, c.key = key → c.ins = []) :
    Removed F shifts now (fun c => decide (c.key ≠ key)) t (ivRemove shifts key t) :=
  ivRemoveLoop_spec hlog h hsorted hempty le_rfl

/-- An interval with the key and the group it is stored under. -/
structure Stored (α : Type) where
  loc : Nat
  key : IvKey
  ins : IvIns α

def live (cs : List (Cell α)) : List (Stored α) :=
  cs.flatMap fun c => c.ins.map fun i => ⟨c.loc, c.key, i⟩

@[simp] theorem live_nil : live ([] : List (Cell α)) = [] :=
  rfl

@[simp] theorem live_cons (c : Cell α) (cs : List (Cell α)) :
    live (c :: cs) = c.ins.map (fun i => ⟨c.loc, c.key, i⟩) ++ live cs :=
  rfl

@[simp] theorem live_append (cs ds : List (Cell α)) : live (cs ++ ds) = live cs ++ live ds :=
  List.flatMap_append

theorem mem_live {cs : List (Cell α)} {x : Stored α} :
    x ∈ live cs ↔ ∃ c ∈ cs, c.loc = x.loc ∧ c.key = x.key ∧ x.ins ∈ c.ins := by
  simp only [live, List.mem_flatMap, List.mem_map]
  constructor
  · rintro ⟨c, hc, i, hi, rfl⟩
    exact ⟨c, hc, rfl, rfl, hi⟩
  · rintro ⟨c, hc, hloc, hkey, hi⟩
    refine ⟨c, hc, x.ins, hi, ?_⟩
    rw [hloc, hkey]

theorem below_iff_live {cs : List (Cell α)} {m : Int} :
    Below cs m ↔ ∀ x ∈ live cs, x.ins.high ≤ m := by
  constructor
  · intro h x hx
    obtain ⟨c, hc, -, -, hi⟩ := mem_live.mp hx
    exact h c hc x.ins hi
  · intro h c hc i hi
    exact h ⟨c.loc, c.key, i⟩ (mem_live.mpr ⟨c, hc, rfl, rfl, hi⟩)

theorem ivMoveLast_perm (rest : List (IvIns α)) : (ivMoveLast rest).Perm rest := by
  rcases List.eq_nil_or_concat rest with rfl | ⟨init, j, rfl⟩
  · exact List.Perm.refl _
  · simpa [ivMoveLast] using (List.perm_append_singleton j init).symm

theorem ivDropOverlaps_spec (low high : Int) (fuel : Nat) (kept rest evicted : List (IvIns α))
    (hfuel : rest.length ≤ fuel) :
    (ivDropOverlaps low high fuel kept rest evicted).1.Perm
        (kept ++ rest.filter fun i => !ivOverlaps i low high) ∧
      (ivDropOverlaps low high fuel kept rest evicted).2.Perm
        (evicted ++ rest.filter fun i => ivOverlaps i low high) := by
  induction fuel generalizing kept rest evicted with
  | zero =>
      obtain rfl : rest = [] := List.length_eq_zero_iff.mp (by omega)
      simp [ivDropOverlaps]
  | succ fuel ih =>
      cases rest with
      | nil => simp [ivDropOverlaps]
      | cons i rest =>
          simp only [List.length_cons] at hfuel
          simp only [ivDropOverlaps]
          split
          · next hov =>
              have hswap := ivMoveLast_perm rest
              have hrec := ih kept _ (evicted ++ [i]) (hswap.length_eq.trans_le (by omega))
              constructor
              · simpa [hov] using hrec.1.trans ((hswap.filter _).append_left kept)
              · simpa [hov] using hrec.2.trans ((hswap.filter _).append_left (evicted ++ [i]))
          · next hov =>
              have hrec := ih (kept ++ [i]) rest evicted (by omega)
              simpa [hov] using hrec

/-- What `iv_remove_overlaps` leaves of the array of a group. -/
def swept (low high : Int) (ins : List (IvIns α)) : List (IvIns α) :=
  (ivDropOverlaps low high ins.length [] ins []).1

theorem ivDropOverlaps_none {low high : Int} (fuel : Nat) (kept rest evicted : List (IvIns α))
    (hno : ∀ i ∈ rest, ivOverlaps i low high = false) :
    ivDropOverlaps low high fuel kept rest evicted = (kept ++ rest, evicted) := by
  induction fuel generalizing kept rest with
  | zero => rfl
  | succ fuel ih =>
      cases rest with
      | nil => rw [ivDropOverlaps, List.append_nil]
      | cons i rest =>
          rw [ivDropOverlaps, if_neg (by simp [hno i (by simp)]),
            ih _ _ fun j hj => hno j (by simp [hj])]
          simp

theorem swept_self {low high : Int} {ins : List (IvIns α)}
    (hno : ∀ i ∈ ins, ivOverlaps i low high = false) : swept low high ins = ins := by
  rw [swept, ivDropOverlaps_none _ _ _ _ hno]
  rfl

def head (c : Cell α) : IvKey × Nat :=
  (c.key, c.loc)

theorem keysSorted_iff_heads {cs : List (Cell α)} :
    KeysSorted cs ↔ (cs.map head).Pairwise fun a b => ivKeyCmp a.1 b.1 = .lt := by
  rw [List.pairwise_map]
  rfl

theorem KeysSorted.of_heads {cs ds : List (Cell α)} (h : KeysSorted ds)
    (hsub : (cs.map head).Sublist (ds.map head)) : KeysSorted cs :=
  keysSorted_iff_heads.mpr ((keysSorted_iff_heads.mp h).sublist hsub)

/-- `t'` is `t` without the intervals that overlap `[low, high)`, which are the
evicted ones. -/
structure Cleared (F : Prop) (shifts : List IvShift) (now : Nat) (low high : Int)
    (t t' : IvTree α) (evicted : List (IvIns α)) : Prop where
  sound : Sound F shifts now t'
  heads : ((cells shifts t').map head).Sublist ((cells shifts t).map head)
  live : (live (cells shifts t')).Perm
    ((live (cells shifts t)).filter fun x => !ivOverlaps x.ins low high)
  evicted : evicted.Perm
    (((IntervalOps.live (cells shifts t)).filter fun x => ivOverlaps x.ins low high).map
      Stored.ins)
  groups : ∀ c' ∈ cells shifts t', ∃ c ∈ cells shifts t,
    c.key = c'.key ∧ c'.ins = swept low high c.ins
  nonempty : (∀ c ∈ cells shifts t, c.ins ≠ []) → ∀ c ∈ cells shifts t', c.ins ≠ []
  addrs : ((links t').map Prod.fst).Sublist ((links t).map Prod.fst)
  linked : Linked (links t) → Linked (links t')

theorem Cleared.visit {low high : Int} {t t' t'' : IvTree α} {evicted : List (IvIns α)}
    (h : Cleared F shifts now low high t t' evicted) (hv : Visited F shifts now t' t'') :
    Cleared F shifts now low high t t'' evicted where
  sound := hv.sound
  heads := by rw [hv.cells]; exact h.heads
  live := by rw [hv.cells]; exact h.live
  evicted := h.evicted
  groups := by rw [hv.cells]; exact h.groups
  nonempty := by rw [hv.cells]; exact h.nonempty
  addrs := by rw [hv.links]; exact h.addrs
  linked := by rw [hv.links]; exact h.linked

theorem Cleared.after {low high : Int} {t t' t'' : IvTree α} {evicted : List (IvIns α)}
    (hv : Visited F shifts now t t') (h : Cleared F shifts now low high t' t'' evicted) :
    Cleared F shifts now low high t t'' evicted where
  sound := h.sound
  heads := by rw [← hv.cells]; exact h.heads
  live := by rw [← hv.cells]; exact h.live
  evicted := by rw [← hv.cells]; exact h.evicted
  groups := by rw [← hv.cells]; exact h.groups
  nonempty := by rw [← hv.cells]; exact h.nonempty
  addrs := by rw [← hv.links]; exact h.addrs
  linked := by rw [← hv.links]; exact h.linked

theorem cleared_self {low high : Int} {t : IvTree α} (h : Sound F shifts now t)
    (hno : ∀ x ∈ live (cells shifts t), ivOverlaps x.ins low high = false) :
    Cleared F shifts now low high t t [] where
  sound := h
  heads := List.Sublist.refl _
  live := by
    rw [List.filter_eq_self.mpr fun x hx => by simp [hno x hx]]
  evicted := by
    rw [List.filter_eq_nil_iff.mpr fun x hx => by simp [hno x hx]]
    exact List.Perm.refl _
  groups := fun c hc => ⟨c, hc, rfl, (swept_self fun i hi =>
    hno ⟨c.loc, c.key, i⟩ (mem_live.mpr ⟨c, hc, rfl, rfl, hi⟩)).symm⟩
  nonempty := id
  addrs := List.Sublist.refl _
  linked := id

theorem Cleared.below {low high : Int} {t t' : IvTree α} {evicted : List (IvIns α)}
    (h : Cleared F shifts now low high t t' evicted) {m : Int} (hm : Below (cells shifts t) m) :
    Below (cells shifts t') m := by
  rw [below_iff_live] at hm ⊢
  intro x hx
  exact hm x (List.mem_of_mem_filter (h.live.mem_iff.mp hx))

/-- Splitting a list into two parts that were filtered one after the other. -/
theorem filter_again {L L' N R O : List (Stored α)} {p : Stored α → Bool}
    (hL : L'.Perm (L.filter p)) (hN : N.filter p = []) (hO : O.Perm ((L' ++ R).filter p)) :
    O.Perm ((L ++ (N ++ R)).filter p) := by
  have hL' : (L'.filter p).Perm (L.filter p) := by
    simpa [List.filter_filter] using hL.filter p
  rw [List.filter_append] at hO
  rw [List.filter_append, List.filter_append, hN, List.nil_append]
  exact hO.trans (hL'.append_right _)

theorem filter_again_evicted {L L' N R : List (Stored α)} {p : Stored α → Bool}
    {e e' e'' : List (IvIns α)} (hL : L'.Perm (L.filter fun x => !p x))
    (he : e.Perm ((L.filter p).map Stored.ins)) (he' : e'.Perm ((N.filter p).map Stored.ins))
    (he'' : e''.Perm (((L' ++ R).filter p).map Stored.ins)) :
    (e ++ e' ++ e'').Perm (((L ++ (N ++ R)).filter p).map Stored.ins) := by
  have hnone : L'.filter p = [] := by
    rw [List.filter_eq_nil_iff]
    intro x hx
    have := List.of_mem_filter (hL.mem_iff.mp hx)
    simpa using this
  rw [List.filter_append, hnone, List.nil_append] at he''
  simp only [List.filter_append, List.map_append]
  rw [List.append_assoc]
  exact he.append (he'.append he'')

theorem dropOverlaps_live (low high : Int) (n : IvNode α) :
    ∃ ins evicted, ivDropOverlaps low high n.iv.ins.length [] n.iv.ins [] = (ins, evicted) ∧
      (ins.map fun i => (⟨n.iv.loc, n.key, i⟩ : Stored α)).Perm
        ((n.iv.ins.map fun i => ⟨n.iv.loc, n.key, i⟩).filter
          fun x => !ivOverlaps x.ins low high) ∧
      evicted.Perm (((n.iv.ins.map fun i => (⟨n.iv.loc, n.key, i⟩ : Stored α)).filter
          fun x => ivOverlaps x.ins low high).map Stored.ins) := by
  have h := ivDropOverlaps_spec low high n.iv.ins.length [] n.iv.ins [] le_rfl
  refine ⟨_, _, rfl, ?_, ?_⟩
  · rw [List.filter_map]
    exact h.1.map _
  · rw [List.filter_map, List.map_map]
    simpa [Function.comp_def] using h.2

theorem cleared_node_sound {low high : Int} {n : IvNode α} {l l' r r' : IvTree α}
    {ins e : List (IvIns α)} (hset : Settled shifts (.node n l r))
    (hn : 1 ≤ n.height ∧ n.tstamp ≤ now) (hl : Cleared F shifts now low high l l' e)
    (hr : Sound F shifts now r')
    (hbr : ∀ m, Below (cells shifts r) m → Below (cells shifts r') m)
    (hins : ∀ i ∈ ins, i ∈ n.iv.ins) :
    ∃ t, t = IvTree.node { n with iv := { n.iv with ins := ins } } l' r' ∧
      Sound F shifts now t ∧ Settled shifts t ∧
        cells shifts t = cells shifts l' ++ ⟨n.key, n.iv.loc, ins⟩ :: cells shifts r' := by
  have hcur : Current shifts ({ n with iv := { n.iv with ins := ins } } : IvNode α) := hset.1
  have hcells : cells shifts (.node { n with iv := { n.iv with ins := ins } } l' r') =
      cells shifts l' ++ ⟨n.key, n.iv.loc, ins⟩ :: cells shifts r' := by
    rw [cells, cell_of_current hcur]
  have hbelow := hset.2
  rw [cells, cell_of_current hset.1, below_append, below_cons] at hbelow
  obtain ⟨hsound, hsettled⟩ := sound_node hcur hn (by
    rw [hcells, below_append, below_cons]
    exact ⟨hl.below hbelow.1, fun i hi => hbelow.2.1 i (hins i hi), hbr _ hbelow.2.2⟩)
    hl.sound hr
  exact ⟨_, rfl, hsound, hsettled, hcells⟩

theorem cleared_node {low high : Int} {n : IvNode α} {l l' r r' : IvTree α}
    {ins e e' e'' : List (IvIns α)} (hset : Settled shifts (.node n l r))
    (hn : 1 ≤ n.height ∧ n.tstamp ≤ now) (hl : Cleared F shifts now low high l l' e)
    (hr : Cleared F shifts now low high r r' e'')
    (hins : (ins.map fun i => (⟨n.iv.loc, n.key, i⟩ : Stored α)).Perm
      ((n.iv.ins.map fun i => ⟨n.iv.loc, n.key, i⟩).filter fun x => !ivOverlaps x.ins low high))
    (hev : e'.Perm (((n.iv.ins.map fun i => (⟨n.iv.loc, n.key, i⟩ : Stored α)).filter
      fun x => ivOverlaps x.ins low high).map Stored.ins))
    (hswept : ins = swept low high n.iv.ins) (hmem : ∀ i ∈ ins, i ∈ n.iv.ins) (hne : ins ≠ []) :
    ∃ t, t = IvTree.node { n with iv := { n.iv with ins := ins } } l' r' ∧
      Cleared F shifts now low high (.node n l r) t (e ++ e' ++ e'') ∧ Settled shifts t := by
  obtain ⟨t, ht, hsound, hsettled, hcells⟩ := cleared_node_sound hset hn hl hr.sound
    (fun _ => hr.below) hmem
  have hold : cells shifts (.node n l r) =
      cells shifts l ++ ⟨n.key, n.iv.loc, n.iv.ins⟩ :: cells shifts r := by
    rw [cells, cell_of_current hset.1]
  refine ⟨t, ht, ⟨hsound, ?_, ?_, ?_, ?_, ?_, ?_, ?_⟩, hsettled⟩
  · rw [hcells, hold]
    simp only [List.map_append, List.map_cons]
    exact hl.heads.append (hr.heads.cons_cons _)
  · rw [hcells, hold]
    simp only [live_append, live_cons, List.filter_append]
    exact hl.live.append (hins.append hr.live)
  · rw [hold]
    simp only [live_append, live_cons, List.filter_append, List.map_append]
    rw [List.append_assoc]
    exact hl.evicted.append (hev.append hr.evicted)
  · rw [hcells, hold]
    intro c' hc'
    rcases List.mem_append.mp hc' with hc' | hc'
    · obtain ⟨c, hc, h⟩ := hl.groups c' hc'
      exact ⟨c, List.mem_append_left _ hc, h⟩
    · rcases List.mem_cons.mp hc' with rfl | hc'
      · exact ⟨_, List.mem_append_right _ List.mem_cons_self, rfl, hswept⟩
      · obtain ⟨c, hc, h⟩ := hr.groups c' hc'
        exact ⟨c, List.mem_append_right _ (List.mem_cons_of_mem _ hc), h⟩
  · rw [hcells, hold]
    intro hall c hc
    rcases List.mem_append.mp hc with hc | hc
    · exact hl.nonempty (fun d hd => hall d (by simp [hd])) c hc
    · rcases List.mem_cons.mp hc with rfl | hc
      · exact hne
      · exact hr.nonempty (fun d hd => hall d (by simp [hd])) c hc
  · simp only [ht, links, List.map_append, List.map_cons]
    exact hl.addrs.append (hr.addrs.cons_cons _)
  · simp only [ht, links, linked_append, linked_cons]
    exact fun h => ⟨hl.linked h.1, h.2.1, hr.linked h.2.2⟩

/-- A node whose group has been emptied is removed, and what remains of its
subtrees is cleared. -/
theorem cleared_emptied {low high : Int} {n : IvNode α} {l l' r t₁ t₂ : IvTree α}
    {e e' e'' : List (IvIns α)} (hset : Settled shifts (.node n l r))
    (hl : Cleared F shifts now low high l l' e)
    (hins : (n.iv.ins.map fun i => (⟨n.iv.loc, n.key, i⟩ : Stored α)).filter
      (fun x => !ivOverlaps x.ins low high) = [])
    (hev : e'.Perm (((n.iv.ins.map fun i => (⟨n.iv.loc, n.key, i⟩ : Stored α)).filter
      fun x => ivOverlaps x.ins low high).map Stored.ins))
    (hcells : cells shifts t₁ = cells shifts l' ++ cells shifts r)
    (haddrs : ((links t₁).map Prod.fst).Sublist
      ((links (.node { n with iv := { n.iv with ins := [] } } l' r)).map Prod.fst))
    (hlinked : Linked (links (.node { n with iv := { n.iv with ins := [] } } l' r)) →
      Linked (links t₁))
    (ht : Cleared F shifts now low high t₁ t₂ e'') :
    Cleared F shifts now low high (.node n l r) t₂ (e ++ e' ++ e'') := by
  have hold : cells shifts (.node n l r) =
      cells shifts l ++ ⟨n.key, n.iv.loc, n.iv.ins⟩ :: cells shifts r := by
    rw [cells, cell_of_current hset.1]
  have hlive := ht.live
  have hevict := ht.evicted
  have hheads := ht.heads
  rw [hcells] at hheads
  rw [hcells, live_append] at hlive hevict
  refine ⟨ht.sound, ?_, ?_, ?_, ?_, ?_, ?_, ?_⟩
  · rw [hold]
    refine hheads.trans ?_
    simp only [List.map_append, List.map_cons]
    exact hl.heads.append (List.sublist_cons_self _ _)
  · rw [hold, live_append, live_cons]
    exact filter_again hl.live hins hlive
  · rw [hold, live_append, live_cons]
    exact filter_again_evicted hl.live hl.evicted hev hevict
  · rw [hold]
    intro c' hc'
    obtain ⟨c, hc, hkey, hins⟩ := ht.groups c' hc'
    rw [hcells] at hc
    rcases List.mem_append.mp hc with hc | hc
    · -- the left subtree is swept twice, the second time without effect
      obtain ⟨d, hd, hdkey, hdins⟩ := hl.groups c hc
      have hno : ∀ i ∈ c.ins, ivOverlaps i low high = false := by
        intro i hi
        have hlive : (⟨c.loc, c.key, i⟩ : Stored α) ∈ live (cells shifts l') :=
          mem_live.mpr ⟨c, hc, rfl, rfl, hi⟩
        simpa using List.of_mem_filter (hl.live.mem_iff.mp hlive)
      refine ⟨d, List.mem_append_left _ hd, hdkey.trans hkey, ?_⟩
      rw [hins, swept_self hno, hdins]
    · exact ⟨c, List.mem_append_right _ (List.mem_cons_of_mem _ hc), hkey, hins⟩
  · intro hall
    rw [hold] at hall
    apply ht.nonempty
    rw [hcells]
    intro c hc
    rcases List.mem_append.mp hc with hc | hc
    · exact hl.nonempty (fun d hd => hall d (by simp [hd])) c hc
    · exact hall c (by simp [hc])
  · refine ht.addrs.trans (haddrs.trans ?_)
    simp only [links, List.map_append]
    exact hl.addrs.append (List.Sublist.refl _)
  · intro h
    apply ht.linked
    apply hlinked
    simp only [links, linked_append, linked_cons] at h ⊢
    exact ⟨hl.linked h.1, h.2⟩

theorem not_overlaps_of_gt {low high : Int} {key : IvKey} {cs : List (Cell α)}
    (hkey : high < key.pos) (hcs : ∀ c ∈ cs, ivKeyCmp key c.key = .lt)
    (hlow : ∀ x ∈ live cs, x.ins.low = x.key.pos) :
    ∀ x ∈ live cs, ivOverlaps x.ins low high = false := by
  intro x hx
  obtain ⟨c, hc, -, hk, -⟩ := mem_live.mp hx
  have hcmp := ivKeyCmp_lt.mp (hcs c hc)
  have := hlow x hx
  rw [hk] at hcmp
  simp only [ivOverlaps, Bool.and_eq_false_imp, decide_eq_true_eq, decide_eq_false_iff_not]
  omega

theorem ivRemove_emptied (hlog : LogOk shifts now) {low high : Int} {n : IvNode α}
    {l l' r : IvTree α} {e : List (IvIns α)} (hset : Settled shifts (.node n l r))
    (hn : 1 ≤ n.height ∧ n.tstamp ≤ now) (hl : Cleared F shifts now low high l l' e)
    (hr : Sound F shifts now r) (hsorted : KeysSorted (cells shifts (.node n l r))) :
    ∃ t, t = IvTree.node { n with iv := { n.iv with ins := [] } } l' r ∧
      Removed F shifts now (fun c => decide (c.key ≠ n.key)) t (ivRemove shifts n.key t) ∧
        cells shifts (ivRemove shifts n.key t) = cells shifts l' ++ cells shifts r ∧
          KeysSorted (cells shifts l' ++ cells shifts r) := by
  have hcell := cell_of_current hset.1
  have hcells : cells shifts (.node n l r) =
      cells shifts l ++ ⟨n.key, n.iv.loc, n.iv.ins⟩ :: cells shifts r := by
    rw [cells, hcell]
  have hall := hsorted
  rw [keysSorted_node, hcell] at hall
  obtain ⟨-, -, hln, hnr⟩ := hall
  simp only at hln hnr
  obtain ⟨t, ht, hsnd, -, hct⟩ := cleared_node_sound hset hn hl hr (fun _ => id)
    (fun i hi => absurd hi List.not_mem_nil)
  have hln' : ∀ c ∈ cells shifts l', ivKeyCmp c.key n.key = .lt := by
    intro c hc
    have hsub := hl.heads.subset (List.mem_map_of_mem hc)
    obtain ⟨d, hd, hhead⟩ := List.mem_map.mp hsub
    rw [← show d.key = c.key from congrArg Prod.fst hhead]
    exact hln d hd
  have hst : KeysSorted (cells shifts t) := by
    rw [hcells] at hsorted
    refine hsorted.of_heads ?_
    rw [hct]
    simp only [List.map_append, List.map_cons]
    exact hl.heads.append (List.Sublist.refl _)
  have hrem := ivRemove_spec hlog n.key hsnd hst (by
    rw [hct]
    intro c hc hkey
    rcases List.mem_append.mp hc with hc | hc
    · exact absurd hkey (ne_of_ivKeyCmp_lt (hln' c hc))
    · rcases List.mem_cons.mp hc with rfl | hc
      · rfl
      · exact absurd hkey.symm (ne_of_ivKeyCmp_lt (hnr c hc)))
  refine ⟨t, ht, hrem, ?_, ?_⟩
  · rw [hrem.cells, hct, List.filter_append, List.filter_cons_of_neg (by simp),
      List.filter_eq_self.mpr (filter_key_lt hln'), List.filter_eq_self.mpr (filter_key_gt hnr)]
  · rw [hct] at hst
    exact hst.sublist ((List.Sublist.refl _).append (List.sublist_cons_self _ _))

/-- A removal that returns does so with the same result when the calls may nest
deeper. -/
theorem ivRemoveOverlaps_mono {shifts : List IvShift} {low high : Int} {fuel fuel' : Nat}
    (hle : fuel ≤ fuel') {t : IvTree α} {x : IvTree α × List (IvIns α)}
    (h : ivRemoveOverlaps shifts low high fuel t = some x) :
    ivRemoveOverlaps shifts low high fuel' t = some x := by
  induction fuel generalizing fuel' t x with
  | zero => simp [ivRemoveOverlaps] at h
  | succ fuel ih =>
      obtain ⟨fuel', rfl⟩ : ∃ k, fuel' = k + 1 := ⟨fuel' - 1, by omega⟩
      replace ih := @ih fuel' (by omega)
      cases t with
      | nil => exact h
      | node n l r =>
          simp only [ivRemoveOverlaps, Option.bind_eq_bind] at h ⊢
          split at h
          · next hprune => rwa [if_pos hprune]
          · next hprune =>
              rw [if_neg hprune]
              obtain ⟨⟨l', e⟩, hleft, h⟩ := Option.bind_eq_some_iff.mp h
              rw [ih hleft, Option.bind_some]
              dsimp only at h ⊢
              split at h
              · next hempty =>
                  rw [if_pos hempty]
                  split at h
                  · next hright =>
                      rw [if_pos hright]
                      obtain ⟨y, hrec, h⟩ := Option.bind_eq_some_iff.mp h
                      rw [ih hrec]
                      exact h
                  · next hright => rwa [if_neg hright]
              · next hempty =>
                  rw [if_neg hempty]
                  split at h
                  · next hright => rwa [if_pos hright]
                  · next hright =>
                      rw [if_neg hright]
                      obtain ⟨y, hrec, h⟩ := Option.bind_eq_some_iff.mp h
                      rw [ih hrec]
                      exact h

theorem ivRemoveOverlaps_within (hlog : LogOk shifts now) (low high : Int) {fuel : Nat}
    {t : IvTree α} (h : Sound F shifts now t) (hsorted : KeysSorted (cells shifts t))
    (hlow : ∀ x ∈ live (cells shifts t), x.ins.low = x.key.pos)
    (hfuel : (cells shifts t).length < fuel) :
    ∃ t' evicted, ivRemoveOverlaps shifts low high fuel t = some (t', evicted) ∧
      Cleared F shifts now low high t t' evicted ∧ Settled shifts t' := by
  induction fuel generalizing t with
  | zero => exact absurd hfuel (Nat.not_lt_zero _)
  | succ fuel ih =>
      cases t with
      | nil => exact ⟨_, _, rfl, cleared_self h (by simp [cells]), trivial⟩
      | node n l r =>
          have hv := ivApplyShifts_visited hlog h
          suffices hnode : ∃ t' evicted,
              ivRemoveOverlaps shifts low high (fuel + 1) (.node n l r) = some (t', evicted) ∧
              Cleared F shifts now low high (.node (ivApplyShifts shifts n l r) l r) t' evicted ∧
                Settled shifts t' by
            obtain ⟨t', evicted, heq, hc, hs⟩ := hnode
            exact ⟨t', evicted, heq, .after hv hc, hs⟩
          rw [← hv.cells] at hsorted hlow hfuel
          simp only [ivRemoveOverlaps, Option.bind_eq_bind]
          generalize ivApplyShifts shifts n l r = n at hv hsorted hlow hfuel ⊢
          have hcell := cell_of_current hv.settled.1
          have hn := hv.sound.regular.1
          have hbelow := hv.settled.2
          have hcells : cells shifts (.node n l r) =
              cells shifts l ++ ⟨n.key, n.iv.loc, n.iv.ins⟩ :: cells shifts r := by
            rw [cells, hcell]
          have hall := hsorted
          rw [keysSorted_node, hcell] at hall
          obtain ⟨hsl, hsr, hln, hnr⟩ := hall
          simp only at hln hnr
          simp only [hcells, List.length_append, List.length_cons] at hfuel
          split
          · next hprune =>
              refine ⟨_, _, rfl, cleared_self hv.sound ?_, hv.settled⟩
              intro x hx
              have := below_iff_live.mp hbelow x hx
              simp only [ivOverlaps, Bool.and_eq_false_imp, decide_eq_true_eq,
                decide_eq_false_iff_not]
              omega
          · rw [hcells, live_append, live_cons] at hlow
            obtain ⟨l', e, hleft, hl, -⟩ := ih h.left hsl
              (fun x hx => hlow x (by simp [hx])) (by omega)
            obtain ⟨ins, e', hdrop, hins, hev⟩ := dropOverlaps_live low high n
            rw [hleft, Option.bind_some, hdrop]
            have hmem : ∀ i ∈ ins, i ∈ n.iv.ins := by
              intro i hi
              have := hins.mem_iff.mp (List.mem_map_of_mem hi)
              simpa using List.mem_of_mem_filter this
            have hlowr : ∀ x ∈ live (cells shifts r), x.ins.low = x.key.pos :=
              fun x hx => hlow x (by simp [hx])
            simp only
            split
            · next hempty =>
                obtain rfl : ins = [] := List.isEmpty_iff.mp hempty
                obtain ⟨t, ht, hrem, hc₁, hst⟩ := ivRemove_emptied hlog hv.settled hn hl h.right
                  hsorted
                have hnone := hins.nil_eq.symm
                rw [ht] at hrem hc₁
                have hlowl : ∀ x ∈ live (cells shifts l'), x.ins.low = x.key.pos :=
                  fun x hx => hlow x (by simp [List.mem_of_mem_filter (hl.live.mem_iff.mp hx)])
                split
                · obtain ⟨t₂, e'', hrec, hc, hs⟩ := ih hrem.sound
                    (by rwa [hc₁])
                    (by
                      rw [hc₁, live_append]
                      intro x hx
                      rcases List.mem_append.mp hx with hx | hx
                      · exact hlowl x hx
                      · exact hlowr x hx)
                    (by
                      have := hl.heads.length_le
                      rw [hc₁]
                      simp only [List.length_map, List.length_append] at this ⊢
                      omega)
                  have hreb := ivRebalance_visited hlog hc.sound hs
                  rw [hrec]
                  exact ⟨_, _, rfl, (cleared_emptied hv.settled hl hnone hev hc₁ hrem.addrs
                    hrem.linked hc).visit hreb, hreb.settled⟩
                · next hright =>
                    have hself : Cleared F shifts now low high _ _ [] :=
                      cleared_self hrem.sound (by
                        rw [hc₁, live_append]
                        intro x hx
                        rcases List.mem_append.mp hx with hx | hx
                        · simpa using List.of_mem_filter (hl.live.mem_iff.mp hx)
                        · exact not_overlaps_of_gt (not_le.mp hright) hnr hlowr x hx)
                    have hreb := ivRebalance_visited hlog hrem.sound hrem.settled
                    have hc := cleared_emptied hv.settled hl hnone hev hc₁ hrem.addrs
                      hrem.linked hself
                    rw [List.append_nil] at hc
                    exact ⟨_, _, rfl, hc.visit hreb, hreb.settled⟩
            · next hne =>
                have hne' : ins ≠ [] := fun hnil => hne (by simp [hnil])
                split
                · next hright =>
                    obtain ⟨t, ht, hc, hs⟩ := cleared_node hv.settled hn hl
                      (cleared_self h.right (not_overlaps_of_gt hright hnr hlowr))
                      hins hev (congrArg Prod.fst hdrop).symm hmem hne'
                    rw [List.append_nil, ht] at hc
                    rw [ht] at hs
                    have hreb := ivRebalance_visited hlog hc.sound hs
                    exact ⟨_, _, rfl, hc.visit hreb, hreb.settled⟩
                · obtain ⟨r', e'', hrec, hr, -⟩ := ih h.right hsr hlowr (by omega)
                  obtain ⟨t, ht, hc, hs⟩ := cleared_node hv.settled hn hl hr hins hev
                    (congrArg Prod.fst hdrop).symm hmem hne'
                  rw [ht] at hc hs
                  have hreb := ivRebalance_visited hlog hc.sound hs
                  rw [hrec]
                  exact ⟨_, _, rfl, hc.visit hreb, hreb.settled⟩

theorem ivNodes_eq_length (shifts : List IvShift) (t : IvTree α) : ivNodes t = (cells shifts t).length := by
  induction t with
  | nil => rfl
  | node n l r ihl ihr =>
      simp only [ivNodes, cells, List.length_append, List.length_cons, ihl, ihr]
      omega

/-- On a tree in key order whose maxima are bounds the calls nest no deeper than
the tree has nodes. -/
theorem ivRemoveOverlaps_spec (hlog : LogOk shifts now) (low high : Int) {t : IvTree α}
    (h : Sound F shifts now t) (hsorted : KeysSorted (cells shifts t))
    (hlow : ∀ x ∈ live (cells shifts t), x.ins.low = x.key.pos) :
    ∃ t' evicted, (∀ fuel, ivNodes t < fuel →
        ivRemoveOverlaps shifts low high fuel t = some (t', evicted)) ∧
      Cleared F shifts now low high t t' evicted := by
  obtain ⟨t', evicted, heq, hc, -⟩ := ivRemoveOverlaps_within hlog low high h hsorted hlow
    (Nat.lt_succ_self _)
  refine ⟨t', evicted, fun fuel hfuel => ivRemoveOverlaps_mono ?_ heq, hc⟩
  rw [← ivNodes_eq_length]
  exact hfuel

theorem ivRemoveOverlaps_cleared (hlog : LogOk shifts now) {low high : Int} {fuel : Nat}
    {t t' : IvTree α} {evicted : List (IvIns α)} (h : Sound F shifts now t)
    (hsorted : KeysSorted (cells shifts t))
    (hlow : ∀ x ∈ live (cells shifts t), x.ins.low = x.key.pos)
    (hrun : ivRemoveOverlaps shifts low high fuel t = some (t', evicted)) :
    Cleared F shifts now low high t t' evicted := by
  obtain ⟨u, e, heq, hc⟩ := ivRemoveOverlaps_spec hlog low high h hsorted hlow
  have hmono := ivRemoveOverlaps_mono (Nat.le_max_left fuel (ivNodes t + 1)) hrun
  rw [heq _ (Nat.lt_of_lt_of_le (Nat.lt_succ_self _) (Nat.le_max_right _ _))] at hmono
  cases hmono
  exact hc

theorem itreeRemoveAndShift_mono {fuel fuel' : Nat} (hle : fuel ≤ fuel') {t : Itree α}
    {low high amt : Int} {x : Itree α × List (IvIns α)}
    (h : itreeRemoveAndShift fuel t low high amt = some x) :
    itreeRemoveAndShift fuel' t low high amt = some x := by
  obtain ⟨y, hremove, h⟩ := Option.bind_eq_some_iff.mp h
  rw [itreeRemoveAndShift, ivRemoveOverlaps_mono hle hremove]
  exact h

theorem ivSearch_spec (hlog : LogOk shifts now) (key : IvKey) {t : IvTree α}
    (h : Sound F shifts now t) (hsorted : KeysSorted (cells shifts t)) :
    ∃ t' found, ivSearch shifts key t = (t', found) ∧ Visited F shifts now t t' ∧
      match found with
      | none => ∀ c ∈ cells shifts t, c.key ≠ key
      | some n => ⟨key, n.iv.loc, n.iv.ins⟩ ∈ cells shifts t := by
  induction t with
  | nil => exact ⟨_, _, rfl, .refl h trivial, by simp [cells]⟩
  | node n l r ihl ihr =>
      have hv := ivApplyShifts_visited hlog h
      rw [← hv.cells] at hsorted ⊢
      simp only [ivSearch]
      generalize ivApplyShifts shifts n l r = n at hv hsorted ⊢
      have hcell := cell_of_current hv.settled.1
      rw [keysSorted_node, hcell] at hsorted
      obtain ⟨hsl, hsr, hln, hnr⟩ := hsorted
      simp only at hln hnr
      split
      · next hcmp =>
          obtain ⟨l', found, heq, hl, hfound⟩ := ihl h.left hsl
          have hnode := visited_left hv.settled hv.sound.regular.1 hl.sound hl.cells hl.links
            h.right
          rw [heq]
          refine ⟨_, found, rfl, hv.trans hnode, ?_⟩
          rw [cells, hcell]
          cases found with
          | none =>
              intro c hc
              rcases List.mem_append.mp hc with hc | hc
              · exact hfound c hc
              · rcases List.mem_cons.mp hc with rfl | hc
                · exact (ne_of_ivKeyCmp_lt hcmp).symm
                · exact (ne_of_ivKeyCmp_lt (ivKeyCmp_lt_trans hcmp (hnr c hc))).symm
          | some m => exact List.mem_append_left _ hfound
      · next hcmp =>
          have hcmp' := ivKeyCmp_gt.mp hcmp
          obtain ⟨r', found, heq, hr, hfound⟩ := ihr h.right hsr
          have hnode := visited_right hv.settled hv.sound.regular.1 h.left hr.sound hr.cells
            hr.links
          rw [heq]
          refine ⟨_, found, rfl, hv.trans hnode, ?_⟩
          rw [cells, hcell]
          cases found with
          | none =>
              intro c hc
              rcases List.mem_append.mp hc with hc | hc
              · exact ne_of_ivKeyCmp_lt (ivKeyCmp_lt_trans (hln c hc) hcmp')
              · rcases List.mem_cons.mp hc with rfl | hc
                · exact ne_of_ivKeyCmp_lt hcmp'
                · exact hfound c hc
          | some m => exact List.mem_append_right _ (List.mem_cons_of_mem _ hfound)
      · next hcmp =>
          refine ⟨_, _, rfl, hv, ?_⟩
          rw [cells, hcell, ivKeyCmp_eq.mp hcmp]
          simp

/-- No node skips a shift that its key is in range of. -/
def Reach (shifts : List IvShift) : IvTree α → Prop
  | .nil => True
  | .node n l r =>
      (ivReplay shifts n).key.pos = curPos shifts n ∧ Reach shifts l ∧ Reach shifts r

theorem MaxBounds.reach {t : IvTree α} (h : MaxBounds shifts t) : Reach shifts t := by
  induction t with
  | nil => trivial
  | node n l r ihl ihr => exact ⟨h.1, ihl h.2.2.1, ihr h.2.2.2⟩

/-- `t'` holds the same as `t`; nothing is said about its maxima. -/
structure SameContents (shifts : List IvShift) (now : Nat) (t t' : IvTree α) : Prop where
  regular : Regular now t'
  cells : cells shifts t' = cells shifts t
  links : links t' = links t

theorem SameContents.node (hlog : LogOk shifts now) {n : IvNode α} {l l' r r' : IvTree α}
    (hn : (ivReplay shifts n).key.pos = curPos shifts n)
    (hreg : 1 ≤ n.height ∧ n.tstamp ≤ now) (hl : SameContents shifts now l l')
    (hr : SameContents shifts now r r') (a b : IvTree α) :
    SameContents shifts now (.node n l r) (.node (ivApplyShifts shifts n a b) l' r') := by
  have hsame := ivApplyShifts_same shifts n a b
  have hrep := ivReplay_replayed shifts n
  refine ⟨⟨⟨?_, ?_⟩, hl.regular, hr.regular⟩, ?_, ?_⟩
  · rw [hsame.height, hrep.height]
    exact hreg.1
  · rw [hsame.tstamp]
    exact ivReplay_tstamp_le hlog hreg.2
  · simp only [IntervalCells.cells, hl.cells, hr.cells, ivApplyShifts_cell hlog a b hn]
  · simp only [IntervalCells.links, hl.links, hr.links, hsame.addr, hrep.addr, hsame.iv, hrep.group]
    rfl

theorem ivEach_spec (hlog : LogOk shifts now) {t : IvTree α} (h : Reach shifts t)
    (hreg : Regular now t) :
    ∃ t' out, ivEach shifts t = (t', out) ∧ SameContents shifts now t t' ∧
      out = (live (cells shifts t)).map fun x => (x.key, x.ins) := by
  induction t with
  | nil => exact ⟨_, _, rfl, ⟨hreg, rfl, rfl⟩, rfl⟩
  | node n l r ihl ihr =>
      obtain ⟨l', outl, heql, hl, houtl⟩ := ihl h.2.1 hreg.2.1
      obtain ⟨r', outr, heqr, hr, houtr⟩ := ihr h.2.2 hreg.2.2
      simp only [ivEach, heql, heqr]
      refine ⟨_, _, rfl, .node hlog h.1 hreg.1 hl hr l' r, ?_⟩
      have hcell := ivApplyShifts_cell hlog l' r h.1
      rw [cell_of_current (ivApplyShifts_current hlog n l' r)] at hcell
      simp [cells, ← hcell, houtl, houtr]

def AllCurrent (shifts : List IvShift) : IvTree α → Prop
  | .nil => True
  | .node n l r => Current shifts n ∧ AllCurrent shifts l ∧ AllCurrent shifts r

theorem ivApplyAll_spec (hlog : LogOk shifts now) {t : IvTree α} (h : Reach shifts t)
    (hreg : Regular now t) :
    SameContents shifts now t (ivApplyAll shifts t) ∧ AllCurrent shifts (ivApplyAll shifts t) := by
  induction t with
  | nil => exact ⟨⟨hreg, rfl, rfl⟩, trivial⟩
  | node n l r ihl ihr =>
      obtain ⟨hl, hcl⟩ := ihl h.2.1 hreg.2.1
      obtain ⟨hr, hcr⟩ := ihr h.2.2 hreg.2.2
      exact ⟨.node hlog h.1 hreg.1 hl hr _ _, ivApplyShifts_current hlog n _ _, hcl, hcr⟩

theorem AllCurrent.cells_nil {t : IvTree α} (h : AllCurrent shifts t) :
    cells [] t = cells shifts t := by
  induction t with
  | nil => rfl
  | node n l r ihl ihr =>
      have hcur : Current [] n := rfl
      rw [cells, cells, ihl h.2.1, ihr h.2.2, cell_of_current h.1, cell_of_current hcur]

def shiftCell (s : IvShift) (c : Cell α) : Cell α :=
  if c.key.pos ≥ s.idx then
    { c with
      key := { c.key with pos := c.key.pos + s.amt }
      ins := c.ins.map fun i => { i with low := i.low + s.amt, high := i.high + s.amt } }
  else c

theorem pendingShifts_append {s : IvShift} {ts : Nat} (hs : ts < s.tstamp) :
    pendingShifts (shifts ++ [s]) ts = pendingShifts shifts ts ++ [s] := by
  simp [pendingShifts, hs]

theorem curPos_append (shifts : List IvShift) {s : IvShift} {n : IvNode α} (hts : n.tstamp < s.tstamp) :
    curPos (shifts ++ [s]) n =
      if curPos shifts n ≥ s.idx then curPos shifts n + s.amt else curPos shifts n := by
  simp only [curPos, pendingShifts_append hts, shiftPos, List.foldl_append]
  rfl

theorem cells_append_shift {s : IvShift} {t : IvTree α} (hreg : Regular now t)
    (hs : now < s.tstamp) : cells (shifts ++ [s]) t = (cells shifts t).map (shiftCell s) := by
  induction t with
  | nil => rfl
  | node n l r ihl ihr =>
      have hcell : cell (shifts ++ [s]) n = shiftCell s (cell shifts n) := by
        have hts : n.tstamp < s.tstamp := hreg.1.2.trans_lt hs
        have hpos := curPos_append shifts hts
        by_cases hge : curPos shifts n ≥ s.idx
        · rw [if_pos hge] at hpos
          rw [shiftCell, if_pos (show (cell shifts n).key.pos ≥ s.idx from hge)]
          simp only [cell, hpos, ivGroupShift, List.map_map, Function.comp_def, Cell.mk.injEq,
            true_and]
          apply List.map_congr_left
          intro i _
          simp only [IvIns.mk.injEq, and_true]
          omega
        · rw [if_neg hge] at hpos
          rw [shiftCell, if_neg (show ¬(cell shifts n).key.pos ≥ s.idx from hge)]
          simp only [cell, hpos]
      simp only [cells, List.map_append, List.map_cons, ihl hreg.2.1, ihr hreg.2.2, hcell]

theorem LogOk.record (hlog : LogOk shifts now) (idx amt : Int) :
    LogOk (shifts ++ [⟨idx, amt, now + 1⟩]) (now + 1) := by
  constructor
  · rw [List.pairwise_append]
    refine ⟨hlog.sorted, List.pairwise_singleton _ _, ?_⟩
    rintro a ha b hb
    rw [List.mem_singleton.mp hb]
    exact Nat.lt_succ_of_le (hlog.le_now a ha)
  · intro s hs
    rcases List.mem_append.mp hs with hs | hs
    · exact (hlog.le_now s hs).trans (Nat.le_succ now)
    · rw [List.mem_singleton.mp hs]

theorem Regular.mono {t : IvTree α} {now' : Nat} (h : Regular now t) (hle : now ≤ now') :
    Regular now' t := by
  induction t with
  | nil => trivial
  | node n l r ihl ihr => exact ⟨⟨h.1.1, h.1.2.trans hle⟩, ihl h.2.1, ihr h.2.2⟩

def nodes : IvTree α → List (IvNode α)
  | .nil => []
  | .node n l r => nodes l ++ n :: nodes r

theorem cells_eq_map (shifts : List IvShift) (t : IvTree α) :
    cells shifts t = (nodes t).map (cell shifts) := by
  induction t with
  | nil => rfl
  | node n l r ihl ihr => simp only [cells, nodes, List.map_append, List.map_cons, ihl, ihr]

theorem links_eq_map (t : IvTree α) :
    links t = (nodes t).map fun n => (n.addr, n.iv.node) := by
  induction t with
  | nil => rfl
  | node n l r ihl ihr => simp only [links, nodes, List.map_append, List.map_cons, ihl, ihr]

theorem ivGroupNode_spec {loc : Nat} {t : IvTree α} (h : ∃ n ∈ nodes t, n.iv.loc = loc) :
    ∃ n ∈ nodes t, n.iv.loc = loc ∧ ivGroupNode loc t = some n.iv.node := by
  have hnone : ∀ t : IvTree α, (¬∃ n ∈ nodes t, n.iv.loc = loc) → ivGroupNode loc t = none := by
    intro t ht
    induction t with
    | nil => rfl
    | node n l r ihl ihr =>
        have hn : n.iv.loc ≠ loc := fun hn => ht ⟨n, by simp [nodes], hn⟩
        have hl := ihl fun ⟨m, hm, hloc⟩ => ht ⟨m, by simp [nodes, hm], hloc⟩
        have hr := ihr fun ⟨m, hm, hloc⟩ => ht ⟨m, by simp [nodes, hm], hloc⟩
        simp [ivGroupNode, hn, hl, hr]
  induction t with
  | nil => simp [nodes] at h
  | node n l r ihl ihr =>
      by_cases hn : n.iv.loc = loc
      · exact ⟨n, by simp [nodes], hn, by simp [ivGroupNode, hn]⟩
      · by_cases hl : ∃ m ∈ nodes l, m.iv.loc = loc
        · obtain ⟨m, hm, hloc, heq⟩ := ihl hl
          exact ⟨m, by simp [nodes, hm], hloc, by simp [ivGroupNode, hn, heq]⟩
        · have hr : ∃ m ∈ nodes r, m.iv.loc = loc := by
            obtain ⟨m, hm, hloc⟩ := h
            simp only [nodes, List.mem_append, List.mem_cons] at hm
            rcases hm with hm | rfl | hm
            · exact absurd ⟨m, hm, hloc⟩ hl
            · exact absurd hloc hn
            · exact ⟨m, hm, hloc⟩
          obtain ⟨m, hm, hloc, heq⟩ := ihr hr
          exact ⟨m, by simp [nodes, hm], hloc, by simp [ivGroupNode, hn, hnone l hl, heq]⟩

theorem ivApplyAt_spec (hlog : LogOk shifts now) (addr : Nat) {t : IvTree α}
    (h : Reach shifts t) (hreg : Regular now t) :
    SameContents shifts now t (ivApplyAt shifts addr t).1 ∧
      ((ivApplyAt shifts addr t).2 = none → ∀ n ∈ nodes t, n.addr ≠ addr) ∧
      ∀ m, (ivApplyAt shifts addr t).2 = some m →
        ∃ n ∈ nodes t, n.addr = addr ∧ m.key = (cell shifts n).key := by
  induction t with
  | nil => exact ⟨⟨hreg, rfl, rfl⟩, by simp [nodes], by simp [ivApplyAt]⟩
  | node n l r ihl ihr =>
      have hsame : ∀ t : IvTree α, Regular now t → SameContents shifts now t t :=
        fun t ht => ⟨ht, rfl, rfl⟩
      simp only [ivApplyAt]
      split
      · next haddr =>
          refine ⟨.node hlog h.1 hreg.1 (hsame l hreg.2.1) (hsame r hreg.2.2) l r, by simp, ?_⟩
          rintro m ⟨⟩
          refine ⟨n, by simp [nodes], haddr, ?_⟩
          rw [← ivApplyShifts_cell hlog l r h.1,
            cell_of_current (ivApplyShifts_current hlog n l r)]
      · next haddr =>
          obtain ⟨hl, hlnone, hlsome⟩ := ihl h.2.1 hreg.2.1
          obtain ⟨hr, hrnone, hrsome⟩ := ihr h.2.2 hreg.2.2
          generalize ivApplyAt shifts addr l = res at hl hlnone hlsome
          obtain ⟨l', found⟩ := res
          cases found with
          | some m =>
              refine ⟨⟨⟨hreg.1, hl.regular, hreg.2.2⟩, ?_, ?_⟩, by simp, ?_⟩
              · simp only [cells, hl.cells]
              · simp only [links, hl.links]
              · rintro m' ⟨⟩
                obtain ⟨k, hk, hka, hkey⟩ := hlsome m rfl
                exact ⟨k, by simp [nodes, hk], hka, hkey⟩
          | none =>
              refine ⟨⟨⟨hreg.1, hl.regular, hr.regular⟩, ?_, ?_⟩, ?_, ?_⟩
              · simp only [cells, hl.cells, hr.cells]
              · simp only [links, hl.links, hr.links]
              · intro hnone k hk
                simp only [nodes, List.mem_append, List.mem_cons] at hk
                rcases hk with hk | rfl | hk
                · exact hlnone rfl k hk
                · exact haddr
                · exact hrnone hnone k hk
              · intro m hm
                obtain ⟨k, hk, hka, hkey⟩ := hrsome m hm
                exact ⟨k, by simp [nodes, hk], hka, hkey⟩

end Libpeg.IntervalOps
