import Libpeg.IntervalRebalance

namespace Libpeg.IntervalFree

open Libpeg.IntervalTree Libpeg.IntervalCells Libpeg.IntervalOps Libpeg.IntervalRefinement
open Libpeg.IntervalBalance (run)
open Libpeg.IntervalRebalance (SameNode SameNodes forall₂_trans ivRotateRight_nodes
  sameNode_applyShifts)

variable {α : Type}

/-- The loops of `itree_free`: the freed nodes in the order of `iv_free_node`, or `none` when
the bound on the rounds does not suffice. -/
def itreeFreeLoop (shifts : List IvShift) : Nat → IvTree α → List (IvNode α) →
    Option (List (IvNode α))
  | 0, _, _ => none
  | _ + 1, .nil, freed => some freed
  | fuel + 1, .node n .nil r, freed => itreeFreeLoop shifts fuel r (freed ++ [n])
  | fuel + 1, .node n (.node m ll lr) r, freed =>
      itreeFreeLoop shifts fuel
        (ivRotateRight shifts (.node n (ivAbsorb shifts (.node m ll lr)) r)) freed

/-- `itree_free`. -/
def itreeFree (fuel : Nat) (t : Itree α) : Option (List (IvNode α)) :=
  itreeFreeLoop t.shifts fuel t.root []

variable {shifts : List IvShift} {n : IvNode α} {t l r : IvTree α}

section Rounds

def spine : IvTree α → Nat
  | .nil => 0
  | .node _ _ r => 1 + spine r

/-- The rounds that are left: one to rotate every node off the rightmost path, and one to
pull every node off. -/
def rounds (t : IvTree α) : Nat :=
  2 * ivNodes t - spine t

theorem spine_le (t : IvTree α) : spine t ≤ ivNodes t := by
  induction t with
  | nil => exact le_rfl
  | node n l r _ ihr =>
      rw [spine, ivNodes]
      omega

theorem rounds_pull : rounds (.node n .nil r) = 1 + rounds r := by
  have hle := spine_le r
  simp only [rounds, ivNodes, spine]
  omega

theorem rounds_rotate {m : IvNode α} {ll lr : IvTree α} :
    rounds (.node n (.node m ll lr) r) =
      1 + rounds (ivRotateRight shifts (.node n (ivAbsorb shifts (.node m ll lr)) r)) := by
  have hll := spine_le ll
  have hr := spine_le r
  simp only [ivAbsorb, ivRotateRight, rounds, ivNodes, spine]
  omega

theorem ivAbsorb_nodes (shifts : List IvShift) (t : IvTree α) :
    SameNodes t (ivAbsorb shifts t) := by
  cases t with
  | nil => exact .refl _
  | node n l r => exact (SameNodes.refl l).node (sameNode_applyShifts n l r) (.refl r)

theorem rotate_nodes {m : IvNode α} {ll lr : IvTree α} :
    SameNodes (.node n (.node m ll lr) r)
      (ivRotateRight shifts (.node n (ivAbsorb shifts (.node m ll lr)) r)) :=
  ((ivAbsorb_nodes shifts _).node (.refl n) (.refl r)).trans (ivRotateRight_nodes shifts _)

theorem itreeFreeLoop_frees {fuel : Nat} (freed : List (IvNode α)) (hfuel : rounds t < fuel) :
    ∃ rest, itreeFreeLoop shifts fuel t freed = some (freed ++ rest) ∧
      List.Forall₂ SameNode (IntervalRebalance.nodes t) rest := by
  induction fuel generalizing t freed with
  | zero => omega
  | succ fuel ih =>
      cases t with
      | nil => exact ⟨[], by rw [itreeFreeLoop, List.append_nil], .nil⟩
      | node n l r =>
          cases l with
          | nil =>
              rw [rounds_pull] at hfuel
              obtain ⟨rest, hloop, hrest⟩ := ih (freed ++ [n]) (show rounds r < fuel by omega)
              refine ⟨n :: rest, ?_, .cons (.refl n) hrest⟩
              rw [itreeFreeLoop, hloop, List.append_assoc]
              rfl
          | node m ll lr =>
              rw [@rounds_rotate _ shifts] at hfuel
              have hlt := Nat.lt_of_succ_le (Nat.add_comm 1 _ ▸ Nat.le_of_lt_succ hfuel)
              obtain ⟨rest, hloop, hrest⟩ := ih freed hlt
              exact ⟨rest, hloop, forall₂_trans (R := SameNode) (fun _ _ _ => SameNode.trans) rotate_nodes hrest⟩

/-- `itree_free` ends within two rounds a node and frees the nodes of the tree in the order of
their keys, each once. -/
theorem itreeFree_frees (t : Itree α) (k : Nat) :
    ∃ freed, itreeFree (2 * ivNodes t.root + 1 + k) t = some freed ∧
      List.Forall₂ SameNode (IntervalRebalance.nodes t.root) freed := by
  have hfuel : rounds t.root < 2 * ivNodes t.root + 1 + k := by
    rw [rounds]
    omega
  exact itreeFreeLoop_frees [] hfuel

end Rounds

section Runs

theorem sameNodes_addr {ns ms : List (IvNode α)} (h : List.Forall₂ SameNode ns ms) :
    ms.map IvNode.addr = ns.map IvNode.addr := by
  induction h with
  | nil => rfl
  | cons hn _ ih => rw [List.map_cons, List.map_cons, hn.addr, ih]

theorem sameNodes_loc {ns ms : List (IvNode α)} (h : List.Forall₂ SameNode ns ms) :
    ms.map (fun n => n.iv.loc) = ns.map fun n => n.iv.loc := by
  induction h with
  | nil => rfl
  | cons hn _ ih =>
      rw [List.map_cons, List.map_cons, hn.group, ih]
      rfl

theorem nodes_addr (t : IvTree α) :
    (IntervalRebalance.nodes t).map IvNode.addr = (links t).map Prod.fst := by
  induction t with
  | nil => rfl
  | node n l r ihl ihr => simp [links, IntervalRebalance.nodes, ihl, ihr]

theorem nodes_loc (shifts : List IvShift) (t : IvTree α) :
    (IntervalRebalance.nodes t).map (fun n => n.iv.loc) = (cells shifts t).map Cell.loc := by
  induction t with
  | nil => rfl
  | node n l r ihl ihr => simp [cells, cell, IntervalRebalance.nodes, ihl, ihr]

theorem inv_run {ops : List (Op α)} {s : Itree α} {ref : List (RefIv α)} (hinv : Inv s ref)
    (hadm : Admissible s ref ops) (hmax : MaximaHold s ops) :
    ∃ ref', Inv (ops.foldl (fun t op => (step t op).1) s) ref' := by
  induction ops generalizing s ref with
  | nil => exact ⟨ref, hinv⟩
  | cons op ops ih => exact ih (step_agrees hinv hmax.1 hadm.1).2 hadm.2 hmax.2

/-- `itree_free` ends within two rounds a node, after any admitted operations whose maxima were
bounds. It frees the nodes of the tree in the order of their keys, and no node and no group
twice. -/
theorem itreeFree_frees_run (ops : List (Op α)) (hadm : Admissible itreeNew [] ops)
    (hmax : MaximaHold itreeNew ops) :
    ∃ freed, itreeFree (2 * ivNodes (run ops).root + 1) (run ops) = some freed ∧
      List.Forall₂ SameNode (IntervalRebalance.nodes (run ops).root) freed ∧
        (freed.map IvNode.addr).Nodup ∧ (freed.map fun n => n.iv.loc).Nodup := by
  obtain ⟨freed, hfree, hsame⟩ := itreeFree_frees (run ops) 0
  obtain ⟨ref, hinv⟩ := inv_run inv_new hadm hmax
  refine ⟨freed, hfree, hsame, ?_, ?_⟩
  · rw [sameNodes_addr hsame, nodes_addr]
    exact hinv.wf.addrs
  · rw [sameNodes_loc hsame, nodes_loc (run ops).shifts]
    exact hinv.wf.locs

theorem itreeFree_frees_shiftedRun :
    ∃ freed, itreeFree (2 * ivNodes (run shiftedRun).root + 1) (run shiftedRun) = some freed ∧
      List.Forall₂ SameNode (IntervalRebalance.nodes (run shiftedRun).root) freed ∧
        (freed.map IvNode.addr).Nodup ∧ (freed.map fun n => n.iv.loc).Nodup :=
  itreeFree_frees_run shiftedRun (by decide) (by decide)

end Runs

end Libpeg.IntervalFree
