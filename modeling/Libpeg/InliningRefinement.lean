import Libpeg.HeapReading

namespace Libpeg.InliningRefinement

open Relation
open Libpeg.Pattern Libpeg.CompileTotal Libpeg.CompileReturns Libpeg.GrammarCompile
open Libpeg.PatternHeap Libpeg.HeapInlining Libpeg.HeapReading Libpeg.RankedGraph

def defPats : Defs → List Pat
  | .nil => []
  | .cons _ p rest => p :: defPats rest

def walkedParts : Pat → List Pat
  | .alt l r | .seq l r => [l, r]
  | .star p | .plus p | .optional p | .not p | .and p | .search p | .cap p _ | .memo p _
  | .check p _ _ _ | .inlined _ p | .errorRecover _ p => [p]
  | .grammar _ defs => defPats defs
  | _ => []

/-- The name of a non-terminal without a definition. -/
def openNames : Pat → List String
  | .nonterm name => [name]
  | _ => []

theorem walkSizeDefs_eq (d : Defs) : walkSizeDefs d = ((defPats d).map walkSize).sum := by
  cases d with
  | nil => rfl
  | cons name p rest => simp [walkSizeDefs, defPats, walkSizeDefs_eq rest]

theorem unresolvedDefs_eq (d : Defs) : unresolvedDefs d = (defPats d).flatMap unresolved := by
  cases d with
  | nil => rfl
  | cons name p rest => simp [unresolvedDefs, defPats, unresolvedDefs_eq rest]

theorem walkSize_eq (p : Pat) : walkSize p = ((walkedParts p).map walkSize).sum + 1 := by
  cases p <;> simp [walkSize, walkedParts, walkSizeDefs_eq]

theorem unresolved_eq (p : Pat) :
    unresolved p = openNames p ++ (walkedParts p).flatMap unresolved := by
  cases p <;> simp [unresolved, openNames, walkedParts, unresolvedDefs_eq]

theorem walkSize_part {p q : Pat} (hq : q ∈ walkedParts p) : walkSize q < walkSize p := by
  rw [walkSize_eq p]
  exact Nat.lt_succ_of_le (List.single_le_sum (fun _ _ => Nat.zero_le _) _ (List.mem_map_of_mem hq))

section Lists

variable {α β : Type} {R : α → β → Prop} {xs : List α} {ys : List β}

theorem forall₂_mem_left (hall : List.Forall₂ R xs ys) {x : α} (hx : x ∈ xs) : ∃ y ∈ ys, R x y := by
  induction hall with
  | nil => cases hx
  | cons hxy _ ih =>
      rcases List.mem_cons.mp hx with rfl | hx
      · exact ⟨_, List.mem_cons_self, hxy⟩
      · obtain ⟨y, hy, hr⟩ := ih hx
        exact ⟨y, List.mem_cons_of_mem _ hy, hr⟩

theorem forall₂_mem_right (hall : List.Forall₂ R xs ys) {y : β} (hy : y ∈ ys) : ∃ x ∈ xs, R x y :=
  forall₂_mem_left (List.Forall₂.flip hall) hy

end Lists

section Walks

variable {h : PatHeap} {a : Nat} {p : Pat}

theorem readsDefs_parts {d : Defs} {ds : List (String × Nat)} (hd : ReadsDefs h d ds) :
    List.Forall₂ (Reads h) (defPats d) (ds.map Prod.snd) := by
  cases d with
  | nil =>
      rw [show ds = [] from hd]
      exact .nil
  | cons name p rest =>
      obtain ⟨b, ds', rfl, hp, hrest⟩ := hd
      exact .cons hp (readsDefs_parts hrest)

theorem reads_parts (hp : Reads h p a) :
    List.Forall₂ (Reads h) (walkedParts p) (walked true (node h a)) := by
  cases p with
  | alt l r =>
      obtain ⟨b, c, hn, hl, hr⟩ := hp
      rw [hn]
      exact .cons hl (.cons hr .nil)
  | seq l r =>
      obtain ⟨b, c, hn, hl, hr⟩ := hp
      rw [hn]
      exact .cons hl (.cons hr .nil)
  | grammar start d =>
      obtain ⟨ds, hn, hd⟩ := hp
      rw [hn]
      exact readsDefs_parts hd
  | repeated p n =>
      obtain ⟨b, hn, -⟩ := hp
      rw [hn]
      exact .nil
  | cls _ | literal _ | nonterm _ | dot _ | error _ | emptyop _ | empty =>
      rw [show node h a = _ from hp]
      exact .nil
  | _ =>
      obtain ⟨b, hn, hb⟩ := hp
      rw [hn]
      exact .cons hb .nil

theorem reads_open (hp : Reads h p a) (name : String) :
    node h a = .nonterm name none ↔ name ∈ openNames p := by
  cases p with
  | alt _ _ | seq _ _ =>
      obtain ⟨b, c, hn, -, -⟩ := hp
      simp [hn, openNames]
  | cls _ | literal _ | nonterm _ | dot _ | error _ | emptyop _ | empty =>
      simp [show node h a = _ from hp, openNames, eq_comm]
  | _ =>
      obtain ⟨b, hn, -⟩ := hp
      simp [hn, openNames]

theorem reads_isOpen (hp : Reads h p a) : isOpen (node h a) = !decide (openNames p = []) := by
  cases p with
  | alt _ _ | seq _ _ =>
      obtain ⟨b, c, hn, -, -⟩ := hp
      rw [hn]
      rfl
  | cls _ | literal _ | nonterm _ | dot _ | error _ | emptyop _ | empty =>
      rw [show node h a = _ from hp]
      rfl
  | _ =>
      obtain ⟨b, hn, -⟩ := hp
      rw [hn]
      rfl

/-- The unresolved names of a pattern are those of the non-terminals that a walk meets
without a definition. -/
theorem mem_unresolved_iff (hp : Reads h p a) (name : String) : name ∈ unresolved p ↔
    ∃ b, ReflTransGen (WalksTo h) a b ∧ node h b = .nonterm name none := by
  induction hsize : walkSize p using Nat.strong_induction_on generalizing p a with
  | h size ih =>
      subst hsize
      have hparts := reads_parts hp
      rw [unresolved_eq, List.mem_append, ← reads_open hp name, List.mem_flatMap]
      constructor
      · rintro (hopen | ⟨q, hq, hname⟩)
        · exact ⟨a, .refl, hopen⟩
        · obtain ⟨c, hc, hqc⟩ := forall₂_mem_left hparts hq
          obtain ⟨b, hcb, hopen⟩ := (ih _ (walkSize_part hq) hqc rfl).mp hname
          exact ⟨b, .head hc hcb, hopen⟩
      · rintro ⟨b, hab, hopen⟩
        rcases ReflTransGen.cases_head hab with rfl | ⟨c, hac, hcb⟩
        · exact .inl hopen
        · obtain ⟨q, hq, hqc⟩ := forall₂_mem_right hparts hac
          exact .inr ⟨q, hq, (ih _ (walkSize_part hq) hqc rfl).mpr ⟨b, hcb, hopen⟩⟩

/-- What the counting walk adds for some patterns. -/
def counted (d : SizeLeafData) (ps : List Pat) : SizeLeafData :=
  { size := d.size + (ps.map walkSize).sum, leaf := d.leaf && decide (ps.flatMap unresolved = []) }

theorem foldlM_counted {ps : List Pat} {bs : List Nat} (hall : List.Forall₂ (Reads h) ps bs)
    (ih : ∀ q ∈ ps, ∀ b d, Reads h q b →
      Settles (fun k => walkPat (fun _ => h) true (countSizeLeafFn h) k b d) (counted d [q]))
    (d : SizeLeafData) : Settles (fun k => bs.foldlM
      (fun d b => walkPat (fun _ => h) true (countSizeLeafFn h) k b d) d) (counted d ps) := by
  induction hall generalizing d with
  | nil =>
      have hnone : counted d [] = d := by simp [counted]
      rw [hnone]
      exact settles_some d
  | @cons q b qs bs hqb _ ihl =>
      have hrest := ihl (fun q' hq' => ih q' (List.mem_cons_of_mem _ hq')) (counted d [q])
      have hboth : counted (counted d [q]) qs = counted d (q :: qs) := by
        simp [counted, Nat.add_assoc, Bool.and_assoc]
      rw [hboth] at hrest
      simp only [List.foldlM_cons]
      exact (ih q List.mem_cons_self b d hqb).bind hrest

theorem count_settles (hp : Reads h p a) (d : SizeLeafData) :
    Settles (fun k => walkPat (fun _ => h) true (countSizeLeafFn h) k a d) (counted d [p]) := by
  induction hsize : walkSize p using Nat.strong_induction_on generalizing p a d with
  | h size ih =>
      subst hsize
      have hrest := foldlM_counted (reads_parts hp)
        (fun q hq b d hqb => ih _ (walkSize_part hq) hqb d rfl) (countSizeLeafFn h a d)
      have hboth : counted (countSizeLeafFn h a d) (walkedParts p) = counted d [p] := by
        simp [counted, countSizeLeafFn, reads_isOpen hp, walkSize_eq p, unresolved_eq p,
          Bool.and_assoc]
        omega
      rw [hboth] at hrest
      exact Settles.of_succ hrest fun k => rfl

end Walks

section Definitions

variable {h : PatHeap} {g d : Defs} {ds : List (String × Nat)} {name name' : String} {p : Pat}
  {b : Nat} {c : SizeLeafData} {cs : List SizeLeafData}

def countsOf (d : Defs) : List SizeLeafData :=
  (defPats d).map fun p => counted { size := 0, leaf := true } [p]

theorem countsOf_settles {d : Defs} {ds : List (String × Nat)} (hd : ReadsDefs h d ds) :
    Settles (fun k => ds.mapM fun d => walkPat (fun _ => h) true (countSizeLeafFn h) k d.2
      { size := 0, leaf := true }) (countsOf d) := by
  cases d with
  | nil =>
      rw [show ds = [] from hd]
      exact settles_some []
  | cons name p rest =>
      obtain ⟨b, ds', rfl, hp, hrest⟩ := hd
      have hall := countsOf_settles hrest
      have hbind : Settles (fun k => (walkPat (fun _ => h) true (countSizeLeafFn h) k b
          { size := 0, leaf := true }).bind fun c => (ds'.mapM fun d =>
            walkPat (fun _ => h) true (countSizeLeafFn h) k d.2 { size := 0, leaf := true }).bind
              fun cs => some (c :: cs)) (countsOf (.cons name p rest)) :=
        (count_settles hp { size := 0, leaf := true }).bind (hall.bind (settles_some _))
      simp only [List.mapM_cons]
      exact hbind

theorem inlinable_cons : inlinable (.cons name' p g) name =
    if name' = name then if walkSize p < 100 ∧ unresolved p = [] then some p else none
    else inlinable g name := by
  unfold inlinable
  by_cases hname : name' = name
  · simp [findDef, hname, defAt]
  · simp only [findDef, if_neg hname]
    cases findDef g name with
    | none => rfl
    | some i => rfl

theorem leafDef_cons : leafDef ((name', b) :: ds) (c :: cs) name =
    if name' = name then if c.size < 100 ∧ c.leaf = true then some b else none
    else leafDef ds cs name := by
  unfold leafDef
  by_cases hname : name' = name
  · simp [List.findIdx?_cons, hname]
  · simp only [List.findIdx?_cons, hname, decide_false, Bool.false_eq_true, if_false]
    cases ds.findIdx? fun d => d.1 = name with
    | none => rfl
    | some i => rfl

/-- The definition in memory that stands for a name is where its definition stands. -/
theorem leafDef_reads {d : Defs} {ds : List (String × Nat)} (hd : ReadsDefs h d ds) (name : String) :
    inlinable d name = none ∧ leafDef ds (countsOf d) name = none ∨
      ∃ q a, inlinable d name = some q ∧ leafDef ds (countsOf d) name = some a ∧ Reads h q a := by
  cases d with
  | nil =>
      rw [show ds = [] from hd]
      exact .inl ⟨rfl, rfl⟩
  | cons name' p rest =>
      obtain ⟨b, ds', rfl, hp, hrest⟩ := hd
      have hcount : countsOf (.cons name' p rest) =
          counted { size := 0, leaf := true } [p] :: countsOf rest := rfl
      rw [hcount, inlinable_cons, leafDef_cons]
      by_cases hname : name' = name
      · rw [if_pos hname, if_pos hname]
        by_cases hsmall : walkSize p < 100 ∧ unresolved p = []
        · rw [if_pos hsmall, if_pos (by simpa [counted] using hsmall)]
          exact .inr ⟨p, b, rfl, rfl, hp⟩
        · rw [if_neg hsmall, if_neg (by simpa [counted] using hsmall)]
          exact .inl ⟨rfl, rfl⟩
      · rw [if_neg hname, if_neg hname]
        exact leafDef_reads hrest name

end Definitions

section Carried

variable {h h' : PatHeap} {inside : Nat → Prop} {a : Nat}

/-- What happens to some patterns in memory while a pass runs: the references of the
tree pass are set, and what is repeated stays as it is. -/
structure Carried (h h' : PatHeap) (g : Defs) (inside : Nat → Prop) : Prop where
  closed : ∀ a b, inside a → WalksTo h a b → inside b
  same : ∀ a, inside a → isOpen (node h a) = false → node h' a = node h a
  name : ∀ a name, inside a → node h a = .nonterm name none → Reads h' (inlinePat g (.nonterm name)) a
  low : ∀ a p n, inside a → node h a = .repeated p n →
    ∀ b, ReflTransGen (PointsTo h) p b → node h' b = node h b

theorem inlinable_nil (name : String) : inlinable .nil name = none :=
  rfl

theorem carried_same (hsame : ∀ b, ReflTransGen (PointsTo h) a b → node h' b = node h b) :
    Carried h h' .nil (ReflTransGen (PointsTo h) a) where
  closed := fun _ _ hb hbc => hb.tail (WalksTo.pointsTo hbc)
  same := fun b hb _ => hsame b hb
  name := fun b _ hb hopen => (hsame b hb).trans hopen
  low := fun _ _ n hb hn c hpc =>
    hsame c ((hb.tail (pointsTo_iff.mpr (.inr ⟨n, hn⟩))).trans hpc)

mutual

theorem Carried.reads {g : Defs} {inside : Nat → Prop} (hc : Carried h h' g inside) {p : Pat} {a : Nat}
    (ha : inside a) (hp : Reads h p a) : Reads h' (inlinePat g p) a := by
  have hkeep : ∀ {n}, node h a = n → isOpen n = false → node h' a = n := by
    rintro n rfl hn
    exact hc.same a ha hn
  have hnext : ∀ b, b ∈ walked true (node h a) → inside b := fun b hb => hc.closed a b ha hb
  cases p with
  | alt l r =>
      obtain ⟨b, c, hn, hl, hr⟩ := hp
      exact ⟨b, c, hkeep hn rfl, hc.reads (hnext b (by simp [hn, walked, subpatterns])) hl,
        hc.reads (hnext c (by simp [hn, walked, subpatterns])) hr⟩
  | seq l r =>
      obtain ⟨b, c, hn, hl, hr⟩ := hp
      exact ⟨b, c, hkeep hn rfl, hc.reads (hnext b (by simp [hn, walked, subpatterns])) hl,
        hc.reads (hnext c (by simp [hn, walked, subpatterns])) hr⟩
  | star p =>
      obtain ⟨b, hn, hb⟩ := hp
      exact ⟨b, hkeep hn rfl, hc.reads (hnext b (by simp [hn, walked, subpatterns])) hb⟩
  | plus p =>
      obtain ⟨b, hn, hb⟩ := hp
      exact ⟨b, hkeep hn rfl, hc.reads (hnext b (by simp [hn, walked, subpatterns])) hb⟩
  | optional p =>
      obtain ⟨b, hn, hb⟩ := hp
      exact ⟨b, hkeep hn rfl, hc.reads (hnext b (by simp [hn, walked, subpatterns])) hb⟩
  | not p =>
      obtain ⟨b, hn, hb⟩ := hp
      exact ⟨b, hkeep hn rfl, hc.reads (hnext b (by simp [hn, walked, subpatterns])) hb⟩
  | and p =>
      obtain ⟨b, hn, hb⟩ := hp
      exact ⟨b, hkeep hn rfl, hc.reads (hnext b (by simp [hn, walked, subpatterns])) hb⟩
  | search p =>
      obtain ⟨b, hn, hb⟩ := hp
      exact ⟨b, hkeep hn rfl, hc.reads (hnext b (by simp [hn, walked, subpatterns])) hb⟩
  | cap p id =>
      obtain ⟨b, hn, hb⟩ := hp
      exact ⟨b, hkeep hn rfl, hc.reads (hnext b (by simp [hn, walked, subpatterns])) hb⟩
  | memo p id =>
      obtain ⟨b, hn, hb⟩ := hp
      exact ⟨b, hkeep hn rfl, hc.reads (hnext b (by simp [hn, walked, subpatterns])) hb⟩
  | check p fn id flag =>
      obtain ⟨b, hn, hb⟩ := hp
      exact ⟨b, hkeep hn rfl, hc.reads (hnext b (by simp [hn, walked, subpatterns])) hb⟩
  | errorRecover msg p =>
      obtain ⟨b, hn, hb⟩ := hp
      exact ⟨b, hkeep hn rfl, hc.reads (hnext b (by simp [hn, walked, subpatterns])) hb⟩
  | inlined name p =>
      obtain ⟨b, hn, hb⟩ := hp
      exact ⟨b, hkeep hn rfl, hc.reads (hnext b (by simp [hn, walked])) hb⟩
  | grammar start d =>
      obtain ⟨ds, hn, hd⟩ := hp
      exact ⟨ds, hkeep hn rfl, hc.readsDefs (fun b hb => hnext b (by rw [hn]; exact hb)) hd⟩
  | repeated p n =>
      -- a pass does not look into what is repeated
      obtain ⟨b, hn, hb⟩ := hp
      have hread := (carried_same (hc.low a b n ha hn)).reads .refl hb
      rw [inlinePat_self .nil p fun name _ => inlinable_nil name] at hread
      exact ⟨b, hkeep hn rfl, hread⟩
  | nonterm name => exact hc.name a name ha hp
  | cls _ | literal _ | dot _ | error _ | emptyop _ | empty => exact hkeep hp rfl

theorem Carried.readsDefs {g : Defs} {inside : Nat → Prop} (hc : Carried h h' g inside) {d : Defs}
    {ds : List (String × Nat)} (hds : ∀ b ∈ ds.map Prod.snd, inside b) (hd : ReadsDefs h d ds) :
    ReadsDefs h' (inlineDefs g d) ds := by
  cases d with
  | nil => exact hd
  | cons name p rest =>
      obtain ⟨b, ds', rfl, hp, hrest⟩ := hd
      exact ⟨b, ds', rfl, hc.reads (hds b List.mem_cons_self) hp,
        hc.readsDefs (fun c hb => hds c (List.mem_cons_of_mem b hb)) hrest⟩

end

end Carried

section Pass

variable {h h' : PatHeap} {roots : List Nat} {g : Nat} {start : String} {gd : Defs}
  {ds : List (String × Nat)} {d : InlineData}

/-- What is repeated in a grammar is on a lower level, where the pass sets nothing. -/
theorem low_unchanged (hs : Sound h roots) (hpass : Passing h g ds (countsOf gd) d) {a p n : Nat}
    (ha : Met h g a) (hn : node h a = .repeated p n) {b : Nat}
    (hb : ReflTransGen (PointsTo h) p b) : node d.heap b = node h b := by
  obtain ⟨level, hl⟩ := hs.leveled
  rcases hpass.between.2 b with hsame | ⟨hmet, -⟩
  · exact hsame
  · have h1 := hl.repeats a p n hn
    have h2 := hl.reach_le hb
    have h3 := hl.walks ha
    have h4 := hl.walks hmet
    omega

theorem closed_unchanged (hs : Sound h roots) (hpass : Passing h g ds (countsOf gd) d)
    (hresolved : ∀ b, Met h g b → node d.heap b = resolveNode ds (countsOf gd) (node h b)) {a : Nat}
    {q : Pat} (ha : Met h g a) (hq : Reads h q a) (hnil : unresolved q = []) : Reads d.heap q a := by
  have hcarried : Carried h d.heap gd (ReflTransGen (WalksTo h) a) := by
    constructor
    · exact fun b c hb hbc => hb.tail hbc
    · exact fun b hb hclosed => (hresolved b (ha.trans hb)).trans (resolveNode_closed hclosed)
    · intro b name hb hopen
      have hname := (mem_unresolved_iff hq name).mpr ⟨b, hb, hopen⟩
      rw [hnil] at hname
      cases hname
    · exact fun b p n hb hn c hc => low_unchanged hs hpass (ha.trans hb) hn hc
  have hread := hcarried.reads .refl hq
  rwa [inlinePat_self gd q (by simp [hnil])] at hread

theorem pass_carried (hs : Sound h roots) (hg : node h g = .grammar start ds)
    (hd : ReadsDefs h gd ds) (hleaf : LeafCounts h ds (countsOf gd))
    (hpass : Passing h g ds (countsOf gd) d)
    (hresolved : ∀ b, Met h g b → node d.heap b = resolveNode ds (countsOf gd) (node h b)) :
    Carried h d.heap gd (Met h g) where
  closed := fun a b ha hab => ha.tail hab
  same := fun a ha hclosed => (hresolved a ha).trans (resolveNode_closed hclosed)
  low := fun a p n ha hn b hb => low_unchanged hs hpass ha hn hb
  name := by
    intro a name ha hopen
    have hnode := hresolved a ha
    rw [hopen, resolveNode] at hnode
    rw [inlinePat]
    rcases leafDef_reads hd name with ⟨hnone, hdef⟩ | ⟨q, b, hsome, hdef, hq⟩
    · rw [hnone]
      rw [hdef] at hnode
      exact hnode
    · rw [hsome]
      rw [hdef] at hnode
      have hb : Met h g b := .single (walksTo_def hg (leafDef_spec hleaf hdef).1)
      exact ⟨b, hnode, closed_unchanged hs hpass hresolved hb hq (inlinable_eq_some hsome).2⟩

theorem heap_ext (hlength : h'.length = h.length) (hnode : ∀ a, node h' a = node h a) : h' = h := by
  refine List.ext_getElem hlength fun a ha ha' => ?_
  have hsame := hnode a
  rwa [node, node, List.getD_eq_getElem _ _ ha, List.getD_eq_getElem _ _ ha'] at hsame

theorem pass_did (hg : node h g = .grammar start ds) (hd : ReadsDefs h gd ds)
    (hpass : Passing h g ds (countsOf gd) d)
    (hresolved : ∀ b, Met h g b → node d.heap b = resolveNode ds (countsOf gd) (node h b)) :
    d.did = inlinesAny gd := by
  have hread : Reads h (.grammar start gd) g := ⟨ds, hg, hd⟩
  cases hany : inlinesAny gd with
  | true =>
      obtain ⟨name, hname, hin⟩ := List.any_eq_true.mp hany
      obtain ⟨b, hb, hopen⟩ := (mem_unresolved_iff hread name).mp hname
      rcases leafDef_reads hd name with ⟨hnone, -⟩ | ⟨q, c, -, hdef, -⟩
      · rw [hnone] at hin
        cases hin
      · cases hdid : d.did with
        | true => rfl
        | false =>
            have hnode := hresolved b hb
            rw [hpass.quiet hdid, hopen, resolveNode, hdef] at hnode
            cases hnode
  | false =>
      cases hdid : d.did with
      | false => rfl
      | true =>
          have hfewer := hpass.fewer hdid
          rw [heap_ext hpass.between.1 fun b => ?_] at hfewer
          · exact absurd hfewer (lt_irrefl _)
          · rcases hpass.between.node_cases b with hsame | ⟨name, hnew, hb, hopen⟩
            · exact hsame
            · have hname := (mem_unresolved_iff hread name).mpr ⟨b, hb, hopen⟩
              rcases leafDef_reads hd name with ⟨-, hdef⟩ | ⟨q, c, hsome, -⟩
              · rw [hnew, hdef, hopen]
              · have hin := List.any_eq_false.mp hany name hname
                simp [hsome] at hin

theorem grammarInline_reads (hs : Sound h roots) (hg : node h g = .grammar start ds)
    (hd : ReadsDefs h gd ds) : ∃ h' gd', Settles (fun k => PatternHeap.grammarInline k g h) h' ∧
      Settles (fun k => Pattern.grammarInline k gd) gd' ∧ Reads h' (.grammar start gd') g := by
  induction hcount : openCount h using Nat.strong_induction_on generalizing h gd with
  | h count ih =>
      subst hcount
      obtain ⟨counts, d, hleaf, hcounts, hrun, hpass, hresolved⟩ := grammarInlineOnce_settles hs hg
      rw [hcounts.unique (countsOf_settles hd)] at hleaf hpass hresolved
      have hcarried := pass_carried hs hg hd hleaf hpass hresolved
      have hd' := hcarried.readsDefs (fun b hb => .single (by rw [WalksTo, hg]; exact hb)) hd
      have hg' : node d.heap g = .grammar start ds := by
        rw [hresolved g .refl, hg]
        rfl
      have hdid := pass_did hg hd hpass hresolved
      cases hany : inlinesAny gd with
      | false =>
          rw [hany] at hdid
          refine ⟨d.heap, gd, grammarInline_last hrun hdid, ?_, ds, hg', ?_⟩
          · refine Settles.of_succ (settles_some gd) fun k => ?_
            rw [Pattern.grammarInline, if_neg (by simp [hany])]
          · rw [hpass.quiet hdid]
            exact hd
      | true =>
          rw [hany] at hdid
          obtain ⟨h', gd', hheap, htree, hread⟩ :=
            ih _ (hpass.fewer hdid) (hpass.between.sound hs hg hleaf) hg' hd' rfl
          refine ⟨h', gd', grammarInline_again hrun hdid hheap, ?_, hread⟩
          refine Settles.of_succ htree fun k => ?_
          rw [Pattern.grammarInline, if_pos hany]

end Pass

end Libpeg.InliningRefinement
