import Libpeg.CompileTotal

namespace Libpeg.MemoIds

open Libpeg.Charset Libpeg.Opcode Libpeg.Code Libpeg.Pattern Libpeg.Compile

/-- `pat_memo_id`: the pattern, and the counter after it. -/
def patMemoId (counter : Int) (p : Pat) (id : Int) : Pat × Int :=
  (.memo p id, if id > counter then id + 1 else counter)

/-- `pat_memo`. -/
def patMemo (counter : Int) (p : Pat) : Pat × Int :=
  patMemoId (counter + 1) p counter

/-- A call that may take ids from the counter. -/
inductive IdCall where
  | memo (p : Pat)
  | memoId (p : Pat) (id : Int)
  | compile (p : Pat)

def memoIdOf : Pat → List Int
  | .memo _ id => [id]
  | _ => []

/-- The ids from `lo` up to `hi`. -/
def idRange (lo hi : Int) : List Int :=
  (List.range (hi - lo).toNat).map fun k : Nat => lo + (k : Int)

def treeId : Pir → Option Int
  | .insn (.memoTreeOpen _ id) => some id
  | _ => none

def treeIds (code : List Pir) : List Int :=
  code.filterMap treeId

@[simp] theorem treeIds_nil : treeIds [] = [] :=
  rfl

@[simp] theorem treeIds_append (code code' : List Pir) :
    treeIds (code ++ code') = treeIds code ++ treeIds code' :=
  List.filterMap_append

@[simp] theorem treeIds_cons (i : Pir) (code : List Pir) :
    treeIds (i :: code) = (treeId i).toList ++ treeIds code := by
  rw [treeIds, List.filterMap_cons]
  cases treeId i <;> rfl

section Compiler

/-- Nothing is claimed of a computation whose bound does not suffice. -/
def Returns {α : Type} (Q : α → Prop) (x : Option α) : Prop :=
  ∀ a, x = some a → Q a

theorem Returns.bind {α β : Type} {P : α → Prop} {Q : β → Prop} {x : Option α}
    {f : α → Option β} (hx : Returns P x) (hf : ∀ a, P a → Returns Q (f a)) :
    Returns Q (x.bind f) := by
  intro b hb
  obtain ⟨a, ha, hfa⟩ := Option.bind_eq_some_iff.mp hb
  exact hf a (hx a ha) b hfa

theorem Returns.skip {α β : Type} {Q : β → Prop} {x : Option α} {f : α → Option β}
    (hf : ∀ a, Returns Q (f a)) : Returns Q (x.bind f) :=
  Returns.bind (P := fun _ => True) (fun _ _ => trivial) fun a _ => hf a

theorem returns_some {α : Type} {Q : α → Prop} {a : α} (h : Q a) : Returns Q (some a) := by
  rintro b ⟨⟩
  exact h

/-- The tree memoizations of some code have different ids between two values of
the counter. -/
structure Ids (lo hi : Int) (code : List Pir) : Prop where
  le : lo ≤ hi
  nodup : (treeIds code).Nodup
  range : ∀ id ∈ treeIds code, lo ≤ id ∧ id < hi

variable {lo mid hi : Int} {code code' : List Pir}

theorem Ids.sublist (h : Ids lo hi code) (hsub : (treeIds code').Sublist (treeIds code)) :
    Ids lo hi code' :=
  ⟨h.le, h.nodup.sublist hsub, fun id hid => h.range id (hsub.subset hid)⟩

theorem Ids.of_eq (h : Ids lo hi code) (heq : treeIds code' = treeIds code) : Ids lo hi code' :=
  h.sublist (heq ▸ List.Sublist.refl _)

theorem ids_nil (lo : Int) (h : treeIds code = []) : Ids lo lo code := by
  refine ⟨le_rfl, ?_, ?_⟩
  · rw [h]
    exact List.nodup_nil
  · rw [h]
    exact fun id hid => absurd hid List.not_mem_nil

theorem Ids.append (h : Ids lo mid code) (h' : Ids mid hi code') : Ids lo hi (code ++ code') := by
  have hle := h.le
  have hle' := h'.le
  refine ⟨h.le.trans h'.le, ?_, ?_⟩
  · rw [treeIds_append, List.nodup_append]
    refine ⟨h.nodup, h'.nodup, fun a ha b hb => ?_⟩
    have hlt := (h.range a ha).2
    have hge := (h'.range b hb).1
    omega
  · rw [treeIds_append]
    intro id hid
    rcases List.mem_append.mp hid with hid | hid
    · have := h.range id hid
      omega
    · have := h'.range id hid
      omega

theorem Ids.append_rev (h : Ids lo mid code) (h' : Ids mid hi code') :
    Ids lo hi (code' ++ code) := by
  have happ := h.append h'
  refine ⟨happ.le, ?_, fun id hid => happ.range id ?_⟩
  · rw [treeIds_append, List.nodup_append_comm, ← treeIds_append]
    exact happ.nodup
  · rw [treeIds_append, List.mem_append] at hid ⊢
    exact hid.symm

theorem Ids.after (h : Ids lo mid code) (h' : Ids mid hi code') : Ids lo hi code' := by
  have hle := h.le
  refine ⟨h.le.trans h'.le, h'.nodup, fun id hid => ?_⟩
  have := h'.range id hid
  omega

theorem altCode_treeIds (l1 l2 : Nat) (l r : List Pir) :
    (treeIds (altCode l1 l2 l r)).Sublist (treeIds (l ++ r)) := by
  have hdrop : (treeIds (l.drop 1)).Sublist (treeIds l) := (List.drop_sublist 1 l).filterMap _
  unfold altCode
  split
  · next test htest =>
      have hnone : treeId (.insn test) = none := by
        unfold disjointTest at htest
        split at htest
        all_goals
          first
          | split at htest
            · cases htest
            · cases htest
              rfl
          | cases htest
      simp only [treeIds_append, treeIds_cons, treeIds_nil, hnone]
      simp only [treeId, Option.toList_none, List.nil_append, List.append_nil]
      exact hdrop.append (List.Sublist.refl _)
  · simp only [treeIds_append, treeIds_cons, treeIds_nil, treeId, Option.toList_none,
      List.nil_append, List.append_nil]
    exact List.Sublist.refl _

theorem capCode_treeIds (id : Int) (sub : List Pir) : treeIds (capCode id sub) = treeIds sub := by
  have hsplit := List.takeWhile_append_dropWhile (p := fun i => (matchWidth i).isSome) (l := sub)
  unfold capCode
  dsimp only
  split
  · simp [treeId]
  · split
    · simp [treeId]
    · conv_rhs => rw [← hsplit, treeIds_append]
      simp [treeId]

theorem nopNext_treeIds (code : List Pir) : (treeIds (nopNext code)).Sublist (treeIds code) := by
  induction code with
  | nil => exact List.Sublist.refl _
  | cons i rest ih =>
      rw [nopNext]
      split
      · rw [treeIds_cons, treeIds_cons]
        exact List.sublist_append_right _ _
      · rw [treeIds_cons, treeIds_cons]
        exact (List.Sublist.refl _).append ih

theorem resolveCalls_treeIds (labelOf : String → Option Nat) (code : List Pir) :
    (treeIds (resolveCalls labelOf code).1).Sublist (treeIds code) := by
  induction code with
  | nil => exact List.Sublist.refl _
  | cons i rest ih =>
      cases i with
      | openCall name =>
          rw [resolveCalls]
          cases labelOf name with
          | none => exact List.Sublist.refl _
          | some l =>
              have hskip : ∀ k : PirInsn, treeId (.insn k) = none → ∀ code,
                  (treeIds code).Sublist (treeIds rest) →
                  (treeIds (.insn k :: code)).Sublist (treeIds (.openCall name :: rest)) := by
                intro k hk code hcode
                rw [treeIds_cons, treeIds_cons, hk]
                exact hcode
              dsimp only
              split
              · apply hskip _ rfl
                split
                · exact ih
                · exact (nopNext_treeIds _).trans ih
              · exact hskip _ rfl _ ih
      | label l => exact ih
      | insn i =>
          rw [resolveCalls, treeIds_cons, treeIds_cons]
          · exact (List.Sublist.refl _).append ih
          · exact fun name h => by cases h

theorem literal_treeIds (str : List UInt8) :
    treeIds (str.map fun b => .insn (.char b.toNat)) = [] := by
  induction str with
  | nil => rfl
  | cons b str ih => exact ih

theorem Ids.memoTree (h : Ids lo hi code) (l1 l2 l3 nojump : Nat) :
    Ids lo (hi + 1) (memoTreeCode l1 l2 l3 nojump hi code) := by
  have heq : treeIds (memoTreeCode l1 l2 l3 nojump hi code) = hi :: treeIds code := by
    simp [memoTreeCode, treeId]
  have hle := h.le
  refine ⟨by omega, ?_, ?_⟩
  · rw [heq, List.nodup_cons]
    exact ⟨fun hmem => absurd (h.range hi hmem).2 (lt_irrefl hi), h.nodup⟩
  · rw [heq]
    intro id hid
    rcases List.mem_cons.mp hid with rfl | hid
    · omega
    · have := h.range id hid
      omega

/-- Compilation takes ids from the counter, and different ones for all the tree
memoizations of the code. -/
theorem compile_ids (n : Nat) :
    (∀ ctx p, Returns (fun x => Ids ctx.memoCounter x.2.memoCounter x.1) (compilePat n ctx p)) ∧
    (∀ ctx p count, Returns (fun x => Ids ctx.memoCounter x.2.memoCounter x.1)
      (compileRepeat n ctx p count)) ∧
    (∀ ctx start g, Returns (fun x => Ids ctx.memoCounter x.2.memoCounter x.1)
      (compileGrammar n ctx start g)) ∧
    ∀ ctx keep i g, Returns (fun x => Ids ctx.memoCounter x.2.2.memoCounter x.1)
      (compileDefs n ctx keep i g) := by
  induction n with
  | zero =>
      refine ⟨?_, ?_, ?_, ?_⟩ <;>
        · intros
          rintro x ⟨⟩
  | succ n ih =>
      obtain ⟨ihp, ihr, ihg, ihd⟩ := ih
      refine ⟨fun ctx p => ?_, fun ctx p count => ?_, fun ctx start g => ?_,
        fun ctx keep i g => ?_⟩
      · cases p with
        | alt l r =>
            refine Returns.skip fun lp => Returns.skip fun rp => ?_
            split
            · exact returns_some (ids_nil _ rfl)
            · refine Returns.bind (ihp _ _) fun x hx => Returns.bind (ihp _ _) fun y hy => ?_
              exact returns_some ((hx.append hy).sublist (altCode_treeIds _ _ _ _))
        | seq l r =>
            exact Returns.skip fun lp => Returns.bind (ihp _ _) fun x hx =>
              Returns.skip fun rp => Returns.bind (ihp _ _) fun y hy =>
                returns_some (hx.append hy)
        | star p =>
            refine Returns.skip fun sp => ?_
            split
            · exact returns_some (ids_nil _ rfl)
            · exact Returns.skip fun bp => Returns.bind (ihp _ _) fun x hx =>
                returns_some (hx.memoTree _ _ _ _)
            · exact Returns.bind (ihp _ _) fun x hx =>
                returns_some (hx.of_eq (by simp [starCode, treeId]))
        | plus p =>
            exact Returns.skip fun sp => Returns.bind (ihp _ _) fun x hx =>
              Returns.bind (ihp _ _) fun y hy => returns_some (hx.append_rev hy)
        | optional p =>
            refine Returns.skip fun sp => ?_
            split
            · exact returns_some (ids_nil _ rfl)
            · exact returns_some (ids_nil _ rfl)
            · exact ihp _ _
        | not p =>
            exact Returns.skip fun sp => Returns.bind (ihp _ _) fun x hx =>
              returns_some (hx.of_eq (by simp [treeId]))
        | and p =>
            exact Returns.skip fun sp => Returns.bind (ihp _ _) fun x hx =>
              returns_some (hx.of_eq (by simp [treeId]))
        | cap p id =>
            exact Returns.skip fun sp => Returns.bind (ihp _ _) fun x hx =>
              returns_some (hx.of_eq (capCode_treeIds _ _))
        | memo p id =>
            exact Returns.skip fun sp => Returns.bind (ihp _ _) fun x hx =>
              returns_some (hx.of_eq (by simp [treeId]))
        | check p fn id flag =>
            exact Returns.skip fun sp => Returns.bind (ihp _ _) fun x hx =>
              returns_some (hx.of_eq (by simp [treeId]))
        | search p =>
            exact Returns.skip fun sp => Returns.bind (ihp _ _) fun x hx => fun y hy =>
              hx.after (ihg _ _ _ y hy)
        | grammar start defs => exact ihg ctx start defs
        | inlined name p => exact ihp ctx p
        | errorRecover msg p =>
            exact Returns.bind (ihp ctx p) fun x hx =>
              returns_some (hx.of_eq (by simp [treeId]))
        | repeated p count => exact ihr ctx p count
        | literal str => exact returns_some (ids_nil _ (literal_treeIds str))
        | _ => exact returns_some (ids_nil _ rfl)
      · cases count with
        | zero => exact returns_some (ids_nil _ rfl)
        | succ count =>
            exact Returns.bind (ihp ctx p) fun x hx => Returns.bind (ihr _ _ _) fun y hy =>
              returns_some (hx.append hy)
      · refine Returns.skip fun g' => ?_
        dsimp only
        split
        · exact returns_some (ids_nil _ rfl)
        · split
          · exact ihp _ _
          · refine Returns.bind (ihd _ _ _ _) fun x hx => ?_
            have hcode := fun labelOf => hx.sublist (resolveCalls_treeIds labelOf
              ([.openCall start, .insn (.jump ctx.nlabels)] ++ x.1))
            split
            · exact returns_some (hcode _)
            · exact returns_some ((hcode _).append (ids_nil _ rfl))
      · cases g with
        | nil => exact returns_some (ids_nil _ rfl)
        | cons name p rest =>
            rw [compileDefs]
            split
            · refine Returns.bind (ihp _ _) fun x hx => Returns.bind (ihd _ _ _ _) fun y hy => ?_
              exact returns_some ((hx.append hy).of_eq (by simp [treeId]))
            · exact Returns.bind (ihd _ _ _ _) fun y hy => returns_some hy

end Compiler

/-- What a call does to the counter: the ids it takes from the counter, and those
it is given. `none` when the bound does not suffice for a compilation. -/
def idCall (fuel : Nat) (counter : Int) : IdCall → Option (List Int × List Int × Int)
  | .memo p =>
      let (q, counter') := patMemo counter p
      some (memoIdOf q, [], counter')
  | .memoId p id =>
      let (q, counter') := patMemoId counter p id
      some ([], memoIdOf q, counter')
  | .compile p => do
      let (_, ctx) ← compilePat fuel ⟨0, counter, none⟩ p
      return (idRange counter ctx.memoCounter, [], ctx.memoCounter)

/-- In a sequence of calls, every id that is taken from the counter differs from all
ids that were taken or given before; the tree memoizations of compiled code have
different ones of them. -/
def IdsFresh (fuel : Nat) : Int → List Int → List IdCall → Prop
  | _, _, [] => True
  | counter, seen, c :: calls =>
      ∀ x ∈ idCall fuel counter c,
        (∀ id ∈ x.1, id ∉ seen) ∧ x.1.Nodup ∧
          (∀ p, c = .compile p → ∀ y ∈ compilePat fuel ⟨0, counter, none⟩ p,
            (treeIds y.1).Nodup ∧ treeIds y.1 ⊆ x.1) ∧
          IdsFresh fuel x.2.2 (seen ++ x.1 ++ x.2.1) calls

/-- An explicit id that equals the counter is followed by a larger one before the
next id is taken. `given` tells that the counter has been given and not been
advanced since. -/
def Advanced (fuel : Nat) : Int → Bool → List IdCall → Prop
  | _, _, [] => True
  | counter, given, c :: calls =>
      ∀ x ∈ idCall fuel counter c,
        (x.1 ≠ [] → given = false) ∧
          Advanced fuel x.2.2 (decide (x.2.2 = counter) && (given || x.2.1.contains counter)) calls

variable {fuel : Nat} {counter : Int} {seen : List Int}

theorem mem_idRange {lo hi id : Int} : id ∈ idRange lo hi ↔ lo ≤ id ∧ id < hi := by
  simp only [idRange, List.mem_map, List.mem_range]
  constructor
  · rintro ⟨k, hk, rfl⟩
    omega
  · intro h
    exact ⟨(id - lo).toNat, by omega, by omega⟩

theorem idRange_nodup (lo hi : Int) : (idRange lo hi).Nodup :=
  List.Nodup.map (fun a b h => by simpa using h) List.nodup_range

theorem compilePat_ids {p : Pat} {ctx : Pctx} {x : List Pir × Pctx}
    (h : compilePat fuel ctx p = some x) : Ids ctx.memoCounter x.2.memoCounter x.1 :=
  (compile_ids fuel).1 ctx p x h

/-- The ids that a call takes start at the counter, and the counter ends after them. -/
structure Taken (counter : Int) (x : List Int × List Int × Int) : Prop where
  le : counter ≤ x.2.2
  nodup : x.1.Nodup
  range : ∀ id ∈ x.1, counter ≤ id ∧ id < x.2.2
  first : x.1 ≠ [] → counter ∈ x.1
  given : ∀ id ∈ x.2.1, id ≤ x.2.2 ∧ (id = x.2.2 → x.2.2 = counter)

theorem idCall_taken {c : IdCall} {x : List Int × List Int × Int}
    (h : idCall fuel counter c = some x) : Taken counter x := by
  cases c with
  | memo p =>
      have hle : ¬counter > counter + 1 := by omega
      simp only [idCall, patMemo, patMemoId, memoIdOf, if_neg hle, Option.some.injEq] at h
      subst h
      constructor <;> simp
  | memoId p id =>
      simp only [idCall, patMemoId, memoIdOf, Option.some.injEq] at h
      subst h
      constructor
      · dsimp only
        split <;> omega
      · exact List.nodup_nil
      · exact fun id hid => absurd hid List.not_mem_nil
      · exact fun hne => absurd rfl hne
      · intro i hi
        obtain rfl := List.mem_singleton.mp hi
        dsimp only
        split <;> omega
  | compile p =>
      obtain ⟨⟨code, ctx⟩, hcompile, hx⟩ := Option.bind_eq_some_iff.mp h
      cases hx
      have hids := compilePat_ids hcompile
      refine ⟨hids.le, idRange_nodup _ _, fun id hid => mem_idRange.mp hid, fun hne => ?_,
        fun id hid => absurd hid List.not_mem_nil⟩
      obtain ⟨id, hid⟩ := List.exists_mem_of_ne_nil _ hne
      have := mem_idRange.mp hid
      exact mem_idRange.mpr ⟨le_rfl, by omega⟩

theorem idCall_compile {p : Pat} {x : List Int × List Int × Int} {y : List Pir × Pctx}
    (h : idCall fuel counter (.compile p) = some x)
    (hy : compilePat fuel ⟨0, counter, none⟩ p = some y) :
    (treeIds y.1).Nodup ∧ treeIds y.1 ⊆ x.1 := by
  rw [idCall, hy] at h
  cases h
  have hids := compilePat_ids hy
  exact ⟨hids.nodup, fun id hid => mem_idRange.mpr (hids.range id hid)⟩

/-- All ids so far are at most the counter, and the counter is one of them exactly
when it has been given. -/
structure Seen (counter : Int) (given : Bool) (seen : List Int) : Prop where
  le : ∀ id ∈ seen, id ≤ counter
  given : counter ∈ seen ↔ given = true

theorem Seen.call {given : Bool} (h : Seen counter given seen)
    {x : List Int × List Int × Int} (hx : Taken counter x) :
    Seen x.2.2 (decide (x.2.2 = counter) && (given || x.2.1.contains counter))
      (seen ++ x.1 ++ x.2.1) := by
  have hle := hx.le
  constructor
  · intro id hid
    rcases List.mem_append.mp hid with hid | hid
    · rcases List.mem_append.mp hid with hid | hid
      · exact (h.le id hid).trans hle
      · exact (hx.range id hid).2.le
    · exact (hx.given id hid).1
  · simp only [List.mem_append, Bool.and_eq_true, Bool.or_eq_true, decide_eq_true_eq,
      List.contains_iff_mem, ← h.given]
    constructor
    · rintro ((hmem | hmem) | hmem)
      · have heq : x.2.2 = counter := le_antisymm (h.le _ hmem) hle
        exact ⟨heq, .inl (heq ▸ hmem)⟩
      · exact absurd (hx.range _ hmem).2 (lt_irrefl _)
      · have heq : x.2.2 = counter := (hx.given _ hmem).2 rfl
        exact ⟨heq, .inr (heq ▸ hmem)⟩
    · rintro ⟨heq, hmem | hmem⟩
      · exact .inl (.inl (heq ▸ hmem))
      · exact .inr (heq ▸ hmem)

theorem idsFresh_iff {given : Bool} (h : Seen counter given seen) (calls : List IdCall) :
    IdsFresh fuel counter seen calls ↔ Advanced fuel counter given calls := by
  induction calls generalizing counter given seen with
  | nil => exact Iff.rfl
  | cons c calls ih =>
      refine forall₂_congr fun x hx => ?_
      have htaken := idCall_taken hx
      rw [ih (h.call htaken)]
      constructor
      · rintro ⟨hfresh, -, -, hrest⟩
        refine ⟨fun hne => ?_, hrest⟩
        have hnot := hfresh counter (htaken.first hne)
        rwa [h.given, Bool.not_eq_true] at hnot
      · rintro ⟨hgiven, hrest⟩
        refine ⟨fun id hid hseen => ?_, htaken.nodup, ?_, hrest⟩
        · -- an id that was seen and is taken is the counter itself
          have hlow := (htaken.range id hid).1
          have heq : id = counter := le_antisymm (h.le id hseen) hlow
          have htrue := h.given.mp (heq ▸ hseen)
          rw [hgiven (List.ne_nil_of_mem hid)] at htrue
          exact absurd htrue Bool.false_ne_true
        · rintro p rfl y hy
          exact idCall_compile hx hy

/-- The ids that are taken from the counter are fresh exactly when every explicit id
that equals the counter is followed by a larger one before the next id is taken. -/
theorem memo_ids_fresh_iff (fuel : Nat) (calls : List IdCall) :
    IdsFresh fuel 0 [] calls ↔ Advanced fuel 0 false calls :=
  idsFresh_iff ⟨fun _ hid => absurd hid List.not_mem_nil, by simp⟩ calls

/-- The first id that is taken is the one that was given. -/
theorem memo_ids_not_fresh :
    ¬∀ (fuel : Nat) (calls : List IdCall), IdsFresh fuel 0 [] calls := by
  intro h
  have hcalls := h 0 [.memoId .empty 0, .memo .empty]
  obtain ⟨-, -, -, hmemo⟩ := hcalls _ rfl
  exact (hmemo _ rfl).1 0 List.mem_cons_self List.mem_cons_self

end Libpeg.MemoIds
