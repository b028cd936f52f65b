import Libpeg.Operands
import Libpeg.Searching

namespace Libpeg.CaptureIds

open Libpeg.Charset Libpeg.Opcode Libpeg.Code Libpeg.Pattern Libpeg.Compile Libpeg.MemoIds
open Libpeg.Simplify Libpeg.Denotation Libpeg.Scoping Libpeg.Reading Libpeg.Linking
open Libpeg.Operands Libpeg.GrammarCompile Libpeg.Searching

mutual

def captureIds : Pat → List Int
  | .alt l r | .seq l r => captureIds l ++ captureIds r
  | .star p | .plus p | .optional p | .not p | .and p | .search p | .memo p _
  | .check p _ _ _ | .inlined _ p | .errorRecover _ p | .repeated p _ => captureIds p
  | .cap p id => id :: captureIds p
  | .grammar _ defs => captureIdsDefs defs
  | _ => []

def captureIdsDefs : Defs → List Int
  | .nil => []
  | .cons _ p rest => captureIds p ++ captureIdsDefs rest

end

variable {ids : List Int} {g : Defs} {p q l r : Pat} {n : Nat}

section Patterns

theorem captureIds_lookup {name : String} (h : lookupDef g name = some p) :
    captureIds p ⊆ captureIdsDefs g := by
  induction g using Defs.rec (motive_1 := fun _ => True) with
  | nil => simp [lookupDef, findDef] at h
  | cons name' q rest _ ih =>
      rw [lookupDef_cons] at h
      rw [captureIdsDefs]
      split at h
      · cases h
        exact List.subset_append_left _ _
      · exact List.subset_append_of_subset_right _ (ih h)
  | _ => trivial

mutual

theorem captureIds_inlinePat (hg : captureIdsDefs g ⊆ ids) (p : Pat) (hp : captureIds p ⊆ ids) :
    captureIds (inlinePat g p) ⊆ ids := by
  cases p with
  | alt l r =>
      rw [captureIds, List.append_subset] at hp
      exact List.append_subset.mpr ⟨captureIds_inlinePat hg l hp.1, captureIds_inlinePat hg r hp.2⟩
  | seq l r =>
      rw [captureIds, List.append_subset] at hp
      exact List.append_subset.mpr ⟨captureIds_inlinePat hg l hp.1, captureIds_inlinePat hg r hp.2⟩
  | cap p id =>
      rw [captureIds, List.cons_subset] at hp
      exact List.cons_subset.mpr ⟨hp.1, captureIds_inlinePat hg p hp.2⟩
  | star p => exact captureIds_inlinePat hg p hp
  | plus p => exact captureIds_inlinePat hg p hp
  | optional p => exact captureIds_inlinePat hg p hp
  | not p => exact captureIds_inlinePat hg p hp
  | and p => exact captureIds_inlinePat hg p hp
  | search p => exact captureIds_inlinePat hg p hp
  | memo p id => exact captureIds_inlinePat hg p hp
  | check p fn id flag => exact captureIds_inlinePat hg p hp
  | inlined name p => exact captureIds_inlinePat hg p hp
  | errorRecover msg p => exact captureIds_inlinePat hg p hp
  | grammar start defs => exact captureIds_inlineDefs hg defs hp
  | nonterm name =>
      rw [inlinePat]
      split
      · next q hq =>
          change captureIds q ⊆ ids
          exact List.Subset.trans (captureIds_lookup (lookupDef_of_inlinable hq).1) hg
      · exact hp
  | repeated p n => exact hp
  | cls set => exact hp
  | literal str => exact hp
  | dot n => exact hp
  | error msg => exact hp
  | emptyop op => exact hp
  | empty => exact hp

theorem captureIds_inlineDefs (hg : captureIdsDefs g ⊆ ids) (d : Defs)
    (hd : captureIdsDefs d ⊆ ids) : captureIdsDefs (inlineDefs g d) ⊆ ids := by
  cases d with
  | nil => exact hd
  | cons name p rest =>
      rw [captureIdsDefs, List.append_subset] at hd
      exact List.append_subset.mpr
        ⟨captureIds_inlinePat hg p hd.1, captureIds_inlineDefs hg rest hd.2⟩

end

theorem captureIds_grammarInline {g' : Defs} (hg : captureIdsDefs g ⊆ ids)
    (h : grammarInline n g = some g') : captureIdsDefs g' ⊆ ids := by
  induction n generalizing g with
  | zero => cases h
  | succ n ih =>
      rw [grammarInline] at h
      split at h
      · exact ih (captureIds_inlineDefs hg g hg) h
      · cases h
        exact hg

end Patterns

section Instructions

/-- The operands of 16 bits fit, and there is no message and no checker. -/
def Slim (i : PirInsn) : Prop :=
  (∀ a ∈ shortsOf i, -32768 ≤ a ∧ a ≤ 32767) ∧ messageOf i = [] ∧ checkerOf i = []

def Narrow (code : List Pir) : Prop :=
  ∀ i, .insn i ∈ code → Slim i

variable {code code' lcode rcode : List Pir}

theorem slim_plain {i : PirInsn} (hi : shortsOf i = [] ∧ messageOf i = [] ∧ checkerOf i = []) :
    Slim i :=
  ⟨by simp [hi.1], hi.2⟩

theorem narrow_nil : Narrow [] :=
  fun _ hi => absurd hi List.not_mem_nil

theorem Narrow.append (h : Narrow code) (h' : Narrow code') :
    Narrow (code ++ code') :=
  fun i hi => (List.mem_append.mp hi).elim (h i) (h' i)

theorem Narrow.subset (h : Narrow code) (hsub : code' ⊆ code) : Narrow code' :=
  fun i hi => h i (hsub hi)

theorem Narrow.insn {i : PirInsn} (hi : Slim i) (h : Narrow code) :
    Narrow (.insn i :: code) := by
  intro j hj
  rcases List.mem_cons.mp hj with hj | hj
  · cases hj
    exact hi
  · exact h j hj

theorem Narrow.other {c : Pir} (hc : ∀ i, c ≠ .insn i) (h : Narrow code) :
    Narrow (c :: code) := by
  intro j hj
  rcases List.mem_cons.mp hj with hj | hj
  · exact absurd hj.symm (hc j)
  · exact h j hj

theorem Narrow.plain {i : PirInsn} (h : Narrow code)
    (hi : shortsOf i = [] ∧ messageOf i = [] ∧ checkerOf i = []) : Narrow (.insn i :: code) :=
  h.insn (slim_plain hi)

theorem Narrow.label {x : Nat} (h : Narrow code) : Narrow (.label x :: code) :=
  h.other (by simp)

theorem slim_disjointTest {l1 : Nat} {x y : Option Pir} {test : PirInsn}
    (h : disjointTest l1 x y = some test) : Slim test := by
  unfold disjointTest at h
  split at h
  all_goals first
    | cases h
    | split at h
      · cases h
      · cases h
        exact slim_plain ⟨rfl, rfl, rfl⟩

theorem narrow_alt (l1 l2 : Nat) (hl : Narrow lcode) (hr : Narrow rcode) :
    Narrow (altCode l1 l2 lcode rcode) := by
  have hend : Narrow (rcode ++ [.label l2]) := hr.append narrow_nil.label
  unfold altCode
  split
  · next test htest =>
      have hdrop := hl.subset (List.drop_subset 1 lcode)
      simp only [List.append_assoc]
      exact (hdrop.append (hend.label.plain ⟨rfl, rfl, rfl⟩)).insn (slim_disjointTest htest)
  · simp only [List.append_assoc]
    exact (hl.append (hend.label.plain ⟨rfl, rfl, rfl⟩)).plain ⟨rfl, rfl, rfl⟩

theorem Narrow.between {pre post : List Pir} (h : Narrow code)
    (hpre : Narrow pre) (hpost : Narrow post) : Narrow (pre ++ code ++ post) :=
  (hpre.append h).append hpost

theorem narrow_cap {id : Int} (h : Narrow code) (hid : -32768 ≤ id ∧ id ≤ 32767) :
    Narrow (capCode id code) := by
  have hslim : ∀ i, shortsOf i ⊆ [id] → messageOf i = [] → checkerOf i = [] → Slim i :=
    fun i hi hmsg hchecker => ⟨fun a ha => List.mem_singleton.mp (hi ha) ▸ hid, hmsg, hchecker⟩
  have hend : Narrow [.insn .captureEnd] := narrow_nil.plain ⟨rfl, rfl, rfl⟩
  unfold capCode
  dsimp only
  split
  · exact h.between (narrow_nil.insn (hslim _ (by simp [shortsOf]) rfl rfl)) hend
  · split
    · exact h.append (narrow_nil.insn (hslim _ (by simp [shortsOf]) rfl rfl))
    · have hrun := h.subset (List.takeWhile_sublist fun i => (matchWidth i).isSome).subset
      have hrest := h.subset (List.dropWhile_sublist fun i => (matchWidth i).isSome).subset
      refine hrest.between (hrun.append (narrow_nil.insn (hslim _ ?_ rfl rfl))) hend
      exact List.Subset.refl [id]

theorem narrow_nopNext (h : Narrow code) : Narrow (nopNext code) := by
  induction code with
  | nil => exact h
  | cons c code ih =>
      have htail := ih (h.subset (List.subset_cons_self c code))
      rw [nopNext]
      split
      · exact (h.subset (List.subset_cons_self c code)).plain ⟨rfl, rfl, rfl⟩
      · intro i hi
        rcases List.mem_cons.mp hi with hi | hi
        · exact h i (hi ▸ List.mem_cons_self)
        · exact htail i hi

theorem narrow_resolve (labelOf : String → Option Nat) (h : Narrow code) :
    Narrow (resolveCalls labelOf code).1 := by
  induction code with
  | nil => exact h
  | cons c code ih =>
      have htail := ih (h.subset (List.subset_cons_self c code))
      cases c with
      | label x => exact htail.label
      | insn i => exact htail.insn (h i List.mem_cons_self)
      | openCall name =>
          rw [resolveCalls]
          cases labelOf name with
          | none => exact h
          | some l =>
              dsimp only
              split
              · split
                · exact htail.plain ⟨rfl, rfl, rfl⟩
                · exact (narrow_nopNext htail).plain ⟨rfl, rfl, rfl⟩
              · exact htail.plain ⟨rfl, rfl, rfl⟩

theorem narrow_literal (str : List UInt8) :
    Narrow (str.map fun b => .insn (.char b.toNat)) := by
  intro i hi
  obtain ⟨b, -, hb⟩ := List.mem_map.mp hi
  cases hb
  exact slim_plain ⟨rfl, rfl, rfl⟩

end Instructions

section Compilation

variable {ctx : Pctx}

theorem getPat_scoped {inside : Bool} (hp : basic p = true) (hs : Scoped inside p) :
    Returns (fun q => basic q = true ∧ Scoped inside q) (getPat n p) :=
  fun _ hq => ⟨(getPat_reads hq hp).basic, (getPat_reads hq hp).scopes inside hs⟩

/-- The operands in the code of a basic pattern fit when the ids of its captures do. -/
theorem compile_narrow (n : Nat) :
    (∀ ctx p inside, basic p = true → Scoped inside p →
      Returns (fun x => Narrow x.1) (compilePat n ctx p)) ∧
    (∀ ctx p count inside, basic p = true → Scoped inside (.repeated p count) →
      Returns (fun x => Narrow x.1) (compileRepeat n ctx p count)) ∧
    (∀ ctx start g inside, basicDefs g = true → Scoped inside (.grammar start g) →
      Returns (fun x => Narrow x.1) (compileGrammar n ctx start g)) ∧
    ∀ ctx keep i g, basicDefs g = true →
      (∀ j q, keep (i + j) = true → defAt g j = some q → Scoped true q) →
      Returns (fun x => Narrow x.1) (compileDefs n ctx keep i g) := by
  induction n with
  | zero =>
      refine ⟨?_, ?_, ?_, ?_⟩ <;>
        · intros
          rintro x ⟨⟩
  | succ n ih =>
      obtain ⟨ihp, ihr, ihg, ihd⟩ := ih
      have hreads := fun p inside hp hs => @getPat_scoped p n inside hp hs
      refine ⟨fun ctx p inside hp hs => ?_, fun ctx p count inside hp hs => ?_,
        fun ctx start g inside hg hs => ?_, fun ctx keep i g hg hs => ?_⟩
      · cases hs with
        | @alt _ l r hl hr =>
            obtain ⟨hbl, hbr⟩ := Bool.and_eq_true_iff.mp hp
            refine Returns.bind (hreads l _ hbl hl) fun lp hlp =>
              Returns.bind (hreads r _ hbr hr) fun rp hrp => ?_
            split
            · exact returns_some (narrow_nil.plain ⟨rfl, rfl, rfl⟩)
            · exact Returns.bind (ihp _ _ _ hlp.1 hlp.2) fun x hx =>
                Returns.bind (ihp _ _ _ hrp.1 hrp.2) fun y hy => returns_some (narrow_alt _ _ hx hy)
        | @seq _ l r hl hr =>
            obtain ⟨hbl, hbr⟩ := Bool.and_eq_true_iff.mp hp
            exact Returns.bind (hreads l _ hbl hl) fun lp hlp =>
              Returns.bind (ihp _ _ _ hlp.1 hlp.2) fun x hx =>
                Returns.bind (hreads r _ hbr hr) fun rp hrp =>
                  Returns.bind (ihp _ _ _ hrp.1 hrp.2) fun y hy => returns_some (hx.append hy)
        | @not _ p hs =>
            refine Returns.bind (hreads p _ hp hs) fun sp hsp =>
              Returns.bind (ihp _ _ _ hsp.1 hsp.2) fun x hx => returns_some ?_
            exact hx.between (narrow_nil.plain ⟨rfl, rfl, rfl⟩)
              (narrow_nil.label.plain ⟨rfl, rfl, rfl⟩)
        | @star _ p hs =>
            refine Returns.bind (hreads p _ hp hs) fun sp hsp => ?_
            split
            · exact returns_some (narrow_nil.plain ⟨rfl, rfl, rfl⟩)
            · cases hsp.1
            · refine Returns.bind (ihp _ _ _ hsp.1 hsp.2) fun x hx => returns_some ?_
              exact hx.between (narrow_nil.label.plain ⟨rfl, rfl, rfl⟩)
                (narrow_nil.label.plain ⟨rfl, rfl, rfl⟩)
        | @plus _ p hs =>
            exact Returns.bind (hreads p _ hp hs) fun sp hsp =>
              Returns.bind (ihp _ (.star sp) _ hsp.1 (.star hsp.2)) fun x hx =>
                Returns.bind (ihp _ _ _ hsp.1 hsp.2) fun y hy => returns_some (hy.append hx)
        | @optional _ p hs =>
            refine Returns.bind (hreads p _ hp hs) fun sp hsp => ?_
            split
            · exact returns_some (narrow_nil.label.plain ⟨rfl, rfl, rfl⟩)
            · exact returns_some (narrow_nil.label.plain ⟨rfl, rfl, rfl⟩)
            · intro z hz
              obtain ⟨q, x, ctx', l1, l2, hq, hx, rfl, -⟩ := compile_orEmpty n _ _ z hz
              obtain ⟨hbasic, hsq⟩ := hreads sp _ hsp.1 hsp.2 q hq
              exact narrow_alt _ _ (ihp _ _ _ hbasic hsq x hx) narrow_nil
        | @and _ p hs =>
            refine Returns.bind (hreads p _ hp hs) fun sp hsp =>
              Returns.bind (ihp _ _ _ hsp.1 hsp.2) fun x hx => returns_some ?_
            have hend : Narrow [.insn .fail, .label (pctxLabel (pctxLabel x.2).2).1] :=
              narrow_nil.label.plain ⟨rfl, rfl, rfl⟩
            exact hx.between (narrow_nil.plain ⟨rfl, rfl, rfl⟩) (hend.label.plain ⟨rfl, rfl, rfl⟩)
        | @cap _ p id hs hid =>
            exact Returns.bind (hreads p _ hp hs) fun sp hsp =>
              Returns.bind (ihp _ _ _ hsp.1 hsp.2) fun x hx => returns_some (narrow_cap hx hid)
        | @search _ p hs hname =>
            exact Returns.bind (hreads p _ hp hs) fun sp hsp =>
              Returns.bind (ihp _ _ _ hsp.1 hsp.2) fun x hx =>
                ihg _ _ _ inside (basic_searchDefs hsp.1 _) (scoped_search hsp.2)
        | grammar hinline hdefs hrepeats => exact ihg ctx _ _ inside hp (.grammar hinline hdefs hrepeats)
        | inlined hs => exact ihp ctx _ _ hp hs
        | repeated hs => exact ihr ctx _ _ inside hp (.repeated hs)
        | cls => exact returns_some (narrow_nil.plain ⟨rfl, rfl, rfl⟩)
        | literal => exact returns_some (narrow_literal _)
        | nonterm => exact returns_some (narrow_nil.other (by simp))
        | dot => exact returns_some (narrow_nil.plain ⟨rfl, rfl, rfl⟩)
        | emptyop => exact returns_some (narrow_nil.plain ⟨rfl, rfl, rfl⟩)
        | memo => cases hp
        | check => cases hp
        | error => cases hp
        | errorRecover => cases hp
        | empty => cases hp
      · cases count with
        | zero => exact returns_some narrow_nil
        | succ count =>
            cases hs with
            | repeated hs =>
                have hs := hs count.succ_ne_zero
                exact Returns.bind (ihp ctx p _ hp hs) fun x hx =>
                  Returns.bind (ihr _ _ _ inside hp (.repeated fun _ => hs)) fun y hy =>
                    returns_some (hx.append hy)
      · refine Returns.bind (fun _ h => h) fun g' hin => ?_
        have hg' := basicDefs_grammarInline hg hin
        dsimp only
        split
        · exact returns_some narrow_nil
        · next startidx hstart =>
            split
            · obtain ⟨q, hq⟩ := findDef_defAt hstart
              have hdef : lookupDef g' start = some q := by
                rw [lookupDef, hstart]
                exact hq
              rw [hq, Option.getD_some]
              exact ihp ctx q true (basicDefs_lookup hg' hdef) (hs.kept hin hstart (by simp) hq)
            · refine Returns.bind (ihd _ _ 0 g' hg' fun j q hkeep hq =>
                hs.kept hin hstart (by rwa [Nat.zero_add] at hkeep) hq) fun x hx => ?_
              have hcode := narrow_resolve
                (fun name => (findDef g' name).bind fun i => x.2.1.getD i none)
                (((hx.plain ⟨rfl, rfl, rfl⟩).other (by simp) :
                  Narrow ([.openCall start, .insn (.jump (pctxLabel ctx).1)] ++ x.1)))
              split
              · exact returns_some hcode
              · exact returns_some (hcode.append narrow_nil.label)
      · cases g with
        | nil => exact returns_some narrow_nil
        | cons name p rest =>
            obtain ⟨hp, hrest⟩ := Bool.and_eq_true_iff.mp hg
            have hdefs : ∀ j q, keep (i + 1 + j) = true → defAt rest j = some q → Scoped true q :=
              fun j q hkeep hq => hs (j + 1) q (by rwa [Nat.add_comm j, ← Nat.add_assoc]) hq
            rw [compileDefs]
            split
            · next hkeep =>
                refine Returns.bind (ihp _ _ true hp (hs 0 p hkeep rfl)) fun x hx =>
                  Returns.bind (ihd _ _ _ _ hrest hdefs) fun y hy => returns_some ?_
                have hdef := hx.between (narrow_nil.label (x := (pctxLabel ctx).1))
                  (narrow_nil.plain (i := .ret) ⟨rfl, rfl, rfl⟩)
                exact hdef.append hy
            · exact Returns.bind (ihd _ _ _ _ hrest hdefs) fun y hy => returns_some hy

end Compilation

end Libpeg.CaptureIds
