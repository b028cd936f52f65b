import Libpeg.Memo
import Libpeg.IntervalHandles
import Mathlib.Logic.Relation
import Mathlib.Logic.Function.Basic

namespace Libpeg.MemoView

open Libpeg.IntervalTree Libpeg.IntervalCells Libpeg.IntervalRefinement
open Libpeg.IntervalHandles Libpeg.Memo

/-- A capture with an absolute start. -/
structure VCell where
  id : Int
  dummy : Bool
  start : Int
  length : Int
  children : List Nat

/-- The start of a capture, for the positions of the entries. -/
def absStart (p : Nat → Int) (c : MemoCapture) : Int :=
  match c.ment with
  | none => c.off
  | some e => p e + c.off

def vcell (p : Nat → Int) (c : MemoCapture) : VCell :=
  ⟨c.id, c.dummy, absStart p c, c.length, c.children⟩

def view (m : Mem) (p : Nat → Int) : List VCell :=
  m.caps.map (vcell p)

def ChildOf (caps : List MemoCapture) (c d : Nat) : Prop :=
  ∃ cell, caps[c]? = some cell ∧ d ∈ cell.children

def Reaches (caps : List MemoCapture) : Nat → Nat → Prop :=
  Relation.ReflTransGen (ChildOf caps)

def Older (caps : List MemoCapture) : Prop :=
  ∀ (i : Nat) (c : MemoCapture), caps[i]? = some c → ∀ d ∈ c.children, d < i

/-- The cells of `caps'` are those of `caps`, some of them changed by `f`. -/
structure Changed (f : Nat → MemoCapture → MemoCapture → Prop) (caps caps' : List MemoCapture) :
    Prop where
  length : caps'.length = caps.length
  cell : ∀ i c, caps[i]? = some c → ∃ c', caps'[i]? = some c' ∧ (c' = c ∨ f i c c')

theorem Changed.refl (f : Nat → MemoCapture → MemoCapture → Prop) (caps : List MemoCapture) :
    Changed f caps caps :=
  ⟨rfl, fun _ c hc => ⟨c, hc, .inl rfl⟩⟩

theorem Changed.mono {f g : Nat → MemoCapture → MemoCapture → Prop} {caps caps' : List MemoCapture}
    (h : Changed f caps caps') (hfg : ∀ i c c', f i c c' → g i c c') : Changed g caps caps' := by
  refine ⟨h.length, fun i c hc => ?_⟩
  obtain ⟨c', hc', heq | hf⟩ := h.cell i c hc
  · exact ⟨c', hc', .inl heq⟩
  · exact ⟨c', hc', .inr (hfg i c c' hf)⟩

theorem Changed.back {f : Nat → MemoCapture → MemoCapture → Prop} {caps caps' : List MemoCapture}
    (h : Changed f caps caps') {i : Nat} {c' : MemoCapture} (hc' : caps'[i]? = some c') :
    ∃ c, caps[i]? = some c ∧ (c' = c ∨ f i c c') := by
  have hlt : i < caps.length := by
    rw [← h.length]
    exact (List.getElem?_eq_some_iff.mp hc').1
  obtain ⟨d, hd, hor⟩ := h.cell i caps[i] (List.getElem?_eq_getElem hlt)
  cases hc'.symm.trans hd
  exact ⟨_, List.getElem?_eq_getElem hlt, hor⟩

theorem Changed.childOf {f : Nat → MemoCapture → MemoCapture → Prop}
    {caps caps' : List MemoCapture} (h : Changed f caps caps')
    (hf : ∀ i c c', f i c c' → c'.children = c.children) : ChildOf caps' = ChildOf caps := by
  funext a b
  apply propext
  constructor
  · rintro ⟨c', hc', hb⟩
    obtain ⟨c, hc, rfl | hfc⟩ := h.back hc'
    · exact ⟨c', hc, hb⟩
    · exact ⟨c, hc, hf a c c' hfc ▸ hb⟩
  · rintro ⟨c, hc, hb⟩
    obtain ⟨c', hc', rfl | hfc⟩ := h.cell a c hc
    · exact ⟨c', hc', hb⟩
    · exact ⟨c', hc', (hf a c c' hfc).symm ▸ hb⟩

theorem Changed.older {f : Nat → MemoCapture → MemoCapture → Prop}
    {caps caps' : List MemoCapture} (h : Changed f caps caps')
    (hf : ∀ i c c', f i c c' → c'.children = c.children) (hold : Older caps) : Older caps' := by
  intro i c' hc' d hd
  obtain ⟨c, hc, rfl | hfc⟩ := h.back hc'
  · exact hold i c' hc d hd
  · exact hold i c hc d (hf i c c' hfc ▸ hd)

/-- A capture without entry is made relative to the entry `e` at `pos`; it is
below one of the captures `cs`. -/
def Claimed (caps : List MemoCapture) (e : Nat) (pos : Int) (cs : List Nat) (i : Nat)
    (c c' : MemoCapture) : Prop :=
  c.ment = none ∧ c' = { c with off := c.off - pos, ment := some e } ∧
    ∃ d ∈ cs, Reaches caps d i

/-- A capture of the entry `e` at `pos` is made absolute. -/
def Released (e : Nat) (pos : Int) (_i : Nat) (c c' : MemoCapture) : Prop :=
  c.ment = some e ∧ c' = { c with off := c.off + pos, ment := none }

theorem view_ext {m m' : Mem} {p p' : Nat → Int} {f : Nat → MemoCapture → MemoCapture → Prop}
    (h : Changed f m.caps m'.caps)
    (hsame : ∀ c ∈ m.caps, vcell p' c = vcell p c)
    (hf : ∀ i c c', f i c c' → c ∈ m.caps → vcell p' c' = vcell p c) : view m' p' = view m p := by
  apply List.ext_getElem?
  intro i
  simp only [view, List.getElem?_map]
  cases hc : m.caps[i]? with
  | none =>
      have hnone : m'.caps[i]? = none := by
        rw [List.getElem?_eq_none_iff, h.length]
        exact List.getElem?_eq_none_iff.mp hc
      rw [hnone]
      rfl
  | some c =>
      have hmem := List.mem_of_getElem? hc
      obtain ⟨c', hc', rfl | hfc⟩ := h.cell i c hc
      · rw [hc', Option.map_some, hsame c' hmem]
        rfl
      · rw [hc', Option.map_some, hf i c c' hfc hmem]
        rfl

theorem Claimed.children {caps : List MemoCapture} {e : Nat} {pos : Int} {cs : List Nat} :
    ∀ i c c', Claimed caps e pos cs i c c' → c'.children = c.children := by
  rintro i c c' ⟨-, rfl, -⟩
  rfl

theorem Released.children {e : Nat} {pos : Int} :
    ∀ i c c', Released e pos i c c' → c'.children = c.children := by
  rintro i c c' ⟨-, rfl⟩
  rfl

theorem Claimed.trans {caps caps' caps'' : List MemoCapture} {e : Nat} {pos : Int}
    {cs ds : List Nat} (h : Changed (Claimed caps e pos cs) caps caps')
    (h' : Changed (Claimed caps' e pos ds) caps' caps'') :
    Changed (Claimed caps e pos (cs ++ ds)) caps caps'' := by
  have hreach : Reaches caps' = Reaches caps := by
    rw [Reaches, h.childOf Claimed.children]
    rfl
  refine ⟨h'.length.trans h.length, fun i c hc => ?_⟩
  obtain ⟨c', hc', hor⟩ := h.cell i c hc
  obtain ⟨c'', hc'', hor'⟩ := h'.cell i c' hc'
  refine ⟨c'', hc'', ?_⟩
  rcases hor' with rfl | ⟨hnone, rfl, d, hd, hdi⟩
  · rcases hor with rfl | ⟨hnone, rfl, d, hd, hdi⟩
    · exact .inl rfl
    · exact .inr ⟨hnone, rfl, d, List.mem_append_left _ hd, hdi⟩
  · rw [hreach] at hdi
    rcases hor with rfl | ⟨-, rfl, -⟩
    · exact .inr ⟨hnone, rfl, d, List.mem_append_right _ hd, hdi⟩
    · cases hnone

theorem Released.trans {caps caps' caps'' : List MemoCapture} {e : Nat} {pos : Int}
    (h : Changed (Released e pos) caps caps') (h' : Changed (Released e pos) caps' caps'') :
    Changed (Released e pos) caps caps'' := by
  refine ⟨h'.length.trans h.length, fun i c hc => ?_⟩
  obtain ⟨c', hc', hor⟩ := h.cell i c hc
  obtain ⟨c'', hc'', hor'⟩ := h'.cell i c' hc'
  refine ⟨c'', hc'', ?_⟩
  rcases hor' with rfl | ⟨hsome, rfl⟩
  · exact hor
  · rcases hor with rfl | ⟨-, rfl⟩
    · exact .inr ⟨hsome, rfl⟩
    · cases hsome

theorem changed_modify {f : Nat → MemoCapture → MemoCapture → Prop} {caps : List MemoCapture}
    {i : Nat} {g : MemoCapture → MemoCapture} (h : ∀ c, caps[i]? = some c → f i c (g c)) :
    Changed f caps (caps.modify i g) := by
  refine ⟨List.length_modify .., fun j c hc => ?_⟩
  rw [List.getElem?_modify, hc]
  by_cases hij : i = j
  · subst hij
    exact ⟨g c, by simp, .inr (h c hc)⟩
  · exact ⟨c, by simp [hij], .inl rfl⟩

section Claim

variable {t : MemoTable} {ref : List (RefIv Nat)} {r : RefIv Nat} {e : Nat}

/-- The table right after the entry behind `r` was stored. -/
structure JustStored (t : MemoTable) (ref : List (RefIv Nat)) (r : RefIv Nat) : Prop where
  tree : BoundedInv t.tree ref
  mem : r ∈ ref
  current : CurrentAt t.tree.shifts r.loc t.tree.root

theorem memoEntryPos_justStored {m : Mem} (h : JustStored t ref r)
    (he : ∃ entry, m.entries[e]? = some entry ∧ entry.pos = r.loc) :
    JustStored (memoEntryPos m t e).1 ref r ∧ (memoEntryPos m t e).2 = r.low ∧
      (memoEntryPos m t e).1.threshold = t.threshold ∧
      (memoEntryPos m t e).1.tree.shifts = t.tree.shifts := by
  obtain ⟨entry, hentry, hpos⟩ := he
  obtain ⟨htree, hlow, hshifts, hcur⟩ := h.tree.locPos h.mem h.current
  simp only [memoEntryPos, hentry, hpos]
  refine ⟨⟨htree, h.mem, ?_⟩, by rw [hlow]; rfl, trivial, hshifts⟩
  rw [hshifts]
  exact hcur

theorem captureSetMent_spec (fuel : Nat) {m : Mem} (c : Nat) (h : JustStored t ref r)
    (he : ∃ entry, m.entries[e]? = some entry ∧ entry.pos = r.loc) :
    ∃ m' t', captureSetMent e fuel (m, t) c = (m', t') ∧ JustStored t' ref r ∧
      t'.threshold = t.threshold ∧ t'.tree.shifts = t.tree.shifts ∧ m'.entries = m.entries ∧
      Changed (Claimed m.caps e r.low [c]) m.caps m'.caps := by
  induction fuel generalizing m t c with
  | zero => exact ⟨m, t, rfl, h, rfl, rfl, rfl, .refl _ _⟩
  | succ fuel ih =>
      have hlist : ∀ (cs : List Nat) (m : Mem) (t : MemoTable), JustStored t ref r →
          (∃ entry, m.entries[e]? = some entry ∧ entry.pos = r.loc) →
          ∃ m' t', cs.foldl (captureSetMent e fuel) (m, t) = (m', t') ∧ JustStored t' ref r ∧
            t'.threshold = t.threshold ∧ t'.tree.shifts = t.tree.shifts ∧
            m'.entries = m.entries ∧ Changed (Claimed m.caps e r.low cs) m.caps m'.caps := by
        intro cs
        induction cs with
        | nil => exact fun m t h _ => ⟨m, t, rfl, h, rfl, rfl, rfl, .refl _ _⟩
        | cons d cs ihcs =>
            intro m t h he
            obtain ⟨m₁, t₁, heq₁, h₁, hthr₁, hsh₁, hent₁, hch₁⟩ := ih d h he
            obtain ⟨m₂, t₂, heq₂, h₂, hthr₂, hsh₂, hent₂, hch₂⟩ :=
              ihcs m₁ t₁ h₁ (by rwa [hent₁])
            refine ⟨m₂, t₂, by rw [List.foldl_cons, heq₁, heq₂], h₂, hthr₂.trans hthr₁,
              hsh₂.trans hsh₁, hent₂.trans hent₁, ?_⟩
            exact Claimed.trans hch₁ hch₂
      simp only [captureSetMent]
      split
      · exact ⟨m, t, rfl, h, rfl, rfl, rfl, .refl _ _⟩
      · next hment =>
          obtain ⟨h₁, hlow, hthr, hsh⟩ := memoEntryPos_justStored h he
          rw [hlow]
          have hch : Changed (Claimed m.caps e r.low [c]) m.caps (m.caps.modify c fun cell =>
              { cell with off := cell.off - r.low, ment := some e }) := by
            refine changed_modify fun cell hcell => ⟨?_, rfl, c, by simp, .refl⟩
            simpa [Mem.cap, List.getD_eq_getElem?_getD, hcell] using hment
          obtain ⟨m₂, t₂, heq₂, h₂, hthr₂, hsh₂, hent₂, hch₂⟩ := hlist (m.cap c).children
            { m with caps := m.caps.modify c fun cell =>
              { cell with off := cell.off - r.low, ment := some e } } _ h₁ he
          refine ⟨m₂, t₂, heq₂, h₂, hthr₂.trans hthr, hsh₂.trans hsh, hent₂, ?_⟩
          refine (Claimed.trans hch hch₂).mono ?_
          rintro i cell cell' ⟨hnone, heq, d, hd, hdi⟩
          refine ⟨hnone, heq, c, by simp, ?_⟩
          rcases List.mem_append.mp hd with hd | hd
          · rwa [← List.mem_singleton.mp hd]
          · refine Relation.ReflTransGen.head ?_ hdi
            cases hc : m.caps[c]? with
            | none => simp [Mem.cap, List.getD_eq_getElem?_getD, hc] at hd
            | some cell => exact ⟨cell, hc, by simpa [Mem.cap, List.getD_eq_getElem?_getD, hc] using hd⟩

theorem entrySetPos_spec {m : Mem} (cs : List Nat) (h : JustStored t ref r)
    (he : ∃ entry, m.entries[e]? = some entry ∧ entry.pos = r.loc) :
    ∃ m' t', entrySetPos m t e cs = (m', t') ∧ JustStored t' ref r ∧
      t'.threshold = t.threshold ∧ t'.tree.shifts = t.tree.shifts ∧ m'.entries = m.entries ∧
      Changed (Claimed m.caps e r.low cs) m.caps m'.caps := by
  rw [entrySetPos]
  generalize m.caps.length = fuel
  induction cs generalizing m t with
  | nil => exact ⟨m, t, rfl, h, rfl, rfl, rfl, .refl _ _⟩
  | cons d cs ih =>
      obtain ⟨m₁, t₁, heq₁, h₁, hthr₁, hsh₁, hent₁, hch₁⟩ := captureSetMent_spec fuel d h he
      obtain ⟨m₂, t₂, heq₂, h₂, hthr₂, hsh₂, hent₂, hch₂⟩ := ih h₁ (by rwa [hent₁])
      refine ⟨m₂, t₂, by rw [List.foldl_cons, heq₁, heq₂], h₂, hthr₂.trans hthr₁,
        hsh₂.trans hsh₁, hent₂.trans hent₁, ?_⟩
      exact Claimed.trans hch₁ hch₂

end Claim

section Release

variable {e : Nat} {pos : Int}

/-- The captures below `cs` no longer belong to `e`. -/
def Freed (e : Nat) (caps caps' : List MemoCapture) (cs : List Nat) : Prop :=
  ∀ d ∈ cs, ∀ i, Reaches caps d i → ∀ c, caps'[i]? = some c → c.ment ≠ some e

theorem Released.ment_ne {caps caps' : List MemoCapture}
    (h : Changed (Released e pos) caps caps') {i : Nat}
    (hi : ∀ c, caps[i]? = some c → c.ment ≠ some e) :
    ∀ c, caps'[i]? = some c → c.ment ≠ some e := by
  intro c' hc'
  obtain ⟨c, hc, rfl | ⟨-, rfl⟩⟩ := h.back hc'
  · exact hi c' hc
  · simp

theorem Freed.cons {caps caps' caps'' : List MemoCapture} {d : Nat} {cs : List Nat}
    (h : Changed (Released e pos) caps caps') (h' : Changed (Released e pos) caps' caps'')
    (hd : Freed e caps caps' [d]) (hcs : Freed e caps' caps'' cs) :
    Freed e caps caps'' (d :: cs) := by
  have hreach : Reaches caps' = Reaches caps := by
    rw [Reaches, h.childOf Released.children]
    rfl
  intro a ha i hai
  rcases List.mem_cons.mp ha with rfl | ha
  · exact Released.ment_ne h' (hd a (by simp) i hai)
  · exact hcs a ha i (hreach ▸ hai)

theorem captureAbsolutize_spec (e : Nat) (pos : Int) (fuel : Nat) {caps : List MemoCapture} (hold : Older caps)
    (c : Nat) :
    Changed (Released e pos) caps (captureAbsolutize e pos fuel caps c) ∧
      (c < fuel → Freed e caps (captureAbsolutize e pos fuel caps c) [c]) := by
  induction fuel generalizing caps c with
  | zero => exact ⟨.refl _ _, fun h => absurd h (Nat.not_lt_zero c)⟩
  | succ fuel ih =>
      have hlist : ∀ (cs : List Nat) (caps : List MemoCapture), Older caps →
          Changed (Released e pos) caps (cs.foldl (captureAbsolutize e pos fuel) caps) ∧
            ((∀ d ∈ cs, d < fuel) →
              Freed e caps (cs.foldl (captureAbsolutize e pos fuel) caps) cs) := by
        intro cs
        induction cs with
        | nil => exact fun caps _ => ⟨.refl _ _, fun _ d hd => absurd hd (by simp)⟩
        | cons d cs ihcs =>
            intro caps hold
            obtain ⟨hch, hfree⟩ := ih hold d
            obtain ⟨hch', hfree'⟩ := ihcs _ (hch.older Released.children hold)
            refine ⟨Released.trans hch hch', fun hlt => ?_⟩
            exact Freed.cons hch hch' (hfree (hlt d (by simp)))
              (hfree' fun a ha => hlt a (by simp [ha]))
      simp only [captureAbsolutize]
      split
      · next hnone =>
          refine ⟨.refl _ _, fun _ d hd i hdi cell hcell => ?_⟩
          rw [List.mem_singleton.mp hd] at hdi
          rcases hdi.cases_head with rfl | ⟨b, ⟨cell', hcell', -⟩, -⟩
          · cases hnone.symm.trans hcell
          · cases hnone.symm.trans hcell'
      · next cell hcell =>
          have hself : Changed (Released e pos) caps
              (if cell.ment = some e then
                caps.modify c fun cell => { cell with off := cell.off + pos, ment := none }
              else caps) := by
            split
            · next hment =>
                refine changed_modify fun cell' hcell' => ?_
                cases hcell.symm.trans hcell'
                exact ⟨hment, rfl⟩
            · exact .refl _ _
          have hdone : ∀ cell', (if cell.ment = some e then
                caps.modify c fun cell => { cell with off := cell.off + pos, ment := none }
              else caps)[c]? = some cell' → cell'.ment ≠ some e := by
            intro cell' hcell'
            split at hcell'
            · rw [List.getElem?_modify, hcell] at hcell'
              simp only [if_true, Option.map_eq_map, Option.map_some, Option.some.injEq] at hcell'
              simp [← hcell']
            · next hment =>
                cases hcell.symm.trans hcell'
                exact hment
          generalize (if cell.ment = some e then
              caps.modify c fun cell => { cell with off := cell.off + pos, ment := none }
            else caps) = caps₁ at hself hdone
          obtain ⟨hch, hfree⟩ := hlist cell.children caps₁ (hself.older Released.children hold)
          refine ⟨Released.trans hself hch, fun hlt d hd i hdi => ?_⟩
          rw [List.mem_singleton.mp hd] at hdi
          rcases hdi.cases_head with rfl | ⟨b, ⟨cell', hcell', hb⟩, hbi⟩
          · exact Released.ment_ne hch hdone
          · cases hcell.symm.trans hcell'
            have hreach : Reaches caps₁ b i := by
              rw [Reaches, hself.childOf Released.children]
              exact hbi
            refine hfree (fun a ha => ?_) b hb i hreach
            exact (hold c cell hcell a ha).trans_le (Nat.lt_succ_iff.mp hlt)

@[simp] theorem memoCaptureFree_caps (m : Mem) (c : Nat) : (memoCaptureFree m c).caps = m.caps :=
  rfl

@[simp] theorem memoCaptureFree_entries (m : Mem) (c : Nat) :
    (memoCaptureFree m c).entries = m.entries :=
  rfl

@[simp] theorem memoCaptureRef_caps (m : Mem) (c : Nat) : (memoCaptureRef m c).caps = m.caps :=
  rfl

@[simp] theorem memoCaptureRef_entries (m : Mem) (c : Nat) :
    (memoCaptureRef m c).entries = m.entries :=
  rfl

@[simp] theorem foldl_memoCaptureFree (cs : List Nat) (m : Mem) :
    (cs.foldl memoCaptureFree m).caps = m.caps ∧
      (cs.foldl memoCaptureFree m).entries = m.entries := by
  induction cs generalizing m with
  | nil => exact ⟨rfl, rfl⟩
  | cons c cs ih => exact ih (memoCaptureFree m c)

theorem foldl_memoCaptureAbsolutize (e : Nat) (pos : Int) {m : Mem} (hold : Older m.caps) (cs : List Nat) :
    (cs.foldl (memoCaptureAbsolutize e pos) m).entries = m.entries ∧
      Changed (Released e pos) m.caps (cs.foldl (memoCaptureAbsolutize e pos) m).caps ∧
      ((∀ c ∈ cs, c < m.caps.length) →
        Freed e m.caps (cs.foldl (memoCaptureAbsolutize e pos) m).caps cs) := by
  induction cs generalizing m with
  | nil => exact ⟨rfl, .refl _ _, fun _ d hd => absurd hd (by simp)⟩
  | cons c cs ih =>
      obtain ⟨hch, hfree⟩ := captureAbsolutize_spec e pos m.caps.length hold c
      obtain ⟨hent, hch', hfree'⟩ := ih (m := memoCaptureAbsolutize e pos m c)
        (hch.older Released.children hold)
      refine ⟨hent, Released.trans hch hch', fun hlt => ?_⟩
      refine Freed.cons hch hch' (hfree (hlt c (by simp))) (hfree' fun d hd => ?_)
      exact (hlt d (by simp [hd])).trans_eq hch.length.symm

theorem tableFreeEntry_spec {m : Mem} (hold : Older m.caps) {i : IvIns Nat} {entry : MemoEntry}
    (hentry : m.entries[i.value]? = some entry) (hlt : ∀ c ∈ entry.captures, c < m.caps.length) :
    (tableFreeEntry m i).entries = m.entries ∧
      Changed (Released i.value i.low) m.caps (tableFreeEntry m i).caps ∧
      Freed i.value m.caps (tableFreeEntry m i).caps entry.captures := by
  obtain ⟨hent, hch, hfree⟩ := foldl_memoCaptureAbsolutize i.value i.low hold
    entry.captures
  obtain ⟨hcaps, hentries⟩ := foldl_memoCaptureFree entry.captures
    (entry.captures.foldl (memoCaptureAbsolutize i.value i.low) m)
  simp only [tableFreeEntry, hentry]
  rw [hcaps, hentries]
  exact ⟨hent, hch, hfree hlt⟩

theorem Released.view {m m' : Mem} {p : Nat → Int}
    (h : Changed (Released e pos) m.caps m'.caps) (hpos : p e = pos) : view m' p = view m p := by
  refine view_ext h (fun _ _ => rfl) ?_
  rintro i c c' ⟨hment, rfl⟩ -
  simp [vcell, absStart, hment, hpos, Int.add_comm]

/-- What remains after some entries were evicted. -/
structure Evicted (m m' : Mem) (evicted : List (IvIns Nat)) (p : Nat → Int) : Prop where
  entries : m'.entries = m.entries
  view : view m' p = view m p
  older : Older m'.caps
  length : m'.caps.length = m.caps.length
  childOf : ChildOf m'.caps = ChildOf m.caps
  ment : ∀ (i : Nat) (c' : MemoCapture), m'.caps[i]? = some c' → ∀ e, c'.ment = some e →
    ∃ c, m.caps[i]? = some c ∧ c.ment = some e
  kept : ∀ (i : Nat) (c : MemoCapture), m.caps[i]? = some c →
    (∀ j ∈ evicted, c.ment ≠ some j.value) → m'.caps[i]? = some c
  freed : ∀ j ∈ evicted, ∀ entry, m.entries[j.value]? = some entry →
    Freed j.value m.caps m'.caps entry.captures

theorem foldl_tableFreeEntry {p : Nat → Int} (evicted : List (IvIns Nat)) {m : Mem}
    (hold : Older m.caps)
    (hent : ∀ j ∈ evicted, ∃ entry, m.entries[j.value]? = some entry ∧
      ∀ c ∈ entry.captures, c < m.caps.length)
    (hpos : ∀ j ∈ evicted, p j.value = j.low) :
    Evicted m (evicted.foldl tableFreeEntry m) evicted p := by
  induction evicted generalizing m with
  | nil =>
      exact ⟨rfl, rfl, hold, rfl, rfl, fun i c' hc' e he => ⟨c', hc', he⟩,
        fun i c hc _ => hc, fun j hj => absurd hj (by simp)⟩
  | cons j evicted ih =>
      obtain ⟨entry, hentry, hlt⟩ := hent j (by simp)
      obtain ⟨hents, hch, hfree⟩ := tableFreeEntry_spec hold hentry hlt
      have hchild := hch.childOf Released.children
      have hnext := ih (hch.older Released.children hold)
        (fun k hk => by
          obtain ⟨entry, hentry, hlt⟩ := hent k (by simp [hk])
          exact ⟨entry, hents ▸ hentry, fun c hc => (hlt c hc).trans_eq hch.length.symm⟩)
        (fun k hk => hpos k (by simp [hk]))
      have hment : ∀ (i : Nat) (c' : MemoCapture), (tableFreeEntry m j).caps[i]? = some c' →
          ∀ e, c'.ment = some e → ∃ c, m.caps[i]? = some c ∧ c.ment = some e := by
        intro i c' hc' e he
        obtain ⟨c, hc, rfl | ⟨-, rfl⟩⟩ := hch.back hc'
        · exact ⟨c', hc, he⟩
        · cases he
      refine ⟨hnext.entries.trans hents, hnext.view.trans (Released.view hch (hpos j (by simp))),
        hnext.older, hnext.length.trans hch.length, hnext.childOf.trans hchild, ?_, ?_, ?_⟩
      · intro i c' hc' e he
        obtain ⟨c, hc, hce⟩ := hnext.ment i c' hc' e he
        exact hment i c hc e hce
      · intro i c hc hne
        refine hnext.kept i c ?_ fun k hk => hne k (by simp [hk])
        obtain ⟨c', hc', rfl | ⟨hown, -⟩⟩ := hch.cell i c hc
        · exact hc'
        · exact absurd hown (hne j (by simp))
      · intro k hk entry' hentry' d hd i hdi c' hc' he
        rcases List.mem_cons.mp hk with rfl | hk
        · cases hentry.symm.trans hentry'
          obtain ⟨c, hc, hce⟩ := hnext.ment i c' hc' _ he
          exact hfree d hd i hdi c hc hce
        · refine hnext.freed k hk entry' (hents ▸ hentry') d hd i ?_ c' hc' he
          rw [Reaches, hchild]
          exact hdi

end Release

/-- The memory, the table and its intervals, for the positions of the entries. -/
structure MemoOk (m : Mem) (tbl : Option MemoTable) (ref : List (RefIv Nat)) (p : Nat → Int) :
    Prop where
  none : tbl = none → ref = []
  tree : ∀ t, tbl = some t → BoundedInv t.tree ref
  entry : ∀ r ∈ ref, ∃ e, m.entries[r.value]? = some e ∧ e.pos = r.loc ∧
    r.high = r.low + e.examined
  values : (ref.map RefIv.value).Nodup
  pos : ∀ r ∈ ref, p r.value = r.low
  older : Older m.caps
  owned : ∀ (i : Nat) (c : MemoCapture), m.caps[i]? = some c → ∀ e, c.ment = some e →
    (∃ r ∈ ref, r.value = e) ∧
      ∃ entry, m.entries[e]? = some entry ∧ ∃ d ∈ entry.captures, Reaches m.caps d i
  captures : ∀ e ∈ m.entries, ∀ c ∈ e.captures, c < m.caps.length

section Ok

variable {m : Mem} {t : MemoTable} {ref : List (RefIv Nat)} {p : Nat → Int}

theorem MemoOk.congr {tbl : Option MemoTable} {m' : Mem} (h : MemoOk m tbl ref p)
    (hcaps : m'.caps = m.caps) (hentries : m'.entries = m.entries) : MemoOk m' tbl ref p := by
  obtain ⟨none, tree, entry, values, pos, older, owned, captures⟩ := h
  rw [← hcaps] at older owned captures
  rw [← hentries] at entry owned captures
  exact ⟨none, tree, entry, values, pos, older, owned, captures⟩

theorem MemoOk.get (h : MemoOk m (some t) ref p) (id pos : Int) :
    MemoOk m (some (memoTableGet t id pos).1) ref p ∧
      (memoTableGet t id pos).1.threshold = t.threshold ∧
      (memoTableGet t id pos).1.tree.shifts = t.tree.shifts ∧
      ((memoTableGet t id pos).2 = .none → ∀ r ∈ ref, ¬(r.id = id ∧ r.low = pos)) ∧
      ∀ e, (memoTableGet t id pos).2 = some e → ∃ r ∈ ref, r.id = id ∧ r.low = pos ∧
        r.value = e ∧ ∀ q ∈ ref, q.id = id → q.low = pos → q.high - q.low ≤ r.high - r.low := by
  obtain ⟨htree, hagree⟩ := (h.tree t rfl).findLargest id pos
  refine ⟨⟨by simp, ?_, h.entry, h.values, h.pos, h.older, h.owned, h.captures⟩, rfl, rfl, ?_, ?_⟩
  · rintro t' ⟨⟩
    exact htree
  · intro hnone
    change (itreeFindLargest t.tree id pos).2 = .none at hnone
    rw [hnone] at hagree
    exact hagree
  · intro e he
    change (itreeFindLargest t.tree id pos).2 = some e at he
    rw [he] at hagree
    exact hagree

theorem memoTablePut_skip {id start length examined count : Int} {cs : List Nat}
    (hskip : t.threshold > 0 ∧ examined < t.threshold ∨ length = 0) :
    memoTablePut m t id start length examined count cs = (cs.foldl memoCaptureFree m, t) :=
  if_pos hskip

theorem MemoOk.put (h : MemoOk m (some t) ref p) {id start length examined count : Int}
    {cs : List Nat} (hkeep : ¬(t.threshold > 0 ∧ examined < t.threshold ∨ length = 0))
    (hexam : 1 ≤ max examined length) (hcs : ∀ c ∈ cs, c < m.caps.length) :
    ∃ m' t' loc, memoTablePut m t id start length examined count cs = (m', t') ∧
      t'.threshold = t.threshold ∧ t'.tree.shifts = t.tree.shifts ∧
      m'.entries = m.entries ++ [⟨length, max examined length, count, cs, loc⟩] ∧
      m'.caps.length = m.caps.length ∧
      MemoOk m' (some t')
        (ref ++ [⟨loc, id, start, start + max examined length, m.entries.length⟩])
        (Function.update p m.entries.length start) ∧
      view m' (Function.update p m.entries.length start) = view m p := by
  have hmax : (if examined < length then length else examined) = max examined length := by
    split <;> omega
  obtain ⟨htree, hcur⟩ := @BoundedInv.add Nat t.tree ref (h.tree t rfl) id start
    (start + max examined length) m.entries.length (by omega)
  have hentryLt : ∀ r ∈ ref, r.value < m.entries.length := by
    intro r hr
    obtain ⟨e, he, -⟩ := h.entry r hr
    exact (List.getElem?_eq_some_iff.mp he).1
  have hfresh : ∀ c ∈ m.caps, c.ment ≠ some m.entries.length := by
    intro c hc hment
    obtain ⟨i, hi⟩ := List.mem_iff_getElem?.mp hc
    obtain ⟨⟨r, hr, hval⟩, -⟩ := h.owned i c hi _ hment
    exact absurd (hentryLt r hr) (by omega)
  set loc := (itreeAdd t.tree id start (start + max examined length) m.entries.length).2 with hloc
  set r : RefIv Nat := ⟨loc, id, start, start + max examined length, m.entries.length⟩ with hr
  set tree := (itreeAdd t.tree id start (start + max examined length) m.entries.length).1 with ht
  have hstored : JustStored { t with tree := tree } (ref ++ [r]) r := ⟨htree, by simp, hcur⟩
  obtain ⟨m', t', heq, hjust, hthr, hsh, hents, hch⟩ := entrySetPos_spec (e := m.entries.length)
    (m := { m with entries := m.entries ++ [⟨length, max examined length, count, cs, loc⟩] }) cs
    hstored ⟨⟨length, max examined length, count, cs, loc⟩, by simp, rfl⟩
  have hview : view m' (Function.update p m.entries.length start) = view m p := by
    refine view_ext (m := m) hch ?_ ?_
    · intro c hc
      have hne := hfresh c hc
      cases hment : c.ment with
      | none => simp [vcell, absStart, hment]
      | some e =>
          have : e ≠ m.entries.length := fun heq => hne (heq ▸ hment)
          simp [vcell, absStart, hment, this]
    · rintro i c c' ⟨hment, rfl, -⟩ -
      simp [vcell, absStart, hment, hr]
  refine ⟨m', t', loc, ?_, hthr, hsh, hents, hch.length, ?_, hview⟩
  · rw [memoTablePut, if_neg hkeep]
    simp only [hmax]
    exact heq
  · have hreach : Reaches m'.caps = Reaches m.caps := by
      rw [Reaches, hch.childOf Claimed.children]
      rfl
    refine ⟨by simp, ?_, ?_, ?_, ?_, hch.older Claimed.children h.older, ?_, ?_⟩
    · rintro t'' ⟨⟩
      exact hjust.tree
    · intro q hq
      rw [hents]
      rcases List.mem_append.mp hq with hq | hq
      · obtain ⟨e, he, hpos, hhigh⟩ := h.entry q hq
        exact ⟨e, by rw [List.getElem?_append_left (hentryLt q hq), he], hpos, hhigh⟩
      · rw [List.mem_singleton.mp hq]
        exact ⟨⟨length, max examined length, count, cs, loc⟩, by simp, rfl, rfl⟩
    · rw [List.map_append]
      refine List.nodup_append.mpr ⟨h.values, by simp, ?_⟩
      intro a ha b hb
      obtain ⟨q, hq, rfl⟩ := List.mem_map.mp ha
      have hb : b = m.entries.length := by simpa [hr] using hb
      have := hentryLt q hq
      omega
    · intro q hq
      rcases List.mem_append.mp hq with hq | hq
      · have := hentryLt q hq
        rw [Function.update_of_ne (by omega)]
        exact h.pos q hq
      · rw [List.mem_singleton.mp hq]
        exact Function.update_self ..
    · intro i c' hc' e he
      rw [hents, hreach]
      obtain ⟨c, hc, rfl | ⟨-, rfl, d, hd, hdi⟩⟩ := hch.back hc'
      · obtain ⟨⟨q, hq, hval⟩, entry, hentry, hd⟩ := h.owned i c' hc e he
        have hlt := hentryLt q hq
        refine ⟨⟨q, List.mem_append_left _ hq, hval⟩, entry, ?_, hd⟩
        rw [List.getElem?_append_left (by omega), hentry]
      · simp only [Option.some.injEq] at he
        subst he
        exact ⟨⟨r, by simp [hr], rfl⟩, ⟨length, max examined length, count, cs, loc⟩, by simp, d,
          hd, hdi⟩
    · intro e he c hc
      rw [hch.length]
      rw [hents] at he
      rcases List.mem_append.mp he with he | he
      · exact h.captures e he c hc
      · rw [List.mem_singleton.mp he] at hc
        exact hcs c hc

theorem MemoOk.evict (h : MemoOk m (some t) ref p) {q : RefIv Nat → Bool}
    {evicted : List (IvIns Nat)} (hperm : evicted.Perm ((ref.filter q).map RefIv.ins)) :
    Evicted m (evicted.foldl tableFreeEntry m) evicted p ∧
      ∀ (i : Nat) (c : MemoCapture), (evicted.foldl tableFreeEntry m).caps[i]? = some c →
        ∀ e, c.ment = some e →
          (∃ r ∈ ref.filter fun r => !q r, r.value = e) ∧
            ∃ entry, m.entries[e]? = some entry ∧
              ∃ d ∈ entry.captures, Reaches (evicted.foldl tableFreeEntry m).caps d i := by
  have hback : ∀ j ∈ evicted, ∃ r ∈ ref, q r = true ∧ r.ins = j := by
    intro j hj
    obtain ⟨r, hr, heq⟩ := List.mem_map.mp (hperm.mem_iff.mp hj)
    obtain ⟨hr, hov⟩ := List.mem_filter.mp hr
    exact ⟨r, hr, hov, heq⟩
  have hev := foldl_tableFreeEntry (p := p) evicted h.older
    (fun j hj => by
      obtain ⟨r, hr, -, rfl⟩ := hback j hj
      obtain ⟨e, he, -⟩ := h.entry r hr
      exact ⟨e, he, h.captures e (List.mem_of_getElem? he)⟩)
    (fun j hj => by
      obtain ⟨r, hr, -, rfl⟩ := hback j hj
      exact h.pos r hr)
  refine ⟨hev, fun i c' hc' e he => ?_⟩
  obtain ⟨c, hc, hce⟩ := hev.ment i c' hc' e he
  obtain ⟨⟨r, hr, hval⟩, entry, hentry, d, hd, hdi⟩ := h.owned i c hc e hce
  have hno : q r = false := by
    by_contra hov
    have hov : q r = true := by simpa using hov
    have hj : r.ins ∈ evicted :=
      hperm.mem_iff.mpr (List.mem_map.mpr ⟨r, List.mem_filter.mpr ⟨hr, hov⟩, rfl⟩)
    have hval' : r.ins.value = e := hval
    exact hev.freed r.ins hj entry (hval' ▸ hentry) d hd i hdi c' hc' (hval' ▸ he)
  refine ⟨⟨r, List.mem_filter.mpr ⟨hr, by simp [hno]⟩, hval⟩, entry, hentry, d, hd, ?_⟩
  rw [Reaches, hev.childOf]
  exact hdi

theorem MemoOk.each (h : MemoOk m (some t) ref p) :
    ((itreeEach t.tree).2.map Prod.snd).Perm (ref.map RefIv.ins) := by
  have htree := h.tree t rfl
  obtain ⟨⟨-, -, hperm⟩, -⟩ := step_each htree.toInv htree.bounds
  have hsnd := hperm.map Prod.snd
  rw [List.map_map, List.map_map] at hsnd
  exact hsnd

theorem MemoOk.free (h : MemoOk m (some t) ref p) (threshold : Int) :
    MemoOk (memoTableFree m t) (some (memoTableNew threshold)) [] p ∧
      (memoTableFree m t).entries = m.entries ∧ view (memoTableFree m t) p = view m p := by
  obtain ⟨hev, howned⟩ := h.evict (q := fun _ => true) (by simpa using h.each)
  refine ⟨⟨by simp, ?_, by simp, by simp, by simp, hev.older, ?_, ?_⟩, hev.entries, hev.view⟩
  · rintro t' ⟨⟩
    exact boundedInv_new
  · intro i c hc e he
    obtain ⟨⟨r, hr, -⟩, -⟩ := howned i c hc e he
    simp at hr
  · intro e he c hc
    rw [memoTableFree, hev.length]
    rw [memoTableFree, hev.entries] at he
    exact h.captures e he c hc

theorem memoTableApplyEdit_mono {fuel fuel' : Nat} (hle : fuel ≤ fuel') {edit : MemoEdit}
    {x : Mem × MemoTable} (h : memoTableApplyEdit fuel m t edit = some x) :
    memoTableApplyEdit fuel' m t edit = some x := by
  obtain ⟨y, hremove, h⟩ := Option.bind_eq_some_iff.mp h
  rw [memoTableApplyEdit, IntervalOps.itreeRemoveAndShift_mono hle hremove]
  exact h

theorem memoTableApplyEdit_unique {fuel fuel' : Nat} {edit : MemoEdit} {x y : Mem × MemoTable}
    (h : memoTableApplyEdit fuel m t edit = some x)
    (h' : memoTableApplyEdit fuel' m t edit = some y) : x = y := by
  have hx := memoTableApplyEdit_mono (Nat.le_max_left fuel fuel') h
  rw [memoTableApplyEdit_mono (Nat.le_max_right fuel fuel') h'] at hx
  exact (Option.some.inj hx).symm

/-- The edit that `vm_exec` makes for a window evicts the entries that overlap
it. -/
theorem MemoOk.window (h : MemoOk m (some t) ref p) {low high : Int} (hlt : low < high) :
    ∃ m' t', (∀ fuel, ivNodes t.tree.root < fuel →
        memoTableApplyEdit fuel m t ⟨low, high, high - low⟩ = some (m', t')) ∧
      t'.threshold = t.threshold ∧
      MemoOk m' (some t') (ref.filter fun r => !ivOverlaps r.ins low high) p ∧
      view m' p = view m p ∧ m'.entries = m.entries ∧ m'.caps.length = m.caps.length := by
  obtain ⟨tree, evicted, hremove, htree, hperm⟩ := (h.tree t rfl).remove hlt.le
  obtain ⟨hev, howned⟩ := h.evict hperm
  have hstep : ∀ fuel, ivNodes t.tree.root < fuel →
      memoTableApplyEdit fuel m t ⟨low, high, high - low⟩ =
        some (evicted.foldl tableFreeEntry m, { t with tree := tree }) := by
    intro fuel hfuel
    simp [memoTableApplyEdit, hlt.ne, hremove fuel hfuel]
  refine ⟨_, _, hstep, rfl, ⟨by simp, ?_, ?_, ?_, ?_, hev.older, ?_, ?_⟩, hev.view, hev.entries,
    hev.length⟩
  · rintro t' ⟨⟩
    exact htree
  · intro r hr
    rw [hev.entries]
    exact h.entry r (List.mem_of_mem_filter hr)
  · exact ((List.filter_sublist).map _).nodup h.values
  · exact fun r hr => h.pos r (List.mem_of_mem_filter hr)
  · rw [hev.entries]
    exact howned
  · intro e he c hc
    rw [hev.length]
    rw [hev.entries] at he
    exact h.captures e he c hc

def shiftPos (ref : List (RefIv Nat)) (low amt : Int) (p : Nat → Int) (v : Nat) : Int :=
  if ∃ r ∈ ref, r.value = v ∧ r.low ≥ low then p v + amt else p v

theorem shiftPos_value (hvals : (ref.map RefIv.value).Nodup) (hpos : ∀ r ∈ ref, p r.value = r.low)
    (low amt : Int) {r : RefIv Nat} (hr : r ∈ ref) :
    shiftPos ref low amt p r.value = (RefIv.shift low amt r).low := by
  have hiff : (∃ q ∈ ref, q.value = r.value ∧ q.low ≥ low) ↔ r.low ≥ low := by
    refine ⟨?_, fun h => ⟨r, hr, rfl, h⟩⟩
    rintro ⟨q, hq, hval, hlow⟩
    rwa [← List.inj_on_of_nodup_map hvals hq hr hval]
  unfold shiftPos RefIv.shift
  simp only [hiff, hpos r hr]
  split <;> rfl

def editHigh (edit : MemoEdit) : Int :=
  if edit.start = edit.stop then edit.start + 1 else edit.stop

def editAmt (edit : MemoEdit) : Int :=
  edit.len - (edit.stop - edit.start)

def editRef (ref : List (RefIv Nat)) (edit : MemoEdit) : List (RefIv Nat) :=
  (ref.filter fun r => !ivOverlaps r.ins edit.start (editHigh edit)).map
    (RefIv.shift edit.start (editAmt edit))

/-- The positions of the entries that an edit leaves. -/
def editPos (ref : List (RefIv Nat)) (edit : MemoEdit) (p : Nat → Int) : Nat → Int :=
  shiftPos (ref.filter fun r => !ivOverlaps r.ins edit.start (editHigh edit)) edit.start
    (editAmt edit) p

theorem MemoOk.edit_evict (h : MemoOk m (some t) ref p) {edit : MemoEdit}
    (hle : edit.start ≤ edit.stop) (hlen : 0 ≤ edit.len) :
    ∃ tree evicted, (∀ fuel, ivNodes t.tree.root < fuel →
        itreeRemoveAndShift fuel t.tree edit.start (editHigh edit) (editAmt edit) =
          some (tree, evicted)) ∧
      evicted.Perm
        ((ref.filter fun r => ivOverlaps r.ins edit.start (editHigh edit)).map RefIv.ins) ∧
      IntervalRefinement.Inv tree (editRef ref edit) := by
  have hhigh : edit.start ≤ editHigh edit := by
    unfold editHigh
    split <;> omega
  have hamt : -(editHigh edit - edit.start) ≤ editAmt edit := by
    unfold editHigh editAmt
    split <;> omega
  exact (h.tree t rfl).toInv.removeAndShift (h.tree t rfl).bounds hhigh hamt

theorem memoTableApplyEdit_of_remove {fuel : Nat} {edit : MemoEdit} {tree : Itree Nat}
    {evicted : List (IvIns Nat)}
    (h : itreeRemoveAndShift fuel t.tree edit.start (editHigh edit) (editAmt edit) =
      some (tree, evicted)) :
    memoTableApplyEdit fuel m t edit =
      some (evicted.foldl tableFreeEntry m, { t with tree := tree }) := by
  simp only [editHigh, editAmt] at h
  simp [memoTableApplyEdit, h]

theorem MemoOk.edit (h : MemoOk m (some t) ref p) {edit : MemoEdit} (hle : edit.start ≤ edit.stop)
    (hlen : 0 ≤ edit.len) :
    ∃ m' t', (∀ fuel, ivNodes t.tree.root < fuel →
        memoTableApplyEdit fuel m t edit = some (m', t')) ∧ t'.threshold = t.threshold ∧
      Inv t'.tree (editRef ref edit) ∧ m'.entries = m.entries ∧
      view m' p = view m p ∧ ChildOf m'.caps = ChildOf m.caps ∧
      (∀ (i : Nat) (c : MemoCapture), m'.caps[i]? = some c → ∀ e, c.ment = some e →
        (∃ r ∈ editRef ref edit, r.value = e) ∧
          ∃ entry, m'.entries[e]? = some entry ∧ ∃ d ∈ entry.captures, Reaches m'.caps d i) ∧
      (MaxBounds t'.tree.shifts t'.tree.root →
        MemoOk m' (some t') (editRef ref edit) (editPos ref edit p)) := by
  obtain ⟨tree, evicted, hremove, hperm, hinv⟩ := h.edit_evict hle hlen
  have hstep : ∀ fuel, ivNodes t.tree.root < fuel →
      memoTableApplyEdit fuel m t edit =
        some (evicted.foldl tableFreeEntry m, { t with tree := tree }) := by
    intro fuel hfuel
    exact memoTableApplyEdit_of_remove (hremove fuel hfuel)
  obtain ⟨hev, howned⟩ := h.evict hperm
  have hvals : ((ref.filter fun r => !ivOverlaps r.ins edit.start (editHigh edit)).map
      RefIv.value).Nodup := ((List.filter_sublist).map _).nodup h.values
  have hpos : ∀ r ∈ ref.filter fun r => !ivOverlaps r.ins edit.start (editHigh edit),
      p r.value = r.low := fun r hr => h.pos r (List.mem_of_mem_filter hr)
  have howned' : ∀ (i : Nat) (c : MemoCapture), (evicted.foldl tableFreeEntry m).caps[i]? = some c →
      ∀ e, c.ment = some e → (∃ r ∈ editRef ref edit, r.value = e) ∧
        ∃ entry, (evicted.foldl tableFreeEntry m).entries[e]? = some entry ∧
          ∃ d ∈ entry.captures, Reaches (evicted.foldl tableFreeEntry m).caps d i := by
    intro i c hc e he
    obtain ⟨⟨r, hr, hval⟩, hrest⟩ := howned i c hc e he
    refine ⟨⟨_, List.mem_map_of_mem hr, ?_⟩, ?_⟩
    · unfold RefIv.shift
      split <;> exact hval
    · rw [hev.entries]
      exact hrest
  refine ⟨_, _, hstep, rfl, hinv, hev.entries, hev.view, hev.childOf, howned', fun hmax =>
    ⟨by simp, ?_, ?_, ?_, ?_, hev.older, howned', ?_⟩⟩
  · rintro t' ⟨⟩
    exact ⟨hinv, hmax⟩
  · intro r hr
    obtain ⟨q, hq, rfl⟩ := List.mem_map.mp hr
    obtain ⟨e, he, hloc, hexam⟩ := h.entry q (List.mem_of_mem_filter hq)
    refine ⟨e, ?_, ?_, ?_⟩
    · rw [hev.entries]
      unfold RefIv.shift
      split <;> exact he
    · unfold RefIv.shift
      split <;> exact hloc
    · unfold RefIv.shift
      split
      · dsimp only
        omega
      · exact hexam
  · have hvalue : RefIv.value ∘ RefIv.shift edit.start (editAmt edit) =
        (RefIv.value : RefIv Nat → Nat) := by
      funext r
      simp only [Function.comp, RefIv.shift]
      split <;> rfl
    rw [editRef, List.map_map, hvalue]
    exact hvals
  · intro r hr
    obtain ⟨q, hq, rfl⟩ := List.mem_map.mp hr
    rw [← shiftPos_value hvals hpos edit.start (editAmt edit) hq]
    unfold RefIv.shift
    split <;> rfl
  · intro e he c hc
    rw [hev.length]
    rw [hev.entries] at he
    exact h.captures e he c hc

end Ok

section Holders

def kids (m : Mem) : List (List Nat) :=
  m.caps.map MemoCapture.children

/-- Only the places of captures differ. -/
structure SameHolders (m m' : Mem) : Prop where
  kids : kids m' = kids m
  refs : m'.refs = m.refs
  entries : m'.entries = m.entries

theorem SameHolders.refl (m : Mem) : SameHolders m m :=
  ⟨rfl, rfl, rfl⟩

theorem SameHolders.trans {m m' m'' : Mem} (h : SameHolders m m') (h' : SameHolders m' m'') :
    SameHolders m m'' :=
  ⟨h'.kids.trans h.kids, h'.refs.trans h.refs, h'.entries.trans h.entries⟩

theorem foldl_sameHolders {α β : Type} (mem : β → Mem) (f : β → α → β)
    (hf : ∀ b x, SameHolders (mem b) (mem (f b x))) (l : List α) (b : β) :
    SameHolders (mem b) (mem (l.foldl f b)) := by
  induction l generalizing b with
  | nil => exact .refl _
  | cons x l ih => exact (hf b x).trans (ih (f b x))

theorem map_modify_comm {α β : Type} {f : α → β} {g : α → α} {g' : β → β}
    (h : ∀ x, f (g x) = g' (f x)) (l : List α) (i : Nat) :
    (l.modify i g).map f = (l.map f).modify i g' := by
  induction l generalizing i with
  | nil => simp
  | cons x l ih =>
      cases i with
      | zero => simp [h]
      | succ i => simpa using ih i

theorem kids_modify {caps : List MemoCapture} {f : MemoCapture → MemoCapture}
    (hf : ∀ c, (f c).children = c.children) (i : Nat) :
    (caps.modify i f).map MemoCapture.children = caps.map MemoCapture.children := by
  rw [@map_modify_comm _ _ MemoCapture.children f id hf, List.modify_id]

theorem memoEntryPos_threshold (m : Mem) (t : MemoTable) (e : Nat) :
    (memoEntryPos m t e).1.threshold = t.threshold := by
  unfold memoEntryPos
  split <;> rfl

theorem captureSetMent_sameHolders (e fuel : Nat) (x : Mem × MemoTable) (c : Nat) :
    SameHolders x.1 (captureSetMent e fuel x c).1 := by
  induction fuel generalizing x c with
  | zero => exact .refl _
  | succ fuel ih =>
      obtain ⟨m, t⟩ := x
      rw [captureSetMent]
      split
      · exact .refl _
      · let claimed : Mem := { m with caps := m.caps.modify c fun cell =>
          { cell with off := cell.off - (memoEntryPos m t e).2, ment := some e } }
        have hclaimed : SameHolders m claimed := ⟨kids_modify (by intro _; rfl) c, rfl, rfl⟩
        exact hclaimed.trans (foldl_sameHolders Prod.fst (captureSetMent e fuel) ih
          (m.cap c).children (claimed, (memoEntryPos m t e).1))

theorem captureSetMent_threshold (e fuel : Nat) (x : Mem × MemoTable) (c : Nat) :
    (captureSetMent e fuel x c).2.threshold = x.2.threshold := by
  induction fuel generalizing x c with
  | zero => rfl
  | succ fuel ih =>
      have hfold : ∀ (l : List Nat) (x : Mem × MemoTable),
          (l.foldl (captureSetMent e fuel) x).2.threshold = x.2.threshold := by
        intro l
        induction l with
        | nil => exact fun _ => rfl
        | cons d l ihl => exact fun x => (ihl _).trans (ih x d)
      obtain ⟨m, t⟩ := x
      rw [captureSetMent]
      split
      · rfl
      · exact (hfold _ _).trans (memoEntryPos_threshold m t e)

theorem memoTablePut_stores (m : Mem) (t : MemoTable) (id start length examined count : Int)
    (cs : List Nat) (hkeep : ¬(t.threshold > 0 ∧ examined < t.threshold ∨ length = 0)) :
    ∃ entry : MemoEntry, entry.captures = cs ∧ entry.examined = max examined length ∧
      SameHolders { m with entries := m.entries ++ [entry] }
        (memoTablePut m t id start length examined count cs).1 ∧
      (memoTablePut m t id start length examined count cs).2.threshold = t.threshold := by
  have hexam : (if examined < length then length else examined) = max examined length := by
    split <;> omega
  rw [memoTablePut, if_neg hkeep, hexam]
  dsimp only
  generalize itreeAdd t.tree id start (start + max examined length) m.entries.length = added
  obtain ⟨tree, loc⟩ := added
  let stored : Mem × MemoTable := ({ m with
    entries := m.entries ++ [⟨length, max examined length, count, cs, loc⟩] },
    { t with tree := tree })
  refine ⟨⟨length, max examined length, count, cs, loc⟩, rfl, rfl, ?_, ?_⟩
  · exact foldl_sameHolders Prod.fst (captureSetMent m.entries.length m.caps.length)
      (captureSetMent_sameHolders _ _) cs stored
  · have hfold : ∀ (l : List Nat) (x : Mem × MemoTable),
        (l.foldl (captureSetMent m.entries.length m.caps.length) x).2.threshold = x.2.threshold := by
      intro l
      induction l with
      | nil => exact fun _ => rfl
      | cons d l ihl => exact fun x => (ihl _).trans (captureSetMent_threshold _ _ x d)
    exact hfold cs stored

theorem captureAbsolutize_kids (e : Nat) (pos : Int) (fuel : Nat) (caps : List MemoCapture)
    (c : Nat) : (captureAbsolutize e pos fuel caps c).map MemoCapture.children =
      caps.map MemoCapture.children := by
  induction fuel generalizing caps c with
  | zero => rfl
  | succ fuel ih =>
      have hfold : ∀ (l : List Nat) (caps : List MemoCapture),
          (l.foldl (captureAbsolutize e pos fuel) caps).map MemoCapture.children =
            caps.map MemoCapture.children := by
        intro l
        induction l with
        | nil => exact fun _ => rfl
        | cons d l ihl => exact fun caps => (ihl _).trans (ih caps d)
      rw [captureAbsolutize]
      split
      · rfl
      · rw [hfold]
        split
        · exact kids_modify (by intro _; rfl) c
        · rfl

theorem foldl_absolutize_sameHolders (e : Nat) (pos : Int) (cs : List Nat) (m : Mem) :
    SameHolders m (cs.foldl (memoCaptureAbsolutize e pos) m) :=
  foldl_sameHolders id (memoCaptureAbsolutize e pos)
    (fun m c => ⟨captureAbsolutize_kids e pos m.caps.length m.caps c, rfl, rfl⟩) cs m

end Holders

end Libpeg.MemoView
