import Libpeg.PlainSimulation
import Libpeg.ProgramTyping

namespace Libpeg.MemoSoundness

open Libpeg.Opcode Libpeg.Code Libpeg.Memo Libpeg.Vm Libpeg.AbstractVm Libpeg.Positions
open Libpeg.ControlMachine Libpeg.StackTyping Libpeg.StackDiscipline Libpeg.ProgramTyping
open Libpeg.Segments Libpeg.PlainMachine Libpeg.PlainSimulation

/-- The state of the plain machine with an empty stack. -/
def bare (ip pos : Nat) : Plain :=
  ⟨ip, pos, ⟨[], .nil⟩⟩

/-- What an entry stands for: a run that fails, or one that matches its length with its
captures. -/
def SoundEntry (code : VmCode) (input : List UInt8) (d : AEntry) : Prop :=
  ∀ k l q : Nat, OpensAt code.prog k l d.id → d.pos = q →
    (d.length = -1 → Fails code input (bare k q)) ∧
    (d.length ≠ -1 →
      Advances code input (bare k q) ⟨l, q + d.length.toNat, ⟨[], d.capt⟩⟩)

def AllEntries (P : AEntry → Prop) (tbl : Option ATable) : Prop :=
  ∀ t, tbl = some t → ∀ d ∈ t.entries, P d

/-- Where the part of the stack above an entry was started. -/
inductive Origin (prog : List VmInsn) : Option StEntry → Plain → Prop
  | start : Origin prog none (bare 0 0)
  | memo {k l q : Nat} {id : Int} (h : OpensAt prog k l id) :
      Origin prog (some (.memo id q)) (bare k q)
  | memoTree {k l q : Nat} {id count : Int} (h : OpensAt prog k l id) :
      Origin prog (some (.memoTree id q count)) (bare k q)

/-- Every part of the stack is what the plain machine has made since it was started. -/
structure Faithful (code : VmCode) (input : List UInt8) (σ : AState) : Prop where
  shown : ∀ o U x, (pile σ).Shows Kept o U → Origin code.prog o x →
    Reaches code input x ⟨σ.ip, σ.pos, U⟩
  table : AllEntries (SoundEntry code input) σ.tbl

/-- A step goes on faithfully, and forward, or it ends as the plain machine does. -/
def NextFaithful (code : VmCode) (input : List UInt8) (σ : AState) : ANext → Prop
  | .running σ' => Faithful code input σ' ∧ ∀ U U', (pile σ).Shows Kept none U →
      (pile σ').Shows Kept none U' →
        Advances code input ⟨σ.ip, σ.pos, U⟩ ⟨σ'.ip, σ'.pos, U'⟩
  | .done σ' success => AllEntries (SoundEntry code input) σ'.tbl ∧
      ∃ x, Reaches code input (bare 0 0) x ∧ step code input x = .done success ∧
        x.pos = σ'.pos ∧ (pile σ').Shows Kept none x.stack
  | .failed σ' => AllEntries (SoundEntry code input) σ'.tbl ∧ Fails code input (bare 0 0)
  | .aborted _ => False

variable {a : VmArgs} {code : VmCode} {input : List UInt8} {σ σ' σ₁ : AState} {x : Plain}
  {P : AEntry → Prop} {S U U' : Pile StEntry CapForest} {i : VmInsn}

section Tables

theorem aMemoize_entries {id mlen count : Int} {pos : Nat} {capt : CapForest}
    (h : AllEntries P σ.tbl) (hnew : ∀ examined, P ⟨id, pos, examined, mlen, count, capt⟩) :
    AllEntries P (aMemoize a σ id pos mlen count capt).tbl := by
  unfold aMemoize
  split
  · exact h
  · next t ht =>
      split
      · exact h
      · generalize ((if σ.furthest > σ.pos then σ.furthest else σ.pos : Nat) : Int) - pos + 1 = exam
        dsimp only
        split
        · exact h
        · intro t' ht' d hd
          cases ht'
          rcases List.mem_append.mp hd with hd | hd
          · exact h t ht d hd
          · obtain rfl := List.mem_singleton.mp hd
            exact hnew _

/-- What the failure handler leads to, when unwinding the stack gives `w`. -/
def Unwound (P : AEntry → Prop) (w : Option ((Nat × Nat) × Pile StEntry CapForest)) :
    ANext → Prop
  | .running σ' => AllEntries P σ'.tbl ∧ w = some ((σ'.ip, σ'.pos), pile σ')
  | .failed σ' => AllEntries P σ'.tbl ∧ w = none
  | _ => False

theorem aFail_unwound {frames : List AFrame} (h : AllEntries P σ.tbl)
    (hnew : ∀ id pos, Reached btrackOf (frames.map fun f => (f.entry, f.capt)) (.memo id pos) →
      ∀ examined capt, P ⟨id, pos, examined, -1, 0, capt⟩) :
    Unwound P (unwind btrackOf ⟨frames.map fun f => (f.entry, f.capt), σ.capt⟩)
      (aFail a frames σ) := by
  induction frames generalizing σ with
  | nil => exact ⟨h, rfl⟩
  | cons f frames ih =>
      obtain ⟨e, capt⟩ := f
      have hrest : btrackOf e = none → ∀ σ' : AState, AllEntries P σ'.tbl → σ'.capt = σ.capt →
          Unwound P (unwind btrackOf ⟨(e, capt) :: frames.map fun f => (f.entry, f.capt), σ.capt⟩)
            (aFail a frames σ') := by
        intro he σ' htbl hcapt
        have hunwind := unwind_push_none (S := ⟨frames.map fun f => (f.entry, f.capt), σ.capt⟩)
          (f := (e, capt)) he
        rw [Pile.push] at hunwind
        rw [hunwind, ← hcapt]
        exact ih htbl fun id pos hr => hnew id pos (.inr ⟨he, hr⟩)
      cases e with
      | btrack ip off => exact ⟨h, rfl⟩
      | memo id pos =>
          refine hrest rfl _ (aMemoize_entries h fun examined => ?_) ?_
          · exact hnew id pos (.inl rfl) examined capt
          · rw [aMemoize_eq]
      | _ => exact hrest rfl _ h rfl

end Tables

section Steps

theorem fails_of_reaches {x y : Plain} (h : Reaches code input x y) (hy : Fails code input y) :
    Fails code input x := by
  obtain ⟨z, hz, hstep⟩ := hy
  exact ⟨z, h.trans hz, hstep⟩

theorem Faithful.running (h : Faithful code input σ)
    (htbl : AllEntries (SoundEntry code input) σ'.tbl)
    (hview : ∀ o U', (pile σ').Shows Kept o U' → ∃ U, (pile σ).Shows Kept o U ∧
      Advances code input ⟨σ.ip, σ.pos, U⟩ ⟨σ'.ip, σ'.pos, U'⟩) :
    NextFaithful code input σ (.running σ') := by
  refine ⟨⟨fun o U' x hU' hx => ?_, htbl⟩, fun U U' hU hU' => ?_⟩
  · obtain ⟨U, hU, hadv⟩ := hview o U' hU'
    exact (h.shown o U x hU hx).trans hadv.to_reflTransGen
  · obtain ⟨V, hV, hadv⟩ := hview none U' hU'
    rwa [shows_none_unique hU hV]

/-- A state from which a failure goes back into this stack. -/
def Drops (code : VmCode) (input : List UInt8) (x : Plain) (U : Pile StEntry CapForest) : Prop :=
  (unwind btrackOf U = none → Fails code input x) ∧
    ∀ r U', unwind btrackOf U = some (r, U') → Advances code input x ⟨r.1, r.2, U'⟩

theorem not_kept_memo (id : Int) (pos : Nat) : ¬Kept (.memo id pos) := by
  simp [Kept, isMemo]

theorem not_kept_memoTree (id : Int) (pos : Nat) (count : Int) :
    ¬Kept (.memoTree id pos count) := by
  simp [Kept, isMemo]

theorem kept_of_btrack (e : StEntry) (r : Nat × Nat) (h : btrackOf e = some r) : Kept e := by
  cases e <;> first | rfl | cases h

/-- The failure handler goes on as the plain machine does, and what it stores is sound. -/
theorem Faithful.goFail (h : Faithful code input σ)
    (htbl : AllEntries (SoundEntry code input) σ₁.tbl)
    (hview : ∀ o U₁, (pile σ₁).Shows Kept o U₁ → ∃ U, (pile σ).Shows Kept o U ∧
      Drops code input ⟨σ.ip, σ.pos, U⟩ U₁) :
    NextFaithful code input σ (aGoFail a σ₁) := by
  have hunwound : Unwound (SoundEntry code input) (unwind btrackOf (pile σ₁)) (aGoFail a σ₁) := by
    refine aFail_unwound htbl fun id pos hreach examined capt k l q hopen hq =>
      ⟨fun _ => ?_, fun hne => absurd rfl hne⟩
    obtain rfl : pos = q := Int.ofNat_inj.mp hq
    obtain ⟨U₁, hU₁, hnone⟩ := shows_reached (S := pile σ₁)
      (not_kept_memo id pos) hreach
    obtain ⟨U, hU, hdrops⟩ := hview _ U₁ hU₁
    exact fails_of_reaches (h.shown _ U _ hU (.memo hopen)) (hdrops.1 hnone)
  cases hr : aGoFail a σ₁ with
  | running σ' =>
      rw [hr] at hunwound
      obtain ⟨htbl', hunwind⟩ := hunwound
      refine h.running htbl' fun o U' hU' => ?_
      obtain ⟨U₁, hU₁, hU₁'⟩ := shows_unwind kept_of_btrack hunwind hU'
      obtain ⟨U, hU, hdrops⟩ := hview o U₁ hU₁
      exact ⟨U, hU, hdrops.2 _ _ hU₁'⟩
  | failed σ' =>
      rw [hr] at hunwound
      obtain ⟨htbl', hnone⟩ := hunwound
      obtain ⟨U₁, hU₁⟩ := exists_shows Kept (pile σ₁)
      obtain ⟨U, hU, hdrops⟩ := hview none U₁ hU₁
      exact ⟨htbl', fails_of_reaches (h.shown none U _ hU .start)
        (hdrops.1 (shows_unwind_none hnone hU₁))⟩
  | _ =>
      rw [hr] at hunwound
      exact hunwound.elim

theorem step_shown {o : Option StEntry} {U₁ : Pile StEntry CapForest}
    (hget : code.prog[σ.ip]? = some i)
    (hkept : pops i = true → ∃ e rest, σ.stack = e :: rest ∧ Kept e.entry)
    (h : (remaining i (pile σ)).Shows Kept o U₁) :
    ∃ U, (pile σ).Shows Kept o U ∧ step code input ⟨σ.ip, σ.pos, U⟩ =
      settle U₁ (act code input σ.ip σ.pos (pile σ).frames.head? i) := by
  cases hp : pops i with
  | false =>
      simp only [remaining, hp, Bool.false_eq_true, if_false] at h
      refine ⟨U₁, h, ?_⟩
      simp only [step, hget, remaining, hp, Bool.false_eq_true, if_false]
      rw [act_top hp]
  | true =>
      obtain ⟨e, rest, hstack, he⟩ := hkept hp
      simp only [remaining, hp, if_true] at h
      have hpile : pile σ = (pile σ).pop.push (e.entry, e.capt) := by
        simp [pile, Pile.pop, Pile.push, hstack]
      refine ⟨U₁.push (e.entry, e.capt), ?_, ?_⟩
      · rw [hpile]
        exact .kept he h
      · simp only [step, hget, remaining, hp, if_true]
        rw [hpile]
        rfl

theorem shows_enter {o : Option StEntry} {entry : Option StEntry} {capt : CapForest}
    (hentry : ∀ e, entry = some e → Kept e) (h : (enter (S.add capt) entry).Shows Kept o U') :
    ∃ U, S.Shows Kept o U ∧ U' = enter (U.add capt) entry := by
  cases entry with
  | none => exact shows_add h
  | some e =>
      obtain ⟨V, hV, rfl⟩ := shows_push (hentry e rfl) h
      obtain ⟨U, hU, rfl⟩ := shows_add hV
      exact ⟨U, hU, rfl⟩

theorem Faithful.acted (h : Faithful a.code a.input σ) (hw : a.windowed = false)
    (hpure : PureCheckers a.code) (hget : a.code.prog[σ.ip]? = some i) (hi : memoizes i = false)
    (hkept : pops i = true → ∃ e rest, σ.stack = e :: rest ∧ Kept e.entry)
    (hact : act a.code a.input σ.ip σ.pos (pile σ).frames.head? i ≠ .stuck) (hit : Option AEntry) :
    NextFaithful a.code a.input σ (aInsn a hit σ i) := by
  have hacted := aInsn_acted (σ := σ) hw hpure hi hit
  have hstep : ∀ o U₁, (remaining i (pile σ)).Shows Kept o U₁ →
      ∃ U, (pile σ).Shows Kept o U ∧ step a.code a.input ⟨σ.ip, σ.pos, U⟩ =
        settle U₁ (act a.code a.input σ.ip σ.pos (pile σ).frames.head? i) :=
    fun _ _ => step_shown hget hkept
  cases hres : act a.code a.input σ.ip σ.pos (pile σ).frames.head? i with
  | go ip pos capt entry =>
      rw [hres] at hacted hstep
      obtain ⟨σ', heq, rfl, rfl, hpile, htbl⟩ := hacted
      rw [heq]
      refine h.running (htbl ▸ h.table) fun o U' hU' => ?_
      rw [hpile] at hU'
      obtain ⟨U₁, hU₁, rfl⟩ := shows_enter (fun e he => act_kept (he ▸ hres)) hU'
      obtain ⟨U, hU, hmove⟩ := hstep o U₁ hU₁
      exact ⟨U, hU, .single hmove⟩
  | fail =>
      rw [hres] at hacted hstep
      obtain ⟨σ₁, capt, heq, hpile, htbl⟩ := hacted
      rw [heq]
      refine h.goFail (htbl ▸ h.table) fun o V hV => ?_
      rw [hpile] at hV
      obtain ⟨U₁, hU₁, rfl⟩ := shows_add hV
      obtain ⟨U, hU, hmove⟩ := hstep o U₁ hU₁
      refine ⟨U, hU, fun hnone => ⟨_, .refl, ?_⟩, fun r U' hsome => .single ?_⟩
      · rw [unwind_add] at hnone
        rw [hmove, settle, back, hnone]
      · rw [unwind_add] at hsome
        rw [Moves, hmove, settle, back, hsome]
  | done success =>
      rw [hres] at hacted hstep
      obtain ⟨U₁, hU₁⟩ := exists_shows Kept (remaining i (pile σ))
      obtain ⟨U, hU, hmove⟩ := hstep none U₁ hU₁
      rw [show aInsn a hit σ i = .done σ success from hacted]
      exact ⟨h.table, _, h.shown none U _ hU .start, hmove, rfl, hU⟩
  | stuck => exact absurd hres hact

end Steps

section MemoInsns

/-- No two instructions open entries with one id. -/
def DistinctIds (prog : List VmInsn) : Prop :=
  ∀ k l k' l' id, OpensAt prog k l id → OpensAt prog k' l' id → k = k'

theorem opensAt_target {prog : List VmInsn} {k l l' : Nat} {id : Int} (h : OpensAt prog k l id)
    (h' : OpensAt prog k l' id) : l = l' := by
  rcases h with h | h <;> rcases h' with h' | h' <;> cases h.symm.trans h' <;> rfl

theorem DistinctIds.target {prog : List VmInsn} (hids : DistinctIds prog) {k l l' : Nat} {id : Int}
    (h : OpensAt prog k l id) (h' : Opens prog l' id) : l = l' := by
  obtain ⟨k', h'⟩ := h'
  obtain rfl := hids _ _ _ _ _ h h'
  exact opensAt_target h h'

theorem memo_noop (hget : code.prog[σ.ip]? = some i) (hi : memoizes i = true)
    (U : Pile StEntry CapForest) :
    Moves code input ⟨σ.ip, σ.pos, U⟩ ⟨σ.ip + 1, σ.pos, U⟩ := by
  have hact : settle (remaining i U) (act code input σ.ip σ.pos U.frames.head? i) =
      .running ⟨σ.ip + 1, σ.pos, U.add 0⟩ := by
    cases i <;> first | rfl | cases hi
  simp only [Moves, step, hget]
  rw [hact, Pile.add_zero]

theorem sound_of_advances {id : Int} {q pos : Nat} {examined count : Int} {capt : CapForest}
    (hle : q ≤ pos) (h : ∀ k l, OpensAt code.prog k l id →
      Advances code input (bare k q) ⟨l, pos, ⟨[], capt⟩⟩) :
    SoundEntry code input ⟨id, q, examined, (pos : Int) - q, count, capt⟩ := by
  intro k l q' hopen hq
  obtain rfl : q = q' := Int.ofNat_inj.mp hq
  refine ⟨fun hfail => ?_, fun _ => ?_⟩
  · dsimp only at hfail
    omega
  · have hpos : q + ((pos : Int) - q).toNat = pos := by omega
    dsimp only
    rw [hpos]
    exact h k l hopen

/-- `τ` comes from `σ` by taking memo entries off and storing entries. -/
structure Within (prog : List VmInsn) (σ τ : AState) : Prop where
  ip : τ.ip = σ.ip
  pos : τ.pos = σ.pos
  shows : ∀ o' U, (pile τ).Shows Kept o' U → ∃ o, (pile σ).Shows Kept o U ∧
    (o' = none → o = none) ∧ ∀ x, Origin prog o' x → Origin prog o x

variable {τ : AState} {e : AFrame} {rest : List AFrame}

theorem Within.refl (prog : List VmInsn) (σ : AState) : Within prog σ σ :=
  ⟨rfl, rfl, fun o _ h => ⟨o, h, id, fun _ => id⟩⟩

theorem Within.trans {prog : List VmInsn} (h : Within prog σ σ₁) (h' : Within prog σ₁ τ) :
    Within prog σ τ := by
  refine ⟨h'.ip.trans h.ip, h'.pos.trans h.pos, fun o' U hU => ?_⟩
  obtain ⟨o₁, hU₁, hnone₁, horigin₁⟩ := h'.shows o' U hU
  obtain ⟨o, hU, hnone, horigin⟩ := h.shows o₁ U hU₁
  exact ⟨o, hU, fun h => hnone (hnone₁ h), fun x hx => horigin x (horigin₁ x hx)⟩

theorem pile_cons (h : σ.stack = e :: rest) : pile σ = (pile σ).pop.push (e.entry, e.capt) := by
  simp [pile, Pile.pop, Pile.push, h]

theorem within_pop {prog : List VmInsn} (h : σ.stack = e :: rest) (he : ¬Kept e.entry) :
    Within prog σ (aPop σ e rest) := by
  refine ⟨aAddCapt_ip _, aPop_pos _ _, fun o U hU => ⟨o, ?_, id, fun _ => id⟩⟩
  rw [pile_pop h] at hU
  rw [pile_cons h]
  exact shows_merge he hU

theorem within_memoize {prog : List VmInsn} (id : Int) (pos : Nat) (mlen count : Int)
    (capt : CapForest) : Within prog σ (aMemoize a σ id pos mlen count capt) := by
  rw [aMemoize_eq]
  exact ⟨rfl, rfl, fun o _ h => ⟨o, h, fun h => h, fun _ hx => hx⟩⟩

theorem within_count {prog : List VmInsn} {id count : Int} {pos : Nat} {capt : CapForest}
    (h : σ.stack = ⟨.memoTree id pos count, capt⟩ :: rest) (count' : Int) :
    Within prog σ { σ with stack := ⟨.memoTree id pos count', capt⟩ :: rest } := by
  refine ⟨rfl, rfl, fun o U hU => ?_⟩
  have hpile : pile σ = Pile.push ⟨rest.map fun f => (f.entry, f.capt), σ.capt⟩
      (.memoTree id pos count, capt) := by
    simp [pile, Pile.push, h]
  rw [hpile]
  have hU' : (Pile.push ⟨rest.map fun f => (f.entry, f.capt), σ.capt⟩
      (.memoTree id pos count', capt)).Shows Kept o U := hU
  rcases shows_mark (not_kept_memoTree id pos count') hU' with ⟨rfl, rfl⟩ | ⟨V, hV, rfl⟩
  · refine ⟨some (.memoTree id pos count), .here (not_kept_memoTree id pos count),
      fun h => ?_, fun x hx => ?_⟩
    · cases h
    · cases hx with
      | memoTree hopen => exact .memoTree hopen
  · exact ⟨o, .skip (not_kept_memoTree id pos count) hV, fun h => h, fun _ hx => hx⟩

theorem Faithful.within (h : Faithful code input σ) (hwithin : Within code.prog σ τ)
    (htbl : AllEntries (SoundEntry code input) τ.tbl) : Faithful code input τ := by
  refine ⟨fun o' U x hU hx => ?_, htbl⟩
  obtain ⟨o, hU, -, horigin⟩ := hwithin.shows o' U hU
  rw [hwithin.ip, hwithin.pos]
  exact h.shown o U x hU (horigin x hx)

theorem Faithful.noop (h : Faithful code input σ) (hget : code.prog[σ.ip]? = some i)
    (hi : memoizes i = true) (hwithin : Within code.prog σ τ)
    (htbl : AllEntries (SoundEntry code input) τ.tbl) :
    NextFaithful code input σ (aNextIp τ) := by
  have hτ := h.within hwithin htbl
  refine ⟨⟨fun o U x hU hx => ?_, htbl⟩, fun U U' hU hU' => ?_⟩
  · have hmove : Moves code input ⟨σ.ip, σ.pos, U⟩ ⟨σ.ip + 1, σ.pos, U⟩ :=
      memo_noop hget hi U
    have hreach := hτ.shown o U x hU hx
    rw [hwithin.ip, hwithin.pos] at hreach
    simp only [hwithin.ip, hwithin.pos]
    exact hreach.tail hmove
  · obtain ⟨o, hV, hnone, -⟩ := hwithin.shows none U' hU'
    rw [hnone rfl] at hV
    rw [shows_none_unique hU hV]
    simp only [hwithin.ip, hwithin.pos]
    exact .single (memo_noop hget hi U')

end MemoInsns

section Trees

/-- The entries of the stack without their captures. -/
def entries (σ : AState) : List StEntry :=
  σ.stack.map AFrame.entry

def TopTrees (id : Int) : List StEntry → Prop
  | [] => True
  | e :: rest => ∀ id' pos count, e = .memoTree id' pos count → id' = id ∧ TopTrees id rest

def Trees (n : Nat) (stack : List StEntry) : Prop :=
  ∀ j < n, ∃ id pos count, stack[j]? = some (.memoTree id pos count)

/-- What holds while tree memo entries are merged. -/
structure TreeInv (code : VmCode) (input : List UInt8) (id : Int) (σ τ : AState) : Prop where
  within : Within code.prog σ τ
  table : AllEntries (SoundEntry code input) τ.tbl
  placed : Placed τ
  top : TopTrees id (entries τ)

variable {τ : AState} {e : AFrame} {rest : List AFrame} {id : Int}

theorem entries_addCapt (τ : AState) (capt : CapForest) :
    entries (aAddCapt τ capt) = entries τ := by
  unfold aAddCapt
  split
  · rfl
  · next h => simp [entries, h]

theorem entries_pop (e : AFrame) (rest : List AFrame) :
    entries (aPop τ e rest) = rest.map AFrame.entry :=
  entries_addCapt _ _

theorem TreeInv.pop {id' count : Int} {pos : Nat} {capt : CapForest}
    (h : TreeInv code input id σ τ) (hstack : τ.stack = ⟨.memoTree id' pos count, capt⟩ :: rest) :
    TreeInv code input id σ (aPop τ ⟨.memoTree id' pos count, capt⟩ rest) := by
  refine ⟨h.within.trans (within_pop hstack (not_kept_memoTree _ _ _)), ?_, (lowered_pop hstack).placed h.placed, ?_⟩
  · rw [aPop_tbl]
    exact h.table
  · have htop := h.top
    rw [entries, hstack] at htop
    rw [entries_pop]
    exact (htop id' pos count rfl).2

theorem TreeInv.popMany (n : Nat) (h : TreeInv code input id σ τ) (htrees : Trees n (entries τ)) :
    TreeInv code input id σ (aPopMany n τ) := by
  induction n generalizing τ with
  | zero => exact h
  | succ n ih =>
      obtain ⟨id', pos, count, hhead⟩ := htrees 0 (Nat.succ_pos n)
      cases hstack : τ.stack with
      | nil => simp [entries, hstack] at hhead
      | cons e rest =>
          obtain ⟨entry, capt⟩ := e
          obtain rfl : entry = .memoTree id' pos count := by simpa [entries, hstack] using hhead
          simp only [aPopMany, hstack]
          refine ih (h.pop hstack) fun j hj => ?_
          obtain ⟨id₂, pos₂, count₂, hget⟩ := htrees (j + 1) (Nat.succ_lt_succ hj)
          refine ⟨id₂, pos₂, count₂, ?_⟩
          rw [entries_pop]
          simpa [entries, hstack] using hget

theorem placed_head {id' count : Int} {pos : Nat} {capt : CapForest} (h : Placed τ)
    (hstack : τ.stack = ⟨.memoTree id' pos count, capt⟩ :: rest) : pos ≤ τ.pos := by
  refine (List.pairwise_cons.mp h).1 pos ?_
  rw [hstack]
  exact List.mem_cons_self

theorem sound_merged {id' count : Int} {pos : Nat} {capt : CapForest} (h : Faithful code input σ)
    (hids : DistinctIds code.prog) (hget : code.prog[σ.ip]? = some .memoTree)
    (hopens : Opens code.prog σ.ip id) (hτ : TreeInv code input id σ τ)
    (hstack : τ.stack = ⟨.memoTree id' pos count, capt⟩ :: rest) (examined count' : Int) :
    SoundEntry code input ⟨id', pos, examined, (τ.pos : Int) - pos, count', capt⟩ := by
  refine sound_of_advances (placed_head hτ.placed hstack) fun k l hopen => ?_
  have htop := hτ.top
  rw [entries, hstack] at htop
  obtain rfl := (htop id' pos count rfl).1
  obtain rfl := hids.target hopen hopens
  have hshow : (pile τ).Shows Kept (some (.memoTree id' pos count)) ⟨[], capt⟩ := by
    rw [pile_cons hstack]
    exact .here (not_kept_memoTree id' pos count)
  have hreach := (h.within hτ.within hτ.table).shown _ _ _ hshow (.memoTree hopen)
  rw [hτ.within.ip] at hreach
  rcases Relation.reflTransGen_iff_eq_or_transGen.mp hreach with heq | hadv
  · have hk : σ.ip = k := congrArg Plain.ip heq
    rw [hk] at hget
    rcases hopen with hopen | hopen <;> cases hget.symm.trans hopen
  · exact hadv

theorem TreeInv.merge (h : Faithful code input σ) (hids : DistinctIds code.prog)
    (hget : code.prog[σ.ip]? = some .memoTree) (hopens : Opens code.prog σ.ip id) {n : Nat}
    (hτ : TreeInv code input id σ τ) (htrees : Trees n (entries τ)) (accum : Int) :
    TreeInv code input id σ (aTreeMerge a (n + 1) accum τ) := by
  have hmany := hτ.popMany n htrees
  simp only [aTreeMerge, Nat.add_sub_cancel]
  generalize aPopMany n τ = τ₁ at hmany
  split
  · next id₁ pos₁ count₁ capt₁ rest₁ hstack₁ =>
      have hpop := hmany.pop hstack₁
      generalize aPop τ₁ ⟨.memoTree id₁ pos₁ count₁, capt₁⟩ rest₁ = τ₂ at hpop
      split
      · next id₂ pos₂ count₂ capt₂ rest₂ hstack₂ =>
          have hcount : Within code.prog τ₂
              { τ₂ with stack := ⟨.memoTree id₂ pos₂ (accum + count₂), capt₂⟩ :: rest₂ } :=
            within_count hstack₂ (accum + count₂)
          have hsound := fun examined =>
            sound_merged h hids hget hopens hpop hstack₂ examined (accum + count₂)
          refine ⟨(hpop.within.trans hcount).trans (within_memoize ..),
            aMemoize_entries hpop.table hsound, ?_, ?_⟩
          · refine hpop.placed.of_sublist (by simp) ?_
            rw [aMemoize_stack, hstack₂]
            exact List.Sublist.refl _
          · rw [entries, aMemoize_stack]
            have htop := hpop.top
            rw [entries, hstack₂] at htop
            intro id' pos count heq
            cases heq
            exact htop _ _ _ rfl
      · exact hpop
  · exact hmany

theorem TreeInv.loop (h : Faithful code input σ) (hids : DistinctIds code.prog)
    (hget : code.prog[σ.ip]? = some .memoTree) (hopens : Opens code.prog σ.ip id)
    (fuel : Nat) {seen : Nat} (accum : Int) (hτ : TreeInv code input id σ τ)
    (htrees : Trees seen (entries τ)) :
    TreeInv code input id σ (aTreeLoop a fuel seen accum τ) := by
  induction fuel generalizing τ seen accum with
  | zero => exact hτ
  | succ fuel ih =>
      rw [aTreeLoop]
      split
      · next id₁ pos₁ count₁ capt₁ id₂ pos₂ count₂ capt₂ hseen hnext =>
          split
          · refine ih _ hτ fun j hj => ?_
            rcases Nat.lt_succ_iff_lt_or_eq.mp hj with hlt | rfl
            · exact htrees j hlt
            · exact ⟨id₁, pos₁, count₁, by simp [entries, hseen]⟩
          · exact ih _ (hτ.merge h hids hget hopens htrees _) fun j hj => absurd hj (Nat.not_lt_zero j)
      · exact hτ

theorem aTreeClose_within (prog : List VmInsn) (fuel : Nat) (σ : AState) :
    Within prog σ (aTreeClose id fuel σ) := by
  induction fuel generalizing σ with
  | zero => exact .refl prog σ
  | succ fuel ih =>
      rw [aTreeClose]
      split
      · next e rest hstack =>
          obtain ⟨entry, capt⟩ := e
          split
          · next id' pos count hentry =>
              split
              · obtain rfl : entry = .memoTree id' pos count := hentry
                exact (within_pop hstack (not_kept_memoTree _ _ _)).trans (ih _)
              · exact .refl prog σ
          · exact .refl prog σ
      · exact .refl prog σ

end Trees

section Typed

variable {ready : Nat → Shape → Prop} {sh next : Shape} {hit : Option AEntry}

theorem stack_of_entries {e : StEntry} {below : List StEntry} (h : entries σ = e :: below) :
    ∃ capt rest, σ.stack = ⟨e, capt⟩ :: rest ∧ rest.map AFrame.entry = below := by
  obtain ⟨⟨e', capt⟩, rest, hstack, he, hrest⟩ := List.map_eq_cons_iff.mp h
  obtain rfl : e' = e := he
  exact ⟨capt, rest, hstack, hrest⟩

theorem head_of_stack {e : StEntry} {capt : CapForest} {rest : List AFrame}
    (h : σ.stack = ⟨e, capt⟩ :: rest) : (pile σ).frames.head? = some (e, capt) := by
  simp [pile, h]

theorem typed_pops (hp : pops i = true) (hpasses : Passes ready σ.ip sh next i)
    (hfits : Fits (Opens code.prog) ready sh (entries σ)) :
    (∃ e rest, σ.stack = e :: rest ∧ Kept e.entry) ∧
      act code input σ.ip σ.pos (pile σ).frames.head? i ≠ .stuck := by
  generalize hstack : entries σ = stack at hfits
  have hgo : ∀ e below, stack = e :: below → Kept e →
      (∀ capt, act code input σ.ip σ.pos (some (e, capt)) i ≠ .stuck) →
      (∃ e rest, σ.stack = e :: rest ∧ Kept e.entry) ∧
        act code input σ.ip σ.pos (pile σ).frames.head? i ≠ .stuck := by
    intro e below hcons he hact
    obtain ⟨capt, rest, hσ, -⟩ := stack_of_entries (hstack.trans hcons)
    rw [head_of_stack hσ]
    exact ⟨⟨_, rest, hσ, he⟩, hact capt⟩
  cases i with
  | commit l =>
      obtain ⟨r, rfl, -⟩ := hpasses
      cases hfits with
      | btrack => exact hgo _ _ rfl rfl fun _ => by simp [act]
  | backCommit l =>
      obtain ⟨r, rfl, -⟩ := hpasses
      cases hfits with
      | btrack => exact hgo _ _ rfl rfl fun _ => by simp [act]
  | partialCommit l =>
      obtain ⟨⟨r, rfl⟩, -⟩ := hpasses
      cases hfits with
      | btrack => exact hgo _ _ rfl rfl fun _ => by simp [act]
  | failTwice =>
      obtain ⟨r, rfl⟩ := hpasses
      cases hfits with
      | btrack => exact hgo _ _ rfl rfl fun _ => by simp [act]
  | ret =>
      obtain rfl : sh = .fn := hpasses
      cases hfits with
      | fn => exact hgo _ _ rfl rfl fun _ => by simp [act]
  | captureEnd =>
      obtain rfl : sh = .push .capt next := hpasses
      cases hfits with
      | capt => exact hgo _ _ rfl rfl fun _ => by simp [act]
  | checkEnd k =>
      obtain rfl : sh = .push .check next := hpasses
      cases hfits with
      | check =>
          refine hgo _ _ rfl rfl fun capt => ?_
          simp only [act]
          split
          · simp
          · split
            · simp
            · split <;> simp
  | _ => cases hp

theorem act_ne_stuck (hp : pops i = false) (hnop : i ≠ .nop)
    (top : Option (StEntry × CapForest)) :
    act code input σ.ip σ.pos top i ≠ .stuck := by
  cases i with
  | nop => exact absurd rfl hnop
  | empty mask =>
      simp only [act]
      generalize emptyOpContext _ _ &&& mask.toNat = m
      split <;> simp
  | char | set | any | testChar | testCharNoChoice | testSet | testSetNoChoice | testAny =>
      simp only [act, byteAct, testAct]
      split <;> simp
  | _ => first | (simp [act]; done) | cases hp

theorem Faithful.answered {l : Nat} {id : Int} {d : AEntry} (h : Faithful code input σ)
    (hopen : OpensAt code.prog σ.ip l id) (hhit : IsHit σ.tbl id σ.pos (some d)) :
    (d.length = -1 → Fails code input (bare σ.ip σ.pos)) ∧
      (d.length ≠ -1 →
        Advances code input (bare σ.ip σ.pos) ⟨l, σ.pos + d.length.toNat, ⟨[], d.capt⟩⟩) := by
  obtain ⟨t, ht, hd, rfl, hpos, -⟩ := hhit
  exact h.table t ht d hd _ _ _ hopen hpos

theorem Faithful.missed {l : Nat} {id : Int} {e : StEntry} (h : Faithful code input σ)
    (hids : DistinctIds code.prog) (hopen : OpensAt code.prog σ.ip l id)
    (hget : code.prog[σ.ip]? = some i) (hi : memoizes i = true)
    (he : e = .memo id σ.pos ∨ e = .memoTree id σ.pos 0) :
    NextFaithful code input σ (aNextIp (aPush σ e)) := by
  have hkept : ¬Kept e := by
    rcases he with rfl | rfl
    · exact not_kept_memo id σ.pos
    · exact not_kept_memoTree id σ.pos 0
  have horigin : ∀ x, Origin code.prog (some e) x → x = bare σ.ip σ.pos := by
    intro x hx
    rcases he with rfl | rfl
    · cases hx with
      | memo hopen' => rw [hids _ _ _ _ _ hopen hopen']
    · cases hx with
      | memoTree hopen' => rw [hids _ _ _ _ _ hopen hopen']
  refine ⟨⟨fun o U' x hU' hx => ?_, h.table⟩, fun U U' hU hU' => ?_⟩
  · rcases shows_mark (S := pile σ) hkept hU' with ⟨rfl, rfl⟩ | ⟨U, hU, rfl⟩
    · rw [horigin x hx]
      exact .single (memo_noop hget hi _)
    · rw [show U.add CapForest.nil = U from Pile.add_zero U]
      exact (h.shown o U x hU hx).tail (memo_noop hget hi U)
  · rcases shows_mark (S := pile σ) hkept hU' with ⟨heq, -⟩ | ⟨V, hV, rfl⟩
    · cases heq
    · rw [shows_none_unique hU hV, show V.add CapForest.nil = V from Pile.add_zero V]
      exact .single (memo_noop hget hi V)

end Typed

section Insns

variable {ready : Nat → Shape → Prop} {sh next : Shape} {hit : Option AEntry}

theorem Faithful.hitFails (h : Faithful a.code a.input σ)
    (hfails : Fails a.code a.input (bare σ.ip σ.pos)) :
    NextFaithful a.code a.input σ (aGoFail a σ) :=
  h.goFail h.table fun _ U hU => ⟨U, hU, fails_onto hfails U⟩

theorem advances_capt {ip pos l q : Nat} {capt : CapForest}
    (h : Advances code input (bare ip pos) ⟨l, q, ⟨[], capt⟩⟩) (U : Pile StEntry CapForest) :
    Advances code input ⟨ip, pos, U⟩ ⟨l, q, U.add capt⟩ := by
  have := advances_onto h U
  rwa [bare, show (⟨[], .nil⟩ : Pile StEntry CapForest).onto U = U from empty_onto U] at this

/-- A hit of a tree memo loop pushes an entry that its captures belong to. -/
theorem Faithful.reopened {l : Nat} {id : Int} {d : AEntry} (h : Faithful a.code a.input σ)
    (hids : DistinctIds a.code.prog) (hopen : OpensAt a.code.prog σ.ip l id)
    (hmatch : Advances a.code a.input (bare σ.ip σ.pos)
      ⟨l, σ.pos + d.length.toNat, ⟨[], d.capt⟩⟩) :
    NextFaithful a.code a.input σ (aJumpTo (aPeek (aAdvance
      (aAddCapt (aPush σ (.memoTree id σ.pos d.count)) d.capt) d.length.toNat)) l) := by
  have hpile : pile (aAddCapt (aPush σ (.memoTree id σ.pos d.count)) d.capt) =
      ((pile σ).push (.memoTree id σ.pos d.count, .nil)).add d.capt := pile_addCapt _ _
  have hview : ∀ o U', (pile (aAddCapt (aPush σ (.memoTree id σ.pos d.count)) d.capt)).Shows
      Kept o U' → o = some (.memoTree id σ.pos d.count) ∧ U' = ⟨[], d.capt⟩ ∨
        ∃ U, (pile σ).Shows Kept o U ∧ U' = U.add d.capt := by
    intro o U' hU'
    rw [hpile] at hU'
    obtain ⟨V, hV, rfl⟩ := shows_add hU'
    rcases shows_mark (S := pile σ) (not_kept_memoTree id σ.pos d.count) hV with
      ⟨rfl, rfl⟩ | ⟨U, hU, rfl⟩
    · exact .inl ⟨rfl, rfl⟩
    · exact .inr ⟨U, hU, congrArg (Pile.add · d.capt) (Pile.add_zero U)⟩
  have hpos : (aAddCapt (aPush σ (.memoTree id σ.pos d.count)) d.capt).pos = σ.pos :=
    aAddCapt_pos _
  have htbl : (aAddCapt (aPush σ (.memoTree id σ.pos d.count)) d.capt).tbl = σ.tbl :=
    aAddCapt_tbl _
  generalize aAddCapt (aPush σ (.memoTree id σ.pos d.count)) d.capt = σ₁ at hview hpos htbl
  refine ⟨⟨fun o U' x hU' hx => ?_, ?_⟩, fun U U' hU hU' => ?_⟩
  · simp only [aPeek, aAdvance, hpos]
    rcases hview o U' hU' with ⟨rfl, rfl⟩ | ⟨U, hU, rfl⟩
    · cases hx with
      | memoTree hopen' =>
          obtain rfl := hids _ _ _ _ _ hopen hopen'
          exact hmatch.to_reflTransGen
    · exact (h.shown o U x hU hx).trans (advances_capt hmatch U).to_reflTransGen
  · simpa only [aPeek, aAdvance, htbl] using h.table
  · simp only [aPeek, aAdvance, hpos]
    rcases hview none U' hU' with ⟨heq, -⟩ | ⟨V, hV, rfl⟩
    · cases heq
    · rw [shows_none_unique hU hV]
      exact advances_capt hmatch V

theorem topTrees_chain {id : Int} {chain rest : List StEntry} (hchain : IsChain id chain)
    (hrest : NoTree rest) : TopTrees id (chain ++ rest) := by
  induction chain with
  | nil =>
      cases rest with
      | nil => exact trivial
      | cons e rest =>
          rintro id' pos count rfl
          exact absurd rfl (hrest id' pos count)
  | cons e chain ih =>
      obtain ⟨⟨pos, count, rfl⟩, htail⟩ := isChain_cons.mp hchain
      intro id' pos' count' heq
      cases heq
      exact ⟨rfl, ih htail⟩

/-- Every instruction that finds the entries it expects goes on faithfully. -/
theorem Faithful.insn (h : Faithful a.code a.input σ) (hids : DistinctIds a.code.prog)
    (hw : a.windowed = false) (hpure : PureCheckers a.code) (hplaced : Placed σ)
    (hget : a.code.prog[σ.ip]? = some i) (hnop : i ≠ .nop)
    (hpasses : Passes ready σ.ip sh next i)
    (hfits : Fits (Opens a.code.prog) ready sh (entries σ))
    (hhit : ∀ id, lookupId i = some id → IsHit σ.tbl id σ.pos hit) :
    NextFaithful a.code a.input σ (aInsn a hit σ i) := by
  cases hm : memoizes i with
  | false =>
      cases hp : pops i with
      | true =>
          obtain ⟨hkept, hact⟩ : (∃ e rest, σ.stack = e :: rest ∧ Kept e.entry) ∧
              act a.code a.input σ.ip σ.pos (pile σ).frames.head? i ≠ .stuck :=
            typed_pops hp hpasses hfits
          exact h.acted hw hpure hget hm (fun _ => hkept) hact hit
      | false =>
          refine h.acted hw hpure hget hm (fun h => ?_) (act_ne_stuck hp hnop _) hit
          cases hp.symm.trans h
  | true =>
      cases i with
      | memoOpen l id =>
          have hopen : OpensAt a.code.prog σ.ip l id := .inl hget
          cases hit with
          | none => exact h.missed hids hopen hget rfl (.inl rfl)
          | some d =>
              obtain ⟨hfails, hmatch⟩ := h.answered hopen (hhit id rfl)
              simp only [aInsn]
              split
              · next hlen => exact h.hitFails (hfails hlen)
              · next hlen =>
                  refine h.running ?_ fun o U' hU' => ?_
                  · simpa [aAdvance] using h.table
                  · change (pile (aAddCapt σ d.capt)).Shows Kept o U' at hU'
                    rw [pile_addCapt] at hU'
                    obtain ⟨U, hU, rfl⟩ := shows_add hU'
                    refine ⟨U, hU, ?_⟩
                    simpa [aAdvance] using advances_capt (hmatch hlen) U
      | memoClose =>
          obtain ⟨l, id, rfl, hl⟩ := hpasses
          cases hl
          generalize hstack : entries σ = stack at hfits
          cases hfits with
          | @memo _ pos _ _ below hknown hbelow =>
              obtain ⟨capt, rest, hσ, -⟩ := stack_of_entries hstack
              simp only [aInsn, hσ]
              have hpop : Within a.code.prog σ (aPop σ ⟨.memo id pos, capt⟩ rest) :=
                within_pop hσ (not_kept_memo id pos)
              have hle : pos ≤ σ.pos := (List.pairwise_cons.mp hplaced).1 pos (by
                rw [hσ]
                exact List.mem_cons_self)
              refine h.noop hget rfl (hpop.trans (within_memoize ..)) (aMemoize_entries ?_ ?_)
              · simpa using h.table
              · intro examined
                rw [aPop_pos]
                refine sound_of_advances hle fun k l hopen => ?_
                obtain rfl := hids.target hopen hknown
                have hshow : (pile σ).Shows Kept (some (.memo id pos)) ⟨[], capt⟩ := by
                  rw [pile_cons hσ]
                  exact .here (not_kept_memo id pos)
                exact .tail' (h.shown _ _ _ hshow (.memo hopen)) (memo_noop hget rfl _)
      | memoTreeOpen l id =>
          have hopen : OpensAt a.code.prog σ.ip l id := .inr hget
          cases hit with
          | none => exact h.missed hids hopen hget rfl (.inr rfl)
          | some d =>
              obtain ⟨hfails, hmatch⟩ := h.answered hopen (hhit id rfl)
              simp only [aInsn]
              split
              · next hlen => exact h.hitFails (hfails hlen)
              · next hlen => exact h.reopened hids hopen (hmatch hlen)
      | memoTreeInsert =>
          obtain ⟨⟨l, id, r, rfl, hl⟩, rfl⟩ := hpasses
          cases hl
          generalize hstack : entries σ = stack at hfits
          cases hfits with
          | @tree _ _ pos _ count _ below hknown hbelow =>
              obtain ⟨capt, rest, hσ, -⟩ := stack_of_entries hstack
              simp only [aInsn, hσ]
              refine h.noop hget rfl ((within_count hσ (count + 1)).trans (within_memoize ..))
                (aMemoize_entries h.table fun examined => ?_)
              refine sound_of_advances (placed_head hplaced hσ) fun k l hopen => ?_
              obtain rfl := hids.target hopen hknown
              have hshow : (pile σ).Shows Kept (some (.memoTree id pos count)) ⟨[], capt⟩ := by
                rw [pile_cons hσ]
                exact .here (not_kept_memoTree id pos count)
              exact .tail' (h.shown _ _ _ hshow (.memoTree hopen)) (memo_noop hget rfl _)
      | memoTree =>
          obtain ⟨rfl, id, r, rfl⟩ := hpasses
          obtain ⟨hbelow, chain, rest, hstack, hchain, hne, hknown, hrest⟩ :=
            fits_tree_iff.mp hfits
          have htop : TopTrees id (entries σ) := by
            rw [hstack]
            exact topTrees_chain hchain (hrest.noTree hbelow)
          have hτ : TreeInv a.code a.input id σ (aTree a σ) :=
            TreeInv.loop h hids hget (hknown (hne rfl)) _ 0 ⟨.refl _ σ, h.table, hplaced, htop⟩
              fun j hj => absurd hj (Nat.not_lt_zero j)
          exact h.noop hget rfl hτ.within hτ.table
      | memoTreeClose id =>
          refine h.noop hget rfl (aTreeClose_within _ _ σ) ?_
          simpa using h.table
      | _ => cases hm

end Insns

end Libpeg.MemoSoundness
