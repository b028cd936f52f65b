import Libpeg.MemoSoundness
import Libpeg.Window

namespace Libpeg.Transparency

open Libpeg.Opcode Libpeg.Code Libpeg.IntervalRefinement Libpeg.Memo Libpeg.Input Libpeg.Vm
open Libpeg.Compile Libpeg.Peg Libpeg.MemoView Libpeg.Forest Libpeg.AbstractVm Libpeg.Simulation
open Libpeg.Positions Libpeg.RunSimulation Libpeg.Relocation Libpeg.Session Libpeg.Anchoring
open Libpeg.Window Libpeg.ControlMachine Libpeg.ControlSimulation Libpeg.StackTyping
open Libpeg.StackDiscipline Libpeg.ProgramTyping Libpeg.Segments Libpeg.PlainMachine
open Libpeg.PlainSimulation Libpeg.MemoSoundness

variable {a : VmArgs} {ready : Nat → Shape → Prop} {s s' : VmState} {x y : Plain}
  {ref : List (RefIv Nat)} {p : Nat → Int} {P : AEntry → Prop}

section WindowedRuns

def NextTbl (tbl : Option ATable) : ANext → Prop
  | .running σ => σ.tbl = tbl
  | .done σ _ => σ.tbl = tbl
  | .failed σ => σ.tbl = tbl
  | .aborted _ => True

theorem aFail_windowed (hw : a.windowed = true) (stack : List AFrame) (σ : AState) :
    NextTbl σ.tbl (aFail a stack σ) := by
  induction stack with
  | nil => rfl
  | cons e rest ih =>
      rw [aFail]
      split
      · rfl
      · rw [aMemoize_windowed hw]
        exact ih
      · exact ih

theorem aTreeMerge_windowed (hw : a.windowed = true) (seen : Nat) (accum : Int) (σ : AState) :
    (aTreeMerge a seen accum σ).tbl = σ.tbl := by
  rw [aTreeMerge, ← aPopMany_tbl (seen - 1) σ]
  generalize aPopMany (seen - 1) σ = τ
  dsimp only
  split
  · next id pos count capt rest _ =>
      rw [← aPop_tbl (s := τ) ⟨.memoTree id pos count, capt⟩ rest]
      generalize aPop τ ⟨.memoTree id pos count, capt⟩ rest = υ
      split
      · rw [aMemoize_windowed hw]
      · rfl
  · rfl

theorem aTreeLoop_windowed (hw : a.windowed = true) (fuel seen : Nat) (accum : Int) (σ : AState) :
    (aTreeLoop a fuel seen accum σ).tbl = σ.tbl := by
  induction fuel generalizing seen accum σ with
  | zero => rfl
  | succ fuel ih =>
      rw [aTreeLoop]
      split
      · split
        · exact ih _ _ σ
        · rw [ih, aTreeMerge_windowed hw]
      · rfl

theorem aInsn_windowed (hw : a.windowed = true) (hit : Option AEntry) (σ : AState) (i : VmInsn) :
    NextTbl σ.tbl (aInsn a hit σ i) := by
  have hfail : ∀ τ : AState, τ.tbl = σ.tbl → NextTbl σ.tbl (aGoFail a τ) := by
    intro τ ht
    rw [← ht]
    exact aFail_windowed hw τ.stack τ
  cases i with
  | empty mask =>
      simp only [aInsn]
      generalize emptyOpContext _ _ &&& mask.toNat = n
      split
      · rfl
      · exact hfail σ rfl
  | memoTree => exact aTreeLoop_windowed hw _ 0 0 σ
  | _ =>
      simp only [aInsn, aMatch, aTestInsn, aMemoize_windowed hw]
      repeat' split
      all_goals first
        | exact trivial
        | exact hfail _ rfl
        | exact hfail _ (by simp [aPop])
        | simp [NextTbl, aNextIp, aJumpTo, aPush, aAdvance, aPeek]

theorem aStep_windowed (hw : a.windowed = true) {σ : AState} {r : ANext} (h : AStep a σ r) :
    NextTbl σ.tbl r := by
  cases h with
  | out => exact trivial
  | insn => exact aInsn_windowed hw _ σ _

theorem aRun_windowed (hw : a.windowed = true) {n : Nat} {σ : AState} {r : ANext}
    (h : ARun a n σ r) : NextTbl σ.tbl r := by
  induction h with
  | stop h => exact aStep_windowed hw h
  | step h _ ih => exact aStep_windowed hw h ▸ ih

end WindowedRuns

section Runs

/-- A state of a run that does what the plain machine has done up to `x`. -/
def Sane (a : VmArgs) (ready : Nat → Shape → Prop) (s : VmState) (x : Plain) : Prop :=
  ∃ ref p thr base t sh, Ok a.input ref p s ∧ Placed (absState ref p s) ∧ Tracks a thr base s t ∧
    ready s.ip sh ∧ Fits (Opens a.code.prog) ready sh t.stack ∧
    Faithful a.code a.input (absState ref p s) ∧ x.ip = s.ip ∧ x.pos = vmInputPos s.src ∧
    (pile (absState ref p s)).Shows Kept none x.stack

def SoundState (a : VmArgs) (s : VmState) (ref : List (RefIv Nat)) (p : Nat → Int) : Prop :=
  Ok a.input ref p s ∧ AllEntries (SoundEntry a.code a.input) (absState ref p s).tbl

def Ended (a : VmArgs) : VmNext → Prop
  | .done s success => ∃ ref p x, SoundState a s ref p ∧
      Reaches a.code a.input (bare 0 0) x ∧ step a.code a.input x = .done success ∧
      x.pos = vmInputPos s.src ∧ (pile (absState ref p s)).Shows Kept none x.stack
  | .failed s => ∃ ref p, SoundState a s ref p ∧ Fails a.code a.input (bare 0 0)
  | _ => False

theorem faithful_start {code : VmCode} {input : List UInt8} {tbl : Option ATable}
    (h : AllEntries (SoundEntry code input) tbl) (nchecks : Nat) :
    Faithful code input (aStart tbl nchecks) := by
  refine ⟨fun o U x hU hx => ?_, h⟩
  cases hU
  cases hx
  exact .refl

theorem sane_start {tbl : Option MemoTable} {m : Mem} {nchecks : Nat} {atbl : Option ATable}
    (hready : ready 0 .main) (hok : Ok a.input ref p (vmStart a m tbl nchecks))
    (habs : absState ref p (vmStart a m tbl nchecks) = aStart atbl nchecks)
    (htbl : AllEntries (SoundEntry a.code a.input) atbl) :
    Sane a ready (vmStart a m tbl nchecks) (bare 0 0) := by
  refine ⟨ref, p, _, _, _, .main, hok, ?_, vmStart_tracks a m tbl nchecks, hready, .main, ?_, rfl,
    rfl, ?_⟩
  · rw [habs]
    exact aStart_placed _ _
  · rw [habs]
    exact faithful_start htbl nchecks
  · rw [habs]
    exact .bottom

theorem entries_abs (ref : List (RefIv Nat)) (p : Nat → Int) (s : VmState) :
    entries (absState ref p s) = s.stack.map StackEntry.entry := by
  simp [entries, absState, absFrame_entry]

/-- One instruction takes the plain machine forward, or it ends both runs. -/
theorem vmStep_sane (htyped : ProgTyped a.code.prog ready) (hids : DistinctIds a.code.prog)
    (hw : a.windowed = false) (hpure : PureCheckers a.code) (h : Sane a ready s x) :
    (∃ s' y, vmStep a s = .running s' ∧ Sane a ready s' y ∧ Advances a.code a.input x y) ∨
      (∀ s', vmStep a s ≠ .running s') ∧ Ended a (vmStep a s) := by
  obtain ⟨ref, p, thr, base, t, sh, hok, hplaced, htracks, hready, hfits, hfaithful, hip, hpos,
    hshow⟩ := h
  have hcfits := cStep_fits htyped thr (lookupNow a s) (htracks.ip ▸ hready) hfits
  have hctracks := vmStep_tracks htracks
  obtain ⟨ρ, hρ, hpl, -, ref', p', habs, hok'⟩ := vmStep_sim hok hplaced
  have hnext : NextFaithful a.code a.input (absState ref p s) ρ := by
    obtain ⟨i, sh', next, hget, hnop, hsub, hpasses, -⟩ := htyped s.ip sh hready
    cases hρ with
    | out hnone => cases hget.symm.trans hnone
    | insn hget' hhit =>
        cases hget.symm.trans hget'
        refine hfaithful.insn hids hw hpure hplaced hget' hnop hpasses ?_ hhit
        rw [entries_abs, ← htracks.stack]
        exact hfits.sub hsub
  have hx : x = ⟨s.ip, vmInputPos s.src, x.stack⟩ := by
    rw [← hip, ← hpos]
  generalize cStep a thr (lookupNow a s) t = next at hcfits hctracks
  cases hstep : vmStep a s with
  | running s' =>
      rw [hstep] at habs hok' hctracks
      obtain ⟨hok', -⟩ := hok' s' rfl
      subst habs
      obtain ⟨hfaithful', hadv⟩ := hnext
      cases next with
      | running t' =>
          obtain ⟨sh', hready', hfits'⟩ := hcfits
          obtain ⟨U', hU'⟩ := exists_shows Kept (pile (absState ref' p' s'))
          refine .inl ⟨s', ⟨s'.ip, vmInputPos s'.src, U'⟩, rfl, ?_, ?_⟩
          · exact ⟨ref', p', thr, base, t', sh', hok', hpl _ rfl, hctracks,
              hctracks.ip ▸ hready', hfits', hfaithful', rfl, rfl, hU'⟩
          · rw [hx]
            exact hadv _ _ hshow hU'
      | _ => exact hctracks.elim
  | done s' success =>
      rw [hstep] at habs hok'
      obtain ⟨hok', -⟩ := hok' s' rfl
      subst habs
      obtain ⟨htbl, y, hreach, hdone, hy, hshow'⟩ := hnext
      exact .inr ⟨fun _ => by simp, ref', p', y, ⟨hok', htbl⟩, hreach, hdone, hy, hshow'⟩
  | failed s' =>
      rw [hstep] at habs hok'
      obtain ⟨hok', -⟩ := hok' s' rfl
      subst habs
      exact .inr ⟨fun _ => by simp, ref', p', ⟨hok', hnext.1⟩, hnext.2⟩
  | aborted msg =>
      rw [hstep] at habs
      subst habs
      exact hnext.elim

/-- A run that goes step by step as the plain machine does, to an end. -/
def Mirrors (a : VmArgs) (R : VmState → Plain → Prop) (E : VmNext → Prop) : Prop :=
  ∀ s x, R s x →
    (∃ s' y, vmStep a s = .running s' ∧ R s' y ∧ Advances a.code a.input x y) ∨
      (∀ s', vmStep a s ≠ .running s') ∧ E (vmStep a s)

theorem Mirrors.ended {R : VmState → Plain → Prop} {E : VmNext → Prop} (h : Mirrors a R E)
    {n : Nat} (hs : R s x) {r : VmNext} (hrun : vmLoop a n s = some r) : E r := by
  induction n generalizing s x with
  | zero => cases hrun
  | succ n ih =>
      rw [vmLoop] at hrun
      rcases h s x hs with ⟨s', y, hstep, hs', -⟩ | ⟨hne, hended⟩
      · rw [hstep] at hrun
        exact ih hs' hrun
      · cases hstep : vmStep a s with
        | running s' => exact absurd hstep (hne s')
        | _ =>
            rw [hstep] at hrun hended
            cases hrun
            exact hended

theorem Mirrors.ends {R : VmState → Plain → Prop} {E : VmNext → Prop} (h : Mirrors a R E)
    (hacc : Acc (fun y x => Advances a.code a.input x y) x) (hs : R s x) :
    ∃ n r, vmLoop a n s = some r := by
  induction hacc generalizing s with
  | intro x _ ih =>
      rcases h s x hs with ⟨s', y, hstep, hs', hadv⟩ | ⟨hne, -⟩
      · obtain ⟨n, r, hrun⟩ := ih y hadv hs'
        refine ⟨n + 1, r, ?_⟩
        rw [vmLoop, hstep]
        exact hrun
      · cases hstep : vmStep a s with
        | running s' => exact absurd hstep (hne s')
        | _ => exact ⟨1, _, by rw [vmLoop, hstep]⟩

theorem mirrors_sane (htyped : ProgTyped a.code.prog ready) (hids : DistinctIds a.code.prog)
    (hw : a.windowed = false) (hpure : PureCheckers a.code) : Mirrors a (Sane a ready) (Ended a) :=
  fun _ _ hs => vmStep_sane htyped hids hw hpure hs

def Concluded (code : VmCode) (input : List UInt8) : VmNext → Prop
  | .done s success => ∃ x, Reaches code input (bare 0 0) x ∧ step code input x = .done success ∧
      x.pos = vmInputPos s.src
  | .failed _ => Fails code input (bare 0 0)
  | _ => False

theorem concluded_of_ended {r : VmNext} (h : Ended a r) : Concluded a.code a.input r := by
  cases r with
  | done s success =>
      obtain ⟨-, -, x, -, hreach, hdone, hpos, -⟩ := h
      exact ⟨x, hreach, hdone, hpos⟩
  | failed s =>
      obtain ⟨-, -, -, hfails⟩ := h
      exact hfails
  | _ => exact h.elim

theorem acc_of_concluded {code : VmCode} {input : List UInt8} {r : VmNext}
    (h : Concluded code input r) : Acc (fun y x => Advances code input x y) (bare 0 0) := by
  have hacc : Acc (fun y x => Moves code input x y) (bare 0 0) := by
    cases r with
    | done s success =>
        obtain ⟨x, hreach, hdone, -⟩ := h
        exact acc_of_reaches hreach fun z hz => by cases hdone.symm.trans hz
    | failed s =>
        obtain ⟨x, hreach, hfailed⟩ := h
        exact acc_of_reaches hreach fun z hz => by cases hfailed.symm.trans hz
    | _ => exact h.elim
  have hswap : (fun y x => Advances code input x y) =
      Relation.TransGen (fun y x => Moves code input x y) := by
    funext y x
    exact propext Relation.transGen_swap
  rw [hswap]
  exact hacc.transGen

end Runs

section Tables

/-- Every entry of the table of a parser stands for a run. -/
def SoundPeg (g : Peg) : Prop :=
  ∃ ref p, MemoOk g.mem (some g.tbl) ref p ∧
    AllEntries (SoundEntry g.code g.buf) (some (absTable g.mem ref p g.tbl))

theorem allEntries_absTable {m : Mem} {t : MemoTable} :
    AllEntries P (some (absTable m ref p t)) ↔ ∀ r ∈ ref, P (absEntry m p r) := by
  constructor
  · intro h r hr
    exact h _ rfl _ (List.mem_map_of_mem hr)
  · rintro h t' ⟨⟩ d hd
    obtain ⟨r, hr, rfl⟩ := List.mem_map.mp hd
    exact h r hr

theorem absEntry_extends {m m' : Mem} {t : MemoTable} (h : MemoOk m (some t) ref p)
    (hext : Extends m m') (r : RefIv Nat) : absEntry m' p r = absEntry m p r := by
  unfold absEntry
  rw [hext.entries]
  cases he : m.entries[r.value]? with
  | none => rfl
  | some e =>
      obtain ⟨tail, htail⟩ := hext.view p
      have hlt : ∀ c ∈ e.captures, c < (view m p).length := by
        simpa [view] using h.captures e (List.mem_of_getElem? he)
      dsimp only
      rw [← htail, forest_grow (olderView h.older p) hlt]

theorem SoundState.peg {g : Peg} {low high : Int} {after : VmAfter}
    (h : SoundState (g.args low high) s ref p) (hsome : s.tbl.isSome = true)
    (hmemo : MemoOk after.mem s.tbl ref p) (hext : Extends s.mem after.mem)
    (htbl : after.tbl = s.tbl) :
    SoundPeg { g with
      mem := after.mem
      tbl := after.tbl.getD g.tbl
      nchecks := after.nchecks } := by
  obtain ⟨t, ht⟩ := Option.isSome_iff_exists.mp hsome
  obtain ⟨hok, hsound⟩ := h
  have hold := hok.memo
  have hsound' : AllEntries (SoundEntry g.code g.buf) (some (absTable s.mem ref p t)) := by
    simpa [absState, ht, Peg.args] using hsound
  rw [ht] at hmemo hold
  refine ⟨ref, p, ?_, ?_⟩
  · rw [htbl, ht]
    exact hmemo
  · rw [htbl, ht]
    refine allEntries_absTable.mpr fun r hr => ?_
    rw [absEntry_extends hold hext]
    exact allEntries_absTable.mp hsound' r hr

theorem prog_ne_nil {prog : List VmInsn} (htyped : ProgTyped prog ready) (hready : ready 0 .main) :
    prog ≠ [] := by
  rintro rfl
  obtain ⟨i, -, -, hget, -⟩ := htyped 0 .main hready
  cases hget

theorem pegStart_sound {g : Peg} (h : MemoOk g.mem (some g.tbl) ref p)
    (hsound : AllEntries (SoundEntry g.code g.buf) (some (absTable g.mem ref p g.tbl)))
    {low high : Int} {fuel : Nat} {start : VmState} (hs : pegStart fuel g low high = some start) :
    ∃ atbl, absState (startRef (g.args low high) ref) p start = aStart (some atbl) g.nchecks ∧
      AllEntries (SoundEntry g.code g.buf) (some atbl) := by
  obtain ⟨-, habs, -⟩ := pegStart_started h hs
  refine ⟨_, habs, allEntries_absTable.mpr fun r hr => ?_⟩
  exact allEntries_absTable.mp hsound r (startRef_subset _ _ hr)

theorem sane_peg {g : Peg} (hready : ready 0 .main) (h : SoundPeg g) {low high : Int}
    {fuel : Nat} {start : VmState} (hs : pegStart fuel g low high = some start) :
    Sane (g.args low high) ready start (bare 0 0) := by
  obtain ⟨ref, p, hmemo, hsound⟩ := h
  obtain ⟨hok, -, -⟩ := pegStart_started hmemo hs
  obtain ⟨atbl, habs, htbl⟩ := pegStart_sound hmemo hsound hs
  obtain ⟨x, -, rfl⟩ := Option.map_eq_some_iff.mp hs
  exact sane_start hready hok habs htbl

theorem pegExec_sound {g g' : Peg} (htyped : ProgTyped g.code.prog ready) (hready : ready 0 .main)
    (hids : DistinctIds g.code.prog) (hpure : PureCheckers g.code) (h : SoundPeg g)
    {low high : Int} {fuel : Nat} {r : VmResult}
    (hrun : pegExec fuel g low high = some (.ok (r, g'))) : SoundPeg g' := by
  obtain ⟨ref, p, hmemo, hsound⟩ := h
  obtain ⟨after, rfl, ⟨hnil, -⟩ | ⟨start, n, hs, hn, hfin⟩⟩ := pegExec_cases hrun
  · exact absurd hnil (prog_ne_nil htyped hready)
  · obtain ⟨hok, -, -⟩ := pegStart_started hmemo hs
    obtain ⟨atbl, habs, htbl⟩ := pegStart_sound hmemo hsound hs
    obtain ⟨hplaced, hsome⟩ := started_placed habs
    obtain ⟨s', hs'⟩ : ∃ s', nextState n = some s' := by
      cases n with
      | aborted msg => cases hfin
      | _ => exact ⟨_, rfl⟩
    obtain ⟨-, -, -, hsome', -⟩ := vmSnapshots_spec fuel hok hplaced hn hs'
    obtain ⟨ref', p', hstate⟩ : ∃ ref' p', SoundState (g.args low high) s' ref' p' := by
      cases hw : (g.args low high).windowed with
      | false =>
          have hsane := sane_peg hready ⟨ref, p, hmemo, hsound⟩ hs
          have hended := (mirrors_sane htyped hids hw hpure).ended hsane hn
          cases n with
          | done s₁ success =>
              cases hs'
              obtain ⟨ref', p', -, hstate, -⟩ := hended
              exact ⟨ref', p', hstate⟩
          | failed s₁ =>
              cases hs'
              obtain ⟨ref', p', hstate, -⟩ := hended
              exact ⟨ref', p', hstate⟩
          | _ => exact hended.elim
      | true =>
          obtain ⟨k, ρ, harun, ref', p', habs', hok'⟩ := vmLoop_sim fuel hok hplaced hn
          have hkeep := aRun_windowed hw harun
          refine ⟨ref', p', (hok' s' hs').1, ?_⟩
          have hsame : (absState ref' p' s').tbl = some atbl := by
            rw [habs] at hkeep
            subst habs'
            cases n with
            | aborted msg => cases hs'
            | _ =>
                cases hs'
                exact hkeep
          rw [hsame]
          exact htbl
    obtain ⟨hmemo', hext, htbl'⟩ := vmFinish_ok hstate.1 hs' hfin
    exact hstate.peg (hsome'.trans hsome) hmemo' hext htbl'

theorem session_sound {code : VmCode} {threshold : Int} (htyped : ProgTyped code.prog ready)
    (hready : ready 0 .main) (hids : DistinctIds code.prog) (hpure : PureCheckers code)
    {s : PegSession} (h : SessionRun NoEdit code threshold s) :
    s.peg.code = code ∧ SoundPeg s.peg := by
  induction h with
  | new =>
      refine ⟨rfl, [], fun _ => 0, memoOk_new threshold, ?_⟩
      exact allEntries_absTable.mpr fun r hr => by cases hr
  | @exec s op g g' low high fuel r h hP hop hrun ih =>
      obtain ⟨hcode, ref, p, hmemo, hsound⟩ := ih
      obtain ⟨ref', hmemo', -, -, hsame⟩ := execArgs_ok hmemo hop
      have hcode' : g.code = code := by
        cases op with
        | edit => cases hop
        | _ =>
            cases hop
            exact hcode
      have hpeg : SoundPeg g := by
        refine ⟨ref', p, hmemo', ?_⟩
        rcases hsame with rfl | ⟨rfl, rfl⟩
        · exact allEntries_absTable.mpr fun r hr => by cases hr
        · exact hsound
      subst hcode'
      obtain ⟨after, rfl, -⟩ := pegExec_cases hrun
      exact ⟨rfl, pegExec_sound htyped hready hids hpure hpeg hrun⟩
  | edit h hP hedit ih => exact absurd hP not_false
  | @free s i r h hr ih =>
      obtain ⟨hcode, ref, p, hmemo, hsound⟩ := ih
      have hcaps : (vmResultFree s.peg.mem r).caps = s.peg.mem.caps := (foldl_memoCaptureFree _ _).1
      have hentries : (vmResultFree s.peg.mem r).entries = s.peg.mem.entries :=
        (foldl_memoCaptureFree _ _).2
      refine ⟨hcode, ref, p, hmemo.congr hcaps hentries, allEntries_absTable.mpr fun q hq => ?_⟩
      rw [absEntry_congr hcaps hentries]
      exact allEntries_absTable.mp hsound q hq

end Tables

section Reparse

variable {r₁ r₂ : VmNext}

theorem final_unique {code : VmCode} {input : List UInt8} {x y z : Plain}
    (hy : Reaches code input x y) (hz : Reaches code input x z)
    (hfy : ∀ w, ¬Moves code input y w) (hfz : ∀ w, ¬Moves code input z w) : y = z := by
  have hunique : Relator.RightUnique (Moves code input) := fun _ _ _ h h' => moves_unique h h'
  rcases hy.total_of_right_unique hunique hz with h | h
  · rcases h.cases_head with rfl | ⟨w, hw, -⟩
    · rfl
    · exact absurd hw (hfy w)
  · rcases h.cases_head with rfl | ⟨w, hw, -⟩
    · rfl
    · exact absurd hw (hfz w)

theorem last_unique {code : VmCode} {input : List UInt8} {x y z : Plain} {r r' : PNext}
    (hy : Reaches code input x y) (hr : step code input y = r) (hstop : ∀ w, r ≠ .running w)
    (hz : Reaches code input x z) (hr' : step code input z = r') (hstop' : ∀ w, r' ≠ .running w) :
    y = z ∧ r = r' := by
  obtain rfl := final_unique hy hz (fun w hw => hstop w (hr.symm.trans hw))
    fun w hw => hstop' w (hr'.symm.trans hw)
  exact ⟨rfl, hr.symm.trans hr'⟩

def SameEnd (ref₁ : List (RefIv Nat)) (p₁ : Nat → Int) (s₁ : VmState) (ref₂ : List (RefIv Nat))
    (p₂ : Nat → Int) (s₂ : VmState) : Prop :=
  vmInputPos s₁.src = vmInputPos s₂.src ∧ ∃ U, (pile (absState ref₁ p₁ s₁)).Shows Kept none U ∧
    (pile (absState ref₂ p₂ s₂)).Shows Kept none U

theorem ended_same {code : VmCode} {input : List UInt8} {l₁ h₁ l₂ h₂ : Int}
    (hr₁ : Ended ⟨code, input, l₁, h₁⟩ r₁) (hr₂ : Ended ⟨code, input, l₂, h₂⟩ r₂) :
    (∃ s₁ s₂, r₁ = .failed s₁ ∧ r₂ = .failed s₂) ∨
      ∃ s₁ s₂ success ref₁ p₁ ref₂ p₂, r₁ = .done s₁ success ∧ r₂ = .done s₂ success ∧
        Ok input ref₁ p₁ s₁ ∧ Ok input ref₂ p₂ s₂ ∧ SameEnd ref₁ p₁ s₁ ref₂ p₂ s₂ := by
  cases r₁ with
  | failed s₁ =>
      obtain ⟨-, -, -, x, hx, hfx⟩ := hr₁
      cases r₂ with
      | failed s₂ => exact .inl ⟨s₁, s₂, rfl, rfl⟩
      | done s₂ success =>
          obtain ⟨-, -, y, -, hy, hfy, -⟩ := hr₂
          obtain ⟨-, heq⟩ := last_unique hx hfx (fun _ => by simp) hy hfy fun _ => by simp
          cases heq
      | _ => exact hr₂.elim
  | done s₁ success =>
      obtain ⟨ref₁, p₁, x, ⟨hok₁, -⟩, hx, hfx, hpos₁, hshow₁⟩ := hr₁
      cases r₂ with
      | failed s₂ =>
          obtain ⟨-, -, -, y, hy, hfy⟩ := hr₂
          obtain ⟨-, heq⟩ := last_unique hx hfx (fun _ => by simp) hy hfy fun _ => by simp
          cases heq
      | done s₂ success₂ =>
          obtain ⟨ref₂, p₂, y, ⟨hok₂, -⟩, hy, hfy, hpos₂, hshow₂⟩ := hr₂
          obtain ⟨rfl, heq⟩ := last_unique hx hfx (fun _ => by simp) hy hfy fun _ => by simp
          cases heq
          exact .inr ⟨s₁, s₂, success, ref₁, p₁, ref₂, p₂, rfl, rfl, hok₁, hok₂,
            hpos₁.symm.trans hpos₂, x.stack, hshow₁, hshow₂⟩
      | _ => exact hr₂.elim
  | _ => exact hr₁.elim

theorem shows_result {U : Pile StEntry CapForest} (hstack : s.stack = [])
    (h : (pile (absState ref p s)).Shows Kept none U) :
    U = ⟨[], forest (view s.mem p) s.capt⟩ := by
  have hpile : pile (absState ref p s) = ⟨[], forest (view s.mem p) s.capt⟩ := by
    simp [pile, absState, hstack]
  rw [hpile] at h
  cases h
  rfl

theorem matched_stack (htyped : ProgTyped a.code.prog ready) (hready : ready 0 .main) {m : Mem}
    {tbl : Option MemoTable} {n nchecks : Nat}
    (hloop : vmLoop a n (vmStart a m tbl nchecks) = some (.done s true)) : s.stack = [] := by
  rcases vmLoop_fits htyped (vmStart_tracks a m tbl nchecks) hready .main hloop with
    ⟨s', heq⟩ | ⟨s', success, heq, hstack⟩
  · cases heq
  · cases heq
    exact hstack rfl

theorem read_matched (htyped : ProgTyped a.code.prog ready) (hready : ready 0 .main) {m : Mem}
    {tbl : Option MemoTable} {n nchecks : Nat}
    (hloop : vmLoop a n (vmStart a m tbl nchecks) = some (.done s true)) (hok : Ok a.input ref p s)
    {U : Pile StEntry CapForest} (hshow : (pile (absState ref p s)).Shows Kept none U)
    {r : VmResult} {after : VmAfter} (hfin : vmFinish a (.done s true) = .ok (r, after)) :
    forest (view after.mem p) r.captures.toList = U.base ∧
      ∀ c ∈ r.captures.toList, c < after.mem.caps.length := by
  obtain ⟨hforest, hlt⟩ := vmFinish_forest hok hfin
  rw [shows_result (matched_stack htyped hready hloop) hshow]
  exact ⟨hforest, hlt⟩

theorem distinctIds {prog : List VmInsn} (h : (prog.filterMap lookupId).Nodup) :
    DistinctIds prog := by
  have hid : ∀ {k l id}, OpensAt prog k l id → ∃ i, prog[k]? = some i ∧ lookupId i = some id := by
    rintro k l id (hopen | hopen)
    · exact ⟨_, hopen, rfl⟩
    · exact ⟨_, hopen, rfl⟩
  have hlt : ∀ {k k' : Nat} {i i' id}, prog[k]? = some i → lookupId i = some id →
      prog[k']? = some i' → lookupId i' = some id → ¬k < k' := by
    intro k k' i i' id hi hl hi' hl' hlt
    obtain ⟨hk, rfl⟩ := List.getElem?_eq_some_iff.mp hi
    obtain ⟨hk', rfl⟩ := List.getElem?_eq_some_iff.mp hi'
    have hpair := List.pairwise_filterMap.mp h
    exact List.pairwise_iff_getElem.mp hpair k k' hk hk' hlt _ hl _ hl' rfl
  intro k l k' l' id hopen hopen'
  obtain ⟨i, hi, hl⟩ := hid hopen
  obtain ⟨i', hi', hl'⟩ := hid hopen'
  exact Nat.le_antisymm (not_lt.mp (hlt hi' hl' hi hl)) (not_lt.mp (hlt hi hl hi' hl'))

theorem exec_eq {c : VmCode} (hprog : c.prog ≠ []) (input : List UInt8) (n nchecks : Nat) :
    vmExec n ⟨c, input, -1, -1⟩ Mem.empty none nchecks =
      (vmLoop ⟨c, input, -1, -1⟩ n (vmStart ⟨c, input, -1, -1⟩ Mem.empty none nchecks)).map
        (vmFinish ⟨c, input, -1, -1⟩) := by
  rw [vmExec, if_neg (by simp [VmArgs.windowed]), if_neg hprog]
  rfl

theorem sane_exec {c : VmCode} (hready : ready 0 .main) (input : List UInt8) (nchecks : Nat) :
    Sane ⟨c, input, -1, -1⟩ ready (vmStart ⟨c, input, -1, -1⟩ Mem.empty none nchecks)
      (bare 0 0) := by
  have hm : MemoOk Mem.empty none [] fun _ => 0 :=
    ReferenceCounts.memoOk_no_table (memoOk_new 0)
  obtain ⟨hok, habs⟩ := vmStart_ok (a := ⟨c, input, -1, -1⟩) hm nchecks
  exact sane_start hready hok habs (by rintro t ⟨⟩)

/-- A run without a table from the start comes to an end of the plain machine. -/
theorem exec_ended {c : VmCode} {input : List UInt8} (htyped : ProgTyped c.prog ready)
    (hready : ready 0 .main) (hids : DistinctIds c.prog) (hpure : PureCheckers c) {n nchecks : Nat}
    {r : VmResult} {after : VmAfter}
    (hexec : vmExec n ⟨c, input, -1, -1⟩ Mem.empty none nchecks = some (.ok (r, after))) :
    ∃ r₀, vmLoop ⟨c, input, -1, -1⟩ n (vmStart ⟨c, input, -1, -1⟩ Mem.empty none nchecks) = some r₀ ∧
      vmFinish ⟨c, input, -1, -1⟩ r₀ = .ok (r, after) ∧ Ended ⟨c, input, -1, -1⟩ r₀ := by
  rw [exec_eq (prog_ne_nil htyped hready)] at hexec
  obtain ⟨r₀, hloop, hfin⟩ := Option.map_eq_some_iff.mp hexec
  exact ⟨r₀, hloop, hfin,
    (mirrors_sane htyped hids rfl hpure).ended (sane_exec hready input nchecks) hloop⟩

theorem pegExec_loop {g : Peg} {low high : Int} {k : Nat} (hprog : g.code.prog ≠ [])
    {d : Nat} {start : VmState} (hs : pegStart d g low high = some start) {r : VmNext}
    (hloop : vmLoop (g.args low high) k start = some r)
    {res : VmResult} {after : VmAfter} (hfin : vmFinish (g.args low high) r = .ok (res, after)) :
    pegExec (max d k) g low high = some (.ok (res, { g with
      mem := after.mem
      tbl := after.tbl.getD g.tbl
      nchecks := after.nchecks })) := by
  have hprog' : (g.args low high).code.prog ≠ [] := hprog
  obtain ⟨x, hclear, rfl⟩ := Option.map_eq_some_iff.mp hs
  rw [pegExec, vmExec, if_neg (by simp), if_neg hprog', vmClear_mono (Nat.le_max_left d k) hclear]
  change (((vmLoop _ _ (vmStart _ x.1 x.2 _)).map _).map _) = _
  rw [vmLoop_mono (Nat.le_max_right d k) hloop, Option.map_some, Option.map_some, hfin]
  rfl

theorem exec_reads {c : VmCode} {input : List UInt8} (htyped : ProgTyped c.prog ready)
    (hready : ready 0 .main) {n nchecks : Nat}
    (hloop : vmLoop ⟨c, input, -1, -1⟩ n (vmStart ⟨c, input, -1, -1⟩ Mem.empty none nchecks) =
      some (.done s true))
    (hok : Ok input ref p s) {U : Pile StEntry CapForest}
    (hshow : (pile (absState ref p s)).Shows Kept none U) {r : VmResult} {after : VmAfter}
    (hfin : vmFinish ⟨c, input, -1, -1⟩ (.done s true) = .ok (r, after)) :
    captureForest after.mem (memoTableNew 0) after.mem.caps.length r.captures.toList = U.base := by
  obtain ⟨hread, hlt⟩ := read_matched htyped hready hloop hok hshow hfin
  obtain ⟨hmemo, -, -⟩ := vmFinish_ok hok rfl hfin
  have hm : MemoOk Mem.empty none [] fun _ => 0 :=
    ReferenceCounts.memoOk_no_table (memoOk_new 0)
  obtain ⟨hok₀, habs₀⟩ := vmStart_ok (a := ⟨c, input, -1, -1⟩) hm nchecks
  have hplaced : Placed (absState [] (fun _ => 0)
      (vmStart ⟨c, input, -1, -1⟩ Mem.empty none nchecks)) := by
    rw [habs₀]
    exact aStart_placed _ _
  obtain ⟨-, -, -, hsame, -⟩ := vmSnapshots_spec n hok₀ hplaced hloop rfl
  have hnone : s.tbl = none := by
    refine Option.not_isSome_iff_eq_none.mp ?_
    rw [hsame]
    exact Bool.false_ne_true
  rw [hnone] at hmemo
  rw [captureForest_none hmemo _ hlt, hread]

theorem pegExec_reads {g : Peg} (htyped : ProgTyped g.code.prog ready) (hready : ready 0 .main)
    (hmemo : MemoOk g.mem (some g.tbl) ref p) {low high : Int} {k d : Nat}
    {ref' : List (RefIv Nat)} {p' : Nat → Int} {start : VmState}
    (hs : pegStart d g low high = some start)
    (hloop : vmLoop (g.args low high) k start = some (.done s true))
    (hok : Ok g.buf ref' p' s) {U : Pile StEntry CapForest}
    (hshow : (pile (absState ref' p' s)).Shows Kept none U) {r : VmResult} {after : VmAfter}
    (hfin : vmFinish (g.args low high) (.done s true) = .ok (r, after)) :
    captureForest after.mem (after.tbl.getD g.tbl) after.mem.caps.length r.captures.toList =
      U.base := by
  obtain ⟨hstart, habs, -⟩ := pegStart_started hmemo hs
  obtain ⟨hplaced, hsome⟩ := started_placed habs
  obtain ⟨-, -, -, hsame, -⟩ := vmSnapshots_spec k hstart hplaced hloop rfl
  obtain ⟨t, ht⟩ := Option.isSome_iff_exists.mp (hsame.trans hsome)
  obtain ⟨x, -, rfl⟩ := Option.map_eq_some_iff.mp hs
  obtain ⟨hread, hlt⟩ := read_matched (a := g.args low high) htyped hready hloop hok hshow hfin
  obtain ⟨hmemo', -, htbl⟩ := vmFinish_ok (a := g.args low high) hok rfl hfin
  rw [ht] at hmemo' htbl
  rw [htbl, ← hread]
  exact captureForest_eq hmemo' hlt

/-- Memoization is transparent: after any calls without edits, `peg_reparse` returns when the
run without a table does, and with the same success, position and captures. -/
theorem reparse_transparent {fuel : Nat} {counter threshold : Int} {pat : Pattern.Pat} {c : VmCode}
    (hcompile : patCompile fuel counter pat = some (.ok c))
    (hids : (c.prog.filterMap lookupId).Nodup) (hpure : PureCheckers c) {s : PegSession}
    (h : SessionRun NoEdit c threshold s) {n nchecks : Nat} {r : VmResult} {after : VmAfter}
    (hplain : vmExec n ⟨c, s.peg.buf, -1, -1⟩ Mem.empty none nchecks = some (.ok (r, after))) :
    ∃ k r' g', pegReparse k s.peg = some (.ok (r', g')) ∧ r'.success = r.success ∧
      (r.success = true → r'.pos = r.pos ∧
        captureForest g'.mem g'.tbl g'.mem.caps.length r'.captures.toList =
          captureForest after.mem (memoTableNew 0) after.mem.caps.length r.captures.toList) := by
  obtain ⟨ready, htyped, hready⟩ := program_typed hcompile
  have hdistinct := distinctIds hids
  obtain ⟨rfl, hsound⟩ := session_sound htyped hready hdistinct hpure h
  have hprog := prog_ne_nil htyped hready
  obtain ⟨r₀, hloop₀, hfin₀, hended₀⟩ := exec_ended htyped hready hdistinct hpure hplain
  have hs : pegStart 0 s.peg (-1) (-1) =
      some (vmStart (s.peg.args (-1) (-1)) s.peg.mem (some s.peg.tbl) s.peg.nchecks) := rfl
  have hsane := sane_peg hready hsound hs
  have hmirrors : Mirrors (s.peg.args (-1) (-1)) (Sane (s.peg.args (-1) (-1)) ready)
      (Ended (s.peg.args (-1) (-1))) := mirrors_sane htyped hdistinct rfl hpure
  obtain ⟨k, r₁, hloop⟩ := hmirrors.ends (acc_of_concluded (concluded_of_ended hended₀)) hsane
  have hended := hmirrors.ended hsane hloop
  rcases ended_same hended₀ hended with ⟨s₀, s₁, rfl, rfl⟩ |
    ⟨s₀, s₁, success, ref₀, p₀, ref₁, p₁, rfl, rfl, hok₀, hok₁, hpos, U, hU₀, hU₁⟩
  · cases hfin₀
    exact ⟨_, _, _, pegExec_loop hprog hs hloop rfl, rfl, fun hsuccess => by cases hsuccess⟩
  · obtain ⟨r', after', hfin⟩ : ∃ r' after',
        vmFinish (s.peg.args (-1) (-1)) (.done s₁ success) = .ok (r', after') := ⟨_, _, rfl⟩
    obtain ⟨-, -, -, -, -, -, -, hres₀⟩ := vmFinish_done hfin₀
    obtain ⟨-, -, -, -, -, -, -, hres₁⟩ := vmFinish_done hfin
    refine ⟨_, r', _, pegExec_loop hprog hs hloop hfin, by rw [hres₀, hres₁],
      fun hsuccess => ⟨?_, ?_⟩⟩
    · rw [hres₀, hres₁]
      exact hpos.symm
    · obtain rfl : success = true := by rwa [hres₀] at hsuccess
      obtain ⟨ref, p, hmemo, -⟩ := hsound
      rw [exec_reads htyped hready hloop₀ hok₀ hU₀ hfin₀]
      exact pegExec_reads htyped hready hmemo hs hloop hok₁ hU₁ hfin

def letters : Pattern.Pat :=
  .star (.memo (.cap (.literal [97]) 7) 0)

theorem letters_session : ∃ (s : PegSession) (r : VmResult) (after : VmAfter),
    SessionRun NoEdit (compiledCode 20 letters) 0 s ∧ s.peg.buf = [97, 97, 98] ∧
      r.success = true ∧
      vmExec 60 ⟨compiledCode 20 letters, s.peg.buf, -1, -1⟩ Mem.empty none 0 =
        some (.ok (r, after)) := by
  have hplay : (play NoEdit [(60, .parse [97, 97, 98]), (60, .captureInterval 1 2)]
      ⟨pegNew (compiledCode 20 letters) 0, [], []⟩).any (fun s =>
        decide (s.peg.buf = [97, 97, 98]) &&
          ((vmExec 60 ⟨compiledCode 20 letters, s.peg.buf, -1, -1⟩ Mem.empty none 0).bind
            Except.toOption).any fun r => r.1.success) = true := by
    decide +kernel
  obtain ⟨s, hs, hfacts⟩ := (Option.any_eq_true _ _).mp hplay
  obtain ⟨hbuf, hsome⟩ := (Bool.and_eq_true _ _).mp hfacts
  obtain ⟨⟨r, after⟩, hr, hsuccess⟩ := (Option.any_eq_true _ _).mp hsome
  obtain ⟨res, hexec, hok⟩ := Option.bind_eq_some_iff.mp hr
  obtain rfl : res = .ok (r, after) := by
    cases res with
    | error msg => cases hok
    | ok res =>
        cases hok
        rfl
  exact ⟨s, r, after, play_run .new hs, of_decide_eq_true hbuf, hsuccess, hexec⟩

theorem letters_pure : PureCheckers (compiledCode 20 letters) := by
  have hnil : (compiledCode 20 letters).checkers = [] := rfl
  intro fn hfn
  rw [hnil] at hfn
  cases hfn

/-- A reparse after a parse and the extraction of a window. -/
theorem reparse_transparent_letters : ∃ (s : PegSession) (r : VmResult) (after : VmAfter),
    s.peg.buf = [97, 97, 98] ∧ r.success = true ∧
      vmExec 60 ⟨compiledCode 20 letters, s.peg.buf, -1, -1⟩ Mem.empty none 0 =
        some (.ok (r, after)) ∧
      ∃ k r' g', pegReparse k s.peg = some (.ok (r', g')) ∧ r'.success = r.success ∧
        (r.success = true → r'.pos = r.pos ∧
          captureForest g'.mem g'.tbl g'.mem.caps.length r'.captures.toList =
            captureForest after.mem (memoTableNew 0) after.mem.caps.length r.captures.toList) := by
  obtain ⟨s, r, after, hrun, hbuf, hsuccess, hexec⟩ := letters_session
  exact ⟨s, r, after, hbuf, hsuccess, hexec,
    reparse_transparent (@patCompile_compiledCode 20 letters (by decide +kernel))
      (by decide +kernel) letters_pure hrun hexec⟩

end Reparse

end Libpeg.Transparency
