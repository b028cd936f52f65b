import Libpeg.Simulation

namespace Libpeg.StepSimulation

open Libpeg.Charset Libpeg.Opcode Libpeg.Code Libpeg.Memo Libpeg.Input Libpeg.Vm
open Libpeg.IntervalRefinement Libpeg.MemoView Libpeg.Forest Libpeg.AbstractVm
open Libpeg.Simulation

variable {a : VmArgs} {ref : List (RefIv Nat)} {p : Nat → Int} {s : VmState}

theorem match_sim (h : Ok a.input ref p s) (hbefore : PushedBefore (vmInputPos s.src) s.stack)
    (f : UInt8 → Bool) :
    NextSim a.input ref p s.mem
      (if (testByte s f).2 then nextIp (stepByte (testByte s f).1) else goFail a (testByte s f).1)
      (aMatch a (absState ref p s) f) := by
  obtain ⟨hok, habs, htest, hmem, hstack, hpos⟩ := testByte_sim h a rfl f
  have hext : Extends s.mem (testByte s f).1.mem := hmem ▸ .refl _
  rw [htest, aMatch]
  split
  · obtain ⟨hok', habs'⟩ := stepByte_sim hok
    rw [← habs, ← habs']
    exact (hok'.sim hext).nextIp
  · rw [← habs, ← hmem]
    exact goFail_sim a hok (by rwa [hstack, hpos])

theorem testInsn_sim (h : Ok a.input ref p s) (f : UInt8 → Bool) (choice : Bool) (l : Nat) :
    NextSim a.input ref p s.mem (testInsn s f choice l)
      (aTestInsn a (absState ref p s) f choice l) := by
  obtain ⟨hok, habs, htest, hmem, hstack, hpos⟩ := testByte_sim h a rfl f
  have hext : Extends s.mem (testByte s f).1.mem := hmem ▸ .refl _
  simp only [testInsn, aTestInsn, htest]
  split
  · cases choice with
    | true =>
        obtain ⟨hok', habs'⟩ := stepByte_sim (hok.push (.btrack l (vmInputPos s.src)))
        rw [absState_push, habs] at habs'
        simp only [if_true, hpos]
        rw [show (absState ref p s).pos = vmInputPos s.src from rfl, ← habs']
        exact (hok'.sim hext).nextIp
    | false =>
        obtain ⟨hok', habs'⟩ := stepByte_sim hok
        simp only [Bool.false_eq_true, if_false]
        rw [← habs, ← habs']
        exact (hok'.sim hext).nextIp
  · rw [← habs]
    exact (hok.sim hext).jumpTo l

theorem absState_stack {e : StackEntry} {rest : List StackEntry} (hs : s.stack = e :: rest) :
    (absState ref p s).stack =
      ⟨e.entry, forest (view s.mem p) e.capt⟩ :: rest.map (absFrame (view s.mem p)) := by
  simp [absState, hs, absFrame]

theorem absState_stack_nil (hs : s.stack = []) : (absState ref p s).stack = [] := by
  simp [absState, hs]

theorem pop_sim (h : Ok a.input ref p s) {e : StackEntry} {rest : List StackEntry}
    (hs : s.stack = e :: rest) :
    Sim a.input ref p s.mem (popClear s true e rest)
      (aPop (absState ref p s) ⟨e.entry, forest (view s.mem p) e.capt⟩
        (rest.map (absFrame (view s.mem p)))) := by
  have hsim := (h.pop hs).sim (m := s.mem) (.of_eq (by simp) (by simp))
  rwa [absState_pop] at hsim

theorem commit_sim (h : Ok a.input ref p s) (l : Nat) (hit : Option AEntry) :
    NextSim a.input ref p s.mem (vmInsn a s (.commit l)) (aInsn a hit (absState ref p s) (.commit l)) := by
  simp only [vmInsn, aInsn]
  cases hs : s.stack with
  | nil =>
      rw [absState_stack_nil hs]
      exact nextSim_aborted _
  | cons e rest =>
      rw [absState_stack hs]
      exact (pop_sim h hs).jumpTo l

theorem ret_sim (h : Ok a.input ref p s) (hit : Option AEntry) :
    NextSim a.input ref p s.mem (vmInsn a s .ret) (aInsn a hit (absState ref p s) .ret) := by
  simp only [vmInsn, aInsn]
  rcases hs : s.stack with _ | ⟨⟨entry, cs⟩, rest⟩
  · rw [absState_stack_nil hs]
    exact nextSim_aborted _
  · rw [absState_stack hs]
    cases entry with
    | ret ip => exact (pop_sim h hs).jumpTo ip
    | _ => exact nextSim_aborted _

theorem partialCommit_sim (h : Ok a.input ref p s) (l : Nat) (hit : Option AEntry) :
    NextSim a.input ref p s.mem (vmInsn a s (.partialCommit l))
      (aInsn a hit (absState ref p s) (.partialCommit l)) := by
  simp only [vmInsn, aInsn]
  rcases hs : s.stack with _ | ⟨⟨entry, cs⟩, rest⟩
  · rw [absState_stack_nil hs]
    exact nextSim_aborted _
  · rw [absState_stack hs]
    cases entry with
    | btrack ip off =>
        have hcs : ∀ c ∈ cs, c < s.mem.caps.length :=
          h.stack ⟨.btrack ip off, cs⟩ (by simp [hs])
        have hmem : (appendCapt { s with stack := rest } cs).mem = s.mem := by
          unfold appendCapt
          split <;> rfl
        have hok := (h.tail hs).appendCapt hcs
        have habs : absState ref p (appendCapt { s with stack := rest } cs) =
            aAddCapt (absState ref p { s with stack := rest }) (forest (view s.mem p) cs) :=
          absState_appendCapt cs
        have hpushed : Ok a.input ref p (push (appendCapt { s with stack := rest } cs)
            (.btrack ip (vmInputPos s.src))) := hok.push _
        have hsim := hpushed.sim (m := s.mem)
          (.of_eq (congrArg Mem.caps hmem) (congrArg Mem.entries hmem))
        rw [absState_push, habs] at hsim
        exact hsim.jumpTo l
    | _ => exact nextSim_aborted _

theorem backCommit_sim (h : Ok a.input ref p s) (l : Nat) (hit : Option AEntry) :
    NextSim a.input ref p s.mem (vmInsn a s (.backCommit l))
      (aInsn a hit (absState ref p s) (.backCommit l)) := by
  simp only [vmInsn, aInsn]
  rcases hs : s.stack with _ | ⟨⟨entry, cs⟩, rest⟩
  · rw [absState_stack_nil hs]
    exact nextSim_aborted _
  · rw [absState_stack hs]
    cases entry with
    | btrack ip off =>
        exact ((pop_sim h hs).seekTo off).jumpTo l
    | _ => exact nextSim_aborted _

theorem failTwice_sim (h : Ok a.input ref p s)
    (hbefore : PushedBefore (vmInputPos s.src) s.stack) (hit : Option AEntry) :
    NextSim a.input ref p s.mem (vmInsn a s .failTwice)
      (aInsn a hit (absState ref p s) .failTwice) := by
  simp only [vmInsn, aInsn]
  cases hs : s.stack with
  | nil =>
      rw [absState_stack_nil hs]
      exact goFail_sim a h hbefore
  | cons e rest =>
      rw [absState_stack hs]
      have hok := (h.tail hs).freeAll e.capt
      have hfail := goFail_sim a hok (hs ▸ hbefore).tail
      rw [absState_freeAll] at hfail
      exact hfail.of_extends (.of_eq (by simp) (by simp))

theorem addNode_sim (h : Ok a.input ref p s) (low high id start length : Int) {cs : List Nat}
    (hcs : ∀ c ∈ cs, c < s.mem.caps.length) :
    Sim a.input ref p s.mem (addNode (widen a s low high) id start length cs)
      (aAddCapt (absState ref p s)
        (.cons id start length (forest (view s.mem p) cs) .nil)) := by
  have hwiden : widen a s low high =
      { s with capLow := (widen a s low high).capLow, capHigh := (widen a s low high).capHigh } := by
    unfold widen
    split <;> rfl
  rw [hwiden]
  have hbase : Ok a.input ref p
      { s with capLow := (widen a s low high).capLow, capHigh := (widen a s low high).capHigh } :=
    ⟨h.memo, h.stack, h.capt, h.data⟩
  obtain ⟨hok, habs, hent, -⟩ := addNode_spec hbase id start length hcs
  have hsim := hok.sim hent
  rw [habs] at hsim
  exact hsim

theorem captureEnd_sim (h : Ok a.input ref p s) (hit : Option AEntry) :
    NextSim a.input ref p s.mem (vmInsn a s .captureEnd)
      (aInsn a hit (absState ref p s) .captureEnd) := by
  simp only [vmInsn, aInsn]
  rcases hs : s.stack with _ | ⟨⟨entry, cs⟩, rest⟩
  · rw [absState_stack_nil hs]
    exact nextSim_aborted _
  · rw [absState_stack hs]
    cases entry with
    | capt id pos =>
        have hok := h.tail hs
        have hcs : ∀ c ∈ cs, c < s.mem.caps.length := h.stack ⟨.capt id pos, cs⟩ (by simp [hs])
        simp only
        change NextSim _ _ _ _ _ (if inWindow a pos (vmInputPos s.src) then _ else _)
        split
        · exact (addNode_sim hok pos (vmInputPos s.src) id pos _ hcs).nextIp
        · have hsim := (hok.freeAll cs).sim (m := s.mem) (.of_eq (by simp) (by simp))
          rw [absState_freeAll] at hsim
          exact hsim.nextIp
    | _ => exact nextSim_aborted _

theorem captureFull_sim (h : Ok a.input ref p s) (back id : Int) (hit : Option AEntry) :
    NextSim a.input ref p s.mem (vmInsn a s (.captureFull back id))
      (aInsn a hit (absState ref p s) (.captureFull back id)) := by
  simp only [vmInsn, aInsn]
  change NextSim _ _ _ _ _ (if inWindow a ((vmInputPos s.src : Int) - back) (vmInputPos s.src) then
    _ else _)
  split
  · exact (addNode_sim h _ _ id _ back (List.forall_mem_nil _)).nextIp
  · exact (h.sim (.refl _)).nextIp

theorem checkEnd_sim (h : Ok a.input ref p s)
    (hbefore : PushedBefore (vmInputPos s.src) s.stack) (k : Nat) (hit : Option AEntry) :
    NextSim a.input ref p s.mem (vmInsn a s (.checkEnd k))
      (aInsn a hit (absState ref p s) (.checkEnd k)) := by
  simp only [vmInsn, aInsn]
  rcases hs : s.stack with _ | ⟨⟨entry, cs⟩, rest⟩
  · rw [absState_stack_nil hs]
    exact nextSim_aborted _
  · rw [absState_stack hs]
    cases entry with
    | check id pos flag =>
        have hok := h.pop hs
        have hb := hbefore.pop hs true
        have hext : Extends s.mem (popClear s true ⟨.check id pos flag, cs⟩ rest).mem :=
          .of_eq (by simp) (by simp)
        have hsrc := popClear_src (s := s) true ⟨.check id pos flag, cs⟩ rest
        have hpop : aPop (absState ref p s) ⟨.check id pos flag, forest (view s.mem p) cs⟩
            (rest.map (absFrame (view s.mem p))) =
              absState ref p (popClear s true ⟨.check id pos flag, cs⟩ rest) :=
          (absState_pop ⟨.check id pos flag, cs⟩ rest).symm
        simp only [hpop]
        rw [← hsrc] at hb
        generalize popClear s true ⟨.check id pos flag, cs⟩ rest = t at *
        cases (a.code.checkers[k]?).join with
        | none => exact (hok.sim hext).nextIp
        | some fn =>
            have hcount : Ok a.input ref p { t with nchecks := t.nchecks + 1 } :=
              ⟨hok.memo, hok.stack, hok.capt, hok.data⟩
            have hfail := (goFail_sim a hcount hb).of_extends hext
            simp only
            change NextSim _ _ _ _ _ (if fn t.nchecks ((a.input.drop pos).take (vmInputPos t.src - pos))
                a.input id flag < 0 then _ else _)
            split
            · exact hfail
            · change NextSim _ _ _ _ _ (if vmInputPos t.src + (fn t.nchecks ((a.input.drop pos).take
                (vmInputPos t.src - pos)) a.input id flag).toNat > a.input.length then _ else _)
              split
              · exact hfail
              · exact ((hcount.sim hext).advance _).nextIp
    | _ => exact nextSim_aborted _

theorem aAddCapt_append (σ : AState) (f g : CapForest) :
    aAddCapt (aAddCapt σ f) g = aAddCapt σ (f.append g) := by
  unfold aAddCapt
  cases hs : σ.stack with
  | nil => simp [append_assoc]
  | cons e rest => simp [append_assoc]

theorem aAddCapt_nil (σ : AState) : aAddCapt σ .nil = σ := by
  unfold aAddCapt
  cases hs : σ.stack with
  | nil => simp [← hs]
  | cons e rest => simp [← hs]

theorem addEach_sim (h : Ok a.input ref p s) {cs : List Nat}
    (hcs : ∀ c ∈ cs, c < s.mem.caps.length) :
    Sim a.input ref p s.mem (addEach s cs)
        (aAddCapt (absState ref p s) (forest (view s.mem p) cs)) ∧
      (addEach s cs).src = s.src := by
  have hgen : Ok a.input ref p (addEach s cs) ∧ absState ref p (addEach s cs) =
      aAddCapt (absState ref p s) (forest (view s.mem p) cs) ∧
      Extends s.mem (addEach s cs).mem ∧ (addEach s cs).src = s.src := by
    unfold addEach
    induction cs generalizing s with
    | nil => exact ⟨h, (aAddCapt_nil _).symm, .refl _, rfl⟩
    | cons c cs ih =>
        have hone : Ok a.input ref p (stackAddCapt s [c]) :=
          h.addCapt (by simpa using hcs c (by simp))
        obtain ⟨hok, habs, hext, hsrc⟩ := ih hone
          (by simpa using fun d hd => hcs d (by simp [hd]))
        refine ⟨hok, ?_, Extends.trans (.of_eq (by simp) (by simp)) hext, hsrc.trans ?_⟩
        · have hview : view (stackAddCapt s [c]).mem p = view s.mem p := view_congr (by simp)
          rw [List.foldl_cons, habs, absState_addCapt, aAddCapt_append, hview, ← forest_append]
          rfl
        · unfold stackAddCapt appendCapt
          split <;> rfl
  obtain ⟨hok, habs, hext, hsrc⟩ := hgen
  exact ⟨⟨ref, p, hext.grown p, hok, habs⟩, hsrc⟩

theorem memoOpen_sim (h : Ok a.input ref p s)
    (hbefore : PushedBefore (vmInputPos s.src) s.stack) (l : Nat) (id : Int) :
    ∃ hit, IsHit (absState ref p s).tbl id (vmInputPos s.src) hit ∧
      hit = (lookup s id).2.map (foundEntry p s id) ∧
      NextSim a.input ref p s.mem (vmInsn a s (.memoOpen l id))
        (aInsn a hit (absState ref p s) (.memoOpen l id)) := by
  obtain ⟨hok, habs, hmem, hctl, hit, hhit, hval, hcs⟩ := lookup_spec h id
  refine ⟨hit, hhit, hval, ?_⟩
  simp only [vmInsn, aInsn]
  unfold foundEntry at hval
  generalize lookup s id = res at hok habs hmem hctl hval hcs
  obtain ⟨t, found⟩ := res
  simp only at hok habs hmem hctl hval hcs
  rw [← hmem] at hval hcs
  rw [← habs, ← hmem, hval, ← hctl.src]
  cases found with
  | none =>
      simp only [Option.map_none]
      exact ((hok.push _).sim (.refl _)).nextIp
  | some e =>
      simp only [Option.map_some]
      split
      · exact goFail_sim a hok (by rwa [hctl.src, hctl.stack])
      · exact (((addEach_sim hok (hcs e rfl)).1).advance _).jumpTo l

theorem memoTreeOpen_sim (h : Ok a.input ref p s)
    (hbefore : PushedBefore (vmInputPos s.src) s.stack) (l : Nat) (id : Int) :
    ∃ hit, IsHit (absState ref p s).tbl id (vmInputPos s.src) hit ∧
      hit = (lookup s id).2.map (foundEntry p s id) ∧
      NextSim a.input ref p s.mem (vmInsn a s (.memoTreeOpen l id))
        (aInsn a hit (absState ref p s) (.memoTreeOpen l id)) := by
  obtain ⟨hok, habs, hmem, hctl, hit, hhit, hval, hcs⟩ := lookup_spec h id
  refine ⟨hit, hhit, hval, ?_⟩
  simp only [vmInsn, aInsn]
  unfold foundEntry at hval
  generalize lookup s id = res at hok habs hmem hctl hval hcs
  obtain ⟨t, found⟩ := res
  simp only at hok habs hmem hctl hval hcs
  rw [← hmem] at hval hcs
  rw [← habs, ← hmem, hval, ← hctl.src]
  cases found with
  | none =>
      simp only [Option.map_none]
      exact ((hok.push _).sim (.refl _)).nextIp
  | some e =>
      simp only [Option.map_some]
      split
      · exact goFail_sim a hok (by rwa [hctl.src, hctl.stack])
      · have hsim := (addEach_sim (hok.push (.memoTree id (vmInputPos t.src) e.count))
          (hcs e rfl)).1
        exact (hsim.advance e.length.toNat).touch.jumpTo l

theorem memoClose_sim (h : Ok a.input ref p s)
    (hbefore : PushedBefore (vmInputPos s.src) s.stack) (hit : Option AEntry) :
    NextSim a.input ref p s.mem (vmInsn a s .memoClose)
      (aInsn a hit (absState ref p s) .memoClose) := by
  simp only [vmInsn, aInsn]
  rcases hs : s.stack with _ | ⟨⟨entry, cs⟩, rest⟩
  · rw [absState_stack_nil hs]
    exact nextSim_aborted _
  · rw [absState_stack hs]
    cases entry with
    | memo id pos =>
        have hcs : ∀ c ∈ cs, c < s.mem.caps.length := h.stack ⟨.memo id pos, cs⟩ (by simp [hs])
        have hpos : pos ≤ vmInputPos s.src := hbefore ⟨.memo id pos, cs⟩ (by simp [hs]) pos rfl
        have hok := (h.tail hs).addCapt hcs
        have hsrc : (stackAddCapt { s with stack := rest } cs).src = s.src := by
          unfold stackAddCapt appendCapt
          split <;> rfl
        have hview : view (stackAddCapt { s with stack := rest } cs).mem p = view s.mem p :=
          view_congr (by simp)
        have habs : absState ref p (stackAddCapt { s with stack := rest } cs) =
            aPop (absState ref p s) ⟨.memo id pos, forest (view s.mem p) cs⟩
              (rest.map (absFrame (view s.mem p))) := absState_addCapt cs
        have hmemo := memoize_spec a hok id ((vmInputPos s.src : Int) - pos) 1
          (show ∀ c ∈ cs, c < (stackAddCapt { s with stack := rest } cs).mem.caps.length by
            simpa using hcs)
          (show pos ≤ max _ (vmInputPos (stackAddCapt { s with stack := rest } cs).src) from
            le_max_of_le_right (by rw [hsrc]; exact hpos))
        rw [hview, habs] at hmemo
        have hσpos : (aPop (absState ref p s) ⟨.memo id pos, forest (view s.mem p) cs⟩
            (rest.map (absFrame (view s.mem p)))).pos = vmInputPos s.src := by
          unfold aPop aAddCapt
          split <;> rfl
        simp only [stackPop, if_true, hσpos, hsrc]
        exact (hmemo.sim.of_extends (.of_eq (by simp) (by simp))).nextIp
    | _ => exact nextSim_aborted _

theorem memoTreeInsert_sim (h : Ok a.input ref p s)
    (hbefore : PushedBefore (vmInputPos s.src) s.stack) (hit : Option AEntry) :
    NextSim a.input ref p s.mem (vmInsn a s .memoTreeInsert)
      (aInsn a hit (absState ref p s) .memoTreeInsert) := by
  simp only [vmInsn, aInsn]
  rcases hs : s.stack with _ | ⟨⟨entry, cs⟩, rest⟩
  · rw [absState_stack_nil hs]
    exact nextSim_aborted _
  · rw [absState_stack hs]
    cases entry with
    | memoTree id pos count => exact (storeTree_sim a h hs hbefore (count + 1)).1.nextIp
    | _ => exact nextSim_aborted _

/-- Every instruction on a well-formed state is one of the abstract machine. -/
theorem vmInsn_sim (h : Ok a.input ref p s)
    (hbefore : PushedBefore (vmInputPos s.src) s.stack) (i : VmInsn) :
    ∃ hit, (∀ id, lookupId i = some id → IsHit (absState ref p s).tbl id (absState ref p s).pos hit ∧
        hit = (lookup s id).2.map (foundEntry p s id)) ∧
      NextSim a.input ref p s.mem (vmInsn a s i) (aInsn a hit (absState ref p s) i) := by
  have hplain : ∀ r : VmNext, lookupId i = none →
      NextSim a.input ref p s.mem r (aInsn a none (absState ref p s) i) →
      ∃ hit, (∀ id, lookupId i = some id →
          IsHit (absState ref p s).tbl id (absState ref p s).pos hit ∧
            hit = (lookup s id).2.map (foundEntry p s id)) ∧
        NextSim a.input ref p s.mem r (aInsn a hit (absState ref p s) i) :=
    fun r hi hr => ⟨none, by simp [hi], hr⟩
  cases i with
  | memoOpen l id =>
      obtain ⟨hit, hhit, hval, hsim⟩ := memoOpen_sim h hbefore l id
      exact ⟨hit, by rintro id' ⟨⟩; exact ⟨hhit, hval⟩, hsim⟩
  | memoTreeOpen l id =>
      obtain ⟨hit, hhit, hval, hsim⟩ := memoTreeOpen_sim h hbefore l id
      exact ⟨hit, by rintro id' ⟨⟩; exact ⟨hhit, hval⟩, hsim⟩
  | char b => exact hplain _ rfl (match_sim h hbefore _)
  | set set => exact hplain _ rfl (match_sim h hbefore _)
  | jump l => exact hplain _ rfl ((h.sim (.refl _)).jumpTo l)
  | choice l => exact hplain _ rfl (((h.push _).sim (.refl _)).nextIp)
  | call l => exact hplain _ rfl (((h.push _).sim (.refl _)).jumpTo l)
  | commit l => exact hplain _ rfl (commit_sim h l none)
  | ret => exact hplain _ rfl (ret_sim h none)
  | fail => exact hplain _ rfl (goFail_sim a h hbefore)
  | any n =>
      refine hplain _ rfl ?_
      have hok := h.setSrc (inputAdvance_data s.src n.toNat)
      have hadv := (h.sim (.refl _)).advance n.toNat
      simp only [vmInsn, aInsn, inputAdvance_ok, h.data, decide_eq_true_eq]
      change NextSim _ _ _ _ _ (if vmInputPos s.src + n.toNat ≤ a.input.length then _ else _)
      split
      · exact hadv.nextIp
      · have hfail := goFail_sim a hok (hbefore.mono (by simp))
        rw [absState_setSrc, inputAdvance_pos, inputAdvance_furthest] at hfail
        exact hfail
  | partialCommit l => exact hplain _ rfl (partialCommit_sim h l none)
  | span set =>
      refine hplain _ rfl ?_
      have hsim := (h.setSrc (inputSpan_data s.src set)).sim (.refl _)
      rw [absState_setSrc, inputSpan_pos, inputSpan_furthest, h.data] at hsim
      exact hsim.nextIp
  | backCommit l => exact hplain _ rfl (backCommit_sim h l none)
  | failTwice => exact hplain _ rfl (failTwice_sim h hbefore none)
  | empty mask =>
      refine hplain _ rfl ?_
      simp only [vmInsn, aInsn]
      change NextSim _ _ _ _ _ (if emptyOpContext (if vmInputPos s.src > 0 then
        a.input[vmInputPos s.src - 1]? else none) a.input[vmInputPos s.src]? &&& mask.toNat ≠ 0 then
          _ else _)
      by_cases hctx : emptyOpContext (if vmInputPos s.src > 0 then
          a.input[vmInputPos s.src - 1]? else none) a.input[vmInputPos s.src]? &&& mask.toNat ≠ 0
      · rw [if_pos hctx, if_pos hctx]
        exact (h.sim (.refl _)).nextIp
      · rw [if_neg hctx, if_neg hctx]
        exact goFail_sim a h hbefore
  | testChar b l => exact hplain _ rfl (testInsn_sim h _ true l)
  | testCharNoChoice b l => exact hplain _ rfl (testInsn_sim h _ false l)
  | testSet set l => exact hplain _ rfl (testInsn_sim h _ true l)
  | testSetNoChoice set l => exact hplain _ rfl (testInsn_sim h _ false l)
  | testAny n l =>
      refine hplain _ rfl ?_
      have hok := h.setSrc (inputAdvance_data s.src n.toNat)
      simp only [vmInsn, aInsn, inputAdvance_ok, h.data, decide_eq_true_eq]
      change NextSim _ _ _ _ _ (if vmInputPos s.src + n.toNat ≤ a.input.length then _ else _)
      split
      · have hsim := (hok.push (.btrack l (vmInputPos s.src))).sim (.refl _)
        rw [absState_push, absState_setSrc, inputAdvance_pos, inputAdvance_furthest] at hsim
        exact hsim.nextIp
      · have hsim := ((h.sim (.refl _)).advance n.toNat).seekTo (vmInputPos s.src)
        exact hsim.jumpTo l
  | endOp b =>
      refine hplain _ rfl ⟨ref, p, rfl, ?_⟩
      rintro s' ⟨⟩
      exact ⟨h, Extends.grown (.refl _) p⟩
  | nop => exact hplain _ rfl (nextSim_aborted _)
  | captureBegin id => exact hplain _ rfl (((h.push _).sim (.refl _)).nextIp)
  | captureLate back id => exact hplain _ rfl (((h.push _).sim (.refl _)).nextIp)
  | captureEnd => exact hplain _ rfl (captureEnd_sim h none)
  | captureFull back id => exact hplain _ rfl (captureFull_sim h back id none)
  | checkBegin id flag => exact hplain _ rfl (((h.push _).sim (.refl _)).nextIp)
  | checkEnd k => exact hplain _ rfl (checkEnd_sim h hbefore k none)
  | memoClose => exact hplain _ rfl (memoClose_sim h hbefore none)
  | memoTreeInsert => exact hplain _ rfl (memoTreeInsert_sim h hbefore none)
  | memoTree =>
      refine hplain _ rfl ?_
      have hsim := (memoTreeLoop_sim a (2 * s.stack.length + 1) 0 0 h hbefore).1
      have hlen : (absState ref p s).stack.length = s.stack.length := by simp [absState]
      simp only [vmInsn, aInsn, memoTree, aTree, hlen]
      exact hsim.nextIp
  | memoTreeClose id =>
      refine hplain _ rfl ?_
      obtain ⟨hok, habs, hent⟩ := memoTreeClose_sim id s.stack.length h
      have hlen : (absState ref p s).stack.length = s.stack.length := by simp [absState]
      simp only [vmInsn, aInsn, hlen]
      rw [← habs]
      exact (hok.sim hent).nextIp
  | error k =>
      refine hplain _ rfl ?_
      have hok : Ok a.input ref p { s with
          errs := s.errs ++ [(vmInputPos s.src, a.code.errors.getD k "")] } :=
        ⟨h.memo, h.stack, h.capt, h.data⟩
      exact (hok.sim (.refl _)).nextIp

end Libpeg.StepSimulation
