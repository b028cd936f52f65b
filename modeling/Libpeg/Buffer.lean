import Libpeg.Bytes
import Libpeg.Peg

namespace Libpeg.Buffer

open Libpeg.Bytes Libpeg.Peg

/-- The buffer of `struct peg`. Cells that nothing was written to hold no byte. -/
structure PegBuf where
  buf : List (Option UInt8)
  len : Nat
  cap : Nat

/-- The buffer that `peg_new` leaves. -/
def pegBufNew : PegBuf :=
  ⟨[], 0, 0⟩

/-- The loop of `buf_reserve`, in the arithmetic of `size_t`. -/
def doubleCap : Nat → Nat → Nat → Option Nat
  | 0, _, _ => none
  | fuel + 1, len, cap => if len > cap then doubleCap fuel len (cap * 2 % 2 ^ 64) else some cap

/-- `buf_reserve`. `xrealloc` leaves the new cells as they come. -/
def bufReserve (fuel : Nat) (g : PegBuf) (len : Nat) : Option PegBuf :=
  if len ≤ g.cap then some g
  else do
    let cap ← doubleCap fuel len (if g.cap = 0 then 4096 else g.cap)
    return { g with buf := g.buf ++ List.replicate (cap - g.buf.length) none, cap := cap }

/-- What `peg_parse` does to the buffer. -/
def bufParse (fuel : Nat) (g : PegBuf) (data : List UInt8) : Option PegBuf := do
  let g ← bufReserve fuel g data.length
  let buf ← store g.buf 0 (data.map some)
  return { g with buf := buf, len := data.length }

/-- The bytes that `peg_edit` counts. -/
def editedLen (len : Nat) (start stop : Int) (text : List UInt8) : Nat :=
  (len - (stop - start).toNat + text.length) % 2 ^ 64

/-- The guarded `memcpy` of `peg_edit`. -/
def copyText (buf : List (Option UInt8)) (start : Nat) (text : List UInt8) :
    Option (List (Option UInt8)) :=
  if text.length > 0 then store buf start (text.map some) else some buf

/-- What `peg_edit` does to the buffer. -/
def bufEdit (fuel : Nat) (g : PegBuf) (start stop : Int) (text : List UInt8) :
    Option (Except String PegBuf) :=
  if start < 0 ∨ stop < start ∨ stop > g.len then some (.error "peg_edit: range out of bounds")
  else do
    let g' ← bufReserve fuel g (editedLen g.len start stop text)
    let buf ← move g'.buf (start.toNat + text.length) stop.toNat (g.len - stop.toNat)
    let buf ← copyText buf start.toNat text
    return .ok { g' with buf := buf, len := editedLen g.len start stop text }

/-- A call that writes to the buffer. -/
inductive BufOp where
  | parse (data : List UInt8)
  | edit (start stop : Int) (text : List UInt8)

def bufStep (fuel : Nat) (g : PegBuf) : BufOp → Option (Except String PegBuf)
  | .parse data => (bufParse fuel g data).map .ok
  | .edit start stop text => bufEdit fuel g start stop text

def bufRun (fuel : Nat) : PegBuf → List BufOp → Option (Except String PegBuf)
  | g, [] => some (.ok g)
  | g, op :: ops =>
      match bufStep fuel g op with
      | none => none
      | some (.error msg) => some (.error msg)
      | some (.ok g) => bufRun fuel g ops

def subjectStep (subject : List UInt8) : BufOp → Except String (List UInt8)
  | .parse data => .ok data
  | .edit start stop text =>
      if start < 0 ∨ stop < start ∨ stop > subject.length then
        .error "peg_edit: range out of bounds"
      else .ok (splice subject start.toNat stop.toNat text)

def subjectRun : List UInt8 → List BufOp → Except String (List UInt8)
  | subject, [] => .ok subject
  | subject, op :: ops =>
      match subjectStep subject op with
      | .error msg => .error msg
      | .ok subject => subjectRun subject ops

section Capacity

def Doubled (cap : Nat) : Prop :=
  cap = 0 ∨ ∃ k ≤ 51, cap = 2 ^ (12 + k)

theorem Doubled.le {cap : Nat} (h : Doubled cap) : cap ≤ 2 ^ 63 := by
  obtain rfl | ⟨k, hk, rfl⟩ := h
  · omega
  · exact Nat.pow_le_pow_right (by omega) (by omega)

/-- From a power of two the loop finds a capacity that is less than twice the length. -/
theorem doubleCap_enough {len fuel k : Nat} (hk : k ≤ 51) (hfuel : 51 < fuel + k)
    (hlen : len ≤ 2 ^ 63) : ∃ cap, doubleCap fuel len (2 ^ (12 + k)) = some cap ∧ len ≤ cap ∧
      Doubled cap ∧ (cap = 2 ^ (12 + k) ∨ cap < 2 * len) := by
  induction fuel generalizing k with
  | zero => omega
  | succ fuel ih =>
      rw [doubleCap]
      split
      · next hgt =>
          have hlast : k ≠ 51 := by
            rintro rfl
            exact absurd hgt (not_lt.mpr hlen)
          have hdouble : 2 ^ (12 + k) * 2 % 2 ^ 64 = 2 ^ (12 + (k + 1)) := by
            rw [← pow_succ]
            exact Nat.mod_eq_of_lt (Nat.pow_lt_pow_right (by omega) (by omega))
          obtain ⟨cap, hcap, hle, hdoubled, hlt⟩ := ih (k := k + 1) (by omega) (by omega)
          rw [hdouble]
          refine ⟨cap, hcap, hle, hdoubled, .inr ?_⟩
          rcases hlt with rfl | hlt
          · rw [← Nat.add_assoc, pow_succ]
            omega
          · exact hlt
      · next hle => exact ⟨_, rfl, not_lt.mp hle, .inr ⟨k, hk, rfl⟩, .inl rfl⟩

/-- A length over half of the address space doubles the capacity to zero and is never
reached. -/
theorem doubleCap_endless {len cap : Nat} (hlen : 2 ^ 63 < len)
    (hcap : Doubled cap) (fuel : Nat) : doubleCap fuel len cap = none := by
  induction fuel generalizing cap with
  | zero => rfl
  | succ fuel ih =>
      have hsmall := hcap.le
      rw [doubleCap, if_pos (by omega)]
      refine ih ?_
      obtain rfl | ⟨k, hk, rfl⟩ := hcap
      · exact .inl rfl
      · rw [← pow_succ]
        by_cases hlast : k = 51
        · subst hlast
          exact .inl (Nat.mod_self _)
        · refine .inr ⟨k + 1, by omega, ?_⟩
          exact Nat.mod_eq_of_lt (Nat.pow_lt_pow_right (by omega) (by omega))

end Capacity

section Refinement

variable {g g' : PegBuf} {subject subject' : List UInt8} {fuel : Nat}

/-- The buffer holds a subject. -/
structure HoldsSubject (g : PegBuf) (subject : List UInt8) : Prop where
  len : g.len = subject.length
  bytes : g.buf.take g.len = subject.map some
  size : g.buf.length = g.cap
  fits : g.len ≤ g.cap
  cap : Doubled g.cap

theorem holdsSubject_new : HoldsSubject pegBufNew [] :=
  ⟨rfl, rfl, rfl, le_rfl, .inl rfl⟩

theorem bufReserve_room (hfuel : 51 < fuel) (h : HoldsSubject g subject) {len : Nat}
    (hlen : len ≤ 2 ^ 63) : ∃ g', bufReserve fuel g len = some g' ∧ HoldsSubject g' subject ∧ len ≤ g'.cap ∧
      (g'.cap = g.cap ∨ g'.cap = 4096 ∨ g'.cap < 2 * len) := by
  rw [bufReserve]
  split
  · next hle => exact ⟨g, rfl, h, hle, .inl rfl⟩
  · next hgt =>
      obtain ⟨k, hk, hstart, hsame⟩ : ∃ k ≤ 51,
          (if g.cap = 0 then 4096 else g.cap) = 2 ^ (12 + k) ∧ (2 ^ (12 + k) = g.cap ∨ k = 0) := by
        rcases h.cap with hzero | ⟨k, hk, hcap⟩
        · exact ⟨0, by omega, if_pos hzero, .inr rfl⟩
        · refine ⟨k, hk, ?_, .inl hcap.symm⟩
          have hpos : 2 ^ (12 + k) ≠ 0 := pow_ne_zero _ (by omega)
          rw [if_neg (hcap ▸ hpos), hcap]
      obtain ⟨cap, hcap, hle, hdoubled, hbound⟩ := doubleCap_enough hk
        (show 51 < fuel + k by omega) hlen
      have hgrown : g.buf.length ≤ cap := by
        rw [h.size]
        omega
      let grown : PegBuf := ⟨g.buf ++ List.replicate (cap - g.buf.length) none, g.len, cap⟩
      have hreserve : (do
          let cap ← doubleCap fuel len (if g.cap = 0 then 4096 else g.cap)
          pure (⟨g.buf ++ List.replicate (cap - g.buf.length) none, g.len, cap⟩ : PegBuf)) =
            some grown := by
        rw [hstart, hcap]
        rfl
      refine ⟨grown, hreserve, ⟨h.len, ?_, ?_, ?_, hdoubled⟩, hle, ?_⟩
      · change (g.buf ++ _).take g.len = _
        rw [List.take_append_of_le_length (h.size ▸ h.fits), h.bytes]
      · change (g.buf ++ _).length = cap
        rw [List.length_append, List.length_replicate]
        omega
      · exact h.fits.trans (h.size ▸ hgrown)
      · rcases hbound with rfl | hlt
        · rcases hsame with hsame | rfl
          · exact .inl hsame
          · exact .inr (.inl rfl)
        · exact .inr (.inr hlt)

theorem bufParse_holds (hfuel : 51 < fuel) (h : HoldsSubject g subject) {data : List UInt8}
    (hlen : data.length ≤ 2 ^ 63) : ∃ g', bufParse fuel g data = some g' ∧ HoldsSubject g' data ∧
      (g'.cap = g.cap ∨ g'.cap = 4096 ∨ g'.cap < 2 * data.length) := by
  obtain ⟨room, hroom, hholds, hle, hcap⟩ := bufReserve_room hfuel h hlen
  have hfits : 0 + (data.map some).length ≤ room.buf.length := by
    rw [Nat.zero_add, List.length_map, hholds.size]
    exact hle
  obtain ⟨buf, hstore⟩ := store_fits hfits
  have htake := take_store hstore
  rw [Nat.zero_add, List.length_map, List.take_zero, List.nil_append] at htake
  refine ⟨⟨buf, data.length, room.cap⟩, ?_, ⟨rfl, htake, ?_, hle, hholds.cap⟩, hcap⟩
  · rw [bufParse, hroom, Option.bind_eq_bind, Option.bind_some, hstore]
    rfl
  · exact (length_store hstore).trans hholds.size

theorem bufEdit_bytes {buf : List (Option UInt8)} {start stop : Nat} {text : List UInt8}
    (hbytes : buf.take subject.length = subject.map some) (hle : start ≤ stop)
    (hstop : stop ≤ subject.length) (hold : subject.length ≤ buf.length)
    (hroom : subject.length - (stop - start) + text.length ≤ buf.length) :
    ∃ moved copied, move buf (start + text.length) stop (subject.length - stop) = some moved ∧
      copyText moved start text = some copied ∧
        copied.take (subject.length - (stop - start) + text.length) =
          (splice subject start stop text).map some ∧ copied.length = buf.length := by
  have hend : stop + (subject.length - stop) = subject.length := by omega
  have htail : (buf.drop stop).take (subject.length - stop) = (subject.drop stop).map some := by
    rw [List.take_drop, hend, hbytes, List.map_drop]
  have hload := load_eq (hend.le.trans hold)
  rw [htail] at hload
  have hdst : start + text.length + ((subject.drop stop).map some).length =
      subject.length - (stop - start) + text.length := by
    rw [List.length_map, List.length_drop]
    omega
  obtain ⟨moved, hmoved⟩ := store_fits (hdst.le.trans hroom)
  have hmovedlen := length_store hmoved
  have hfits : start + (text.map some).length ≤ moved.length := by
    rw [List.length_map]
    omega
  obtain ⟨copied, hcopied⟩ := store_fits hfits
  have hcopiedlen := length_store hcopied
  refine ⟨moved, copied, by rw [move, hload, Option.bind_some, hmoved], ?_, ?_,
    hcopiedlen.trans hmovedlen⟩
  · rw [copyText]
    split
    · exact hcopied
    · next hempty =>
        obtain rfl : text = [] := List.length_eq_zero_iff.mp (by omega)
        rw [← hcopied, List.map_nil, store_nil (by simpa using hfits)]
  · -- the gap is filled from its start, and what was moved lies behind it
    have hfront := take_store hcopied
    have hback := drop_store hcopied
    rw [List.length_map] at hfront hback
    have htaken := take_store hmoved
    rw [hdst] at htaken
    have hstart : moved.take start = (subject.take start).map some := by
      rw [take_store_of_le hmoved (by omega), List.map_take, ← hbytes, List.take_take,
        Nat.min_eq_left (by omega)]
    have hmid : (moved.drop (start + text.length)).take (subject.length - stop) =
        (subject.drop stop).map some := by
      have hsplit : start + text.length + (subject.length - stop) =
          subject.length - (stop - start) + text.length := by omega
      rw [List.take_drop, hsplit, htaken]
      refine List.drop_left' ?_
      rw [List.length_take]
      omega
    have hsplit : subject.length - (stop - start) + text.length =
        start + text.length + (subject.length - stop) := by omega
    rw [hsplit, List.take_add, hfront, hback, hmid, hstart, splice, List.map_append,
      List.map_append]

theorem length_splice {start stop : Nat} (text : List UInt8) (hle : start ≤ stop)
    (hstop : stop ≤ subject.length) : (splice subject start stop text).length =
      subject.length - (stop - start) + text.length := by
  simp only [splice, List.length_append, List.length_take, List.length_drop]
  omega

theorem bufEdit_holds (hfuel : 51 < fuel) (h : HoldsSubject g subject) {start stop : Int}
    {text : List UInt8} (hrange : ¬(start < 0 ∨ stop < start ∨ stop > subject.length))
    (hlen : (splice subject start.toNat stop.toNat text).length ≤ 2 ^ 63) :
    ∃ g', bufEdit fuel g start stop text = some (.ok g') ∧
      HoldsSubject g' (splice subject start.toNat stop.toNat text) ∧
      (g'.cap = g.cap ∨ g'.cap = 4096 ∨
        g'.cap < 2 * (splice subject start.toNat stop.toNat text).length) := by
  have hle : start.toNat ≤ stop.toNat := by omega
  have hstop : stop.toNat ≤ subject.length := by omega
  have hsplice := length_splice text hle hstop
  have hedited : editedLen g.len start stop text =
      subject.length - (stop.toNat - start.toNat) + text.length := by
    have hsub : (stop - start).toNat = stop.toNat - start.toNat := by omega
    rw [editedLen, h.len, hsub]
    exact Nat.mod_eq_of_lt (by omega)
  rw [hsplice] at hlen ⊢
  obtain ⟨room, hroom, hholds, hfit, hcap⟩ := bufReserve_room hfuel h hlen
  have hbytes := hholds.bytes
  have hold := hholds.fits
  rw [hholds.len] at hbytes hold
  rw [← hholds.size] at hold hfit
  obtain ⟨moved, copied, hmoved, hcopied, htake, hsize⟩ :=
    bufEdit_bytes hbytes hle hstop hold hfit
  refine ⟨⟨copied, _, room.cap⟩, ?_, ⟨hsplice.symm, htake, hsize.trans hholds.size,
    hfit.trans hholds.size.le, hholds.cap⟩, hcap⟩
  rw [bufEdit, h.len, if_neg hrange, ← h.len, hedited, h.len]
  simp only [hroom, hmoved, hcopied, Option.bind_eq_bind, Option.bind_some]
  rfl

theorem bufReserve_endless (h : HoldsSubject g subject) {len : Nat} (hlen : 2 ^ 63 < len)
    (fuel : Nat) : bufReserve fuel g len = none := by
  have hsmall := h.cap.le
  have hstart : Doubled (if g.cap = 0 then 4096 else g.cap) := by
    split
    · exact .inr ⟨0, by omega, rfl⟩
    · exact h.cap
  rw [bufReserve, if_neg (by omega), doubleCap_endless hlen hstart]
  rfl

theorem bufStep_endless (hfuel : 51 < fuel) (h : HoldsSubject g subject) {op : BufOp}
    (hstep : subjectStep subject op = .ok subject') (hlen : 2 ^ 63 < subject'.length) :
    bufStep fuel g op = none := by
  cases op with
  | parse data =>
      cases hstep
      rw [bufStep, bufParse, bufReserve_endless h hlen]
      rfl
  | edit start stop text =>
      rw [subjectStep] at hstep
      split at hstep
      · cases hstep
      · next hrange =>
          cases hstep
          have hsplice := length_splice text (show start.toNat ≤ stop.toNat by omega)
            (show stop.toNat ≤ subject.length by omega)
          rw [bufStep, bufEdit, h.len, if_neg hrange]
          by_cases hcounted : editedLen subject.length start stop text ≤ 2 ^ 63
          · -- the count wrapped around, and the tail is moved out of the buffer
            obtain ⟨room, hroom, hholds, -, -⟩ := bufReserve_room hfuel h hcounted
            have hsmall := hholds.cap.le
            rw [editedLen] at hcounted
            rw [hroom, Option.bind_eq_bind, Option.bind_some, Option.bind_eq_bind,
              move_none _ (by rw [hholds.size]; omega)]
            rfl
          · rw [bufReserve_endless h (not_le.mp hcounted)]
            rfl

theorem bufStep_holds (hfuel : 51 < fuel) (h : HoldsSubject g subject) {op : BufOp}
    (hstep : subjectStep subject op = .ok subject') (hlen : subject'.length ≤ 2 ^ 63) :
    ∃ g', bufStep fuel g op = some (.ok g') ∧ HoldsSubject g' subject' ∧
      (g'.cap = g.cap ∨ g'.cap = 4096 ∨ g'.cap < 2 * subject'.length) := by
  cases op with
  | parse data =>
      cases hstep
      obtain ⟨g', hparse, hholds⟩ := bufParse_holds hfuel h hlen
      exact ⟨g', by rw [bufStep, hparse]; rfl, hholds⟩
  | edit start stop text =>
      rw [subjectStep] at hstep
      split at hstep
      · cases hstep
      · next hrange =>
          cases hstep
          exact bufEdit_holds hfuel h hrange hlen

theorem bufStep_error (h : HoldsSubject g subject) {op : BufOp} {msg : String}
    (hstep : subjectStep subject op = .error msg) : bufStep fuel g op = some (.error msg) := by
  cases op with
  | parse data => cases hstep
  | edit start stop text =>
      rw [subjectStep] at hstep
      split at hstep
      · next hrange =>
          cases hstep
          rw [bufStep, bufEdit, h.len, if_pos hrange]
      · cases hstep

end Refinement

section Runs

variable {g : PegBuf} {subject : List UInt8} {fuel : Nat}

/-- The subjects of a run, without what comes after a call that aborts. -/
def subjects : List UInt8 → List BufOp → List (List UInt8)
  | _, [] => []
  | subject, op :: ops =>
      match subjectStep subject op with
      | .error _ => []
      | .ok subject => subject :: subjects subject ops

def contents (g : PegBuf) : List (Option UInt8) :=
  g.buf.take g.len

theorem bufRun_from (hfuel : 51 < fuel) (h : HoldsSubject g subject) (ops : List BufOp)
    (hlen : ∀ s ∈ subjects subject ops, s.length ≤ 2 ^ 63) :
    ∃ r, bufRun fuel g ops = some r ∧
      r.map contents = (subjectRun subject ops).map (List.map some) ∧
        ∀ g', r = .ok g' → ∀ n, (∀ s ∈ subjects subject ops, s.length ≤ n) →
          g'.cap ≤ max g.cap (max 4096 (2 * n)) := by
  induction ops generalizing g subject with
  | nil =>
      refine ⟨_, rfl, ?_, ?_⟩
      · exact congrArg Except.ok h.bytes
      · rintro g' hg' n -
        cases hg'
        exact le_max_left _ _
  | cons op ops ih =>
      rw [bufRun, subjectRun]
      rw [subjects] at hlen ⊢
      cases hstep : subjectStep subject op with
      | error msg =>
          rw [bufStep_error h hstep]
          exact ⟨_, rfl, rfl, nofun⟩
      | ok subject' =>
          rw [hstep] at hlen
          rw [List.forall_mem_cons] at hlen
          obtain ⟨g₁, hg₁, hholds, hcap⟩ := bufStep_holds hfuel h hstep hlen.1
          obtain ⟨r, hr, hmap, hbound⟩ := ih hholds hlen.2
          rw [hg₁]
          refine ⟨r, hr, hmap, fun g' hg' n hn => ?_⟩
          rw [List.forall_mem_cons] at hn
          have hlast := hbound g' hg' n hn.2
          omega

theorem bufRun_endless (hfuel : 51 < fuel) (h : HoldsSubject g subject) (ops : List BufOp)
    {s : List UInt8} (hs : s ∈ subjects subject ops) (hlen : 2 ^ 63 < s.length) :
    bufRun fuel g ops = none := by
  induction ops generalizing g subject with
  | nil => cases hs
  | cons op ops ih =>
      rw [subjects] at hs
      rw [bufRun]
      cases hstep : subjectStep subject op with
      | error msg =>
          rw [hstep] at hs
          cases hs
      | ok subject' =>
          rw [hstep] at hs
          by_cases hnow : subject'.length ≤ 2 ^ 63
          · obtain ⟨g₁, hg₁, hholds, -⟩ := bufStep_holds hfuel h hstep hnow
            rw [hg₁]
            rcases List.mem_cons.mp hs with rfl | hs
            · omega
            · exact ih hholds hs
          · rw [bufStep_endless hfuel h hstep (not_le.mp hnow)]

/-- The calls on a buffer return exactly if no subject is longer than half of the address
space. Then no access leaves the buffer, its first bytes are the subject that parsing and
splicing give, an edit is refused exactly where the splice is, and the capacity is at most
a page or twice the longest subject. -/
theorem bufRun_subject (k : Nat) (ops : List BufOp) :
    ((∃ s ∈ subjects [] ops, 2 ^ 63 < s.length) ∧ bufRun (52 + k) pegBufNew ops = none) ∨
      (∀ s ∈ subjects [] ops, s.length ≤ 2 ^ 63) ∧
        ∃ r, bufRun (52 + k) pegBufNew ops = some r ∧
          r.map contents = (subjectRun [] ops).map (List.map some) ∧
            ∀ g, r = .ok g → ∀ n, (∀ s ∈ subjects [] ops, s.length ≤ n) →
              g.cap ≤ max 4096 (2 * n) := by
  have hfuel : 51 < 52 + k := by omega
  by_cases hlong : ∃ s ∈ subjects [] ops, 2 ^ 63 < s.length
  · obtain ⟨s, hs, hlen⟩ := hlong
    exact .inl ⟨⟨s, hs, hlen⟩, bufRun_endless hfuel holdsSubject_new ops hs hlen⟩
  · have hlen : ∀ s ∈ subjects [] ops, s.length ≤ 2 ^ 63 := fun s hs =>
      not_lt.mp fun h => hlong ⟨s, hs, h⟩
    obtain ⟨r, hr, hmap, hbound⟩ := bufRun_from hfuel holdsSubject_new ops hlen
    refine .inr ⟨hlen, r, hr, hmap, fun g hg n hn => ?_⟩
    simpa [pegBufNew] using hbound g hg n hn

theorem pegEdit_subject {fuel : Nat} {g : Peg} {start stop : Int} {text : List UInt8}
    {r : Except String Peg} (h : pegEdit fuel g start stop text = some r) :
    r.map Peg.buf = subjectStep g.buf (.edit start stop text) := by
  rw [pegEdit] at h
  rw [subjectStep]
  split at h
  · next hbounds =>
      cases h
      rw [if_pos hbounds]
      rfl
  · next hbounds =>
      obtain ⟨x, -, h⟩ := Option.bind_eq_some_iff.mp h
      cases h
      rw [if_neg hbounds]
      rfl

end Runs

end Libpeg.Buffer
