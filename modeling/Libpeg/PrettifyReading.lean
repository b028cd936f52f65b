import Libpeg.Prettify

namespace Libpeg.PrettifyReading

open Libpeg.Charset Libpeg.Prettify

section Literals

def unhex (d : UInt8) : Nat :=
  if d < 58 then d.toNat - 48 else d.toNat - 87

/-- Read a literal behind its opening quote: its bytes and what comes behind the closing one. -/
def readLiteral : List UInt8 → Option (List UInt8 × List UInt8)
  | [] => none
  | c :: rest =>
      if c = 0x22 then some ([], rest)
      else if c = 0x5c then
        match rest with
        | [] => none
        | d :: rest =>
            if d = 0x78 then
              match rest with
              | h :: l :: rest =>
                  (readLiteral rest).map (.map (UInt8.ofNat (unhex h * 16 + unhex l) :: ·) id)
              | _ => none
            else (readLiteral rest).map (.map (d :: ·) id)
      else (readLiteral rest).map (.map (c :: ·) id)

theorem unhex_hexDigit : ∀ n < 16, unhex (hexDigit n) = n := by
  decide

theorem unhex_byte (c : UInt8) : UInt8.ofNat
    (unhex (hexDigit (c.toNat / 16)) * 16 + unhex (hexDigit (c.toNat % 16))) = c := by
  have hlt := c.toNat_lt
  rw [unhex_hexDigit _ (by omega), unhex_hexDigit _ (by omega), Nat.mul_comm, Nat.div_add_mod,
    UInt8.ofNat_toNat]

theorem readLiteral_escaped (c : UInt8) (rest : List UInt8) :
    readLiteral (escaped c ++ rest) = (readLiteral rest).map (.map (c :: ·) id) := by
  rw [escaped]
  split
  · next hquoted =>
      have hx : c ≠ 0x78 := by
        rintro rfl
        revert hquoted
        decide
      rw [List.cons_append, List.cons_append, List.nil_append, readLiteral.eq_def]
      simp [hx]
  · next hplain =>
      split
      · rw [not_or] at hplain
        rw [List.singleton_append, readLiteral.eq_def]
        simp [hplain.1, hplain.2]
      · have hhex : text "\\x" = [0x5c, 0x78] := by decide +kernel
        rw [hhex]
        change readLiteral (0x5c :: 0x78 :: _ :: _ :: rest) = _
        rw [readLiteral.eq_def]
        simp [-UInt8.ofNat_add, -UInt8.ofNat_mul, unhex_byte]

theorem readLiteral_flatMap (str rest : List UInt8) :
    readLiteral (str.flatMap escaped ++ (0x22 :: rest)) = some (str, rest) := by
  induction str with
  | nil =>
      rw [List.flatMap_nil, List.nil_append, readLiteral.eq_def]
      rfl
  | cons c str ih => rw [List.flatMap_cons, List.append_assoc, readLiteral_escaped, ih]; rfl

theorem hexDigit_visible : ∀ n < 16, 0x20 ≤ hexDigit n ∧ hexDigit n < 0x7f := by
  decide

theorem escaped_visible (c : UInt8) : ∀ x ∈ escaped c, 0x20 ≤ x ∧ x < 0x7f := by
  have hlt := c.toNat_lt
  rw [escaped]
  split
  · next hquoted =>
      have hc : 0x20 ≤ c ∧ c < 0x7f := by rcases hquoted with rfl | rfl <;> decide
      intro x hx
      rcases List.mem_pair.mp hx with rfl | rfl
      · decide
      · exact hc
  · split
    · next hc => exact fun x hx => List.mem_singleton.mp hx ▸ hc
    · have hhex : text "\\x" = [0x5c, 0x78] := by decide +kernel
      rw [hhex]
      intro x hx
      rcases List.mem_append.mp hx with h | h <;> rcases List.mem_pair.mp h with rfl | rfl
      · decide
      · decide
      · exact hexDigit_visible _ (by omega)
      · exact hexDigit_visible _ (by omega)

theorem prettify_literal (fuel : Nat) (str b : List UInt8) :
    prettify (fuel + 2) (.literal str) b =
      some (b ++ text "\"" ++ str.flatMap escaped ++ text "\"") :=
  rfl

/-- `prettify` prints a literal between quotes in visible characters, and it is read as it
was, up to the closing quote. -/
theorem readLiteral_printed (fuel : Nat) (str b : List UInt8) :
    ∃ body, prettify (fuel + 2) (.literal str) b = some (b ++ text "\"" ++ body ++ text "\"") ∧
      (∀ rest, readLiteral (body ++ text "\"" ++ rest) = some (str, rest)) ∧
      ∀ x ∈ body, 0x20 ≤ x ∧ x < 0x7f := by
  refine ⟨str.flatMap escaped, prettify_literal fuel str b, fun rest => ?_, fun x hx => ?_⟩
  · have hquote : text "\"" = [0x22] := by decide +kernel
    rw [List.append_assoc, hquote]
    exact readLiteral_flatMap str rest
  · obtain ⟨c, -, hc⟩ := List.mem_flatMap.mp hx
    exact escaped_visible c x hc

end Literals

section Classes

def rangeText (r : UInt8 × UInt8) : List UInt8 :=
  if r.1 = r.2 then [r.1, 0x2c] else [r.1, 0x2e, 0x2e, r.2, 0x2c]

/-- The ranges of a text in which each of them ends with a comma. -/
def readRanges : List UInt8 → List (UInt8 × UInt8)
  | c :: s :: rest =>
      if s = 0x2c then (c, c) :: readRanges rest
      else
        match rest with
        | _ :: d :: _ :: rest => (c, d) :: readRanges rest
        | _ => []
  | _ => []

def readClass (inner : List UInt8) : List (UInt8 × UInt8) :=
  if inner = [] then [] else readRanges (inner ++ [0x2c])

def Covers (runs : List (UInt8 × UInt8)) (c : UInt8) : Prop :=
  ∃ r ∈ runs, r.1 ≤ c ∧ c ≤ r.2

theorem readRanges_text (runs : List (UInt8 × UInt8)) :
    readRanges (runs.flatMap rangeText) = runs := by
  induction runs with
  | nil =>
      rw [List.flatMap_nil, readRanges.eq_def]
  | cons r runs ih =>
      obtain ⟨lo, hi⟩ := r
      rw [List.flatMap_cons, rangeText]
      split
      · next heq =>
          obtain rfl : lo = hi := heq
          change readRanges (lo :: 0x2c :: _) = _
          rw [readRanges.eq_def]
          simp [ih]
      · change readRanges (lo :: 0x2e :: 0x2e :: hi :: 0x2c :: _) = _
        rw [readRanges.eq_def]
        simp [ih]

theorem getLast_ranges {runs : List (UInt8 × UInt8)} (h : runs ≠ []) :
    (runs.flatMap rangeText).getLast? = some 0x2c := by
  rcases List.eq_nil_or_concat' runs with rfl | ⟨front, r, rfl⟩
  · exact absurd rfl h
  · rw [List.flatMap_append, List.flatMap_singleton, rangeText]
    split <;> simp

/-- The range that is not closed yet, in front of the next byte. -/
def openText (set : VmCharset) : Option UInt8 → List UInt8
  | none => []
  | some lo => if set.has (lo + 1) then [lo, 0x2e, 0x2e] else []

/-- The state of the loop in front of byte `n`. -/
structure Rendered (set : VmCharset) (b : List UInt8) (n : Nat) (runs : List (UInt8 × UInt8))
    (lo : Option UInt8) (st : Bool × List UInt8) : Prop where
  text : st.2 = b ++ runs.flatMap rangeText ++ openText set lo
  inRange : st.1 = lo.isSome
  covers : ∀ c : UInt8, c.toNat < n → (set.has c ↔ Covers runs c ∨ ∃ l ∈ lo, l ≤ c)
  lt : ∀ l ∈ lo, l.toNat < n
  ends : ∀ r ∈ runs, r.2.toNat < n

variable {set : VmCharset} {b : List UInt8} {n : Nat} {runs : List (UInt8 × UInt8)}
  {lo : Option UInt8} {st : Bool × List UInt8}

theorem covers_concat (r : UInt8 × UInt8) (c : UInt8) :
    Covers (runs ++ [r]) c ↔ Covers runs c ∨ (r.1 ≤ c ∧ c ≤ r.2) := by
  simp [Covers, or_and_right, exists_or]

theorem Rendered.ahead (h : Rendered set b n runs lo st) {c : UInt8} (hc : n ≤ c.toNat) :
    ¬Covers runs c := by
  rintro ⟨r, hr, -, hle⟩
  have hlt := h.ends r hr
  have hle' : c.toNat ≤ r.2.toNat := hle
  omega

theorem openText_close {l : UInt8} (h : Rendered set b n runs (some l) st) (hn : n < 256)
    (hhas : set.has (UInt8.ofNat n) = false) :
    openText set (some l) ++ [UInt8.ofNat (n - 1), 0x2c] = rangeText (l, UInt8.ofNat (n - 1)) := by
  have hlt := h.lt l rfl
  rw [openText, rangeText]
  by_cases hlast : l.toNat + 1 = n
  · have hnext : l + 1 = UInt8.ofNat n := by
      rw [← hlast, UInt8.ofNat_add, UInt8.ofNat_toNat]
      rfl
    have hl : l = UInt8.ofNat (n - 1) := by
      rw [← hlast, Nat.add_sub_cancel, UInt8.ofNat_toNat]
    rw [hnext, hhas, if_neg Bool.false_ne_true, if_pos hl, ← hl]
    rfl
  · have hnext : (l + 1).toNat = l.toNat + 1 := by
      rw [UInt8.toNat_add]
      exact Nat.mod_eq_of_lt (show l.toNat + 1 < 256 by omega)
    have hin : set.has (l + 1) = true := by
      refine (h.covers (l + 1) (by omega)).mpr (.inr ⟨l, rfl, ?_⟩)
      rw [UInt8.le_iff_toNat_le]
      omega
    have hl : l ≠ UInt8.ofNat (n - 1) := by
      intro heq
      have := congrArg UInt8.toNat heq
      rw [UInt8.toNat_ofNat_of_lt' (show n - 1 < 256 by omega)] at this
      omega
    rw [hin, if_pos rfl, if_neg hl]
    rfl

theorem setStringByte_open {buf : List UInt8} (hne : n ≠ 255)
    (hhas : set.has (UInt8.ofNat n) = true) :
    setStringByte set (false, buf) n = (true, buf ++ openText set (some (UInt8.ofNat n))) := by
  have hdots : text ".." = [0x2e, 0x2e] := by decide +kernel
  have hnext : UInt8.ofNat (n + 1) = UInt8.ofNat n + 1 := by
    rw [UInt8.ofNat_add]
    rfl
  cases hgoes : set.has (UInt8.ofNat n + 1) <;>
    simp [setStringByte, hhas, hne, hnext, hdots, openText, hgoes]

theorem setStringByte_keep {buf : List UInt8} {inRange : Bool}
    (hhas : set.has (UInt8.ofNat n) = inRange) (hne : inRange = true → n ≠ 255) :
    setStringByte set (inRange, buf) n = (inRange, buf) := by
  cases inRange with
  | true => simp [setStringByte, hhas, hne rfl]
  | false => simp [setStringByte, hhas]

theorem setStringByte_close {buf : List UInt8} (hhas : set.has (UInt8.ofNat n) = false) :
    setStringByte set (true, buf) n = (false, buf ++ [UInt8.ofNat (n - 1), 0x2c]) := by
  have hcomma : text "," = [0x2c] := by decide +kernel
  simp [setStringByte, hhas, hcomma]

/-- A byte of the loop. The last one is written without a comma and is left out here. -/
theorem setStringByte_rendered (h : Rendered set b n runs lo st) (hn : n < 256)
    (hne : set.has (UInt8.ofNat n) = true → n ≠ 255) :
    ∃ runs' lo', Rendered set b (n + 1) runs' lo' (setStringByte set st n) := by
  obtain ⟨inRange, buf⟩ := st
  obtain rfl : inRange = lo.isSome := h.inRange
  obtain rfl : buf = _ := h.text
  have hnat : (UInt8.ofNat n).toNat = n := UInt8.toNat_ofNat_of_lt' hn
  have hat : ∀ c : UInt8, c.toNat < n + 1 → c.toNat < n ∨ c = UInt8.ofNat n := by
    intro c hc
    by_cases hlt : c.toNat < n
    · exact .inl hlt
    · refine .inr ?_
      rw [show n = c.toNat by omega, UInt8.ofNat_toNat]
  have hends : ∀ r ∈ runs, r.2.toNat < n + 1 := fun r hr => (h.ends r hr).trans (Nat.lt_succ_self n)
  have hlts : ∀ l ∈ lo, l.toNat < n + 1 := fun l hl => (h.lt l hl).trans (Nat.lt_succ_self n)
  have hahead := h.ahead hnat.ge
  cases hhas : set.has (UInt8.ofNat n) with
  | true =>
      cases lo with
      | none =>
          rw [Option.isSome_none, setStringByte_open (hne hhas) hhas]
          refine ⟨runs, some (UInt8.ofNat n), by simp [openText], rfl, fun c hc => ?_, ?_, hends⟩
          · rcases hat c hc with hlt | rfl
            · rw [h.covers c hlt]
              have hle : ¬UInt8.ofNat n ≤ c := by
                rw [UInt8.le_iff_toNat_le]
                omega
              simp [hle]
            · simp [hhas]
          · rintro l ⟨⟩
            omega
      | some l =>
          rw [Option.isSome_some, setStringByte_keep hhas fun _ => hne hhas]
          refine ⟨runs, some l, rfl, rfl, fun c hc => ?_, hlts, hends⟩
          rcases hat c hc with hlt | rfl
          · exact h.covers c hlt
          · have hle : l ≤ UInt8.ofNat n := by
              rw [UInt8.le_iff_toNat_le]
              have := h.lt l rfl
              omega
            simp [hhas, hle]
  | false =>
      cases lo with
      | none =>
          rw [Option.isSome_none, setStringByte_keep hhas nofun]
          refine ⟨runs, none, rfl, rfl, fun c hc => ?_, nofun, hends⟩
          rcases hat c hc with hlt | rfl
          · exact h.covers c hlt
          · simp [hhas, hahead]
      | some l =>
          rw [Option.isSome_some, setStringByte_close hhas]
          have hclose := openText_close h hn hhas
          have hprev : (UInt8.ofNat (n - 1)).toNat = n - 1 :=
            UInt8.toNat_ofNat_of_lt' (show n - 1 < 256 by omega)
          have hlast := h.lt l rfl
          refine ⟨runs ++ [(l, UInt8.ofNat (n - 1))], none, ?_, rfl, fun c hc => ?_, nofun, ?_⟩
          · simp [← hclose, openText]
          · rw [covers_concat]
            rcases hat c hc with hlt | rfl
            · rw [h.covers c hlt]
              have hle : c ≤ UInt8.ofNat (n - 1) := by
                rw [UInt8.le_iff_toNat_le]
                omega
              simp [hle]
            · have hle : ¬UInt8.ofNat n ≤ UInt8.ofNat (n - 1) := by
                rw [UInt8.le_iff_toNat_le]
                omega
              simp [hhas, hahead, hle]
          · intro r hr
            rcases List.mem_append.mp hr with hr | hr
            · exact hends r hr
            · obtain rfl := List.mem_singleton.mp hr
              show (UInt8.ofNat (n - 1)).toNat < n + 1
              omega

theorem foldl_rendered (set : VmCharset) (b : List UInt8) (hn : n ≤ 255) :
    ∃ runs lo, Rendered set b n runs lo ((List.range n).foldl (setStringByte set) (false, b)) := by
  induction n with
  | zero => exact ⟨[], none, by simp [openText], rfl, nofun, nofun, nofun⟩
  | succ n ih =>
      obtain ⟨runs, lo, h⟩ := ih (by omega)
      rw [List.range_succ, List.foldl_append]
      exact setStringByte_rendered h (by omega) fun _ => by omega

theorem strip_ranges (hb : b.getLast? ≠ some 0x2c) (runs : List (UInt8 × UInt8)) :
    (if (b ++ runs.flatMap rangeText).getLast? = some 0x2c then
      (b ++ runs.flatMap rangeText).dropLast else b ++ runs.flatMap rangeText) =
        b ++ (runs.flatMap rangeText).dropLast := by
  by_cases hruns : runs = []
  · subst hruns
    simp [hb]
  · have hlast := getLast_ranges hruns
    have hne : runs.flatMap rangeText ≠ [] := by
      intro hnil
      rw [hnil] at hlast
      cases hlast
    rw [List.getLast?_append, hlast, Option.some_or, if_pos rfl,
      List.dropLast_append_of_ne_nil hne]

theorem dropLast_ranges (runs : List (UInt8 × UInt8)) (r : UInt8 × UInt8) :
    ((runs ++ [r]).flatMap rangeText).dropLast =
      runs.flatMap rangeText ++ (rangeText r).dropLast := by
  have hne : rangeText r ≠ [] := by
    rw [rangeText]
    split <;> exact List.cons_ne_nil _ _
  rw [List.flatMap_append, List.flatMap_singleton, List.dropLast_append_of_ne_nil hne]

theorem setString_last (h : Rendered set b 255 runs lo st) (hhas : set.has 255 = true) :
    ∃ runs', (setStringByte set st 255).2 = b ++ (runs'.flatMap rangeText).dropLast ∧
      (setStringByte set st 255).2.getLast? = some 255 ∧ ∀ c, set.has c ↔ Covers runs' c := by
  have hbyte : setStringByte set st 255 = (st.1, st.2 ++ [255]) := by
    simp [setStringByte, hhas]
  have hmax : ∀ c : UInt8, c ≤ 255 := fun c => UInt8.le_iff_toNat_le.mpr
    (Nat.le_of_lt_succ c.toNat_lt)
  have hcovers : ∀ c : UInt8, set.has c ↔ Covers runs c ∨ (∃ l ∈ lo, l ≤ c) ∨ c = 255 := by
    intro c
    by_cases hc : c.toNat < 255
    · rw [h.covers c hc]
      have hne : c ≠ 255 := by
        rintro rfl
        exact absurd hc (by decide)
      simp [hne]
    · have hc255 : c.toNat = 255 := by
        have := c.toNat_lt
        omega
      obtain rfl : c = 255 := UInt8.toNat_inj.mp hc255
      simp [hhas]
  rw [hbyte, h.text]
  cases lo with
  | none =>
      refine ⟨runs ++ [(255, 255)], ?_, by simp, fun c => ?_⟩
      · rw [dropLast_ranges]
        simp [openText, rangeText]
      · have heq : c = 255 ↔ 255 ≤ c ∧ c ≤ 255 :=
          ⟨fun hc => hc ▸ ⟨UInt8.le_refl _, UInt8.le_refl _⟩, fun h => UInt8.le_antisymm h.2 h.1⟩
        rw [hcovers, covers_concat, ← heq]
        simp
  | some l =>
      have hlt := h.lt l rfl
      have hne : l ≠ 255 := by
        rintro rfl
        exact absurd hlt (by decide)
      have hgoes : set.has (l + 1) = true := by
        have hnext : (l + 1).toNat = l.toNat + 1 := by
          rw [UInt8.toNat_add]
          exact Nat.mod_eq_of_lt (show l.toNat + 1 < 256 by omega)
        refine (hcovers _).mpr (.inr (.inl ⟨l, rfl, ?_⟩))
        rw [UInt8.le_iff_toNat_le]
        omega
      refine ⟨runs ++ [(l, 255)], ?_, by simp, fun c => ?_⟩
      · rw [dropLast_ranges]
        simp [openText, rangeText, hgoes, hne]
      · rw [hcovers, covers_concat]
        have heq : c = 255 → l ≤ c := fun hc => hc ▸ hmax l
        simp only [Option.mem_def, Option.some.injEq, exists_eq_left', hmax, and_true]
        exact or_congr_right (or_iff_left_of_imp heq)

theorem setStringInner_ranges (set : VmCharset) (hb : b.getLast? ≠ some 0x2c) :
    ∃ runs, setStringInner set b = b ++ (runs.flatMap rangeText).dropLast ∧
      ∀ c, set.has c ↔ Covers runs c := by
  obtain ⟨runs, lo, h⟩ := foldl_rendered set b (n := 255) le_rfl
  rw [setStringInner, List.range_succ, List.foldl_append, List.foldl_cons, List.foldl_nil]
  cases hhas : set.has 255 with
  | true =>
      obtain ⟨runs', htext, hlast, hcovers⟩ := setString_last h hhas
      refine ⟨runs', ?_, hcovers⟩
      rw [hlast, if_neg (by decide), htext]
  | false =>
      obtain ⟨runs', lo', h'⟩ := setStringByte_rendered h (by omega) fun htrue => by
        exact absurd (htrue.symm.trans hhas) nofun
      obtain rfl : lo' = none := by
        refine Option.eq_none_iff_forall_not_mem.mpr fun l hl => ?_
        have hle : l ≤ 255 := UInt8.le_iff_toNat_le.mpr (Nat.le_of_lt_succ l.toNat_lt)
        have hin := (h'.covers 255 (by decide)).mpr (.inr ⟨l, hl, hle⟩)
        exact absurd (hin.symm.trans hhas) nofun
      refine ⟨runs', ?_, fun c => ?_⟩
      · have htext := h'.text
        rw [openText, List.append_nil] at htext
        rw [htext, strip_ranges hb]
      · simpa using h'.covers c c.toNat_lt

/-- The members of a printed class can be read from what is between its braces. -/
theorem setString_covers (set : VmCharset) (b : List UInt8) :
    ∃ inner, setString set b = b ++ text "\x7b" ++ inner ++ text "\x7d" ∧
      ∀ c, set.has c ↔ Covers (readClass inner) c := by
  have hbrace : text "\x7b" = [0x7b] := by decide +kernel
  obtain ⟨runs, htext, hcovers⟩ := @setStringInner_ranges (b ++ text "\x7b") set (by simp [hbrace])
  refine ⟨(runs.flatMap rangeText).dropLast, by rw [setString, htext], fun c => ?_⟩
  have hread : readClass (runs.flatMap rangeText).dropLast = runs := by
    rcases List.eq_nil_or_concat' runs with rfl | ⟨front, r, rfl⟩
    · rfl
    · have hne : ((front ++ [r]).flatMap rangeText).dropLast ≠ [] := by
        rw [dropLast_ranges, rangeText]
        split <;> simp
      have hlast := getLast_ranges (show front ++ [r] ≠ [] by simp)
      rw [readClass, if_neg hne, List.dropLast_append_getLast? _ hlast, readRanges_text]
  rw [hread]
  exact hcovers c

theorem setString_injective (b : List UInt8) :
    Function.Injective fun set : VmCharset => setString set b := by
  intro set set' heq
  obtain ⟨inner, htext, hcovers⟩ := setString_covers set b
  obtain ⟨inner', htext', hcovers'⟩ := setString_covers set' b
  dsimp only at heq
  rw [htext, htext', List.append_left_inj, List.append_right_inj] at heq
  subst heq
  have hbits : ∀ c : UInt8, set.has c = set'.has c := fun c => by
    rw [Bool.eq_iff_iff, hcovers, hcovers']
  obtain ⟨bits⟩ := set
  obtain ⟨bits'⟩ := set'
  refine congrArg VmCharset.mk (BitVec.eq_of_getLsbD_eq fun i hi => ?_)
  have hbit := hbits (UInt8.ofNat i)
  rwa [VmCharset.has, VmCharset.has, UInt8.toNat_ofNat_of_lt' hi] at hbit

/-- A printed class tells its members, and the printer writes different classes
differently. -/
theorem setString_reads (b : List UInt8) :
    (∀ set, ∃ inner, setString set b = b ++ text "\x7b" ++ inner ++ text "\x7d" ∧
      ∀ c, set.has c ↔ Covers (readClass inner) c) ∧
      Function.Injective fun set : VmCharset => setString set b :=
  ⟨fun set => setString_covers set b, setString_injective b⟩

end Classes

end Libpeg.PrettifyReading
