import Libpeg.Input

/-!
The chunked input with the machine's numbers, next to a plain cursor over the subject.
Positions are returned as `int`, so the two agree as long as no position leaves its
range; an advance may lead past the end of the subject as far as it likes.
-/

namespace Libpeg.ChunkedInput

open Libpeg.Charset

/-- A sum of type `size_t`. -/
def sizeT (n : Nat) : Nat :=
  n % 2 ^ 64

/-- The conversion of a `size_t` to `int`. -/
def toInt (n : Nat) : Int :=
  Int.bmod n (2 ^ 32)

/-- `struct vm_input`; the chunk is as long as `nchunk` says. -/
structure CInput where
  data : List UInt8
  chunk : List UInt8
  base : Nat
  coff : Nat
  furthest : Int
  deriving DecidableEq

/-- `vm_input_new`. -/
def vmInputNew (data : List UInt8) : CInput where
  data := data
  chunk := data.take (if data.length < Input.inputChunk then data.length else Input.inputChunk)
  base := 0
  coff := 0
  furthest := 0

/-- `input_refill`. -/
def inputRefill (i : CInput) (pos : Nat) : CInput :=
  let avail := if i.data.length > pos then i.data.length - pos else 0
  { i with
    base := pos
    coff := 0
    chunk := (i.data.drop pos).take (if avail < Input.inputChunk then avail else Input.inputChunk) }

/-- `vm_input_pos`. -/
def vmInputPos (i : CInput) : Int :=
  toInt (sizeT (i.base + i.coff))

def track (i : CInput) (pos : Int) : CInput :=
  if pos > i.furthest then { i with furthest := pos } else i

/-- `input_peek`. -/
def inputPeek (i : CInput) : CInput × Option UInt8 :=
  (track i (toInt (sizeT (i.base + i.coff))), i.chunk[i.coff]?)

/-- `input_advance`. -/
def inputAdvance (i : CInput) (n : Nat) : CInput × Bool :=
  let pos := sizeT (i.base + i.coff + n)
  let coff := sizeT (i.coff + n)
  (if coff ≥ i.chunk.length then inputRefill { i with coff := coff } pos
    else { i with coff := coff }, pos ≤ i.data.length)

/-- `input_seek_to`. -/
def inputSeekTo (i : CInput) (pos : Nat) : CInput :=
  if pos < sizeT (i.base + i.chunk.length) ∧ pos ≥ i.base then { i with coff := pos - i.base }
  else inputRefill i pos

/-- The loop of `input_span`; the first argument bounds the number of refills. -/
def inputSpanLoop (set : VmCharset) : Nat → CInput → Option CInput
  | 0, _ => none
  | fuel + 1, i =>
      let n := ((i.chunk.drop i.coff).takeWhile fun b => set.has b).length
      let i := track { i with coff := i.coff + n } (toInt (sizeT (i.base + (i.coff + n))))
      if i.coff < i.chunk.length ∨ i.chunk.length = 0 then some i
      else inputSpanLoop set fuel (inputRefill i (sizeT (i.base + i.coff)))

/-- `input_span`. -/
def inputSpan (i : CInput) (set : VmCharset) : Option CInput :=
  inputSpanLoop set (i.data.length + 2) i

inductive InputOp where
  | peek
  | advance (n : Nat)
  | seek (pos : Nat)
  | span (set : VmCharset)

/-- The arguments are numbers of type `int`. -/
def InputOp.FitsInt : InputOp → Prop
  | .advance n => n < 2 ^ 31
  | .seek pos => pos < 2 ^ 31
  | _ => True

/-- What an operation answers, with the position and the tracker behind it. -/
structure Reading where
  byte : Option UInt8
  ok : Bool
  pos : Int
  furthest : Int
  deriving DecidableEq

def reading (i : CInput) (byte : Option UInt8) (ok : Bool) : Reading :=
  ⟨byte, ok, vmInputPos i, i.furthest⟩

def inputStep (i : CInput) : InputOp → Option (CInput × Reading)
  | .peek =>
      let (i, byte) := inputPeek i
      some (i, reading i byte byte.isSome)
  | .advance n =>
      let (i, ok) := inputAdvance i n
      some (i, reading i none ok)
  | .seek pos => some (inputSeekTo i pos, reading (inputSeekTo i pos) none true)
  | .span set => (inputSpan i set).map fun i => (i, reading i none true)

def inputRun : CInput → List InputOp → Option (List Reading)
  | _, [] => some []
  | i, op :: ops => do
      let (i, r) ← inputStep i op
      let rs ← inputRun i ops
      return r :: rs

/-- A position of the subject, and the positions where a peek or a span has stopped. -/
structure Cursor where
  pos : Nat
  stops : List Nat

def Cursor.after (data : List UInt8) (s : Cursor) : InputOp → Cursor
  | .peek => { s with stops := s.pos :: s.stops }
  | .advance n => { s with pos := s.pos + n }
  | .seek pos => { s with pos := pos }
  | .span set =>
      let pos := s.pos + ((data.drop s.pos).takeWhile fun b => set.has b).length
      ⟨pos, pos :: s.stops⟩

def Cursor.furthest (s : Cursor) : Nat :=
  s.stops.foldr max 0

def Cursor.read (data : List UInt8) (s : Cursor) (op : InputOp) : Reading :=
  let s' := s.after data op
  match op with
  | .peek => ⟨data[s.pos]?, data[s.pos]?.isSome, s'.pos, s'.furthest⟩
  | .advance _ => ⟨none, s'.pos ≤ data.length, s'.pos, s'.furthest⟩
  | _ => ⟨none, true, s'.pos, s'.furthest⟩

def cursorRun (data : List UInt8) : Cursor → List InputOp → List Reading
  | _, [] => []
  | s, op :: ops => s.read data op :: cursorRun data (s.after data op) ops

/-- No position that the cursor reaches leaves the range of `int`. -/
def InRange (data : List UInt8) : Cursor → List InputOp → Prop
  | _, [] => True
  | s, op :: ops => (s.after data op).pos < 2 ^ 31 ∧ InRange data (s.after data op) ops

instance decidableInRange (data : List UInt8) : (s : Cursor) → (ops : List InputOp) →
    Decidable (InRange data s ops)
  | _, [] => isTrue trivial
  | s, op :: ops =>
      have := decidableInRange data (s.after data op) ops
      inferInstanceAs (Decidable ((s.after data op).pos < 2 ^ 31 ∧
        InRange data (s.after data op) ops))

variable {v : Input.VmInput} {data : List UInt8} {set : VmCharset} {pos n : Nat}

section Numbers

theorem sizeT_eq (h : n < 2 ^ 31) : sizeT n = n :=
  Nat.mod_eq_of_lt (by omega)

theorem toInt_eq (h : n < 2 ^ 31) : toInt n = n := by
  unfold toInt
  rw [Int.bmod_eq_of_le (by omega) (by omega)]

end Numbers

section Words

def words (v : Input.VmInput) : CInput :=
  ⟨v.data, v.chunk, v.base, v.coff, v.furthest⟩

theorem take_short (l : List UInt8) (n : Nat) :
    l.take (if l.length < n then l.length else n) = l.take n := by
  split
  · next h => rw [List.take_length, List.take_of_length_le (by omega)]
  · rfl

theorem words_new (data : List UInt8) : vmInputNew data = words (Input.vmInputNew data) := by
  rw [vmInputNew, take_short]
  rfl

theorem inputRefill_eq (i : CInput) (pos : Nat) : inputRefill i pos =
    { i with base := pos, coff := 0, chunk := (i.data.drop pos).take Input.inputChunk } := by
  have havail : (if i.data.length > pos then i.data.length - pos else 0) =
      (i.data.drop pos).length := by
    rw [List.length_drop]
    split <;> omega
  rw [inputRefill, havail, take_short]

theorem words_refill (v : Input.VmInput) (pos : Nat) :
    inputRefill (words v) pos = words (Input.inputRefill v pos) :=
  inputRefill_eq (words v) pos

theorem words_pos (h : Input.vmInputPos v < 2 ^ 31) : vmInputPos (words v) = Input.vmInputPos v := by
  change toInt (sizeT (Input.vmInputPos v)) = _
  rw [sizeT_eq h, toInt_eq h]

theorem track_eq {i : CInput} {f : Nat} (hf : i.furthest = f) (h : pos < 2 ^ 31) :
    track i (toInt (sizeT pos)) = { i with furthest := (max f pos : Nat) } := by
  rw [sizeT_eq h, toInt_eq h, track, hf]
  split
  · next hlt =>
      have hmax : max f pos = pos := by omega
      rw [hmax]
  · next hge =>
      have hmax : max f pos = f := by omega
      rw [hmax, ← hf]

theorem words_peek (h : Input.vmInputPos v < 2 ^ 31) :
    inputPeek (words v) = (words (Input.inputPeek v).1, v.data[Input.vmInputPos v]?) := by
  rw [← Input.inputPeek_byte]
  exact congrArg (·, v.chunk[v.coff]?) (track_eq rfl h)

theorem words_advance (h : Input.vmInputPos v + n < 2 ^ 31) :
    inputAdvance (words v) n =
      (words (Input.inputAdvance v n).1, decide (Input.vmInputPos v + n ≤ v.data.length)) := by
  have hpos : sizeT (v.base + v.coff + n) = Input.vmInputPos v + n := sizeT_eq h
  have hcoff : sizeT (v.coff + n) = v.coff + n := by
    rw [Input.vmInputPos] at h
    exact sizeT_eq (by omega)
  have hdata : (words v).data.length = v.data.length := rfl
  have hsame : sizeT ((words v).base + (words v).coff + n) = Input.vmInputPos v + n := hpos
  have hcoff' : sizeT ((words v).coff + n) = v.coff + n := hcoff
  simp only [inputAdvance, hsame, hcoff', hdata, Input.inputAdvance]
  congr 1
  by_cases hlt : v.coff + n < v.chunk.length
  · have hge : ¬v.coff + n ≥ (words v).chunk.length := not_le.mpr hlt
    rw [if_neg hge, dif_pos hlt]
    rfl
  · have hge : v.coff + n ≥ (words v).chunk.length := not_lt.mp hlt
    rw [if_pos hge, dif_neg hlt]
    exact inputRefill_eq _ _

theorem chunk_length_le (v : Input.VmInput) : v.chunk.length ≤ 4096 := by
  rw [v.chunk_eq]
  exact List.length_take_le _ _

theorem words_seek (h : Input.vmInputPos v < 2 ^ 31) :
    inputSeekTo (words v) pos = words (Input.inputSeekTo v pos) := by
  have hlen := chunk_length_le v
  have hend : sizeT (v.base + v.chunk.length) = v.base + v.chunk.length := by
    rw [Input.vmInputPos] at h
    exact Nat.mod_eq_of_lt (by omega)
  have hend' : sizeT ((words v).base + (words v).chunk.length) = v.base + v.chunk.length := hend
  rw [inputSeekTo, hend', Input.inputSeekTo]
  by_cases hin : pos < v.base + v.chunk.length ∧ v.base ≤ pos
  · have hin' : pos < v.base + v.chunk.length ∧ pos ≥ (words v).base := hin
    rw [if_pos hin', dif_pos hin]
    rfl
  · have hin' : ¬(pos < v.base + v.chunk.length ∧ pos ≥ (words v).base) := hin
    rw [if_neg hin', dif_neg hin]
    exact words_refill v pos

theorem words_spanLoop (fuel : Nat) (hpos : 0 < fuel)
    (hfuel : v.data.length < fuel + Input.vmInputPos v)
    (h : Input.vmInputPos v + Input.spanLength v.data set (Input.vmInputPos v) < 2 ^ 31) :
    inputSpanLoop set fuel (words v) = some (words (Input.inputSpanLoop set fuel v)) := by
  induction fuel generalizing v with
  | zero => omega
  | succ fuel ih =>
      obtain ⟨hin, hout⟩ := Input.spanLength_chunk v set
      have hassoc : ∀ n, v.base + (v.coff + n) = Input.vmInputPos v + n := by
        intro n
        rw [Input.vmInputPos]
        omega
      set n := ((v.chunk.drop v.coff).takeWhile fun b => set.has b).length with hn
      have hrange : v.base + (v.coff + n) < 2 ^ 31 := by
        rw [hassoc]
        by_cases hlt : v.coff + n < v.chunk.length
        · rw [hin hlt] at h
          exact h
        · rw [hout hlt] at h
          omega
      have htrack := @track_eq (v.base + (v.coff + n)) { words v with coff := v.coff + n }
        v.furthest rfl hrange
      have hstep : inputSpanLoop set (fuel + 1) (words v) =
          let i : CInput := { words v with
            coff := v.coff + n
            furthest := (max v.furthest (v.base + (v.coff + n)) : Nat) }
          if v.coff + n < v.chunk.length ∨ v.chunk.length = 0 then some i
          else inputSpanLoop set fuel (inputRefill i (v.base + (v.coff + n))) := by
        rw [inputSpanLoop]
        change (let i := track { words v with coff := v.coff + n } (toInt (sizeT (v.base + (v.coff + n))));
          if i.coff < i.chunk.length ∨ i.chunk.length = 0 then some i
          else inputSpanLoop set fuel (inputRefill i (sizeT (i.base + i.coff)))) = _
        rw [htrack]
        have hsize : sizeT ((words v).base + (v.coff + n)) = v.base + (v.coff + n) :=
          sizeT_eq hrange
        dsimp only
        rw [hsize]
        rfl
      rw [hstep, Input.inputSpanLoop]
      by_cases hlt : v.coff + n < v.chunk.length
      · rw [if_pos (Or.inl hlt), dif_pos hlt]
        rfl
      · by_cases hnil : v.chunk = []
        · have hcoff : v.coff = 0 := by
            rcases v.coff_lt with hc | ⟨hc, -⟩
            · rw [hnil] at hc
              exact absurd hc (Nat.not_lt_zero _)
            · exact hc
          have hzero := Input.spanLength_eq_zero set (Input.length_le_of_chunk_nil v hnil)
          have hn0 : n = 0 := by
            have := hout hlt
            omega
          have hlen : v.chunk.length = 0 := by rw [hnil]; rfl
          rw [if_pos (Or.inr hlen), dif_neg hlt, if_pos hnil]
          dsimp only
          rw [← hn, hn0, Nat.add_zero]
          rfl
        · have hne : v.chunk.length ≠ 0 := fun hzero => hnil (List.length_eq_zero_iff.mp hzero)
          have hcoff : v.coff < v.chunk.length := by
            rcases v.coff_lt with hc | ⟨-, hc⟩
            · exact hc
            · exact absurd hc hnil
          have hlen : Input.vmInputPos v < v.data.length := by
            have := congrArg List.length v.chunk_eq
            rw [List.length_take, List.length_drop] at this
            rw [Input.vmInputPos]
            omega
          rw [if_neg (not_or.mpr ⟨hlt, hne⟩), dif_neg hlt, if_neg hnil, ← ih (by omega) (by
              simp only [Input.inputRefill_data, Input.inputRefill_pos, ← hn, hassoc]
              omega) (by
              simp only [Input.inputRefill_data, Input.inputRefill_pos, ← hn, hassoc]
              have := hout hlt
              omega), ← words_refill]
          rw [inputRefill_eq, inputRefill_eq]
          rfl

theorem words_span (h : Input.vmInputPos v + Input.spanLength v.data set (Input.vmInputPos v) < 2 ^ 31) :
    inputSpan (words v) set = some (words (Input.inputSpan v set)) :=
  words_spanLoop (v.data.length + 2) (by omega) (by omega) h

end Words

section Runs

/-- The input stands where the cursor does. -/
structure At (v : Input.VmInput) (data : List UInt8) (s : Cursor) : Prop where
  data : v.data = data
  pos : Input.vmInputPos v = s.pos
  furthest : v.furthest = s.furthest

theorem At.new (data : List UInt8) : At (Input.vmInputNew data) data ⟨0, []⟩ :=
  ⟨rfl, rfl, rfl⟩

theorem At.read {s : Cursor} (h : At v data s) (hpos : s.pos < 2 ^ 31) (byte : Option UInt8)
    (ok : Bool) : reading (words v) byte ok = ⟨byte, ok, s.pos, s.furthest⟩ := by
  have hword : vmInputPos (words v) = s.pos := by
    rw [words_pos (by rw [h.pos]; exact hpos), h.pos]
  have hfurthest : (words v).furthest = s.furthest := congrArg Nat.cast h.furthest
  rw [reading, hword, hfurthest]

theorem At.step {s : Cursor} (h : At v data s) (hpos : s.pos < 2 ^ 31) (op : InputOp)
    (hnext : (s.after data op).pos < 2 ^ 31) :
    ∃ v', inputStep (words v) op = some (words v', s.read data op) ∧
      At v' data (s.after data op) := by
  have hv : Input.vmInputPos v < 2 ^ 31 := by
    rw [h.pos]
    exact hpos
  cases op with
  | peek =>
      have hat : At (Input.inputPeek v).1 data (s.after data .peek) := by
        refine ⟨h.data, h.pos, ?_⟩
        rw [Input.inputPeek_furthest, h.furthest, h.pos, max_comm]
        rfl
      refine ⟨_, ?_, hat⟩
      rw [inputStep, words_peek hv]
      dsimp only
      rw [hat.read hnext, h.data, h.pos]
      rfl
  | advance n =>
      have hn : Input.vmInputPos v + n < 2 ^ 31 := by
        rw [h.pos]
        exact hnext
      have hat : At (Input.inputAdvance v n).1 data (s.after data (.advance n)) :=
        ⟨(Input.inputAdvance_data v n).trans h.data,
          (Input.inputAdvance_pos v n).trans (congrArg (· + n) h.pos),
          (Input.inputAdvance_furthest v n).trans h.furthest⟩
      refine ⟨_, ?_, hat⟩
      rw [inputStep, words_advance hn]
      dsimp only
      rw [hat.read hnext, h.data, h.pos]
      rfl
  | seek pos =>
      have hat : At (Input.inputSeekTo v pos) data (s.after data (.seek pos)) :=
        ⟨(Input.inputSeekTo_data v pos).trans h.data, Input.inputSeekTo_pos v pos,
          (Input.inputSeekTo_furthest v pos).trans h.furthest⟩
      refine ⟨_, ?_, hat⟩
      rw [inputStep, words_seek hv, hat.read hnext]
      rfl
  | span set =>
      have hend : Input.vmInputPos v + Input.spanLength v.data set (Input.vmInputPos v) < 2 ^ 31 := by
        rw [h.data, h.pos]
        exact hnext
      have hat : At (Input.inputSpan v set) data (s.after data (.span set)) := by
        refine ⟨(Input.inputSpan_data v set).trans h.data, ?_, ?_⟩
        · rw [Input.inputSpan_pos, h.data, h.pos]
          rfl
        · rw [Input.inputSpan_furthest, h.data, h.pos, h.furthest, max_comm]
          rfl
      refine ⟨_, ?_, hat⟩
      rw [inputStep, words_span hend, Option.map_some, hat.read hnext]
      rfl

theorem At.run {s : Cursor} (h : At v data s) (hpos : s.pos < 2 ^ 31) (ops : List InputOp)
    (hrange : InRange data s ops) : inputRun (words v) ops = some (cursorRun data s ops) := by
  induction ops generalizing v s with
  | nil => rfl
  | cons op ops ih =>
      obtain ⟨hnext, hrest⟩ := hrange
      obtain ⟨v', hstep, hat⟩ := h.step hpos op hnext
      rw [inputRun, hstep]
      change ((inputRun (words v') ops).bind fun rs => some (s.read data op :: rs)) = _
      rw [ih hat hnext hrest]
      rfl

/-- Every sequence of operations on a new input answers as a plain cursor does, as long as
the positions fit an `int`. -/
theorem inputRun_eq_cursorRun (data : List UInt8) (ops : List InputOp)
    (hrange : InRange data ⟨0, []⟩ ops) :
    inputRun (vmInputNew data) ops = some (cursorRun data ⟨0, []⟩ ops) := by
  rw [words_new]
  exact (At.new data).run (by decide) ops hrange

theorem inputRun_eq_cursorRun_past_end :
    inputRun (vmInputNew [97, 97]) [.span (.fill [97]), .peek, .advance 5000, .peek, .seek 1, .peek] =
      some (cursorRun [97, 97] ⟨0, []⟩
        [.span (.fill [97]), .peek, .advance 5000, .peek, .seek 1, .peek]) :=
  inputRun_eq_cursorRun _ _ (by decide)

/-- Advances far past the end leave the range of `int`, and the tracker does not follow. -/
theorem inputRun_out_of_range :
    ¬∀ (data : List UInt8) (ops : List InputOp), data.length < 2 ^ 31 →
      (∀ op ∈ ops, op.FitsInt) →
      inputRun (vmInputNew data) ops = some (cursorRun data ⟨0, []⟩ ops) := by
  intro h
  have hpeek := h [] [.advance (2 ^ 31 - 1), .advance 1, .peek] (by decide) (by
    intro op hop
    simp only [List.mem_cons, List.not_mem_nil, or_false] at hop
    rcases hop with rfl | rfl | rfl
    · show 2 ^ 31 - 1 < 2 ^ 31
      decide
    · show 1 < 2 ^ 31
      decide
    · trivial)
  revert hpeek
  decide

end Runs

end Libpeg.ChunkedInput
