import Libpeg.Charset
import Mathlib.Data.List.TakeDrop
import Mathlib.Tactic.Set

namespace Libpeg.Input

open Libpeg.Charset

/-- `INPUT_CHUNK`. -/
def inputChunk : Nat := 4096

/-- `struct vm_input`; the subject is the whole of `data`. -/
structure VmInput where
  data : List UInt8
  chunk : List UInt8
  base : Nat
  coff : Nat
  furthest : Nat
  chunk_eq : chunk = (data.drop base).take inputChunk
  coff_lt : coff < chunk.length ∨ coff = 0 ∧ chunk = []

theorem zero_lt_or_nil (l : List UInt8) : 0 < l.length ∨ 0 = 0 ∧ l = [] := by
  cases l with
  | nil => exact .inr ⟨rfl, rfl⟩
  | cons b l => exact .inl (Nat.succ_pos _)

/-- `vm_input_new`. -/
def vmInputNew (data : List UInt8) : VmInput where
  data := data
  chunk := (data.drop 0).take inputChunk
  base := 0
  coff := 0
  furthest := 0
  chunk_eq := rfl
  coff_lt := zero_lt_or_nil _

/-- `input_refill`. -/
def inputRefill (i : VmInput) (pos : Nat) : VmInput where
  data := i.data
  chunk := (i.data.drop pos).take inputChunk
  base := pos
  coff := 0
  furthest := i.furthest
  chunk_eq := rfl
  coff_lt := zero_lt_or_nil _

/-- `vm_input_pos`. -/
def vmInputPos (i : VmInput) : Nat :=
  i.base + i.coff

/-- The furthest tracker after a read at the current position. -/
def inputTouch (i : VmInput) : VmInput :=
  { i with furthest := max i.furthest (vmInputPos i) }

/-- `input_peek`: the tracker follows the position even at the end. -/
def inputPeek (i : VmInput) : VmInput × Option UInt8 :=
  (inputTouch i, i.chunk[i.coff]?)

/-- `input_advance`. -/
def inputAdvance (i : VmInput) (n : Nat) : VmInput × Bool :=
  (if h : i.coff + n < i.chunk.length then { i with coff := i.coff + n, coff_lt := .inl h }
    else inputRefill i (vmInputPos i + n),
    vmInputPos i + n ≤ i.data.length)

/-- `input_seek_to`. -/
def inputSeekTo (i : VmInput) (pos : Nat) : VmInput :=
  if h : pos < i.base + i.chunk.length ∧ i.base ≤ pos then
    { i with coff := pos - i.base, coff_lt := .inl (by omega) }
  else inputRefill i pos

/-- The loop of `input_span`; the first argument bounds the number of refills. -/
def inputSpanLoop (set : VmCharset) : Nat → VmInput → VmInput
  | 0, i => i
  | fuel + 1, i =>
      let n := ((i.chunk.drop i.coff).takeWhile fun b => set.has b).length
      let furthest := max i.furthest (i.base + (i.coff + n))
      if h : i.coff + n < i.chunk.length then
        { i with coff := i.coff + n, furthest := furthest, coff_lt := .inl h }
      else if i.chunk = [] then { i with furthest := furthest }
      else inputSpanLoop set fuel (inputRefill { i with furthest := furthest } (i.base + (i.coff + n)))

/-- `input_span`. -/
def inputSpan (i : VmInput) (set : VmCharset) : VmInput :=
  inputSpanLoop set (i.data.length + 2) i

@[simp] theorem vmInputPos_new (data : List UInt8) : vmInputPos (vmInputNew data) = 0 :=
  rfl

@[simp] theorem vmInputNew_data (data : List UInt8) : (vmInputNew data).data = data :=
  rfl

@[simp] theorem inputRefill_pos (i : VmInput) (pos : Nat) :
    vmInputPos (inputRefill i pos) = pos :=
  rfl

@[simp] theorem inputRefill_data (i : VmInput) (pos : Nat) : (inputRefill i pos).data = i.data :=
  rfl

@[simp] theorem inputRefill_furthest (i : VmInput) (pos : Nat) :
    (inputRefill i pos).furthest = i.furthest :=
  rfl

@[simp] theorem inputPeek_pos (i : VmInput) : vmInputPos (inputPeek i).1 = vmInputPos i :=
  rfl

@[simp] theorem inputPeek_data (i : VmInput) : (inputPeek i).1.data = i.data :=
  rfl

@[simp] theorem inputPeek_furthest (i : VmInput) :
    (inputPeek i).1.furthest = max i.furthest (vmInputPos i) :=
  rfl

theorem chunk_drop (i : VmInput) :
    i.chunk.drop i.coff = ((i.data.drop (vmInputPos i)).take (inputChunk - i.coff)) := by
  rw [i.chunk_eq, List.drop_take, List.drop_drop, vmInputPos]

theorem coff_lt_inputChunk (i : VmInput) : i.coff < inputChunk := by
  have hlen : i.chunk.length ≤ inputChunk := by
    rw [i.chunk_eq]
    exact List.length_take_le _ _
  have hpos : 0 < inputChunk := by decide
  rcases i.coff_lt with h | ⟨h, -⟩ <;> omega

@[simp] theorem inputPeek_byte (i : VmInput) : (inputPeek i).2 = i.data[vmInputPos i]? := by
  have hcoff := coff_lt_inputChunk i
  simp only [inputPeek]
  rw [i.chunk_eq, List.getElem?_take_of_lt hcoff, List.getElem?_drop, vmInputPos]

@[simp] theorem inputAdvance_pos (i : VmInput) (n : Nat) :
    vmInputPos (inputAdvance i n).1 = vmInputPos i + n := by
  simp only [inputAdvance]
  split
  · simp only [vmInputPos]
    omega
  · rfl

@[simp] theorem inputAdvance_data (i : VmInput) (n : Nat) : (inputAdvance i n).1.data = i.data := by
  simp only [inputAdvance]
  split <;> rfl

@[simp] theorem inputAdvance_furthest (i : VmInput) (n : Nat) :
    (inputAdvance i n).1.furthest = i.furthest := by
  simp only [inputAdvance]
  split <;> rfl

@[simp] theorem inputAdvance_ok (i : VmInput) (n : Nat) :
    (inputAdvance i n).2 = decide (vmInputPos i + n ≤ i.data.length) :=
  rfl

@[simp] theorem inputSeekTo_pos (i : VmInput) (pos : Nat) :
    vmInputPos (inputSeekTo i pos) = pos := by
  unfold inputSeekTo
  split
  · simp only [vmInputPos]
    omega
  · rfl

@[simp] theorem inputSeekTo_data (i : VmInput) (pos : Nat) : (inputSeekTo i pos).data = i.data := by
  unfold inputSeekTo
  split <;> rfl

@[simp] theorem inputSeekTo_furthest (i : VmInput) (pos : Nat) :
    (inputSeekTo i pos).furthest = i.furthest := by
  unfold inputSeekTo
  split <;> rfl

/-- The number of bytes of a set at a position of the subject. -/
def spanLength (data : List UInt8) (set : VmCharset) (pos : Nat) : Nat :=
  ((data.drop pos).takeWhile fun b => set.has b).length

theorem spanLength_eq_zero {data : List UInt8} (set : VmCharset) {pos : Nat}
    (h : data.length ≤ pos) : spanLength data set pos = 0 := by
  rw [spanLength, List.drop_eq_nil_of_le h]
  rfl

theorem spanLength_chunk (i : VmInput) (set : VmCharset) :
    let n := ((i.chunk.drop i.coff).takeWhile fun b => set.has b).length
    (i.coff + n < i.chunk.length → spanLength i.data set (vmInputPos i) = n) ∧
      (¬i.coff + n < i.chunk.length → spanLength i.data set (vmInputPos i) =
        n + spanLength i.data set (vmInputPos i + n)) := by
  intro n
  have hsplit : i.data.drop (vmInputPos i) =
      i.chunk.drop i.coff ++ i.data.drop (vmInputPos i + (i.chunk.drop i.coff).length) := by
    rw [← List.drop_drop, chunk_drop i]
    conv_lhs => rw [← List.take_append_drop (inputChunk - i.coff) (i.data.drop (vmInputPos i))]
    congr 1
    rw [List.length_take]
    rcases Nat.le_total (inputChunk - i.coff) (i.data.drop (vmInputPos i)).length with h | h
    · rw [Nat.min_eq_left h]
    · rw [Nat.min_eq_right h, List.drop_length, List.drop_eq_nil_of_le h]
  have hlen : (i.chunk.drop i.coff).length = i.chunk.length - i.coff := List.length_drop
  have hle : n ≤ (i.chunk.drop i.coff).length :=
    (List.takeWhile_prefix fun b => set.has b).length_le
  constructor
  · intro hlt
    rw [spanLength, hsplit, List.takeWhile_append, if_neg (by omega)]
  · intro hge
    have hfull : n = (i.chunk.drop i.coff).length := by
      rcases i.coff_lt with h | ⟨h, hnil⟩
      · omega
      · simp only [hnil, List.drop_nil, List.length_nil] at hle ⊢
        omega
    rw [spanLength, spanLength, hfull]
    conv_lhs => rw [hsplit]
    rw [List.takeWhile_append, if_pos hfull, List.length_append]

theorem length_le_of_chunk_nil (i : VmInput) (h : i.chunk = []) :
    i.data.length ≤ vmInputPos i := by
  have hnil := chunk_drop i
  have hcoff := coff_lt_inputChunk i
  rw [h, List.drop_nil] at hnil
  rcases List.take_eq_nil_iff.mp hnil.symm with hzero | hdrop
  · omega
  · exact List.drop_eq_nil_iff.mp hdrop

theorem inputSpanLoop_spec (set : VmCharset) (fuel : Nat) (i : VmInput) (hpos : 0 < fuel)
    (hfuel : i.data.length < fuel + vmInputPos i) :
    vmInputPos (inputSpanLoop set fuel i) =
        vmInputPos i + spanLength i.data set (vmInputPos i) ∧
      (inputSpanLoop set fuel i).data = i.data ∧
      (inputSpanLoop set fuel i).furthest =
        max i.furthest (vmInputPos i + spanLength i.data set (vmInputPos i)) := by
  induction fuel generalizing i with
  | zero => omega
  | succ fuel ih =>
      obtain ⟨hin, hout⟩ := spanLength_chunk i set
      have hassoc : ∀ n, i.base + (i.coff + n) = vmInputPos i + n := by
        intro n
        rw [vmInputPos]
        omega
      simp only [inputSpanLoop]
      set n := ((i.chunk.drop i.coff).takeWhile fun b => set.has b).length
      set furthest := max i.furthest (i.base + (i.coff + n))
      split
      · next hlt =>
          rw [hin hlt, ← hassoc]
          exact ⟨rfl, rfl, rfl⟩
      · next hge =>
          split
          · next hnil =>
              have hzero := spanLength_eq_zero set (length_le_of_chunk_nil i hnil)
              have hn : n = 0 := by
                have := hout hge
                omega
              have hfurthest : furthest = max i.furthest (vmInputPos i + 0) := by
                simp only [furthest, hn, hassoc]
              rw [hzero]
              exact ⟨rfl, rfl, hfurthest⟩
          · next hne =>
              have hlen : i.coff < i.chunk.length := by
                rcases i.coff_lt with h | ⟨-, hnil⟩
                · exact h
                · exact absurd hnil hne
              have hlt : vmInputPos i < i.data.length := by
                have := congrArg List.length i.chunk_eq
                rw [List.length_take, List.length_drop] at this
                rw [vmInputPos]
                omega
              have hrec := ih (inputRefill { i with furthest := furthest } (i.base + (i.coff + n)))
                (by omega) (by
                  simp only [inputRefill_data, inputRefill_pos, hassoc]
                  omega)
              simp only [inputRefill_data, inputRefill_pos, inputRefill_furthest, hassoc] at hrec
              have hfurthest : furthest = max i.furthest (vmInputPos i + n) := by
                simp only [furthest, hassoc]
              have hspan : spanLength i.data set (vmInputPos i) =
                n + spanLength i.data set (vmInputPos i + n) := hout hge
              simp only [hassoc]
              rw [hrec.1, hrec.2.1, hrec.2.2]
              refine ⟨by omega, rfl, by omega⟩

@[simp] theorem inputSpan_pos (i : VmInput) (set : VmCharset) :
    vmInputPos (inputSpan i set) = vmInputPos i + spanLength i.data set (vmInputPos i) :=
  (inputSpanLoop_spec set _ i (by omega) (by omega)).1

@[simp] theorem inputSpan_data (i : VmInput) (set : VmCharset) :
    (inputSpan i set).data = i.data :=
  (inputSpanLoop_spec set _ i (by omega) (by omega)).2.1

@[simp] theorem inputSpan_furthest (i : VmInput) (set : VmCharset) :
    (inputSpan i set).furthest =
      max i.furthest (vmInputPos i + spanLength i.data set (vmInputPos i)) :=
  (inputSpanLoop_spec set _ i (by omega) (by omega)).2.2

end Libpeg.Input
