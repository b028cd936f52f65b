import Libpeg.CompileReturns

namespace Libpeg.Prettify

open Libpeg.Charset Libpeg.Code Libpeg.Pattern
open Libpeg.CompileTotal Libpeg.CompileReturns

def text (s : String) : List UInt8 :=
  s.toUTF8.toList

def hexDigit (n : Nat) : UInt8 :=
  UInt8.ofNat (if n < 10 then 48 + n else 87 + n)

def escaped (c : UInt8) : List UInt8 :=
  if c = 0x22 ∨ c = 0x5c then [0x5c, c]
  else if 0x20 ≤ c ∧ c < 0x7f then [c]
  else text "\\x" ++ [hexDigit (c.toNat / 16), hexDigit (c.toNat % 16)]

/-- The body of the loop of `set_string_inner`; the state is `in_range` and the
buffer. -/
def setStringByte (set : VmCharset) (st : Bool × List UInt8) (c : Nat) : Bool × List UInt8 :=
  let (inRange, b) := st
  let has := set.has (UInt8.ofNat c)
  if has ∧ c = 255 then (inRange, b ++ [UInt8.ofNat c])
  else if has ∧ ¬inRange then
    (true, if set.has (UInt8.ofNat (c + 1)) then b ++ [UInt8.ofNat c] ++ text ".." else b)
  else if ¬has ∧ inRange then (false, b ++ [UInt8.ofNat (c - 1)] ++ text ",")
  else (inRange, b)

/-- `set_string_inner`. A comma at the end is removed. -/
def setStringInner (set : VmCharset) (b : List UInt8) : List UInt8 :=
  let b := ((List.range 256).foldl (setStringByte set) (false, b)).2
  if b.getLast? = some 0x2c then b.dropLast else b

/-- `set_string`. -/
def setString (set : VmCharset) (b : List UInt8) : List UInt8 :=
  setStringInner set (b ++ text "\x7b") ++ text "\x7d"

mutual

/-- `prettify`, which appends to the buffer. The first argument bounds the
recursion; `none` when it does not suffice. -/
def prettify : Nat → Pat → List UInt8 → Option (List UInt8)
  | 0, _, _ => none
  | fuel + 1, p, b => do
      let p ← getPat fuel p
      prettifyRead fuel p b

/-- The cases of `prettify`. A missing recovery pattern is printed as `nil`. -/
def prettifyRead : Nat → Pat → List UInt8 → Option (List UInt8)
  | 0, _, _ => none
  | _ + 1, .literal str, b => some (b ++ text "\"" ++ str.flatMap escaped ++ text "\"")
  | _ + 1, .cls set, b => some (setString set (b ++ text "[") ++ text "]")
  | _ + 1, .dot _, b => some (b ++ text ".")
  | _ + 1, .empty, b => some (b ++ text "\"\"")
  | fuel + 1, .alt l r, b => do
      let b ← prettify fuel l (b ++ text "(")
      let b ← prettify fuel r (b ++ text " / ")
      return b ++ text ")"
  | fuel + 1, .seq l r, b => do
      let b ← prettify fuel l (b ++ text "(")
      let b ← prettify fuel r (b ++ text " ")
      return b ++ text ")"
  | fuel + 1, .star p, b => return (← prettify fuel p b) ++ text "*"
  | fuel + 1, .plus p, b => return (← prettify fuel p b) ++ text "+"
  | fuel + 1, .optional p, b => return (← prettify fuel p b) ++ text "?"
  | fuel + 1, .not p, b => prettify fuel p (b ++ text "!")
  | fuel + 1, .and p, b => prettify fuel p (b ++ text "&")
  | fuel + 1, .cap p _, b => return (← prettify fuel p (b ++ text "\x7b ")) ++ text " \x7d"
  | fuel + 1, .memo p _, b =>
      return (← prettify fuel p (b ++ text "\x7b\x7b ")) ++ text " \x7d\x7d"
  | fuel + 1, .search p, b => return (← prettify fuel p (b ++ text "search(")) ++ text ")"
  | fuel + 1, .check p _ _ _, b => return (← prettify fuel p (b ++ text "check(")) ++ text ")"
  | _ + 1, .error msg, b => some (b ++ text "err(" ++ text msg ++ text ", nil)")
  | fuel + 1, .errorRecover msg p, b =>
      return (← prettify fuel p (b ++ text "err(" ++ text msg ++ text ", ")) ++ text ")"
  | _ + 1, .emptyop op, b => some (b ++ text "empty(" ++ text (toString op.toNat) ++ text ")")
  | fuel + 1, .grammar start defs, b => do
      let defs ← grammarInline fuel defs
      prettifyDefs fuel defs (b ++ text start ++ text "\n")
  | fuel + 1, .inlined _ p, b => prettify fuel p b
  | _ + 1, .nonterm name, b => some (b ++ text name)
  | _ + 1, .repeated _ _, b => some (b ++ text "<invalid>")

def prettifyDefs : Nat → Defs → List UInt8 → Option (List UInt8)
  | 0, _, _ => none
  | _ + 1, .nil, b => some b
  | fuel + 1, .cons name p rest, b => do
      let b ← prettify fuel p (b ++ text name ++ text " <- ")
      prettifyDefs fuel rest (b ++ text "\n")

end

def Printed (p : Pat) : Prop :=
  ∀ b, ∃ out, Settles (fun k => prettify k p b) out

theorem printed_defs (d : Defs) (hd : ∀ i p, defAt d i = some p → Printed p) (b : List UInt8) :
    ∃ out, Settles (fun k => prettifyDefs k d b) out := by
  cases d with
  | nil => exact ⟨b, Settles.of_succ (settles_some b) fun k => rfl⟩
  | cons name p rest =>
      obtain ⟨b₁, hrun₁⟩ := hd 0 p rfl (b ++ text name ++ text " <- ")
      obtain ⟨b₂, hrun₂⟩ := printed_defs rest (fun i q hq => hd (i + 1) q hq) (b₁ ++ text "\n")
      exact ⟨b₂, Settles.of_succ (hrun₁.bind hrun₂) fun k => rfl⟩

section Cases

variable {p q l r : Pat} {b : List UInt8}

theorem printed_wrap (hp : Printed p) (before post : List UInt8)
    (heq : ∀ k, prettifyRead (k + 1) q b = (prettify k p before).bind fun b => some (b ++ post)) :
    ∃ out, Settles (fun k => prettifyRead k q b) out := by
  obtain ⟨out, hout⟩ := hp before
  exact ⟨out ++ post, Settles.of_succ (hout.bind (settles_some _)) heq⟩

theorem printed_pair (hl : Printed l) (hr : Printed r) (before mid post : List UInt8)
    (heq : ∀ k, prettifyRead (k + 1) q b = (prettify k l before).bind fun b =>
      (prettify k r (b ++ mid)).bind fun b => some (b ++ post)) :
    ∃ out, Settles (fun k => prettifyRead k q b) out := by
  obtain ⟨b₁, hrun₁⟩ := hl before
  obtain ⟨b₂, hrun₂⟩ := hr (b₁ ++ mid)
  exact ⟨b₂ ++ post, Settles.of_succ (hrun₁.bind (hrun₂.bind (settles_some _))) heq⟩

theorem printed_last (hp : Printed p) (before : List UInt8)
    (heq : ∀ k, prettifyRead (k + 1) q b = prettify k p before) :
    ∃ out, Settles (fun k => prettifyRead k q b) out := by
  obtain ⟨out, hout⟩ := hp before
  exact ⟨out, Settles.of_succ hout heq⟩

theorem printed_leaf {out : List UInt8} (heq : ∀ k, prettifyRead (k + 1) q b = some out) :
    ∃ out, Settles (fun k => prettifyRead k q b) out :=
  ⟨out, Settles.of_succ (settles_some out) heq⟩

/-- The cases of the printer return when it returns on all lighter patterns. -/
theorem prettifyRead_returns (ih : ∀ q, Lighter q p → Printed q) (b : List UInt8) :
    ∃ out, Settles (fun k => prettifyRead k p b) out := by
  cases p with
  | alt l r =>
      obtain ⟨hl, hr⟩ := lighter_alt l r
      exact printed_pair (ih l hl) (ih r hr) (b ++ text "(") (text " / ") (text ")") fun _ => rfl
  | seq l r =>
      obtain ⟨hl, hr⟩ := lighter_seq l r
      exact printed_pair (ih l hl) (ih r hr) (b ++ text "(") (text " ") (text ")") fun _ => rfl
  | star p =>
      exact printed_wrap (ih p (lighter_operand rfl rfl rfl)) b (text "*") fun _ => rfl
  | plus p =>
      exact printed_wrap (ih p (lighter_operand rfl rfl rfl)) b (text "+") fun _ => rfl
  | optional p =>
      exact printed_wrap (ih p (lighter_operand rfl rfl rfl)) b (text "?") fun _ => rfl
  | not p =>
      exact printed_last (ih p (lighter_operand rfl rfl rfl)) (b ++ text "!") fun _ => rfl
  | and p =>
      exact printed_last (ih p (lighter_operand rfl rfl rfl)) (b ++ text "&") fun _ => rfl
  | cap p id =>
      exact printed_wrap (ih p (lighter_operand rfl rfl rfl)) (b ++ text "\x7b ")
        (text " \x7d") fun _ => rfl
  | memo p id =>
      exact printed_wrap (ih p (lighter_operand rfl rfl rfl)) (b ++ text "\x7b\x7b ")
        (text " \x7d\x7d") fun _ => rfl
  | search p =>
      exact printed_wrap (ih p (lighter_operand rfl rfl rfl)) (b ++ text "search(")
        (text ")") fun _ => rfl
  | check p fn id flag =>
      exact printed_wrap (ih p (lighter_operand rfl rfl rfl)) (b ++ text "check(")
        (text ")") fun _ => rfl
  | errorRecover msg p =>
      exact printed_wrap (ih p (lighter_operand rfl rfl rfl))
        (b ++ text "err(" ++ text msg ++ text ", ") (text ")") fun _ => rfl
  | inlined name p =>
      exact printed_last (ih p (lighter_operand rfl rfl rfl)) b fun _ => rfl
  | grammar start defs =>
      obtain ⟨g', hin, hdepth, hcases⟩ := grammarInline_returns defs
      obtain ⟨out, hout⟩ := printed_defs g'
        (fun i q hq => ih q (lighter_of_inlined hdepth hcases hq)) (b ++ text start ++ text "\n")
      exact ⟨out, Settles.of_succ (hin.bind hout) fun _ => rfl⟩
  | _ => exact printed_leaf fun _ => rfl

end Cases

theorem prettify_returns (p : Pat) : Printed p := by
  induction p using lighter_wf.induction with
  | h p ih =>
      intro b
      obtain ⟨q, hq, hle⟩ := getPat_returns p
      obtain ⟨out, hout⟩ := prettifyRead_returns (fun r hr => ih r (hr.of_noHeavier hle)) b
      exact ⟨out, Settles.of_succ (hq.bind hout) fun _ => rfl⟩

end Libpeg.Prettify
