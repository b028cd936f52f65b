import Libpeg.HeapInlining
import Libpeg.Prettify

namespace Libpeg.HeapReading

open Relation
open Libpeg.Pattern Libpeg.CompileTotal Libpeg.CompileReturns Libpeg.Prettify
open Libpeg.PatternHeap Libpeg.HeapInlining Libpeg.RankedGraph

mutual

/-- The pattern stands at an address; a definition that several non-terminals refer
to is repeated in each of them. -/
def Reads (h : PatHeap) : Pat → Nat → Prop
  | .alt l r, a => ∃ b c, node h a = .alt b c ∧ Reads h l b ∧ Reads h r c
  | .seq l r, a => ∃ b c, node h a = .seq b c ∧ Reads h l b ∧ Reads h r c
  | .star p, a => ∃ b, node h a = .star b ∧ Reads h p b
  | .plus p, a => ∃ b, node h a = .plus b ∧ Reads h p b
  | .optional p, a => ∃ b, node h a = .optional b ∧ Reads h p b
  | .not p, a => ∃ b, node h a = .not b ∧ Reads h p b
  | .and p, a => ∃ b, node h a = .and b ∧ Reads h p b
  | .cap p id, a => ∃ b, node h a = .cap b id ∧ Reads h p b
  | .memo p id, a => ∃ b, node h a = .memo b id ∧ Reads h p b
  | .check p fn id flag, a => ∃ b, node h a = .check b fn id flag ∧ Reads h p b
  | .grammar start defs, a => ∃ ds, node h a = .grammar start ds ∧ ReadsDefs h defs ds
  | .search p, a => ∃ b, node h a = .search b ∧ Reads h p b
  | .repeated p n, a => ∃ b, node h a = .repeated b n ∧ Reads h p b
  | .cls set, a => node h a = .cls set
  | .literal str, a => node h a = .literal str
  | .nonterm name, a => node h a = .nonterm name none
  | .inlined name p, a => ∃ b, node h a = .nonterm name (some b) ∧ Reads h p b
  | .dot n, a => node h a = .dot n
  | .error msg, a => node h a = .error msg none
  | .errorRecover msg p, a => ∃ b, node h a = .error msg (some b) ∧ Reads h p b
  | .emptyop op, a => node h a = .emptyop op
  | .empty, a => node h a = .empty

def ReadsDefs (h : PatHeap) : Defs → List (String × Nat) → Prop
  | .nil, ds => ds = []
  | .cons name p rest, ds => ∃ b ds', ds = (name, b) :: ds' ∧ Reads h p b ∧ ReadsDefs h rest ds'

end

section Reading

variable {h h' : PatHeap} {roots : List Nat} {g : Nat} {start : String}
  {defs : List (String × Nat)}

theorem exists_readsDefs (hread : ∀ b ∈ defs.map Prod.snd, ∃ p, Reads h p b) :
    ∃ d, ReadsDefs h d defs := by
  induction defs with
  | nil => exact ⟨.nil, rfl⟩
  | cons d defs ih =>
      obtain ⟨name, b⟩ := d
      obtain ⟨p, hp⟩ := hread b List.mem_cons_self
      obtain ⟨rest, hrest⟩ := ih fun c hc => hread c (List.mem_cons_of_mem b hc)
      exact ⟨.cons name p rest, b, defs, rfl, hp, hrest⟩

theorem exists_reads {r : Nat → Nat} (hr : Ranked (PointsTo h) r) (a : Nat) : ∃ p, Reads h p a := by
  induction hrank : r a using Nat.strong_induction_on generalizing a with
  | h rank ih =>
      subst hrank
      have hread : ∀ b, b ∈ pointers (node h a) → ∃ p, Reads h p b :=
        fun b hb => ih (r b) (hr a b hb) b rfl
      cases hn : node h a with
      | alt b c =>
          rw [hn] at hread
          obtain ⟨l, hl⟩ := hread b (by simp [pointers, subpatterns])
          obtain ⟨r, hr⟩ := hread c (by simp [pointers, subpatterns])
          exact ⟨.alt l r, b, c, hn, hl, hr⟩
      | seq b c =>
          rw [hn] at hread
          obtain ⟨l, hl⟩ := hread b (by simp [pointers, subpatterns])
          obtain ⟨r, hr⟩ := hread c (by simp [pointers, subpatterns])
          exact ⟨.seq l r, b, c, hn, hl, hr⟩
      | star b =>
          obtain ⟨p, hp⟩ := hread b (by simp [hn, pointers, subpatterns])
          exact ⟨.star p, b, hn, hp⟩
      | plus b =>
          obtain ⟨p, hp⟩ := hread b (by simp [hn, pointers, subpatterns])
          exact ⟨.plus p, b, hn, hp⟩
      | optional b =>
          obtain ⟨p, hp⟩ := hread b (by simp [hn, pointers, subpatterns])
          exact ⟨.optional p, b, hn, hp⟩
      | not b =>
          obtain ⟨p, hp⟩ := hread b (by simp [hn, pointers, subpatterns])
          exact ⟨.not p, b, hn, hp⟩
      | and b =>
          obtain ⟨p, hp⟩ := hread b (by simp [hn, pointers, subpatterns])
          exact ⟨.and p, b, hn, hp⟩
      | cap b id =>
          obtain ⟨p, hp⟩ := hread b (by simp [hn, pointers, subpatterns])
          exact ⟨.cap p id, b, hn, hp⟩
      | memo b id =>
          obtain ⟨p, hp⟩ := hread b (by simp [hn, pointers, subpatterns])
          exact ⟨.memo p id, b, hn, hp⟩
      | check b fn id flag =>
          obtain ⟨p, hp⟩ := hread b (by simp [hn, pointers, subpatterns])
          exact ⟨.check p fn id flag, b, hn, hp⟩
      | search b =>
          obtain ⟨p, hp⟩ := hread b (by simp [hn, pointers, subpatterns])
          exact ⟨.search p, b, hn, hp⟩
      | repeated b n =>
          obtain ⟨p, hp⟩ := hread b (by simp [hn, pointers, subpatterns])
          exact ⟨.repeated p n, b, hn, hp⟩
      | grammar start defs =>
          obtain ⟨d, hd⟩ := exists_readsDefs fun b hb => hread b (by rw [hn]; exact hb)
          exact ⟨.grammar start d, defs, hn, hd⟩
      | nonterm name inlined =>
          cases inlined with
          | none => exact ⟨.nonterm name, hn⟩
          | some b =>
              obtain ⟨p, hp⟩ := hread b (by simp [hn, pointers])
              exact ⟨.inlined name p, b, hn, hp⟩
      | error msg recover =>
          cases recover with
          | none => exact ⟨.error msg, hn⟩
          | some b =>
              obtain ⟨p, hp⟩ := hread b (by simp [hn, pointers, subpatterns])
              exact ⟨.errorRecover msg p, b, hn, hp⟩
      | cls set => exact ⟨.cls set, hn⟩
      | literal str => exact ⟨.literal str, hn⟩
      | dot n => exact ⟨.dot n, hn⟩
      | emptyop op => exact ⟨.emptyop op, hn⟩
      | empty => exact ⟨.empty, hn⟩

theorem walkPat_returns {σ : Type} {r : Nat → Nat} (hr : Ranked (PointsTo h) r)
    (fn : Nat → σ → σ) (a : Nat) (ud : σ) :
    ∃ ud', Settles (fun k => walkPat (fun _ => h) true fn k a ud) ud' := by
  have hmarks : Marks (fun _ => h) fn (fun a => walked true (node h a)) (fun _ => True)
      (fun _ => True) (fun _ _ => True) :=
    ⟨fun _ _ _ _ => trivial, fun _ _ _ _ => trivial, fun _ _ _ _ _ _ => trivial,
      fun _ _ _ _ _ => rfl, fun _ _ _ _ => trivial⟩
  obtain ⟨ud', hrun, -⟩ := walkPat_marks hmarks
    (hr.mono fun a b hab => WalksTo.pointsTo hab.2) (r a + 1) a ud (Nat.lt_succ_self _) trivial trivial
  exact ⟨ud', Settles.of_eq (fun k => walkPat_below k a ud) hrun⟩

/-- Inlining into a grammar anywhere in memory returns and leaves no cycle of
sub-patterns and inlined definitions. So afterwards walks return from every address,
and so do `get_pat`, the compiler and the printer on the pattern that stands there. -/
theorem inlining_ends (hb : Built h roots) (hg : node h g = .grammar start defs) :
    ∃ h', Settles (fun k => grammarInline k g h) h' ∧ Built h' roots ∧
      (∀ a, ¬TransGen (PointsTo h') a a) ∧
      (∀ (σ : Type) (fn : Nat → σ → σ) a ud,
        ∃ ud', Settles (fun k => walkPat (fun _ => h') true fn k a ud) ud') ∧
      ∀ a, ∃ p, Reads h' p a ∧ (∃ q, Settles (fun k => getPat k p) q) ∧
        (∀ ctx, ∃ out, Settles (fun k => Compile.compilePat k ctx p) out) ∧
        ∀ b, ∃ out, Settles (fun k => prettify k p b) out := by
  obtain ⟨h', hsettles, hsound⟩ := grammarInline_settles (built_sound hb) hg
  obtain ⟨r, hr⟩ := hsound.ranked
  have hrun : ∃ fuel, grammarInline fuel g h = some h' := by
    obtain ⟨n, hn⟩ := hsettles
    exact ⟨n, hn n le_rfl⟩
  obtain ⟨fuel, hfuel⟩ := hrun
  refine ⟨h', hsettles, .inline hb hg hfuel, hr.acyclic, fun σ => walkPat_returns hr, fun a => ?_⟩
  obtain ⟨p, hp⟩ := exists_reads hr a
  obtain ⟨q, hq, -⟩ := getPat_returns p
  exact ⟨p, hp, ⟨q, hq⟩, compilePat_returns p, prettify_returns p⟩

/-- `S <- A B`, `A <- 'a'`, `B <- 'b' S / 'c'`: the definition of `A` is a leaf, those
of `S` and `B` refer to each other. -/
def mutualHeap : PatHeap :=
  [.nonterm "A" none, .nonterm "B" none, .seq 0 1, .literal [97], .literal [98], .nonterm "S" none,
    .seq 4 5, .literal [99], .alt 6 7, .grammar "S" [("S", 2), ("A", 3), ("B", 8)]]

theorem mutualHeap_built : Built mutualHeap [9] := by
  have h0 : Built [.nonterm "A" none] [0] := Built.new .nil rfl (by simp [subpatterns])
  have h1 : Built (mutualHeap.take 2) [1, 0] := Built.new h0 rfl (by simp [subpatterns])
  have h2 : Built (mutualHeap.take 3) [2] := Built.new h1 rfl (by simp [subpatterns])
  have h3 : Built (mutualHeap.take 4) [3, 2] := Built.new h2 rfl (by simp [subpatterns])
  have h4 : Built (mutualHeap.take 5) [4, 3, 2] := Built.new h3 rfl (by simp [subpatterns])
  have h5 : Built (mutualHeap.take 6) [5, 4, 3, 2] := Built.new h4 rfl (by simp [subpatterns])
  have h6 : Built (mutualHeap.take 7) [6, 3, 2] := Built.new h5 rfl (by simp [subpatterns])
  have h7 : Built (mutualHeap.take 8) [7, 6, 3, 2] := Built.new h6 rfl (by simp [subpatterns])
  have h8 : Built (mutualHeap.take 9) [8, 3, 2] := Built.new h7 rfl (by simp [subpatterns])
  exact Built.new h8 rfl (by simp [subpatterns])

theorem inlining_ends_mutual : ∃ h', Settles (fun k => grammarInline k 9 mutualHeap) h' ∧
    ∀ a, ¬TransGen (PointsTo h') a a := by
  have hg : node mutualHeap 9 = .grammar "S" [("S", 2), ("A", 3), ("B", 8)] := rfl
  obtain ⟨h', hsettles, -, hacyclic, -⟩ := inlining_ends mutualHeap_built hg
  exact ⟨h', hsettles, hacyclic⟩

example : grammarInline 9 9 mutualHeap = some (mutualHeap.set 0 (.nonterm "A" (some 3))) :=
  rfl

end Reading

end Libpeg.HeapReading
