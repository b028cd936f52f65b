import Mathlib.Data.BitVec

namespace Libpeg.Charset

/-- A set of bytes, as a 256-bit bitmap: bit `c` says whether byte `c` is in
the set. -/
structure VmCharset where
  bits : BitVec 256
  deriving DecidableEq

/-- Membership, `vm_charset_has`. -/
def VmCharset.has (s : VmCharset) (c : UInt8) : Bool :=
  s.bits.getLsbD c.toNat

/-- The bitmap with the single bit `c`. -/
def bit (c : UInt8) : BitVec 256 :=
  BitVec.twoPow 256 c.toNat

/-- `vm_charset_set`: turn one byte on or off. -/
def VmCharset.set (s : VmCharset) (c : UInt8) (on : Bool) : VmCharset :=
  if on then ⟨s.bits ||| bit c⟩ else ⟨s.bits &&& ~~~ bit c⟩

def VmCharset.none : VmCharset :=
  ⟨0#256⟩

/-- `vm_charset_fill`: the set of the listed bytes. -/
def VmCharset.fill (chars : List UInt8) : VmCharset :=
  chars.foldl (fun s c => s.set c true) VmCharset.none

/-- `vm_charset_range`: every byte between `lo` and `hi`, both included. -/
def VmCharset.range (lo hi : UInt8) : VmCharset :=
  VmCharset.fill ((List.range' lo.toNat (hi.toNat + 1 - lo.toNat)).map UInt8.ofNat)

/-- `vm_charset_negate`. -/
def VmCharset.negate (s : VmCharset) : VmCharset :=
  ⟨~~~ s.bits⟩

/-- `vm_charset_sub`: the difference of two sets. -/
def VmCharset.sub (a b : VmCharset) : VmCharset :=
  ⟨a.bits &&& ~~~ b.bits⟩

/-- `vm_charset_union`. -/
def VmCharset.union (a b : VmCharset) : VmCharset :=
  ⟨a.bits ||| b.bits⟩

/-- `vm_charset_count`: the number of bytes in the set. -/
def VmCharset.count (s : VmCharset) : Nat :=
  (List.range 256).countP fun c => s.bits.getLsbD c

@[simp] theorem has_none (c : UInt8) : VmCharset.none.has c = false := by
  simp [VmCharset.none, VmCharset.has]

@[simp] theorem has_negate (s : VmCharset) (c : UInt8) :
    s.negate.has c = !s.has c := by
  have hc : c.toNat < 256 := c.toNat_lt
  simp [VmCharset.negate, VmCharset.has, hc]

@[simp] theorem has_union (a b : VmCharset) (c : UInt8) :
    (a.union b).has c = (a.has c || b.has c) := by
  simp [VmCharset.union, VmCharset.has]

@[simp] theorem has_sub (a b : VmCharset) (c : UInt8) :
    (a.sub b).has c = (a.has c && !b.has c) := by
  have hc : c.toNat < 256 := c.toNat_lt
  simp [VmCharset.sub, VmCharset.has, hc]

theorem has_set_true (s : VmCharset) (d c : UInt8) :
    (s.set d true).has c = (s.has c || decide (c = d)) := by
  have hc : c.toNat < 256 := c.toNat_lt
  have hd : d.toNat < 256 := d.toNat_lt
  have heq : d.toNat = c.toNat ↔ c = d :=
    ⟨fun h => (UInt8.toNat_inj.mp h).symm, fun h => by rw [h]⟩
  simp [VmCharset.set, VmCharset.has, bit, BitVec.getLsbD_twoPow, hd, heq]

theorem has_fill_singleton (d c : UInt8) :
    (VmCharset.fill [d]).has c = decide (c = d) := by
  simp [VmCharset.fill, has_set_true]

end Libpeg.Charset
