/-!
# One pass of the activation program

A pass turns the value held in a register into a 24-bit value.  It sets one bit
of the old value, reads the result byte by byte from the low end, and absorbs
each byte into an accumulator that starts from a fixed constant.

The words wrap as 32-bit words do; only the product of the multiplication is
wider.  The law that the later theory rests on is `toNat_absorb`: over the
naturals an absorption is one addition and one multiplication modulo
`stateSpace`.
-/

namespace HashOrbit

def seedFlag : UInt32 := 0x10000

def hashInit : UInt32 := 8586263

def multiplier : UInt32 := 65899

def valueMask : UInt32 := 0xFFFFFF

def byteMask : UInt32 := 0xFF

def stateSpace : Nat := valueMask.toNat + 1

/--
The masked sum times the multiplier.  The sum is below 2^24 and the multiplier
below 2^17, so the product needs 41 bits of the 64.
-/
def scaled (acc byte : UInt32) : UInt64 :=
  ((acc + byte) &&& valueMask).toUInt64 * multiplier.toUInt64

def absorb (acc byte : UInt32) : UInt32 :=
  (scaled acc byte &&& valueMask.toUInt64).toUInt32

theorem and_valueMask (n : Nat) : n &&& valueMask.toNat = n % stateSpace :=
  Nat.and_two_pow_sub_one_eq_mod n 24

theorem mod_stateSpace_lt (n : Nat) : n % stateSpace < stateSpace :=
  Nat.mod_lt n (Nat.succ_pos valueMask.toNat)

theorem toNat_masked_sum (acc byte : UInt32) :
    ((acc + byte) &&& valueMask).toNat =
      (acc.toNat + byte.toNat) % stateSpace := by
  have hdvd : stateSpace ∣ UInt32.size := by decide
  rw [UInt32.toNat_and, and_valueMask, UInt32.toNat_add]
  exact Nat.mod_mod_of_dvd _ hdvd

theorem product_lt (acc byte : UInt32) :
    ((acc + byte) &&& valueMask).toNat * multiplier.toNat < UInt64.size := by
  have hbound : stateSpace * multiplier.toNat ≤ UInt64.size := by decide
  have hmasked : ((acc + byte) &&& valueMask).toNat < stateSpace := by
    rw [toNat_masked_sum]
    exact mod_stateSpace_lt _
  exact Nat.lt_of_lt_of_le (Nat.mul_lt_mul_of_pos_right hmasked (by decide)) hbound

theorem toNat_scaled (acc byte : UInt32) :
    (scaled acc byte).toNat =
      (acc.toNat + byte.toNat) % stateSpace * multiplier.toNat := by
  have hexact := Nat.mod_eq_of_lt (product_lt acc byte)
  unfold scaled
  rw [UInt64.toNat_mul, UInt32.toNat_toUInt64, UInt32.toNat_toUInt64, ← toNat_masked_sum]
  exact hexact

theorem toNat_absorb_eq_toNat_masked (acc byte : UInt32) :
    (absorb acc byte).toNat = (scaled acc byte &&& valueMask.toUInt64).toNat := by
  have hmask : (scaled acc byte &&& valueMask.toUInt64).toNat ≤ valueMask.toUInt64.toNat := by
    rw [UInt64.toNat_and]
    exact Nat.and_le_right
  unfold absorb
  rw [UInt64.toNat_toUInt32]
  exact Nat.mod_eq_of_lt (Nat.lt_of_le_of_lt hmask (by decide))

theorem toNat_absorb (acc byte : UInt32) :
    (absorb acc byte).toNat =
      (acc.toNat + byte.toNat) * multiplier.toNat % stateSpace := by
  rw [toNat_absorb_eq_toNat_masked, UInt64.toNat_and, UInt32.toNat_toUInt64, and_valueMask,
    toNat_scaled, Nat.mod_mul_mod]

/-!
## The bytes of a seed

The seed is read from the low end and its last byte is the first one that
leaves nothing above it, so a seed below 256, zero included, has one byte.
-/

theorem toNat_shiftRight_eight (seed : UInt32) : (seed >>> 8).toNat = seed.toNat / 256 := by
  have hshift : (8 : UInt32).toNat % 32 = 8 := rfl
  rw [UInt32.toNat_shiftRight, hshift, Nat.shiftRight_eq_div_pow]

theorem toNat_shiftRight_lt {seed : UInt32} (h : ¬ seed < 256) :
    (seed >>> 8).toNat < seed.toNat := by
  have hseed : ¬ seed.toNat < 256 := fun hlt => h (UInt32.lt_iff_toNat_lt.mpr hlt)
  rw [toNat_shiftRight_eight]
  exact Nat.div_lt_self (by omega) (by decide)

def seedBytes (seed : UInt32) : List UInt32 :=
  (seed &&& byteMask) :: if seed < 256 then [] else seedBytes (seed >>> 8)
termination_by seed.toNat
decreasing_by exact toNat_shiftRight_lt ‹_›

theorem seedBytes_of_lt {seed : UInt32} (h : seed < 256) :
    seedBytes seed = [seed &&& byteMask] := by
  rw [seedBytes, if_pos h]

theorem seedBytes_of_not_lt {seed : UInt32} (h : ¬ seed < 256) :
    seedBytes seed = (seed &&& byteMask) :: seedBytes (seed >>> 8) := by
  rw [seedBytes, if_neg h]

def seedOf (previous : UInt32) : UInt32 :=
  previous ||| seedFlag

/-- One pass: the value that the program compares the register with. -/
def pass (previous : UInt32) : UInt32 :=
  (seedBytes (seedOf previous)).foldl absorb hashInit

end HashOrbit
