import HashOrbit.Pass
import Mathlib.Algebra.BigOperators.Intervals
import Mathlib.Algebra.Group.Nat.Even
import Mathlib.Data.Nat.Digits.Defs
import Mathlib.Data.Nat.Digits.Lemmas
import Mathlib.Tactic.Ring

/-!
# The closed form of a pass

A pass ends with an absorption, so its value fits under the mask of the values, and it
reads its register only after setting the flag, so registers that differ in the flag alone
have the same value.  The bytes that it reads are the digits of its seed in base 256.
Modulo the state space a pass is a sum of these digits with powers of the multiplier as
weights, and neither the wrapping sums nor the masks change the remainder.
-/

namespace HashOrbit

theorem stateSpace_eq : stateSpace = 2 ^ 24 := rfl

theorem seedBytes_ne_nil (seed : UInt32) : seedBytes seed ≠ [] := by
  rw [seedBytes]
  exact List.cons_ne_nil _ _

theorem absorb_lt (acc byte : UInt32) : (absorb acc byte).toNat < stateSpace := by
  rw [toNat_absorb]
  exact mod_stateSpace_lt _

theorem foldl_absorb_lt {bytes : List UInt32} (hne : bytes ≠ []) (acc : UInt32) :
    (bytes.foldl absorb acc).toNat < stateSpace := by
  rw [← List.dropLast_concat_getLast hne, List.foldl_append]
  exact absorb_lt _ _

theorem pass_lt (previous : UInt32) : (pass previous).toNat < stateSpace :=
  foldl_absorb_lt (seedBytes_ne_nil _) hashInit

/-!
## Registers without the flag
-/

/-- The number that is left when bit 16 is taken out of `n` and the bits above it move down. -/
def withoutFlag (n : Nat) : Nat :=
  n / 2 ^ 17 * 2 ^ 16 + n % 2 ^ 16

theorem withoutFlag_lt {n : Nat} (hn : n < 2 ^ 24) : withoutFlag n < 2 ^ 23 := by
  unfold withoutFlag
  lia

theorem or_flag_eq_of_withoutFlag_eq {m n : Nat} (h : withoutFlag m = withoutFlag n) :
    m ||| 2 ^ 16 = n ||| 2 ^ 16 := by
  unfold withoutFlag at h
  have hhigh : m / 2 ^ 17 = n / 2 ^ 17 := by lia
  have hlow : m % 2 ^ 16 = n % 2 ^ 16 := by lia
  apply Nat.eq_of_testBit_eq
  intro i
  rw [Nat.testBit_or, Nat.testBit_or, Nat.testBit_two_pow]
  rcases Nat.lt_trichotomy i 16 with hi | hi | hi
  · have hm := Nat.testBit_mod_two_pow m 16 i
    have hn := Nat.testBit_mod_two_pow n 16 i
    rw [hlow, hn] at hm
    simp only [hi, decide_true, Bool.true_and] at hm
    rw [hm]
  · simp [hi]
  · have hm : (m / 2 ^ 17).testBit (i - 17) = m.testBit (i - 17 + 17) :=
      Nat.testBit_div_two_pow m (i - 17)
    have hn : (n / 2 ^ 17).testBit (i - 17) = n.testBit (i - 17 + 17) :=
      Nat.testBit_div_two_pow n (i - 17)
    rw [hhigh, hn, Nat.sub_add_cancel hi] at hm
    rw [hm]

theorem toNat_seedOf (previous : UInt32) :
    (seedOf previous).toNat = previous.toNat ||| 2 ^ 16 := by
  have hflag : seedFlag.toNat = 2 ^ 16 := rfl
  unfold seedOf
  rw [UInt32.toNat_or, hflag]

theorem pass_eq_of_withoutFlag_eq {x y : UInt32}
    (h : withoutFlag x.toNat = withoutFlag y.toNat) :
    pass x = pass y := by
  have hseed : seedOf x = seedOf y := by
    apply UInt32.toNat_inj.mp
    rw [toNat_seedOf, toNat_seedOf]
    exact or_flag_eq_of_withoutFlag_eq h
  unfold pass
  rw [hseed]

/-!
## Passes over the naturals

The bytes that a pass reads are the digits of its seed in base 256, and to absorb
one is a step of arithmetic modulo the state space.  So a pass is a fold over the
digits of a natural number.  After the first pass the seed has three digits.
-/

def absorbNat (acc byte : Nat) : Nat :=
  (acc + byte) * multiplier.toNat % stateSpace

theorem toNat_foldl_absorb (bytes : List UInt32) (acc : UInt32) :
    (bytes.foldl absorb acc).toNat =
      (bytes.map UInt32.toNat).foldl absorbNat acc.toNat := by
  induction bytes generalizing acc with
  | nil => rfl
  | cons byte bytes ih =>
      rw [List.foldl_cons, ih, toNat_absorb]
      rfl

theorem absorbNat_absorbNat (acc byte byte' : Nat) :
    absorbNat (absorbNat acc byte) byte' =
      absorbNat ((acc + byte) * multiplier.toNat) byte' := by
  unfold absorbNat
  rw [Nat.mul_mod, Nat.mod_add_mod, ← Nat.mul_mod]

theorem toNat_and_byteMask (seed : UInt32) : (seed &&& byteMask).toNat = seed.toNat % 256 := by
  have hmask : byteMask.toNat = 2 ^ 8 - 1 := rfl
  rw [UInt32.toNat_and, hmask, Nat.and_two_pow_sub_one_eq_mod]

theorem map_toNat_seedBytes {seed : UInt32} (hpos : 0 < seed.toNat) :
    (seedBytes seed).map UInt32.toNat = Nat.digits 256 seed.toNat := by
  induction seed using seedBytes.induct with
  | case1 seed ih =>
      by_cases hlt : seed < 256
      · have hlt' : seed.toNat < 256 := UInt32.lt_iff_toNat_lt.mp hlt
        rw [seedBytes_of_lt hlt, Nat.digits_of_lt 256 seed.toNat (Nat.ne_of_gt hpos) hlt',
          List.map_singleton, toNat_and_byteMask, Nat.mod_eq_of_lt hlt']
      · have hge : 256 ≤ seed.toNat :=
          Nat.le_of_not_lt fun hlt' => hlt (UInt32.lt_iff_toNat_lt.mpr hlt')
        have hrest : 0 < (seed >>> 8).toNat := by
          rw [toNat_shiftRight_eight]
          exact Nat.div_pos hge (by decide)
        rw [seedBytes_of_not_lt hlt, List.map_cons, ih hlt hrest, toNat_and_byteMask,
          toNat_shiftRight_eight, Nat.digits_def' (by decide) hpos]

theorem map_toNat_seedBytes_seedOf (previous : UInt32) :
    (seedBytes (seedOf previous)).map UInt32.toNat =
      Nat.digits 256 (previous.toNat ||| 2 ^ 16) := by
  have hpos : 0 < (seedOf previous).toNat := by
    rw [toNat_seedOf]
    exact Nat.lt_of_lt_of_le (by decide) Nat.right_le_or
  rw [map_toNat_seedBytes hpos, toNat_seedOf]

theorem toNat_pass (previous : UInt32) :
    (pass previous).toNat =
      (Nat.digits 256 (previous.toNat ||| 2 ^ 16)).foldl absorbNat hashInit.toNat := by
  rw [pass, toNat_foldl_absorb, map_toNat_seedBytes_seedOf]

theorem digits_of_three {n : Nat} (hlow : 2 ^ 16 ≤ n) (hhigh : n < 2 ^ 24) :
    Nat.digits 256 n = [n % 256, n / 256 % 256, n / 256 / 256] := by
  have hlast : n / 256 / 256 < 256 := by lia
  rw [Nat.digits_def' (by decide) (by lia), Nat.digits_def' (by decide) (by lia),
    Nat.digits_of_lt 256 _ (by lia) hlast]

/--
A pass of a register that has 24 bits, over the naturals and with only one remainder
to the state space, at the end.
-/
def passNat (n : Nat) : Nat :=
  let seed := n ||| 2 ^ 16
  (((8586263 + seed % 256) * 65899 + seed / 256 % 256) * 65899 + seed / 256 / 256) * 65899 %
    2 ^ 24

theorem foldl_absorbNat_three (acc low middle high : Nat) :
    [low, middle, high].foldl absorbNat acc =
      (((acc + low) * 65899 + middle) * 65899 + high) * 65899 % 2 ^ 24 := by
  have hfactor : multiplier.toNat = 65899 := rfl
  rw [List.foldl_cons, List.foldl_cons, List.foldl_cons, List.foldl_nil,
    absorbNat_absorbNat acc low, absorbNat_absorbNat, absorbNat, hfactor, stateSpace_eq]

theorem toNat_pass_of_lt {previous : UInt32} (hlt : previous.toNat < 2 ^ 24) :
    (pass previous).toNat = passNat previous.toNat := by
  have hseed : previous.toNat ||| 2 ^ 16 < 2 ^ 24 := Nat.or_lt_two_pow hlt (by decide)
  rw [toNat_pass, digits_of_three Nat.right_le_or hseed, foldl_absorbNat_three]
  rfl

/-!
## Sums with powers as weights

Each absorption multiplies by the multiplier, so a byte is multiplied once for every
absorption from its own on.
-/

/-- The sum of the bytes, each times the powers of the multiplier that it meets. -/
def weigh : List Nat -> Nat
  | [] => 0
  | byte :: bytes => byte * multiplier.toNat ^ (bytes.length + 1) + weigh bytes

theorem weigh_map_range (f : Nat -> Nat) (n : Nat) :
    weigh ((List.range n).map f) =
      ∑ i ∈ Finset.range n, f i * multiplier.toNat ^ (n - i) := by
  induction n generalizing f with
  | zero => rfl
  | succ n ih =>
      rw [List.range_succ_eq_map, List.map_cons, List.map_map, weigh, ih, List.length_map,
        List.length_range, Finset.sum_range_succ', Nat.add_comm]
      simp

theorem foldl_absorbNat_modEq (acc : Nat) (bytes : List Nat) :
    bytes.foldl absorbNat acc ≡
      acc * multiplier.toNat ^ bytes.length + weigh bytes [MOD stateSpace] := by
  induction bytes generalizing acc with
  | nil => simp [weigh, Nat.ModEq.refl]
  | cons byte bytes ih =>
      have hfirst : absorbNat acc byte ≡ (acc + byte) * multiplier.toNat [MOD stateSpace] :=
        Nat.mod_modEq _ _
      rw [List.foldl_cons, List.length_cons, weigh]
      calc
        bytes.foldl absorbNat (absorbNat acc byte)
          ≡ absorbNat acc byte * multiplier.toNat ^ bytes.length + weigh bytes
              [MOD stateSpace] := ih _
        _ ≡ (acc + byte) * multiplier.toNat * multiplier.toNat ^ bytes.length + weigh bytes
              [MOD stateSpace] := (hfirst.mul_right _).add_right _
        _ = acc * multiplier.toNat ^ (bytes.length + 1) +
              (byte * multiplier.toNat ^ (bytes.length + 1) + weigh bytes) := by ring

theorem toNat_foldl_absorb_eq_mod {bytes : List UInt32} (hne : bytes ≠ []) (acc : UInt32) :
    (bytes.foldl absorb acc).toNat =
      (acc.toNat * multiplier.toNat ^ bytes.length + weigh (bytes.map UInt32.toNat)) %
        stateSpace := by
  have hmodEq := foldl_absorbNat_modEq acc.toNat (bytes.map UInt32.toNat)
  rw [← toNat_foldl_absorb, List.length_map] at hmodEq
  exact (Nat.mod_eq_of_lt (foldl_absorb_lt hne acc)).symm.trans hmodEq

def byteAt (n i : Nat) : Nat := n / 256 ^ i % 256

theorem digits_eq_map_byteAt (n : Nat) :
    Nat.digits 256 n = (List.range (Nat.digits 256 n).length).map (byteAt n) := by
  apply List.ext_getElem
  · simp
  · intro i hi _
    have hdigit := Nat.getD_digits n i (b := 256) (by decide)
    simpa [byteAt, hi] using hdigit

def rounds (previous : UInt32) : Nat :=
  if previous.toNat < 2 ^ 24 then 3 else 4

theorem rounds_eq (previous : UInt32) : rounds previous = 3 ∨ rounds previous = 4 :=
  ite_eq_or_eq _ _ _

theorem length_digits_of_bounds {n k : Nat} (hlow : 256 ^ k ≤ n) (hhigh : n < 256 ^ (k + 1)) :
    (Nat.digits 256 n).length = k + 1 := by
  have hpos : n ≠ 0 := Nat.ne_of_gt (Nat.lt_of_lt_of_le (Nat.pow_pos (by decide)) hlow)
  rw [Nat.length_digits 256 n (by decide) hpos, Nat.log_eq_of_pow_le_of_lt_pow hlow hhigh]

theorem length_digits_seed (previous : UInt32) :
    (Nat.digits 256 (previous.toNat ||| 2 ^ 16)).length = rounds previous := by
  unfold rounds
  split
  · rename_i hlt
    exact length_digits_of_bounds (k := 2) Nat.right_le_or (Nat.or_lt_two_pow hlt (by decide))
  · rename_i hge
    have hlow : 2 ^ 24 ≤ previous.toNat ||| 2 ^ 16 :=
      Nat.le_trans (Nat.le_of_not_lt hge) Nat.left_le_or
    exact length_digits_of_bounds (k := 3) hlow
      (Nat.or_lt_two_pow previous.toNat_lt (by decide))

theorem digits_seed_eq (previous : UInt32) :
    Nat.digits 256 (previous.toNat ||| 2 ^ 16) =
      (List.range (rounds previous)).map (byteAt (previous.toNat ||| 2 ^ 16)) := by
  rw [← length_digits_seed]
  exact digits_eq_map_byteAt _

theorem length_seedBytes_seedOf (previous : UInt32) :
    (seedBytes (seedOf previous)).length = rounds previous := by
  rw [← List.length_map UInt32.toNat, map_toNat_seedBytes_seedOf, length_digits_seed]

theorem toNat_pass_eq_mod (previous : UInt32) :
    (pass previous).toNat =
      (hashInit.toNat * multiplier.toNat ^ rounds previous +
        ∑ i ∈ Finset.range (rounds previous),
          byteAt (previous.toNat ||| 2 ^ 16) i * multiplier.toNat ^ (rounds previous - i)) %
        stateSpace := by
  rw [pass, toNat_foldl_absorb_eq_mod (seedBytes_ne_nil _), length_seedBytes_seedOf,
    map_toNat_seedBytes_seedOf, digits_seed_eq, weigh_map_range]

/--
A pass absorbs the digits of its seed in base 256, three for a register of 24 bits and
four for any other, and no more.  Its value is that of one sum over the naturals.
-/
theorem pass_closed_form (previous : UInt32) :
    pass previous = (seedBytes (seedOf previous)).foldl absorb hashInit ∧
    let seed := previous.toNat ||| 2 ^ 16
    let n := if previous.toNat < 2 ^ 24 then 3 else 4
    let digit := fun i => seed / 256 ^ i % 256
    (seedBytes (seedOf previous)).length = n ∧
    (seedBytes (seedOf previous)).map UInt32.toNat = (List.range n).map digit ∧
    Nat.digits 256 seed = (List.range n).map digit ∧
    (pass previous).toNat =
      (8586263 * 65899 ^ n + ∑ i ∈ Finset.range n, digit i * 65899 ^ (n - i)) % 2 ^ 24 := by
  refine ⟨rfl, ?_⟩
  intro seed n digit
  have hdigits : Nat.digits 256 seed = (List.range n).map digit := digits_seed_eq previous
  refine ⟨length_seedBytes_seedOf previous, ?_, hdigits, ?_⟩
  · exact (map_toNat_seedBytes_seedOf previous).trans hdigits
  · have hpass := toNat_pass_eq_mod previous
    rw [stateSpace_eq] at hpass
    exact hpass

end HashOrbit
