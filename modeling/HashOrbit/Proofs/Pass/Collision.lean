import HashOrbit.Proofs.Pass.ClosedForm
import Mathlib.Algebra.BigOperators.Intervals
import Mathlib.Data.Finset.Card
import Mathlib.RingTheory.Coprime.Lemmas
import Mathlib.Tactic.NormNum.GCD

/-!
# Collisions of passes

Two passes of the same length have the same value when the differences of their bytes,
weighted by powers of the multiplier, add up to a multiple of the state space.  The
multiplier is odd, so one power of it can be divided out, and what is left of two
differences is too far from every multiple of the state space.  So seeds that collide
differ in three bytes or more.
-/

namespace HashOrbit

/--
The multiples of a power of the multiplier by a byte keep more than a byte away from the
multiples of the state space.
-/
theorem mul_pow_mod_bounds :
    forall e, e < 4 -> 0 < e -> forall a, a < 256 -> 0 < a ->
      255 < a * multiplier.toNat ^ e % stateSpace ∧
        a * multiplier.toNat ^ e % stateSpace + 255 < stateSpace := by
  decide +kernel

theorem eq_zero_of_dvd_two
    {e : Nat} {a b : Int}
    (hpos : 0 < e)
    (hlt : e < 4)
    (ha : a.natAbs < 256)
    (hb : b.natAbs < 256)
    (hdvd : (stateSpace : Int) ∣ a * (multiplier.toNat ^ e : Nat) + b) :
    a = 0 ∧ b = 0 := by
  by_cases hzero : a = 0
  · rw [hzero, Int.zero_mul, Int.zero_add] at hdvd
    exact ⟨hzero, Int.eq_zero_of_dvd_of_natAbs_lt_natAbs hdvd (Nat.lt_trans hb (by decide))⟩
  · exfalso
    have hbounds := mul_pow_mod_bounds e hlt hpos a.natAbs ha (Int.natAbs_pos.mpr hzero)
    have hproduct : (a.natAbs * multiplier.toNat ^ e : Nat) =
        (a.natAbs : Int) * (multiplier.toNat ^ e : Nat) := Int.natCast_mul _ _
    rw [stateSpace_eq] at hbounds hdvd
    rcases Int.natAbs_eq a with hsign | hsign
    · rw [hsign, ← hproduct] at hdvd
      omega
    · rw [hsign, Int.neg_mul, ← hproduct] at hdvd
      omega

theorem isCoprime_stateSpace_pow (k : Nat) :
    IsCoprime (stateSpace : Int) (multiplier.toNat ^ k : Nat) := by
  rw [Nat.isCoprime_iff_coprime]
  exact Nat.Coprime.pow_right k (by decide)

/-!
## Two places among many
-/

theorem exists_pair_of_card_le_two
    {places : Finset Nat} {n : Nat}
    (hplaces : places ⊆ Finset.range n)
    (hcard : places.card ≤ 2)
    (hn : 2 ≤ n) :
    exists i j, i < j ∧ j < n ∧ places ⊆ {i, j} := by
  rcases Finset.exists_subsuperset_card_eq hplaces hcard (by rw [Finset.card_range]; exact hn) with
    ⟨pair, hsubset, hrange, htwo⟩
  rcases Finset.card_eq_two.mp htwo with ⟨i, j, hne, rfl⟩
  have hi : i < n := Finset.mem_range.mp (hrange (by simp))
  have hj : j < n := Finset.mem_range.mp (hrange (by simp))
  cases Nat.lt_or_gt_of_ne hne with
  | inl hlt => exact ⟨i, j, hlt, hj, hsubset⟩
  | inr hgt => exact ⟨j, i, hgt, hi, Finset.pair_comm i j ▸ hsubset⟩

theorem eq_zero_of_dvd_sum
    {n : Nat} {d : Nat -> Int}
    (hlow : 2 ≤ n)
    (hhigh : n ≤ 4)
    (hbytes : forall i, (d i).natAbs < 256)
    (hplaces : ((Finset.range n).filter fun i => d i ≠ 0).card ≤ 2)
    (hdvd :
      (stateSpace : Int) ∣
        ∑ i ∈ Finset.range n, d i * (multiplier.toNat ^ (n - i) : Nat)) :
    forall i, i < n -> d i = 0 := by
  rcases exists_pair_of_card_le_two (Finset.filter_subset _ _) hplaces hlow with
    ⟨i, j, hij, hj, hsubset⟩
  have hzero : forall k, k ∈ Finset.range n -> k ∉ ({i, j} : Finset Nat) -> d k = 0 := by
    intro k hk hnot
    by_contra hne
    exact hnot (hsubset (Finset.mem_filter.mpr ⟨hk, hne⟩))
  have hpair : ({i, j} : Finset Nat) ⊆ Finset.range n := by
    intro k hk
    rw [Finset.mem_insert, Finset.mem_singleton] at hk
    exact Finset.mem_range.mpr (by lia)
  have hpower : multiplier.toNat ^ (n - i) =
      multiplier.toNat ^ (j - i) * multiplier.toNat ^ (n - j) := by
    rw [← Nat.pow_add]
    congr 1
    lia
  have hsum : ∑ k ∈ Finset.range n, d k * (multiplier.toNat ^ (n - k) : Nat) =
      (multiplier.toNat ^ (n - j) : Nat) * (d i * (multiplier.toNat ^ (j - i) : Nat) + d j) := by
    rw [← Finset.sum_subset hpair (fun k hk hnot => by rw [hzero k hk hnot, Int.zero_mul]),
      Finset.sum_pair (Nat.ne_of_lt hij), hpower]
    push_cast
    ring
  rw [hsum] at hdvd
  rcases eq_zero_of_dvd_two (Nat.sub_pos_of_lt hij) (by lia) (hbytes i) (hbytes j)
      ((isCoprime_stateSpace_pow (n - j)).dvd_of_dvd_mul_left hdvd) with
    ⟨hi0, hj0⟩
  intro k hk
  by_cases hmem : k ∈ ({i, j} : Finset Nat)
  · rw [Finset.mem_insert, Finset.mem_singleton] at hmem
    rcases hmem with rfl | rfl
    · exact hi0
    · exact hj0
  · exact hzero k (Finset.mem_range.mpr hk) hmem

/-!
## Seeds that collide
-/

def byteDifference (x y i : Nat) : Int := (byteAt x i : Int) - byteAt y i

theorem natAbs_byteDifference_lt (x y i : Nat) : (byteDifference x y i).natAbs < 256 := by
  unfold byteDifference byteAt
  omega

theorem byteDifference_eq_zero_iff (x y i : Nat) :
    byteDifference x y i = 0 <-> byteAt x i = byteAt y i := by
  unfold byteDifference
  omega

theorem dvd_sum_byteDifference
    {p q : UInt32}
    (hrounds : rounds p = rounds q)
    (hpass : pass p = pass q) :
    (stateSpace : Int) ∣
      ∑ i ∈ Finset.range (rounds q),
        byteDifference (p.toNat ||| 2 ^ 16) (q.toNat ||| 2 ^ 16) i *
          (multiplier.toNat ^ (rounds q - i) : Nat) := by
  have hmodEq : _ ≡ _ [MOD stateSpace] :=
    (toNat_pass_eq_mod q).symm.trans ((congrArg UInt32.toNat hpass.symm).trans
      (toNat_pass_eq_mod p))
  rw [hrounds] at hmodEq
  have hdvd := Nat.modEq_iff_dvd.mp (Nat.ModEq.add_left_cancel' _ hmodEq)
  simpa [byteDifference, Int.sub_mul] using hdvd

def differingPlaces (x y : UInt32) : Finset Nat :=
  (Finset.range 4).filter fun i => byteAt x.toNat i ≠ byteAt y.toNat i

theorem seedOf_eq_of_bytes
    {p q : UInt32}
    (hrounds : rounds p = rounds q)
    (hbytes : forall i, i < rounds q ->
      byteAt (p.toNat ||| 2 ^ 16) i = byteAt (q.toNat ||| 2 ^ 16) i) :
    seedOf p = seedOf q := by
  apply UInt32.toNat_inj.mp
  rw [toNat_seedOf, toNat_seedOf, ← Nat.digits_inj_iff (b := 256), digits_seed_eq, digits_seed_eq,
    hrounds]
  apply List.map_congr_left
  intro i hi
  exact hbytes i (List.mem_range.mp hi)

theorem seedOf_eq_of_collision
    {p q : UInt32}
    (hrounds : rounds p = rounds q)
    (hplaces : (differingPlaces (seedOf p) (seedOf q)).card ≤ 2)
    (hpass : pass p = pass q) :
    seedOf p = seedOf q := by
  have hcount := rounds_eq q
  have hhigh : rounds q ≤ 4 := by lia
  have hsubset :
      ((Finset.range (rounds q)).filter fun i =>
        byteDifference (p.toNat ||| 2 ^ 16) (q.toNat ||| 2 ^ 16) i ≠ 0) ⊆
      differingPlaces (seedOf p) (seedOf q) := by
    intro i hi
    rw [Finset.mem_filter, Finset.mem_range, ne_eq, byteDifference_eq_zero_iff] at hi
    rw [differingPlaces, toNat_seedOf, toNat_seedOf, Finset.mem_filter, Finset.mem_range]
    exact ⟨Nat.lt_of_lt_of_le hi.1 hhigh, hi.2⟩
  have hzero := eq_zero_of_dvd_sum (by lia) hhigh (natAbs_byteDifference_lt _ _)
    (Nat.le_trans (Finset.card_le_card hsubset) hplaces) (dvd_sum_byteDifference hrounds hpass)
  apply seedOf_eq_of_bytes hrounds
  intro i hi
  exact (byteDifference_eq_zero_iff _ _ i).mp (hzero i hi)

/--
Registers that both have 24 bits, or both have more, and whose seeds differ at no more
than two bytes have the same value only if the seeds are equal.  So where different seeds
collide, they differ at three bytes or more.
-/
theorem pass_eq_iff_seedOf_eq
    {p q : UInt32}
    (hsize : p.toNat < 2 ^ 24 <-> q.toNat < 2 ^ 24) :
    ((differingPlaces (seedOf p) (seedOf q)).card ≤ 2 ->
      (pass p = pass q <-> seedOf p = seedOf q)) ∧
    (seedOf p ≠ seedOf q -> pass p = pass q ->
      3 ≤ (differingPlaces (seedOf p) (seedOf q)).card) := by
  have hrounds : rounds p = rounds q := by
    unfold rounds
    simp only [hsize]
  constructor
  · intro hplaces
    constructor
    · exact seedOf_eq_of_collision hrounds hplaces
    · intro hseed
      rw [pass, pass, hseed]
  · intro hne hpass
    by_contra hfew
    exact hne (seedOf_eq_of_collision hrounds (by lia) hpass)

theorem pass_eq_iff_seedOf_eq_15944093 :
    ((15944093 : UInt32).toNat < 2 ^ 24 <-> (13943296 : UInt32).toNat < 2 ^ 24) ∧
    seedOf 15944093 ≠ seedOf 13943296 ∧
    pass 15944093 = pass 13943296 ∧
    3 ≤ (differingPlaces (seedOf 15944093) (seedOf 13943296)).card ∧
    (differingPlaces (seedOf 4294901760) (seedOf 4278255360)).card = 2 ∧
    pass 4294901760 ≠ pass 4278255360 := by
  have hsize : (15944093 : UInt32).toNat < 2 ^ 24 <-> (13943296 : UInt32).toNat < 2 ^ 24 := by
    decide
  have hne : seedOf 15944093 ≠ seedOf 13943296 := by decide
  have hpass : pass 15944093 = pass 13943296 := by decide +kernel
  have hcard : (differingPlaces (seedOf 4294901760) (seedOf 4278255360)).card = 2 := by
    decide +kernel
  have hdiffer := pass_eq_iff_seedOf_eq (p := 4294901760) (q := 4278255360) (by decide)
  refine ⟨hsize, hne, hpass, (pass_eq_iff_seedOf_eq hsize).2 hne hpass, hcard, ?_⟩
  intro heq
  exact absurd ((hdiffer.1 (Nat.le_of_eq hcard)).mp heq) (by decide)

end HashOrbit
