import HashOrbit.Proofs.Pass.Collision
import Mathlib.Algebra.BigOperators.Fin
import Mathlib.Data.Set.Function

/-!
# Absorbing any list of words

The words need not be bytes.  Whatever they are, to absorb a list is one affine map modulo
the state space, and its factor is a power of the multiplier.  The multiplier is odd, so
nothing of the accumulator is lost but what lies above the mask, and every value of the
state space is reached from one accumulator within it.
-/

namespace HashOrbit

theorem weigh_map_toNat (words : List UInt32) :
    weigh (words.map UInt32.toNat) =
      ∑ i : Fin words.length,
        (words.get i).toNat * multiplier.toNat ^ (words.length - i) := by
  induction words with
  | nil => rfl
  | cons word words ih =>
      have hsplit := Fin.sum_univ_succ fun i : Fin (words.length + 1) =>
        ((word :: words).get i).toNat * multiplier.toNat ^ (words.length + 1 - i)
      rw [List.map_cons, weigh, ih, List.length_map]
      simp only [List.length_cons, hsplit]
      simp

theorem toNat_foldl_absorb_eq_sum {words : List UInt32} (hne : words ≠ []) (acc : UInt32) :
    (words.foldl absorb acc).toNat =
      (acc.toNat * multiplier.toNat ^ words.length +
        ∑ i : Fin words.length,
          (words.get i).toNat * multiplier.toNat ^ (words.length - i)) % stateSpace := by
  rw [toNat_foldl_absorb_eq_mod hne, weigh_map_toNat]

/-!
## What an absorption keeps of the accumulator
-/

theorem foldl_absorb_eq_iff {words : List UInt32} (hne : words ≠ []) (acc acc' : UInt32) :
    words.foldl absorb acc = words.foldl absorb acc' <->
      acc.toNat ≡ acc'.toNat [MOD stateSpace] := by
  have hcoprime : Nat.Coprime stateSpace (multiplier.toNat ^ words.length) :=
    Nat.isCoprime_iff_coprime.mp (isCoprime_stateSpace_pow words.length)
  rw [← UInt32.toNat_inj, toNat_foldl_absorb_eq_mod hne, toNat_foldl_absorb_eq_mod hne]
  constructor
  · intro heq
    have hproduct := Nat.ModEq.add_right_cancel' _ heq
    exact Nat.ModEq.cancel_right_of_coprime hcoprime hproduct
  · intro hacc
    exact (hacc.mul_right _).add_right _

/-!
## Accumulators of 24 bits
-/

def states : Set UInt32 :=
  fun acc => acc.toNat < stateSpace

def multiplierInverse : Nat := 6366019

theorem multiplierInverse_mul : multiplierInverse * multiplier.toNat ≡ 1 [MOD stateSpace] := by
  decide

/-- The accumulator that holds `value` after it has absorbed `word`. -/
def release (value word : UInt32) : UInt32 :=
  UInt32.ofNat
    ((value.toNat * multiplierInverse + (stateSpace - word.toNat % stateSpace)) % stateSpace)

theorem toNat_release (value word : UInt32) :
    (release value word).toNat =
      (value.toNat * multiplierInverse + (stateSpace - word.toNat % stateSpace)) %
        stateSpace := by
  apply UInt32.toNat_ofNat_of_lt'
  exact Nat.lt_of_lt_of_le (mod_stateSpace_lt _) (by decide)

theorem release_mem_states (value word : UInt32) : release value word ∈ states := by
  show (release value word).toNat < stateSpace
  rw [toNat_release]
  exact mod_stateSpace_lt _

theorem toNat_release_add_modEq (value word : UInt32) :
    (release value word).toNat + word.toNat ≡
      value.toNat * multiplierInverse [MOD stateSpace] := by
  have hword : word.toNat % stateSpace ≤ stateSpace := Nat.le_of_lt (mod_stateSpace_lt _)
  rw [toNat_release]
  generalize value.toNat * multiplierInverse = product
  calc
    (product + (stateSpace - word.toNat % stateSpace)) % stateSpace + word.toNat
      ≡ product + (stateSpace - word.toNat % stateSpace) + word.toNat % stateSpace
          [MOD stateSpace] := (Nat.mod_modEq _ _).add (Nat.mod_modEq _ _).symm
    _ = product + stateSpace := by rw [Nat.add_assoc, Nat.sub_add_cancel hword]
    _ ≡ product [MOD stateSpace] := Nat.add_modEq_right

theorem absorb_release {value : UInt32} (hvalue : value ∈ states) (word : UInt32) :
    absorb (release value word) word = value := by
  have hproduct :
      ((release value word).toNat + word.toNat) * multiplier.toNat ≡
        value.toNat [MOD stateSpace] := by
    calc
      ((release value word).toNat + word.toNat) * multiplier.toNat
        ≡ value.toNat * multiplierInverse * multiplier.toNat [MOD stateSpace] :=
          (toNat_release_add_modEq value word).mul_right _
      _ = value.toNat * (multiplierInverse * multiplier.toNat) := Nat.mul_assoc _ _ _
      _ ≡ value.toNat * 1 [MOD stateSpace] := multiplierInverse_mul.mul_left _
      _ = value.toNat := Nat.mul_one _
  apply UInt32.toNat_inj.mp
  rw [toNat_absorb, hproduct]
  exact Nat.mod_eq_of_lt hvalue

theorem bijOn_absorb (word : UInt32) :
    Set.BijOn (fun acc => absorb acc word) states states := by
  refine ⟨?_, ?_, ?_⟩
  · intro acc _
    exact absorb_lt acc word
  · intro acc hacc acc' hacc' heq
    have hmodEq := (foldl_absorb_eq_iff (List.cons_ne_nil word []) acc acc').mp heq
    exact UInt32.toNat_inj.mp (hmodEq.eq_of_lt_of_lt hacc hacc')
  · intro value hvalue
    exact ⟨release value word, release_mem_states value word, absorb_release hvalue word⟩

theorem bijOn_foldl_absorb (words : List UInt32) :
    Set.BijOn (fun acc => words.foldl absorb acc) states states := by
  induction words with
  | nil => exact Set.bijOn_id states
  | cons word words ih => exact ih.comp (bijOn_absorb word)

/--
To absorb a list of words, which may be any, is exact: it is one sum over the naturals and
one remainder, since no product of a step exceeds 64 bits and no bit is lost when it is cut
down to 32.  So accumulators end alike exactly if they agree modulo the state space, and the
values of 24 bits are permuted.
-/
theorem foldl_absorb_exact {words : List UInt32} (hne : words ≠ []) :
    (forall acc : UInt32,
      (words.foldl absorb acc).toNat =
        (acc.toNat * 65899 ^ words.length +
          ∑ i : Fin words.length, (words.get i).toNat * 65899 ^ (words.length - i)) % 2 ^ 24) ∧
    (forall acc word : UInt32,
      ((acc + word) &&& valueMask).toNat * multiplier.toNat < UInt64.size ∧
      (scaled acc word).toNat = ((acc + word) &&& valueMask).toNat * multiplier.toNat ∧
      (absorb acc word).toNat = (scaled acc word &&& valueMask.toUInt64).toNat) ∧
    (forall acc acc' : UInt32,
      words.foldl absorb acc = words.foldl absorb acc' <->
        acc.toNat % 2 ^ 24 = acc'.toNat % 2 ^ 24) ∧
    Set.BijOn (fun acc => words.foldl absorb acc)
      {acc | acc.toNat < 2 ^ 24} {acc | acc.toNat < 2 ^ 24} := by
  have hstates : {acc : UInt32 | acc.toNat < 2 ^ 24} = states := by
    unfold states
    rw [stateSpace_eq]
    rfl
  refine ⟨?_, ?_, ?_, ?_⟩
  · intro acc
    have hsum := toNat_foldl_absorb_eq_sum hne acc
    rw [stateSpace_eq] at hsum
    exact hsum
  · intro acc word
    refine ⟨product_lt acc word, ?_, toNat_absorb_eq_toNat_masked acc word⟩
    rw [toNat_scaled, toNat_masked_sum]
  · intro acc acc'
    rw [foldl_absorb_eq_iff hne, stateSpace_eq]
    rfl
  · rw [hstates]
    exact bijOn_foldl_absorb words

theorem foldl_absorb_exact_large :
    ([4294967295, 2147483649] : List UInt32) ≠ [] ∧
    ([4294967295, 2147483649].foldl absorb 4294967295).toNat = 5307385 ∧
    [4294967295, 2147483649].foldl absorb 16777216 = [4294967295, 2147483649].foldl absorb 0 ∧
    [4294967295, 2147483649].foldl absorb 1 ≠ [4294967295, 2147483649].foldl absorb 0 := by
  have hne : ([4294967295, 2147483649] : List UInt32) ≠ [] := List.cons_ne_nil _ _
  rcases foldl_absorb_exact hne with ⟨hexact, _, hiff, _⟩
  refine ⟨hne, ?_, ?_, ?_⟩
  · rw [hexact]
    decide
  · exact (hiff _ _).mpr (by decide)
  · intro heq
    exact absurd ((hiff _ _).mp heq) (by decide)

end HashOrbit
