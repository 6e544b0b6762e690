import HashOrbit.Proofs.Pass.ClosedForm
import HashOrbit.Proofs.Search.Cap
import HashOrbit.Proofs.Walk.Loop
import Mathlib.Data.Nat.Prime.Basic
import Mathlib.Dynamics.PeriodicPts.Defs
import Mathlib.Tactic.NormNum.Prime

/-!
# The loop of the activation program

Equal values of a walk have equal successors, so few comparisons show that all the values
before a repeat are different: the repeat itself, the values at the prime parts of its
period, and the two values that come before equal ones.  The walk of the program is computed
once, over the naturals, up to the value that comes again.  So the result of the program is
known for every cap.
-/

namespace HashOrbit

open Function

theorem minimalPeriod_eq_of_prime_parts
    {α : Type} {f : α -> α} {x : α} {period : Nat}
    (hperiodic : IsPeriodicPt f period x)
    (hparts : forall q, q.Prime -> q ∣ period -> ¬ IsPeriodicPt f (period / q) x) :
    minimalPeriod f x = period := by
  rcases hperiodic.minimalPeriod_dvd with ⟨a, ha⟩
  have hone : a = 1 := by
    by_contra hne
    rcases Nat.exists_prime_and_dvd hne with ⟨q, hq, b, hb⟩
    have hperiod : period = q * (minimalPeriod f x * b) := by
      rw [ha, hb, Nat.mul_left_comm]
    have hpart : period / q = minimalPeriod f x * b := by
      rw [hperiod, Nat.mul_div_cancel_left _ hq.pos]
    apply hparts q hq ⟨_, hperiod⟩
    rw [hpart]
    exact (isPeriodicPt_minimalPeriod f x).mul_const b
  rw [ha, hone, Nat.mul_one]

namespace Walk

theorem value_add_eq_iterate (w : Walk) (n k : Nat) :
    w.value (n + k) = pass^[k] (w.value n) := by
  induction k with
  | zero => rfl
  | succ k ih =>
      rw [iterate_succ_apply', ← ih]
      rfl

section Periodic

variable {w : Walk} {start period : Nat}

theorem isPeriodicPt_iff (w : Walk) (n k : Nat) :
    IsPeriodicPt pass k (w.value n) <-> w.value (n + k) = w.value n := by
  rw [value_add_eq_iterate]
  rfl

theorem minimalPeriod_eq_of_values
    (hreturn : w.value (start + period) = w.value start)
    (hparts : forall q, q.Prime -> q ∣ period -> w.value (start + period / q) ≠ w.value start) :
    minimalPeriod pass (w.value start) = period := by
  apply minimalPeriod_eq_of_prime_parts
  · exact (isPeriodicPt_iff w start period).mpr hreturn
  · intro q hq hdvd hpart
    exact hparts q hq hdvd ((isPeriodicPt_iff w start _).mp hpart)

theorem eq_of_value_eq_of_cycle
    (hminimal : minimalPeriod pass (w.value start) = period)
    {i j : Nat} (hi : i < period) (hj : j < period)
    (hij : w.value (start + i) = w.value (start + j)) :
    i = j := by
  rw [value_add_eq_iterate, value_add_eq_iterate] at hij
  rw [← hminimal] at hi hj
  exact (iterate_eq_iterate_iff_of_lt_minimalPeriod hi hj).mp hij

theorem value_add_period_eq_of_tail
    {last i j : Nat}
    (hminimal : minimalPeriod pass (w.value (last + 1)) = period)
    (hi : i ≤ last) (hlt : i < j)
    (hij : w.value i = w.value j) :
    w.value (last + period) = w.value last := by
  have hreturn : w.value (last + (j - i)) = w.value last := by
    have hlater := value_add_of_eq hij (last - i)
    rw [show i + (last - i) = last by lia,
      show j + (last - i) = last + (j - i) by lia] at hlater
    exact hlater.symm
  have hdvd : period ∣ j - i := by
    rw [← hminimal]
    apply IsPeriodicPt.minimalPeriod_dvd
    rw [isPeriodicPt_iff, Nat.add_right_comm]
    exact value_add_of_eq hreturn 1
  have hpos : 0 < period := Nat.pos_of_dvd_of_pos hdvd (Nat.sub_pos_of_lt hlt)
  have hperiodic : IsPeriodicPt pass period (w.value (last + period)) := by
    have hcycle := (isPeriodicPt_minimalPeriod pass (w.value (last + 1))).apply_iterate (period - 1)
    rw [hminimal, ← value_add_eq_iterate, show last + 1 + (period - 1) = last + period by lia]
      at hcycle
    exact hcycle
  rcases hdvd with ⟨turns, hturns⟩
  cases turns with
  | zero => exact absurd hturns (by lia)
  | succ turns =>
      have hsum : last + (j - i) = last + period + period * turns := by
        rw [hturns, Nat.mul_succ]
        lia
      rw [← hreturn, hsum]
      exact ((isPeriodicPt_iff w _ _).mp (hperiodic.mul_const turns)).symm

/--
A walk loops with a tail and a period if it comes back after the period, not after
a prime part of it, and not to the last value of the tail.
-/
theorem loops_of_values
    (hpos : 0 < period)
    (hreturn : w.value (start + period) = w.value start)
    (hparts : forall q, q.Prime -> q ∣ period -> w.value (start + period / q) ≠ w.value start)
    (htail : forall last, start = last + 1 -> w.value (last + period) ≠ w.value last) :
    Loops w.value start (start + period) := by
  have hminimal := minimalPeriod_eq_of_values hreturn hparts
  have hdifferent : forall i j, i < j -> j < start + period -> w.value i ≠ w.value j := by
    intro i j hlt hj hij
    by_cases hi : i < start
    · rcases Nat.exists_eq_add_one_of_ne_zero (Nat.ne_zero_of_lt hi) with ⟨last, hlast⟩
      rw [hlast] at hi hminimal
      exact htail last hlast
        (value_add_period_eq_of_tail hminimal (Nat.le_of_lt_succ hi) hlt hij)
    · have hi' : start ≤ i := Nat.le_of_not_lt hi
      rw [show i = start + (i - start) by lia, show j = start + (j - start) by lia] at hij
      have heq := eq_of_value_eq_of_cycle hminimal (by lia) (by lia) hij
      lia
  constructor
  · exact Nat.lt_add_of_pos_right hpos
  · intro i j hi hj hij
    rcases Nat.lt_trichotomy i j with hlt | heq | hgt
    · exact absurd hij (hdifferent i j hlt hj)
    · exact heq
    · exact absurd hij.symm (hdifferent j i hgt hi)
  · exact value_add_of_eq hreturn

end Periodic

end Walk

/-!
## Strides
-/

/--
Applies a function to a number that is computed first: the cases are there for evaluation,
which must reach a numeral before it can choose one.
-/
def withComputed (f : Nat -> Nat) : Nat -> Nat
  | 0 => f 0
  | n + 1 => f (n + 1)

theorem withComputed_eq (f : Nat -> Nat) (n : Nat) : withComputed f n = f n := by
  cases n <;> rfl

/--
The value after `k` passes of a 24-bit register, over the naturals.  Each value is
computed before the next pass, so the passes of a long stride do not pile up.
-/
def stride : Nat -> Nat -> Nat
  | 0, n => n
  | k + 1, n => withComputed (fun m => stride k m) (passNat n)

theorem stride_succ (k n : Nat) : stride (k + 1) n = stride k (passNat n) :=
  withComputed_eq (fun m => stride k m) (passNat n)

namespace Walk

theorem value_lt (w : Walk) (n : Nat) : (w.value n).toNat < 2 ^ 24 := by
  rw [value_eq_orbit]
  exact orbit_succ_lt w.register n

theorem toNat_value_add (w : Walk) (n k : Nat) :
    (w.value (n + k)).toNat = stride k (w.value n).toNat := by
  induction k generalizing n with
  | zero => rfl
  | succ k ih =>
      have hstep : (w.value (n + 1)).toNat = passNat (w.value n).toNat :=
        toNat_pass_of_lt (value_lt w n)
      rw [stride_succ, ← hstep, ← ih, Nat.add_right_comm]
      rfl

theorem toNat_value_of_stride
    {w : Walk} {n k x y : Nat}
    (hfrom : (w.value n).toNat = x)
    (hstride : stride k x = y) :
    (w.value (n + k)).toNat = y := by
  rw [toNat_value_add, hfrom, hstride]

/-!
## Milestones

The milestones are the first value, the last one of the tail, the first one of the cycle, the
ones that lie a prime part of the period behind it, and the two that close the cycle.
-/

theorem toNat_value_start :
    (start.value 0).toNat = 5970144 ∧
    (start.value 3355).toNat = 15944093 ∧
    (start.value 3356).toNat = 14833070 ∧
    (start.value 3470).toNat = 6408666 ∧
    (start.value 3722).toNat = 9154048 ∧
    (start.value 5674).toNat = 13449765 ∧
    (start.value 6833).toNat = 9006805 ∧
    (start.value 10309).toNat = 13943296 ∧
    (start.value 10310).toNat = 14833070 := by
  have hfirst : (start.value 0).toNat = stride 1 0 := toNat_pass_of_lt (by decide)
  have h0 : (start.value 0).toNat = 5970144 := hfirst.trans (by decide +kernel)
  have h3355 : (start.value 3355).toNat = 15944093 :=
    toNat_value_of_stride (n := 0) (k := 3355) h0 (by decide +kernel)
  have h3356 : (start.value 3356).toNat = 14833070 :=
    toNat_value_of_stride (k := 1) h3355 (by decide +kernel)
  have h3470 : (start.value 3470).toNat = 6408666 :=
    toNat_value_of_stride (k := 114) h3356 (by decide +kernel)
  have h3722 : (start.value 3722).toNat = 9154048 :=
    toNat_value_of_stride (k := 252) h3470 (by decide +kernel)
  have h5674 : (start.value 5674).toNat = 13449765 :=
    toNat_value_of_stride (k := 1952) h3722 (by decide +kernel)
  have h6833 : (start.value 6833).toNat = 9006805 :=
    toNat_value_of_stride (k := 1159) h5674 (by decide +kernel)
  have h10309 : (start.value 10309).toNat = 13943296 :=
    toNat_value_of_stride (k := 3476) h6833 (by decide +kernel)
  have h10310 : (start.value 10310).toNat = 14833070 :=
    toNat_value_of_stride (k := 1) h10309 (by decide +kernel)
  exact ⟨h0, h3355, h3356, h3470, h3722, h5674, h6833, h10309, h10310⟩

theorem prime_part_eq {q : Nat} (hq : q.Prime) (hdvd : q ∣ 2 * 3 * 19 * 61) :
    q = 2 ∨ q = 3 ∨ q = 19 ∨ q = 61 := by
  rw [hq.dvd_mul, hq.dvd_mul, hq.dvd_mul, Nat.prime_dvd_prime_iff_eq hq (by norm_num),
    Nat.prime_dvd_prime_iff_eq hq (by norm_num), Nat.prime_dvd_prime_iff_eq hq (by norm_num),
    Nat.prime_dvd_prime_iff_eq hq (by norm_num), or_assoc, or_assoc] at hdvd
  exact hdvd

theorem value_ne_of_toNat
    {w : Walk} {m n x y : Nat}
    (hm : (w.value m).toNat = x)
    (hn : (w.value n).toNat = y)
    (hne : x ≠ y) :
    w.value m ≠ w.value n := by
  intro heq
  rw [heq, hn] at hm
  exact hne hm.symm

theorem loops_start : Loops start.value 3356 10310 := by
  rcases toNat_value_start with
    ⟨_, h3355, h3356, h3470, h3722, h5674, h6833, h10309, h10310⟩
  show Loops start.value 3356 (3356 + 6954)
  apply loops_of_values (by decide)
  · exact UInt32.toNat_inj.mp (h10310.trans h3356.symm)
  · intro q hq hdvd
    rcases prime_part_eq hq hdvd with rfl | rfl | rfl | rfl
    · exact value_ne_of_toNat h6833 h3356 (by decide)
    · exact value_ne_of_toNat h5674 h3356 (by decide)
    · exact value_ne_of_toNat h3722 h3356 (by decide)
    · exact value_ne_of_toNat h3470 h3356 (by decide)
  · intro last hlast
    cases hlast
    exact value_ne_of_toNat h10309 h3355 (by decide)

theorem loopReport_start :
    start.loopReport 3356 10310 =
      { first := 5970144
        lastBeforeRepeat := 13943296
        repeated := 14833070
        distinct := 10310
        cycleStart := 3356 } := by
  rcases toNat_value_start with ⟨h0, _, _, _, _, _, _, h10309, h10310⟩
  apply Report.ext
  · exact UInt32.toNat_inj.mp h0
  · exact UInt32.toNat_inj.mp h10309
  · exact UInt32.toNat_inj.mp h10310
  · rfl
  · rfl

end Walk

/--
The program finds its loop under every cap that leaves room for the values before
it, and under any other cap it fails by the cap.  So it never fails under the
default cap.
-/
theorem solve_eq (cap : Nat) :
    solve cap =
      (if 10310 ≤ cap then
        .ok
          { first := 5970144
            lastBeforeRepeat := 13943296
            repeated := 14833070
            distinct := 10310
            cycleStart := 3356 }
      else
        .error (.capExceeded cap)) ∧
    exists r, solve defaultCap = .ok r := by
  have hsolve : forall m, solve m =
      if 10310 ≤ m then .ok (Walk.start.loopReport 3356 10310) else .error (.capExceeded m) := by
    intro m
    rw [solve_eq_search]
    exact Walk.search_eq_of_loops Walk.loops_start m
  constructor
  · rw [hsolve, Walk.loopReport_start]
  · exact ⟨_, (hsolve defaultCap).trans (if_pos (by decide))⟩

end HashOrbit
