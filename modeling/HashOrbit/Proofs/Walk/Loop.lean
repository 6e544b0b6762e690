import HashOrbit.Proofs.Search.Verdict
import Mathlib.Data.Nat.ModEq
import Mathlib.Data.Set.Function
import Mathlib.Order.Bounds.Basic
import Mathlib.Order.Lattice.Nat

/-!
# Walks that loop

A sequence loops when its terms are different up to some index, and from that index on
repeat what came after an earlier one.  The two indices decide which terms are equal.  A
search of a walk returns a report exactly when the values loop under the cap, and the report
names the two indices: the later one is the number of different values, the earlier one the
start of the cycle.
-/

namespace HashOrbit

/--
The terms up to index `stop` are different, and those from `stop` on repeat the
terms from `start` on.
-/
structure Loops {α : Type} (term : Nat -> α) (start stop : Nat) : Prop where
  start_lt : start < stop
  injective : forall i j, i < stop -> j < stop -> term i = term j -> i = j
  closes : forall k, term (stop + k) = term (start + k)

namespace Loops

def origin (start stop i : Nat) : Nat :=
  if i < start then i else start + (i - start) % (stop - start)

section Terms

variable {α : Type} {term : Nat -> α} {start stop : Nat}

theorem period_pos (h : Loops term start stop) : 0 < stop - start :=
  Nat.sub_pos_of_lt h.start_lt

theorem term_add_period (h : Loops term start stop) {i : Nat} (hi : start ≤ i) :
    term (i + (stop - start)) = term i := by
  have hlt := h.start_lt
  have hclose := h.closes (i - start)
  rw [show stop + (i - start) = i + (stop - start) by lia,
    show start + (i - start) = i by lia] at hclose
  exact hclose

theorem term_add_mul_period (h : Loops term start stop) {i : Nat} (hi : start ≤ i) (k : Nat) :
    term (i + (stop - start) * k) = term i := by
  induction k with
  | zero => rfl
  | succ k ih =>
      rw [Nat.mul_succ, ← Nat.add_assoc, h.term_add_period (Nat.le_add_right_of_le hi), ih]

theorem origin_lt (h : Loops term start stop) (i : Nat) : origin start stop i < stop := by
  have hlt := h.start_lt
  have hmod : (i - start) % (stop - start) < stop - start := Nat.mod_lt _ h.period_pos
  unfold origin
  split <;> lia

theorem term_origin (h : Loops term start stop) (i : Nat) :
    term (origin start stop i) = term i := by
  unfold origin
  split
  · rfl
  · rename_i hi
    have hsum := Nat.mod_add_div (i - start) (stop - start)
    have hi' : i =
        start + (i - start) % (stop - start) + (stop - start) * ((i - start) / (stop - start)) := by
      rw [Nat.add_assoc, hsum]
      lia
    rw [congrArg term hi', h.term_add_mul_period (Nat.le_add_right start _)]

theorem term_eq_iff_origin_eq (h : Loops term start stop) (i j : Nat) :
    term i = term j <-> origin start stop i = origin start stop j := by
  constructor
  · intro hij
    apply h.injective _ _ (h.origin_lt i) (h.origin_lt j)
    rw [h.term_origin, h.term_origin, hij]
  · intro hij
    rw [← h.term_origin i, ← h.term_origin j, hij]

theorem origin_eq_iff (start stop i j : Nat) :
    origin start stop i = origin start stop j <->
      i = j ∨ (start ≤ i ∧ start ≤ j ∧ i ≡ j [MOD stop - start]) := by
  unfold origin
  by_cases hi : i < start
  · by_cases hj : j < start
    · rw [if_pos hi, if_pos hj]
      lia
    · rw [if_pos hi, if_neg hj]
      lia
  · by_cases hj : j < start
    · rw [if_neg hi, if_pos hj]
      lia
    · rw [if_neg hi, if_neg hj, Nat.add_right_inj]
      have hi' : start ≤ i := Nat.le_of_not_lt hi
      have hj' : start ≤ j := Nat.le_of_not_lt hj
      have hshift : i ≡ j [MOD stop - start] <-> i - start ≡ j - start [MOD stop - start] := by
        have hadd := Nat.ModEq.add_iff_left (a := start) (b := start) (c := i - start)
          (d := j - start) (Nat.ModEq.refl (n := stop - start) start)
        rw [Nat.add_sub_cancel' hi', Nat.add_sub_cancel' hj'] at hadd
        exact hadd
      rw [hshift]
      constructor
      · intro hmod
        exact Or.inr ⟨hi', hj', hmod⟩
      · intro h
        cases h with
        | inl heq => rw [heq]
        | inr hcycle => exact hcycle.right.right

theorem term_eq_iff (h : Loops term start stop) (i j : Nat) :
    term i = term j <->
      i = j ∨ (start ≤ i ∧ start ≤ j ∧ i ≡ j [MOD stop - start]) := by
  rw [h.term_eq_iff_origin_eq, origin_eq_iff]

theorem isLeast_start (h : Loops term start stop) :
    IsLeast {s | exists p, 0 < p ∧ forall n, s ≤ n -> term (n + p) = term n} start := by
  constructor
  · exact ⟨stop - start, h.period_pos, fun n hn => h.term_add_period hn⟩
  · intro s hs
    rcases hs with ⟨p, hp, hperiod⟩
    cases (h.term_eq_iff (s + p) s).mp (hperiod s (Nat.le_refl s)) with
    | inl heq => exact absurd heq (by lia)
    | inr hcycle => exact hcycle.right.left

theorem isLeast_period (h : Loops term start stop) :
    IsLeast {p | 0 < p ∧ exists s, forall n, s ≤ n -> term (n + p) = term n}
      (stop - start) := by
  constructor
  · exact ⟨h.period_pos, start, fun n hn => h.term_add_period hn⟩
  · intro p hp
    rcases hp with ⟨hpos, s, hperiod⟩
    have hsame := hperiod (max s start) (Nat.le_max_left s start)
    cases (h.term_eq_iff _ _).mp hsame with
    | inl heq => exact absurd heq (by lia)
    | inr hcycle => exact Nat.le_of_dvd hpos (Nat.add_modEq_left_iff.mp hcycle.right.right)

theorem isLeast_of_lt (h : Loops term start stop) {k : Nat} (hk : k < stop) :
    IsLeast {n | term n = term k} k := by
  constructor
  · rfl
  · intro n hn
    apply Nat.le_of_not_lt
    intro hlt
    exact Nat.ne_of_lt hlt (h.injective n k (Nat.lt_trans hlt hk) hk hn)

theorem exists_lt_term_eq (h : Loops term start stop) (i : Nat) :
    exists k, k < stop ∧ term k = term i :=
  ⟨origin start stop i, h.origin_lt i, h.term_origin i⟩

end Terms

end Loops

/-!
## The report of a walk
-/

attribute [ext] Report

namespace Walk

theorem value_add_of_eq {w w' : Walk} {i j : Nat} (h : w.value i = w'.value j) (k : Nat) :
    w.value (i + k) = w'.value (j + k) := by
  induction k with
  | zero => exact h
  | succ k ih =>
      show pass (w.value (i + k)) = pass (w'.value (j + k))
      rw [ih]

def loopReport (w : Walk) (start stop : Nat) : Report where
  first := w.value 0
  lastBeforeRepeat := w.value (stop - 1)
  repeated := w.value stop
  distinct := stop
  cycleStart := start

section Reports

variable {w : Walk} {start stop : Nat}

theorem mem_values_of_loops (hloops : Loops w.value start stop) :
    w.value stop ∈ Terms.values w.value stop :=
  Terms.mem_values.mpr ⟨start, hloops.start_lt, (hloops.closes 0).symm⟩

theorem reportOf_values (hloops : Loops w.value start stop) (cap : Nat) :
    (History.holding cap (Terms.values w.value stop)).reportOf (w.value stop) =
      w.loopReport start stop := by
  have hlt := hloops.start_lt
  have hnodup := Terms.nodup_values_iff.mpr hloops.injective
  have hmem := mem_values_of_loops hloops
  let h := History.holding cap (Terms.values w.value stop)
  have haccepted : h.accepted = Terms.values w.value stop := rfl
  apply Report.ext
  · have hat := h.getElem?_zero_eq_first hmem
    rw [haccepted, Terms.getElem?_values (by lia)] at hat
    exact (Option.some.inj hat).symm
  · have hat := h.getElem?_pred_eq_lastBeforeRepeat hmem
    rw [haccepted, Terms.length_values, Terms.getElem?_values (by lia)] at hat
    exact (Option.some.inj hat).symm
  · rfl
  · exact Terms.length_values w.value stop
  · apply Eq.symm
    apply (h.eq_cycleStart_iff hnodup hmem start).mpr
    rw [show w.value stop = w.value start from hloops.closes 0]
    exact Terms.getElem?_values hlt

theorem loops_of_mem_values
    (hnodup : (Terms.values w.value stop).Nodup)
    (hmem : w.value stop ∈ Terms.values w.value stop) :
    exists start, Loops w.value start stop := by
  rcases Terms.mem_values.mp hmem with ⟨start, hlt, hrepeat⟩
  exact ⟨start, hlt, Terms.nodup_values_iff.mp hnodup, value_add_of_eq hrepeat.symm⟩

/-- A search of a walk succeeds exactly on a loop that fits under the cap. -/
theorem search_eq_ok_iff {cap : Nat} {r : Report} :
    search w cap = .ok r <->
      Loops w.value r.cycleStart r.distinct ∧ r.distinct ≤ cap ∧
        r = w.loopReport r.cycleStart r.distinct := by
  constructor
  · intro hsearch
    rcases w.enumerates.exists_run cap with ⟨stop, hrun, hverdict⟩
    change Verdict cap (Terms.values w.value stop) _ (search w cap) at hverdict
    rw [hsearch] at hverdict
    cases hverdict with
    | repeated hnext hmem =>
        cases hnext.symm.trans (w.enumerates stop)
        rcases loops_of_mem_values hrun.nodup hmem with ⟨start, hloops⟩
        rw [reportOf_values hloops cap]
        have hcap := hrun.le_cap
        rw [Terms.length_values] at hcap
        exact ⟨hloops, hcap, rfl⟩
  · rintro ⟨hloops, hcap, hr⟩
    rw [hr, ← reportOf_values hloops cap]
    have hrun :
        FreshRun w cap (Terms.values w.value r.distinct) ⟨orbit w.register r.distinct⟩ :=
      { yields := w.enumerates.yields r.distinct
        nodup := Terms.nodup_values_iff.mpr hloops.injective
        le_cap := by
          rw [Terms.length_values]
          exact hcap }
    exact search_eq_of_verdict hrun
      (Verdict.repeated (w.enumerates r.distinct) (mem_values_of_loops hloops))

end Reports

theorem search_eq_of_values
    {w : Walk} {cap : Nat} {r : Report}
    (hlt : r.cycleStart < r.distinct)
    (hcap : r.distinct ≤ cap)
    (hnodup : (Terms.values w.value r.distinct).Nodup)
    (hrepeat : w.value r.distinct = w.value r.cycleStart)
    (hreport : w.loopReport r.cycleStart r.distinct = r) :
    search w cap = .ok r := by
  have hloops : Loops w.value r.cycleStart r.distinct :=
    ⟨hlt, Terms.nodup_values_iff.mp hnodup, value_add_of_eq hrepeat⟩
  exact search_eq_ok_iff.mpr ⟨hloops, hcap, hreport.symm⟩

/-!
## Halting values

The values that a walk ever yields are the register values that halt the program;
the index at which one first comes says how late.  A report of a walk describes
all of them: which indices hold the same value, and at which one each first comes.
-/

def haltingValues (w : Walk) : Set UInt32 :=
  Set.range w.value

noncomputable def haltIndex (w : Walk) (x : UInt32) : Nat :=
  sInf {n | w.value n = x}

theorem isLeast_haltIndex {w : Walk} {x : UInt32} (hx : x ∈ w.haltingValues) :
    IsLeast {n | w.value n = x} (w.haltIndex x) :=
  ⟨Nat.sInf_mem hx, fun _ hn => Nat.sInf_le hn⟩

theorem value_haltIndex {w : Walk} {x : UInt32} (hx : x ∈ w.haltingValues) :
    w.value (w.haltIndex x) = x :=
  (isLeast_haltIndex hx).1

section Looping

variable {w : Walk} {start stop : Nat}

theorem haltIndex_value (hloops : Loops w.value start stop) {k : Nat} (hk : k < stop) :
    w.haltIndex (w.value k) = k :=
  (isLeast_haltIndex ⟨k, rfl⟩).unique (hloops.isLeast_of_lt hk)

theorem haltIndex_lt (hloops : Loops w.value start stop) {x : UInt32}
    (hx : x ∈ w.haltingValues) :
    w.haltIndex x < stop := by
  rcases hx with ⟨i, hi⟩
  rcases hloops.exists_lt_term_eq i with ⟨k, hk, hki⟩
  rw [← hi, ← hki, haltIndex_value hloops hk]
  exact hk

theorem haltIndex_eq_iff (hloops : Loops w.value start stop) {k : Nat} (hk : k < stop)
    (x : UInt32) :
    x ∈ w.haltingValues ∧ w.haltIndex x = k <-> x = w.value k := by
  constructor
  · intro h
    rcases h with ⟨hx, hindex⟩
    rw [← hindex, value_haltIndex hx]
  · intro hx
    subst hx
    exact ⟨⟨k, rfl⟩, haltIndex_value hloops hk⟩

theorem bijOn_haltIndex (hloops : Loops w.value start stop) :
    Set.BijOn w.haltIndex w.haltingValues (Set.Iio stop) := by
  constructor
  · intro x hx
    exact haltIndex_lt hloops hx
  constructor
  · intro x hx y hy hxy
    rw [← value_haltIndex hx, ← value_haltIndex hy, hxy]
  · intro k hk
    exact ⟨w.value k, (haltIndex_eq_iff hloops hk _).mpr rfl⟩

end Looping

end Walk

/-!
## What a report says of all values
-/

open Walk

/--
A report of a walk says which indices of the endless walk hold the same value:
those on the cycle that are a multiple of its length apart.  The start of the
cycle is the least preperiod and its length the least period.
-/
theorem value_eq_iff_of_search
    {register : UInt32} {cap : Nat} {r : Report}
    (hsearch : search (⟨register⟩ : Walk) cap = .ok r) :
    exists period, r.cycleLength = .ok period ∧
      (forall i j,
        value ⟨register⟩ i = value ⟨register⟩ j <->
          i = j ∨ (r.cycleStart ≤ i ∧ r.cycleStart ≤ j ∧ i ≡ j [MOD period])) ∧
      IsLeast
        {s | exists p, 0 < p ∧
          forall n, s ≤ n -> value ⟨register⟩ (n + p) = value ⟨register⟩ n}
        r.cycleStart ∧
      IsLeast
        {p | 0 < p ∧ exists s,
          forall n, s ≤ n -> value ⟨register⟩ (n + p) = value ⟨register⟩ n}
        period := by
  rcases search_eq_ok_iff.mp hsearch with ⟨hloops, _, _⟩
  exact ⟨r.distinct - r.cycleStart, Report.cycleLength_eq_ok (Nat.le_of_lt hloops.start_lt),
    hloops.term_eq_iff, hloops.isLeast_start, hloops.isLeast_period⟩

theorem search_3050674 :
    search (⟨3050674⟩ : Walk) 6 = .ok ⟨788732, 15802720, 16213545, 6, 2⟩ :=
  search_eq_of_values (by decide) (by decide) (by decide +kernel) (by decide +kernel)
    (by decide +kernel)

theorem value_eq_iff_of_search_3050674 :
    search (⟨3050674⟩ : Walk) 6 = .ok ⟨788732, 15802720, 16213545, 6, 2⟩ ∧
    (forall i j,
      value ⟨3050674⟩ i = value ⟨3050674⟩ j <->
        i = j ∨ (2 ≤ i ∧ 2 ≤ j ∧ i ≡ j [MOD 4])) ∧
    IsLeast
      {s | exists p, 0 < p ∧
        forall n, s ≤ n -> value ⟨3050674⟩ (n + p) = value ⟨3050674⟩ n}
      2 ∧
    IsLeast
      {p | 0 < p ∧ exists s,
        forall n, s ≤ n -> value ⟨3050674⟩ (n + p) = value ⟨3050674⟩ n}
      4 := by
  rcases value_eq_iff_of_search search_3050674 with ⟨period, hperiod, hiff, hstart, hleast⟩
  cases hperiod
  exact ⟨search_3050674, hiff, hstart, hleast⟩

/--
The first values of a walk that a report counts are all the values it ever yields,
each with its first index.  The first value halts soonest and the last one before
the repeat latest.
-/
theorem haltIndex_of_search
    {register : UInt32} {cap : Nat} {r : Report}
    (hsearch : search (⟨register⟩ : Walk) cap = .ok r) :
    (forall x, x ∈ haltingValues ⟨register⟩ ->
      IsLeast {n | value ⟨register⟩ n = x} (haltIndex ⟨register⟩ x)) ∧
    Set.BijOn (haltIndex ⟨register⟩) (haltingValues ⟨register⟩) (Set.Iio r.distinct) ∧
    (forall x,
      x ∈ haltingValues ⟨register⟩ ∧ haltIndex ⟨register⟩ x = 0 <-> x = r.first) ∧
    (forall x,
      x ∈ haltingValues ⟨register⟩ ∧ haltIndex ⟨register⟩ x = r.distinct - 1 <->
        x = r.lastBeforeRepeat) ∧
    (forall x, x ∈ haltingValues ⟨register⟩ -> x ≠ r.lastBeforeRepeat ->
      haltIndex ⟨register⟩ x < haltIndex ⟨register⟩ r.lastBeforeRepeat) := by
  rcases search_eq_ok_iff.mp hsearch with ⟨hloops, _, hr⟩
  have hpos : 0 < r.distinct := Nat.zero_lt_of_lt hloops.start_lt
  have hfirst : r.first = value ⟨register⟩ 0 := congrArg Report.first hr
  have hlast : r.lastBeforeRepeat = value ⟨register⟩ (r.distinct - 1) :=
    congrArg Report.lastBeforeRepeat hr
  have hlt : r.distinct - 1 < r.distinct := Nat.sub_lt hpos Nat.one_pos
  rw [hfirst, hlast]
  refine ⟨fun x hx => isLeast_haltIndex hx, bijOn_haltIndex hloops, ?_, ?_, ?_⟩
  · exact haltIndex_eq_iff hloops hpos
  · exact haltIndex_eq_iff hloops hlt
  · intro x hx hne
    have hbound : haltIndex ⟨register⟩ x < r.distinct := haltIndex_lt hloops hx
    have hnot : haltIndex ⟨register⟩ x ≠ r.distinct - 1 := by
      intro heq
      exact hne ((haltIndex_eq_iff hloops hlt x).mp ⟨hx, heq⟩)
    rw [haltIndex_value hloops hlt]
    lia

theorem haltIndex_of_search_3050674 :
    search (⟨3050674⟩ : Walk) 6 = .ok ⟨788732, 15802720, 16213545, 6, 2⟩ ∧
    Set.BijOn (haltIndex ⟨3050674⟩) (haltingValues ⟨3050674⟩) (Set.Iio 6) ∧
    haltIndex ⟨3050674⟩ 788732 = 0 ∧
    haltIndex ⟨3050674⟩ 15802720 = 5 ∧
    (forall x, x ∈ haltingValues ⟨3050674⟩ -> x ≠ 15802720 ->
      haltIndex ⟨3050674⟩ x < haltIndex ⟨3050674⟩ 15802720) := by
  rcases haltIndex_of_search search_3050674 with ⟨_, hbijection, hfirst, hlast, hlatest⟩
  exact ⟨search_3050674, hbijection, ((hfirst 788732).mpr rfl).2,
    ((hlast 15802720).mpr rfl).2, hlatest⟩

end HashOrbit
