import HashOrbit.Proofs.Walk.Loop
import Mathlib.Order.CompletePartialOrder

/-!
# Walks that meet

Two walks that share a value go on alike from there on.  The cycle of a walk and its
length can be read off any tail of the walk, so walks that meet come to the same
cycle, however long their own ways to it are.  Walks that never meet have no value in
common.
-/

namespace HashOrbit

namespace Loops

section Tails

variable {α : Type} {term term' : Nat -> α} {start stop start' stop' i j : Nat}

theorem mem_cycle_iff (h : Loops term start stop) (x : α) :
    x ∈ term '' Set.Ico start stop <-> forall n, exists k, n ≤ k ∧ term k = x := by
  constructor
  · intro hx n
    rcases hx with ⟨k, hk, hkx⟩
    refine ⟨k + (stop - start) * n, ?_, ?_⟩
    · exact Nat.le_add_left_of_le (Nat.le_mul_of_pos_left n h.period_pos)
    · rw [h.term_add_mul_period hk.1, hkx]
  · intro hx
    rcases hx start with ⟨k, hk, hkx⟩
    have horigin : start ≤ origin start stop k := by
      unfold origin
      rw [if_neg (Nat.not_lt.mpr hk)]
      exact Nat.le_add_right start _
    exact ⟨origin start stop k, ⟨horigin, h.origin_lt k⟩, (h.term_origin k).trans hkx⟩

theorem recurs_of_tail
    {x : α}
    (htail : forall k, term (i + k) = term' (j + k))
    (hx : forall n, exists k, n ≤ k ∧ term k = x) :
    forall n, exists k, n ≤ k ∧ term' k = x := by
  intro n
  rcases hx (i + n) with ⟨k, hk, hkx⟩
  refine ⟨j + (k - i), by lia, ?_⟩
  rw [← htail, Nat.add_sub_cancel' (by lia), hkx]

theorem cycle_eq_of_tail
    (h : Loops term start stop)
    (h' : Loops term' start' stop')
    (htail : forall k, term (i + k) = term' (j + k)) :
    term '' Set.Ico start stop = term' '' Set.Ico start' stop' := by
  ext x
  rw [h.mem_cycle_iff, h'.mem_cycle_iff]
  constructor
  · exact recurs_of_tail htail
  · exact recurs_of_tail fun k => (htail k).symm

theorem eventually_periodic_of_tail
    {period : Nat}
    (htail : forall k, term (i + k) = term' (j + k))
    (hperiod : exists s, forall n, s ≤ n -> term (n + period) = term n) :
    exists s, forall n, s ≤ n -> term' (n + period) = term' n := by
  rcases hperiod with ⟨s, hs⟩
  refine ⟨j + s, ?_⟩
  intro n hn
  have hnow := htail (n - j)
  have hlater := htail (n - j + period)
  rw [show j + (n - j) = n by lia] at hnow
  rw [show j + (n - j + period) = n + period by lia, ← Nat.add_assoc, hs _ (by lia), hnow]
    at hlater
  exact hlater.symm

theorem period_eq_of_tail
    (h : Loops term start stop)
    (h' : Loops term' start' stop')
    (htail : forall k, term (i + k) = term' (j + k)) :
    stop - start = stop' - start' := by
  apply Nat.le_antisymm
  · apply h.isLeast_period.2
    exact ⟨h'.period_pos,
      eventually_periodic_of_tail (fun k => (htail k).symm) h'.isLeast_period.1.2⟩
  · apply h'.isLeast_period.2
    exact ⟨h.period_pos, eventually_periodic_of_tail htail h.isLeast_period.1.2⟩

end Tails

end Loops

open Walk

/--
Two searched walks that share a value share their cycle: it has the same length and
the same values, wherever the walks come to it.  Otherwise no value that one report
counts is counted by the other.
-/
theorem cycles_of_searches
    {register register' : UInt32} {cap cap' : Nat} {r r' : Report}
    (hsearch : search (⟨register⟩ : Walk) cap = .ok r)
    (hsearch' : search (⟨register'⟩ : Walk) cap' = .ok r') :
    ((exists x, x ∈ haltingValues ⟨register⟩ ∧ x ∈ haltingValues ⟨register'⟩) ->
      (exists period, r.cycleLength = .ok period ∧ r'.cycleLength = .ok period) ∧
      value ⟨register⟩ '' Set.Ico r.cycleStart r.distinct =
        value ⟨register'⟩ '' Set.Ico r'.cycleStart r'.distinct) ∧
    ((¬ exists x, x ∈ haltingValues ⟨register⟩ ∧ x ∈ haltingValues ⟨register'⟩) ->
      Disjoint (value ⟨register⟩ '' Set.Iio r.distinct)
        (value ⟨register'⟩ '' Set.Iio r'.distinct)) := by
  rcases search_eq_ok_iff.mp hsearch with ⟨hloops, _, _⟩
  rcases search_eq_ok_iff.mp hsearch' with ⟨hloops', _, _⟩
  constructor
  · intro hmeet
    rcases hmeet with ⟨x, ⟨i, hi⟩, ⟨j, hj⟩⟩
    have hcommon : value ⟨register⟩ i = value ⟨register'⟩ j := hi.trans hj.symm
    have htail := value_add_of_eq hcommon
    have hlength := Report.cycleLength_eq_ok (Nat.le_of_lt hloops.start_lt)
    have hlength' := Report.cycleLength_eq_ok (Nat.le_of_lt hloops'.start_lt)
    rw [← hloops.period_eq_of_tail hloops' htail] at hlength'
    exact ⟨⟨_, hlength, hlength'⟩, hloops.cycle_eq_of_tail hloops' htail⟩
  · intro hnever
    rw [Set.disjoint_left]
    intro x hx hx'
    exact hnever ⟨x, Set.image_subset_range _ _ hx, Set.image_subset_range _ _ hx'⟩

theorem search_16403262 :
    search (⟨16403262⟩ : Walk) 5 = .ok ⟨13411243, 13476779, 15802720, 5, 1⟩ :=
  search_eq_of_values (by decide) (by decide) (by decide +kernel) (by decide +kernel)
    (by decide +kernel)

theorem search_6996688 :
    search (⟨6996688⟩ : Walk) 1 = .ok ⟨6996688, 6996688, 6996688, 1, 0⟩ :=
  search_eq_of_values (by decide) (by decide) (by decide +kernel) (by decide +kernel)
    (by decide +kernel)

theorem cycles_of_searches_3050674 :
    search (⟨3050674⟩ : Walk) 6 = .ok ⟨788732, 15802720, 16213545, 6, 2⟩ ∧
    search (⟨16403262⟩ : Walk) 5 = .ok ⟨13411243, 13476779, 15802720, 5, 1⟩ ∧
    search (⟨6996688⟩ : Walk) 1 = .ok ⟨6996688, 6996688, 6996688, 1, 0⟩ ∧
    value ⟨3050674⟩ '' Set.Ico 2 6 = value ⟨16403262⟩ '' Set.Ico 1 5 ∧
    Disjoint (value ⟨3050674⟩ '' Set.Iio 6) (value ⟨6996688⟩ '' Set.Iio 1) := by
  rcases cycles_of_searches search_3050674 search_16403262 with ⟨hshared, _⟩
  rcases cycles_of_searches search_3050674 search_6996688 with ⟨hmeet, hdisjoint⟩
  refine ⟨search_3050674, search_16403262, search_6996688, (hshared ?_).2, hdisjoint ?_⟩
  · exact ⟨15802720, ⟨5, by decide +kernel⟩, ⟨1, by decide +kernel⟩⟩
  · intro hcommon
    rcases (hmeet hcommon).1 with ⟨period, hfour, hone⟩
    cases hfour
    cases hone

/-!
## Resuming a walk

A walk that starts from a value of another walk yields what came after that
value.  Its loop is the loop of the first walk without the values left behind:
on the tail these are taken off both indices, and on the cycle the loop is
turned, so that the new walk starts on its cycle.
-/

namespace Loops

variable {α : Type} {term : Nat -> α} {start stop k : Nat}

theorem drop_tail (h : Loops term start stop) (hk : k ≤ start) :
    Loops (fun n => term (k + n)) (start - k) (stop - k) where
  start_lt := by
    have hlt := h.start_lt
    lia
  injective := by
    intro i j hi hj hij
    have heq : k + i = k + j := h.injective (k + i) (k + j) (by lia) (by lia) hij
    exact Nat.add_left_cancel heq
  closes := by
    intro n
    have hlt := h.start_lt
    have hclose := h.closes n
    rw [show stop + n = k + (stop - k + n) by lia,
      show start + n = k + (start - k + n) by lia] at hclose
    exact hclose

theorem turn (h : Loops term start stop) (hk : start ≤ k) :
    Loops (fun n => term (k + n)) 0 (stop - start) where
  start_lt := h.period_pos
  injective := by
    intro i j hi hj hij
    have hmod : k + i ≡ k + j [MOD stop - start] := by
      cases (h.term_eq_iff (k + i) (k + j)).mp hij with
      | inl heq => rw [heq]
      | inr hcycle => exact hcycle.right.right
    exact (Nat.ModEq.add_left_cancel' k hmod).eq_of_lt_of_lt hi hj
  closes := by
    intro n
    show term (k + (stop - start + n)) = term (k + (0 + n))
    rw [show k + (stop - start + n) = k + n + (stop - start) by lia, Nat.zero_add]
    exact h.term_add_period (Nat.le_add_right_of_le hk)

end Loops

/-!
## Walks from a value
-/

namespace Walk

theorem value_from_value (w : Walk) (k n : Nat) :
    value ⟨w.value k⟩ n = w.value (k + 1 + n) := by
  induction n with
  | zero => rfl
  | succ n ih =>
      show pass (value ⟨w.value k⟩ n) = pass (w.value (k + 1 + n))
      rw [ih]

section Resuming

variable {w : Walk} {start stop cap k : Nat}

theorem search_from_tail
    (hloops : Loops w.value start stop)
    (hcap : stop ≤ cap)
    (hk : k < start) :
    search (⟨w.value k⟩ : Walk) cap =
      .ok ⟨w.value (k + 1), w.value (stop - 1), w.value stop, stop - (k + 1),
        start - (k + 1)⟩ := by
  have hlt := hloops.start_lt
  have hloops' : Loops (value ⟨w.value k⟩) (start - (k + 1)) (stop - (k + 1)) := by
    rw [funext (value_from_value w k)]
    exact hloops.drop_tail hk
  refine search_eq_ok_iff.mpr ⟨hloops', show stop - (k + 1) ≤ cap by lia, ?_⟩
  unfold loopReport
  rw [value_from_value, value_from_value, value_from_value,
    show k + 1 + (stop - (k + 1) - 1) = stop - 1 by lia,
    show k + 1 + (stop - (k + 1)) = stop by lia]

theorem search_from_cycle
    (hloops : Loops w.value start stop)
    (hcap : stop ≤ cap)
    (hk : start ≤ k) :
    search (⟨w.value k⟩ : Walk) cap =
      .ok ⟨w.value (k + 1), w.value k, w.value (k + 1), stop - start, 0⟩ := by
  have hlt := hloops.start_lt
  have hloops' : Loops (value ⟨w.value k⟩) 0 (stop - start) := by
    rw [funext (value_from_value w k)]
    exact hloops.turn (Nat.le_succ_of_le hk)
  refine search_eq_ok_iff.mpr ⟨hloops', show stop - start ≤ cap by lia, ?_⟩
  unfold loopReport
  rw [value_from_value, value_from_value, value_from_value,
    show k + 1 + (stop - start - 1) = k + (stop - start) by lia,
    hloops.term_add_period hk, hloops.term_add_period (Nat.le_succ_of_le hk)]

end Resuming

end Walk

open Walk

/--
A search that starts from a value of a searched walk finds the same cycle.  From the
tail it reports fewer different values, and from the cycle it reports the cycle
alone, which starts and is closed by the value after the one it starts from.
-/
theorem search_from_value
    {register : UInt32} {cap : Nat} {r : Report}
    (hsearch : search (⟨register⟩ : Walk) cap = .ok r)
    (k : Nat) :
    exists (r' : Report) (period : Nat),
      search (⟨value ⟨register⟩ k⟩ : Walk) cap = .ok r' ∧
      r.cycleLength = .ok period ∧
      r'.cycleLength = .ok period ∧
      (k < r.cycleStart ->
        r'.first = value ⟨register⟩ (k + 1) ∧
        r'.lastBeforeRepeat = r.lastBeforeRepeat ∧
        r'.repeated = r.repeated ∧
        r'.distinct = r.distinct - (k + 1) ∧
        r'.cycleStart = r.cycleStart - (k + 1)) ∧
      (r.cycleStart ≤ k ->
        r'.first = value ⟨register⟩ (k + 1) ∧
        r'.repeated = value ⟨register⟩ (k + 1) ∧
        r'.lastBeforeRepeat = value ⟨register⟩ k ∧
        r'.distinct = period ∧
        r'.cycleStart = 0) := by
  rcases search_eq_ok_iff.mp hsearch with ⟨hloops, hcap, hr⟩
  have hlt := hloops.start_lt
  have hlast : r.lastBeforeRepeat = value ⟨register⟩ (r.distinct - 1) :=
    congrArg Report.lastBeforeRepeat hr
  have hrepeated : r.repeated = value ⟨register⟩ r.distinct := congrArg Report.repeated hr
  have hlength := Report.cycleLength_eq_ok (Nat.le_of_lt hlt)
  by_cases hk : k < r.cycleStart
  · have hsame :
        r.distinct - (k + 1) - (r.cycleStart - (k + 1)) = r.distinct - r.cycleStart :=
      Nat.sub_sub_sub_cancel_right hk
    refine ⟨_, r.distinct - r.cycleStart, search_from_tail hloops hcap hk, hlength, ?_, ?_, ?_⟩
    · rw [← hsame]
      exact Report.cycleLength_eq_ok (Nat.sub_le_sub_right (Nat.le_of_lt hlt) (k + 1))
    · intro _
      exact ⟨rfl, hlast.symm, hrepeated.symm, rfl, rfl⟩
    · intro hcycle
      exact absurd hk (Nat.not_lt.mpr hcycle)
  · have hcycle : r.cycleStart ≤ k := Nat.le_of_not_lt hk
    refine
      ⟨_, r.distinct - r.cycleStart, search_from_cycle hloops hcap hcycle, hlength, ?_, ?_, ?_⟩
    · exact Report.cycleLength_eq_ok (Nat.zero_le _)
    · intro htail
      exact absurd htail hk
    · intro _
      exact ⟨rfl, rfl, rfl, rfl, rfl⟩

theorem search_from_value_3050674 :
    search (⟨3050674⟩ : Walk) 6 = .ok ⟨788732, 15802720, 16213545, 6, 2⟩ ∧
    (exists r, search (⟨value ⟨3050674⟩ 0⟩ : Walk) 6 = .ok r ∧
      r.first = value ⟨3050674⟩ 1 ∧ r.lastBeforeRepeat = 15802720 ∧
      r.distinct = 5 ∧ r.cycleStart = 1) ∧
    (exists r, search (⟨value ⟨3050674⟩ 1000⟩ : Walk) 6 = .ok r ∧
      r.first = value ⟨3050674⟩ 1001 ∧ r.lastBeforeRepeat = value ⟨3050674⟩ 1000 ∧
      r.distinct = 4 ∧ r.cycleStart = 0) := by
  rcases search_from_value search_3050674 0 with ⟨tail, _, htail, _, _, hshorter, _⟩
  rcases search_from_value search_3050674 1000 with ⟨cycle, _, hcycle, hperiod, _, _, hturned⟩
  rcases hshorter (by decide) with ⟨htailFirst, htailLast, _, htailDistinct, htailStart⟩
  rcases hturned (by decide) with ⟨hfirst, _, hlast, hdistinct, hstart⟩
  cases hperiod
  exact ⟨search_3050674,
    ⟨tail, htail, htailFirst, htailLast, htailDistinct, htailStart⟩,
    ⟨cycle, hcycle, hfirst, hlast, hdistinct, hstart⟩⟩

end HashOrbit
