import HashOrbit.Proofs.Detector.Memory
import HashOrbit.Proofs.Pass.ClosedForm
import HashOrbit.Proofs.Search.Verdict
import HashOrbit.Proofs.Walk.Loop
import Mathlib.Order.Interval.Finset.Nat

/-!
# Searches under different caps

A cap shows only in the failure of the cap.  Two detectors that differ in their caps alone
go through a run side by side until the smaller cap is exceeded.  So a search under a
smaller cap finds the same report or stops at the cap, and the number of values in the
report decides which.
-/

namespace HashOrbit

namespace Detector

def withCap (d : Detector) (cap : Nat) : Detector :=
  { d with cap := cap }

theorem push_withCap
    {d : Detector} {cap : Nat} {v : UInt32}
    (hcap : d.cap ≤ cap)
    (hanswer : (d.push v).1 ≠ .error (.capExceeded d.cap)) :
    (d.withCap cap).push v = ((d.push v).1, (d.push v).2.withCap cap) := by
  have hpushed := pushed_push d v
  generalize d.push v = pushed at hpushed hanswer ⊢
  cases hpushed with
  | finished hfinished => exact push_of_finished (d := d.withCap cap) hfinished v
  | seen hopen hseen => exact push_of_seen (d := d.withCap cap) hopen hseen
  | full _ _ _ => exact absurd rfl hanswer
  | new hopen hnew hroom =>
      exact push_of_new (d := d.withCap cap) hopen hnew (Nat.lt_of_lt_of_le hroom hcap)

theorem pushAll_withCap
    {d : Detector} {cap : Nat} {vs : List UInt32}
    (hcap : d.cap ≤ cap)
    (hanswers :
      forall answer, answer ∈ (d.pushAll vs).1 -> answer ≠ .error (.capExceeded d.cap)) :
    (d.withCap cap).pushAll vs = ((d.pushAll vs).1, (d.pushAll vs).2.withCap cap) := by
  induction vs generalizing d with
  | nil => rfl
  | cons v vs ih =>
      rw [pushAll_cons] at hanswers ⊢
      have hfirst := hanswers _ List.mem_cons_self
      have hafter : (d.push v).2.cap = d.cap := cap_push d v
      have hrest : ((d.push v).2.withCap cap).pushAll vs =
          (((d.push v).2.pushAll vs).1, ((d.push v).2.pushAll vs).2.withCap cap) := by
        apply ih (hafter ▸ hcap)
        intro answer hmem
        rw [hafter]
        exact hanswers answer (List.mem_cons_of_mem _ hmem)
      rw [push_withCap hcap hfirst, hrest, pushAll_cons]

theorem fst_pushAll_take (d : Detector) (vs : List UInt32) (n : Nat) :
    (d.pushAll (vs.take n)).1 = (d.pushAll vs).1.take n := by
  induction vs generalizing d n with
  | nil => simp [pushAll]
  | cons v vs ih =>
      cases n with
      | zero => rfl
      | succ n =>
          rw [List.take_succ_cons, pushAll_cons, pushAll_cons, ih]
          rfl

end Detector

section Searching

variable {σ : Type} [Std.Stream σ UInt32]

theorem FreshRun.of_length_le
    {s rest : σ} {cap cap' : Nat} {vs : List UInt32}
    (hrun : FreshRun s cap vs rest)
    (hlength : vs.length ≤ cap') :
    FreshRun s cap' vs rest where
  yields := hrun.yields
  nodup := hrun.nodup
  le_cap := hlength

theorem search_eq_of_le
    {s : σ} {cap cap' : Nat}
    (hcap : cap ≤ cap')
    (hresult : search s cap ≠ .error (.capExceeded cap)) :
    search s cap' = search s cap := by
  rcases exists_run_of_search s cap with ⟨vs, rest, hrun, hverdict⟩
  have hrun' : FreshRun s cap' vs rest := hrun.of_length_le (Nat.le_trans hrun.le_cap hcap)
  generalize search s cap = result at hverdict hresult ⊢
  cases hverdict with
  | exhausted hend => exact search_eq_of_verdict hrun' (Verdict.exhausted hend)
  | repeated hnext hmem => exact search_eq_of_verdict hrun' (Verdict.repeated hnext hmem)
  | capped _ _ _ => exact absurd rfl hresult

theorem FreshRun.search_eq_error
    {s rest : σ} {cap cap' : Nat} {vs : List UInt32}
    (hrun : FreshRun s cap' vs rest)
    (hlength : cap < vs.length) :
    search s cap = .error (.capExceeded cap) := by
  have hsplit : vs = vs.take cap ++ vs[cap] :: vs.drop (cap + 1) := by simp
  have hyields := hrun.yields
  have hnodup := hrun.nodup
  rw [hsplit] at hyields hnodup
  rcases hyields.of_append with ⟨mid, hfirst, hlater⟩
  rcases List.nodup_append.mp hnodup with ⟨hnodup, _, hdisjoint⟩
  have htaken : (vs.take cap).length = cap := by
    rw [List.length_take]
    lia
  cases hlater with
  | cons hnext _ =>
      apply search_eq_of_verdict ⟨hfirst, hnodup, Nat.le_of_eq htaken⟩
      apply Verdict.capped hnext _ htaken
      intro hmem
      exact hdisjoint _ hmem _ List.mem_cons_self rfl

theorem search_eq_of_ok
    {s : σ} {cap' : Nat} {r : Report}
    (hsearch : search s cap' = .ok r)
    (cap : Nat) :
    search s cap = if r.distinct ≤ cap then .ok r else .error (.capExceeded cap) := by
  rcases search_eq_iff.mp hsearch with ⟨vs, rest, hrun, hverdict⟩
  cases hverdict with
  | repeated hnext hmem =>
      show search s cap = if vs.length ≤ cap then _ else _
      split
      · rename_i hle
        exact search_eq_of_verdict (hrun.of_length_le hle) (Verdict.repeated hnext hmem)
      · rename_i hgt
        exact hrun.search_eq_error (Nat.lt_of_not_le hgt)

end Searching

/--
Of two detectors, the one with the smaller cap gives the same answers and counts the same
values as the other until its cap is exceeded.  So a search that does not end with the
failure of its cap has the same result under every larger cap, and a report that is found
under the larger cap is found under the smaller one exactly if that one leaves room for
all values of the report.
-/
theorem cap_only_truncates {cap cap' : Nat} (hcap : cap ≤ cap') :
    (forall (vs : List UInt32) (n : Nat),
      (forall answer, answer ∈ ((Detector.new cap).pushAll vs).1.take n ->
        answer ≠ .error (.capExceeded cap)) ->
      ((Detector.new cap').pushAll vs).1.take n = ((Detector.new cap).pushAll vs).1.take n ∧
        forall k, k ≤ n ->
          ((Detector.new cap').pushAll (vs.take k)).2.distinct =
            ((Detector.new cap).pushAll (vs.take k)).2.distinct) ∧
    (forall (σ : Type) [Std.Stream σ UInt32] (s : σ),
      search s cap ≠ .error (.capExceeded cap) -> search s cap' = search s cap) ∧
    forall (σ : Type) [Std.Stream σ UInt32] (s : σ) (r : Report),
      search s cap' = .ok r ->
        search s cap = if r.distinct ≤ cap then .ok r else .error (.capExceeded cap) := by
  refine ⟨?_, ?_, ?_⟩
  · intro vs n hanswers
    have hruns : forall k, k ≤ n ->
        (Detector.new cap').pushAll (vs.take k) =
          (((Detector.new cap).pushAll (vs.take k)).1,
            ((Detector.new cap).pushAll (vs.take k)).2.withCap cap') := by
      intro k hk
      apply Detector.pushAll_withCap (d := Detector.new cap) hcap
      intro answer hmem
      rw [Detector.fst_pushAll_take] at hmem
      exact hanswers answer (List.take_subset_take_left _ hk hmem)
    constructor
    · rw [← Detector.fst_pushAll_take, hruns n (Nat.le_refl n), Detector.fst_pushAll_take]
    · intro k hk
      rw [hruns k hk]
      rfl
  · intro σ _ s hresult
    exact search_eq_of_le hcap hresult
  · intro σ _ s r hsearch
    exact search_eq_of_ok hsearch cap

theorem cap_only_truncates_two_three :
    2 ≤ 3 ∧
    ((Detector.new 2).pushAll [7, 8, 9, 7]).1.take 2 = [.ok (.first 7), .ok (.fresh 8)] ∧
    ((Detector.new 3).pushAll [7, 8, 9, 7]).1.take 2 = [.ok (.first 7), .ok (.fresh 8)] ∧
    search (Source.values [7, 8, 9, 7]) 3 = .ok ⟨7, 9, 7, 3, 0⟩ ∧
    search (Source.values [7, 8, 9, 7]) 2 = .error (.capExceeded 2) := by
  have hcap : 2 ≤ 3 := by decide
  rcases cap_only_truncates hcap with ⟨hpushes, _, hsearches⟩
  have hsmall : ((Detector.new 2).pushAll [7, 8, 9, 7]).1.take 2 =
      [.ok (.first 7), .ok (.fresh 8)] := by
    rw [((Detector.remembers_new 2).pushAll _).1]
    rfl
  have hsearch : search (Source.values [7, 8, 9, 7]) 3 = .ok ⟨7, 9, 7, 3, 0⟩ := by
    have hread : Yields (Source.values [7, 8, 9, 7]) [7, 8, 9] (Source.values [7]) :=
      Yields.cons rfl (Yields.cons rfl (Yields.cons rfl (Yields.nil _)))
    exact search_eq_of_verdict ⟨hread, by decide, by decide⟩ (Verdict.repeated rfl (by decide))
  refine ⟨hcap, hsmall, ?_, hsearch, hsearches _ _ _ hsearch⟩
  rw [(hpushes [7, 8, 9, 7] 2 ?_).1, hsmall]
  intro answer hmem
  rw [hsmall] at hmem
  rcases List.mem_cons.mp hmem with rfl | hmem
  · exact nofun
  · rw [List.mem_singleton.mp hmem]
    exact nofun

/-!
## Caps that a walk cannot reach

From its second value on a walk reads registers of 24 bits, and a pass does not see
the flag, so no more than half of the state space can come as different values
after the first one.  A cap above that bound is never reached.
-/

namespace Walk

theorem value_eq_pass (w : Walk) (n : Nat) : w.value n = pass (orbit w.register n) := by
  rw [value_eq_orbit, orbit_succ]

theorem orbit_succ_lt (register : UInt32) (n : Nat) :
    (orbit register (n + 1)).toNat < 2 ^ 24 := by
  rw [orbit_succ, ← stateSpace_eq]
  exact pass_lt _

theorem count_le_of_registers_lt
    {w : Walk} {n m : Nat}
    (hinjective : forall i j, i < m -> j < m -> w.value i = w.value j -> i = j)
    (hregisters : forall i, n ≤ i -> (orbit w.register i).toNat < 2 ^ 24) :
    m - n ≤ 2 ^ 23 := by
  have hcard : (Finset.Ico n m).card ≤ (Finset.range (2 ^ 23)).card := by
    apply Finset.card_le_card_of_injOn (fun i => withoutFlag (orbit w.register i).toNat)
    · intro i hi
      have hrange := Finset.mem_Ico.mp (Finset.mem_coe.mp hi)
      exact Finset.mem_coe.mpr (Finset.mem_range.mpr (withoutFlag_lt (hregisters i hrange.1)))
    · intro i hi j hj hij
      have hiRange := Finset.mem_Ico.mp (Finset.mem_coe.mp hi)
      have hjRange := Finset.mem_Ico.mp (Finset.mem_coe.mp hj)
      apply hinjective i j hiRange.2 hjRange.2
      rw [value_eq_pass, value_eq_pass]
      exact pass_eq_of_withoutFlag_eq hij
  rw [Nat.card_Ico, Finset.card_range] at hcard
  exact hcard

theorem count_le
    {w : Walk} {m : Nat}
    (hinjective : forall i j, i < m -> j < m -> w.value i = w.value j -> i = j) :
    m ≤ 2 ^ 23 + 1 ∧ (w.register.toNat < 2 ^ 24 -> m ≤ 2 ^ 23) := by
  constructor
  · have hcount := count_le_of_registers_lt (n := 1) hinjective (by
      intro i hi
      rw [← Nat.sub_add_cancel hi]
      exact orbit_succ_lt w.register (i - 1))
    lia
  · intro hregister
    apply count_le_of_registers_lt (n := 0) hinjective
    intro i _
    cases i with
    | zero => exact hregister
    | succ i => exact orbit_succ_lt w.register i

theorem search_cases (w : Walk) (cap : Nat) :
    (exists r, search w cap = .ok r) ∨
      (search w cap = .error (.capExceeded cap) ∧ (Terms.values w.value (cap + 1)).Nodup) := by
  rcases w.enumerates.exists_run cap with ⟨n, hrun, hverdict⟩
  have hnext := w.enumerates n
  change Verdict cap (Terms.values w.value n) _ (search w cap) at hverdict
  generalize search w cap = result at hverdict ⊢
  cases hverdict with
  | exhausted hend => cases hend
  | repeated _ _ => exact Or.inl ⟨_, rfl⟩
  | capped hnext' hnew hfull =>
      cases hnext'.symm.trans hnext
      rw [Terms.length_values] at hfull
      subst hfull
      refine Or.inr ⟨rfl, ?_⟩
      rw [Terms.values_succ, ← List.concat_eq_append]
      exact List.Nodup.concat hnew hrun.nodup

theorem search_eq_of_loops
    {w : Walk} {start stop : Nat}
    (hloops : Loops w.value start stop)
    (cap : Nat) :
    search w cap =
      if stop ≤ cap then .ok (w.loopReport start stop) else .error (.capExceeded cap) := by
  have hsearch : search w stop = .ok (w.loopReport start stop) :=
    search_eq_ok_iff.mpr ⟨hloops, Nat.le_refl stop, rfl⟩
  exact search_eq_of_ok hsearch cap

end Walk

open Walk

/--
A walk never exceeds a cap above half of the state space: whatever the register, a
search returns a report then, and under a smaller cap nothing but a report or the
failure of the cap.  The default cap is far above that bound.
-/
theorem search_of_large_cap (register : UInt32) (cap : Nat) :
    (2 ^ 23 + 1 ≤ cap ->
      exists r, search (⟨register⟩ : Walk) cap = .ok r ∧
        r.distinct ≤ 2 ^ 23 + 1 ∧
        (register.toNat < 2 ^ 24 -> r.distinct ≤ 2 ^ 23)) ∧
    ((exists r, search (⟨register⟩ : Walk) cap = .ok r) ∨
      search (⟨register⟩ : Walk) cap = .error (.capExceeded cap)) ∧
    defaultCap = 2 ^ 24 + 1 ∧
    2 ^ 23 + 1 ≤ defaultCap := by
  have hcases := search_cases ⟨register⟩ cap
  have hdefault : defaultCap = 2 ^ 24 + 1 := by decide
  constructor
  · intro hcap
    cases hcases with
    | inl hok =>
        rcases hok with ⟨r, hr⟩
        rcases search_eq_ok_iff.mp hr with ⟨hloops, _, _⟩
        exact ⟨r, hr, count_le hloops.injective⟩
    | inr hcapped =>
        have hcount := count_le (Terms.nodup_values_iff.mp hcapped.right)
        exact absurd hcount.left (by lia)
  constructor
  · cases hcases with
    | inl hok => exact Or.inl hok
    | inr hcapped => exact Or.inr hcapped.left
  constructor
  · exact hdefault
  · rw [hdefault]
    decide

end HashOrbit
