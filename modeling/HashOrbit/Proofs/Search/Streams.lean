import HashOrbit.Proofs.Search.Verdict
import Mathlib.Order.Bounds.Basic

/-!
# Searches of lists and of endless streams

The index at which a list first repeats a value decides what a search of the list returns:
a report if the index is not above the cap, and otherwise the failure that comes first, the
cap or the end of the list.  An endless stream is never exhausted, and a search of it is
bounded by the cap and by the number of words.
-/

namespace HashOrbit

/-- The value at index `i` of the list also stands before it. -/
def RepeatsAt (xs : List UInt32) (i : Nat) : Prop :=
  exists v, xs[i]? = some v ∧ v ∈ xs.take i

theorem length_le_of_repeatsAt
    {vs zs : List UInt32} {i : Nat}
    (hnodup : vs.Nodup)
    (hrepeats : RepeatsAt (vs ++ zs) i) :
    vs.length ≤ i := by
  rcases hrepeats with ⟨v, hat, hmem⟩
  apply Nat.le_of_not_lt
  intro hi
  rw [List.getElem?_append_left hi] at hat
  rw [List.take_append_of_le_length (Nat.le_of_lt hi)] at hmem
  rcases List.mem_iff_getElem?.mp hmem with ⟨j, hj⟩
  have hji : j < i := by
    rcases List.getElem?_eq_some_iff.mp hj with ⟨hlt, _⟩
    exact Nat.lt_of_lt_of_le hlt (List.length_take_le i vs)
  rw [List.getElem?_take_of_lt hji] at hj
  have heq : j = i := (List.getElem?_inj (Nat.lt_trans hji hi) hnodup).mp (hj.trans hat.symm)
  exact Nat.ne_of_lt hji heq

theorem repeatsAt_length_iff {vs zs : List UInt32} {v : UInt32} :
    RepeatsAt (vs ++ v :: zs) vs.length <-> v ∈ vs := by
  simp [RepeatsAt]

theorem isLeast_repeatsAt
    {vs zs : List UInt32} {v : UInt32}
    (hnodup : vs.Nodup)
    (hmem : v ∈ vs) :
    IsLeast {i | RepeatsAt (vs ++ v :: zs) i} vs.length :=
  ⟨repeatsAt_length_iff.mpr hmem, fun _ hi => length_le_of_repeatsAt hnodup hi⟩

theorem length_lt_of_repeatsAt
    {vs zs : List UInt32} {v : UInt32} {i : Nat}
    (hnodup : vs.Nodup)
    (hnew : v ∉ vs)
    (hrepeats : RepeatsAt (vs ++ v :: zs) i) :
    vs.length < i := by
  apply Nat.lt_of_le_of_ne (length_le_of_repeatsAt hnodup hrepeats)
  intro heq
  rw [← heq] at hrepeats
  exact hnew (repeatsAt_length_iff.mp hrepeats)

/-!
## Searching a list
-/

inductive ListVerdict (cap : Nat) : List UInt32 -> Except SearchError Report -> Prop where
  | exhausted {xs : List UInt32} :
      xs.Nodup ->
      xs.length ≤ cap ->
      ListVerdict cap xs (.error (.exhausted xs.length))
  | repeated {vs zs : List UInt32} {v : UInt32} :
      vs.Nodup ->
      vs.length ≤ cap ->
      v ∈ vs ->
      ListVerdict cap (vs ++ v :: zs) (.ok ((History.holding cap vs).reportOf v))
  | capped {vs zs : List UInt32} {v : UInt32} :
      vs.Nodup ->
      vs.length = cap ->
      v ∉ vs ->
      ListVerdict cap (vs ++ v :: zs) (.error (.capExceeded cap))

theorem search_values_verdict (xs : List UInt32) (cap : Nat) :
    ListVerdict cap xs (search (Source.values xs) cap) := by
  rcases exists_run_of_search (Source.values xs) cap with
    ⟨vs, rest, hrun, hverdict⟩
  rcases append_eq_of_yields_values hrun.yields rfl with ⟨zs, hxs, hrest⟩
  subst hxs
  subst hrest
  generalize search (Source.values (vs ++ zs)) cap = result at hverdict
  cases zs with
  | nil =>
      rw [List.append_nil]
      cases hverdict with
      | exhausted _ => exact ListVerdict.exhausted hrun.nodup hrun.le_cap
      | repeated hnext _ => cases hnext
      | capped hnext _ _ => cases hnext
  | cons z zs =>
      cases hverdict with
      | exhausted hnext => cases hnext
      | repeated hnext hmem =>
          cases hnext
          exact ListVerdict.repeated hrun.nodup hrun.le_cap hmem
      | capped hnext hnew hfull =>
          cases hnext
          exact ListVerdict.capped hrun.nodup hfull hnew

section Reports

variable {cap : Nat} {vs zs : List UInt32} {v : UInt32}

theorem first_reportOf (hmem : v ∈ vs) :
    (vs ++ v :: zs)[0]? = some ((History.holding cap vs).reportOf v).first := by
  rw [List.getElem?_append_left (List.length_pos_of_mem hmem)]
  exact (History.holding cap vs).getElem?_zero_eq_first hmem

theorem lastBeforeRepeat_reportOf (hmem : v ∈ vs) :
    (vs ++ v :: zs)[vs.length - 1]? =
      some ((History.holding cap vs).reportOf v).lastBeforeRepeat := by
  have hpos : 0 < vs.length := List.length_pos_of_mem hmem
  rw [List.getElem?_append_left (Nat.sub_lt hpos Nat.one_pos)]
  exact (History.holding cap vs).getElem?_pred_eq_lastBeforeRepeat hmem

theorem getElem?_length_append (vs zs : List UInt32) (v : UInt32) :
    (vs ++ v :: zs)[vs.length]? = some v := by
  simp

theorem eq_cycleStart_reportOf_iff (hnodup : vs.Nodup) (hmem : v ∈ vs) (j : Nat) :
    j = ((History.holding cap vs).reportOf v).cycleStart <->
      j < vs.length ∧ (vs ++ v :: zs)[j]? = (vs ++ v :: zs)[vs.length]? := by
  have hstart := (History.holding cap vs).eq_cycleStart_iff hnodup hmem j
  rw [hstart, getElem?_length_append]
  constructor
  · intro hj
    have hlt : j < vs.length := (List.getElem?_eq_some_iff.mp hj).1
    rw [List.getElem?_append_left hlt]
    exact ⟨hlt, hj⟩
  · intro hj
    rw [List.getElem?_append_left hj.1] at hj
    exact hj.2

end Reports

/--
What a search of a list returns, by the index of the first repeat: the report of
the repeat if the cap allows for it, and otherwise the failure of the cap or of
the end.
-/
theorem search_values (xs : List UInt32) (cap : Nat) :
    (forall i, IsLeast {i | RepeatsAt xs i} i -> i ≤ cap ->
      exists r, search (Source.values xs) cap = .ok r ∧
        xs[0]? = some r.first ∧
        xs[i - 1]? = some r.lastBeforeRepeat ∧
        xs[i]? = some r.repeated ∧
        r.distinct = i ∧
        forall j, j = r.cycleStart <-> j < i ∧ xs[j]? = xs[i]?) ∧
    ((forall i, IsLeast {i | RepeatsAt xs i} i -> cap < i) ->
      search (Source.values xs) cap =
        if cap < xs.length then .error (.capExceeded cap)
        else .error (.exhausted xs.length)) ∧
    search (Source.values xs) cap ≠ .error .finished := by
  have hverdict := search_values_verdict xs cap
  generalize search (Source.values xs) cap = result at hverdict ⊢
  cases hverdict with
  | exhausted hnodup hle =>
      constructor
      · intro i hleast _
        rcases hleast.1 with ⟨v, hat, _⟩
        have hlt : i < xs.length := (List.getElem?_eq_some_iff.mp hat).1
        have hrepeats : RepeatsAt (xs ++ []) i := by
          rw [List.append_nil]
          exact hleast.1
        exact absurd hlt (Nat.not_lt.mpr (length_le_of_repeatsAt hnodup hrepeats))
      constructor
      · intro _
        rw [if_neg (Nat.not_lt.mpr hle)]
      · intro h
        cases h
  | @repeated vs zs v hnodup hle hmem =>
      constructor
      · intro i hleast _
        have hi : i = vs.length := hleast.unique (isLeast_repeatsAt hnodup hmem)
        subst hi
        exact ⟨_, rfl, first_reportOf hmem, lastBeforeRepeat_reportOf hmem,
          getElem?_length_append vs zs v, rfl, eq_cycleStart_reportOf_iff hnodup hmem⟩
      constructor
      · intro habove
        exact absurd hle (Nat.not_le.mpr (habove _ (isLeast_repeatsAt hnodup hmem)))
      · intro h
        cases h
  | @capped vs zs v hnodup hfull hnew =>
      constructor
      · intro i hleast hi
        have hlt : vs.length < i := length_lt_of_repeatsAt hnodup hnew hleast.1
        exact absurd hlt (Nat.not_lt.mpr (hfull ▸ hi))
      constructor
      · intro _
        have hlonger : cap < (vs ++ v :: zs).length := by
          rw [List.length_append, List.length_cons, hfull]
          lia
        rw [if_pos hlonger]
      · intro h
        cases h

/-!
## What a search consumes

A search pulls the values of the run that it accepts and the one value that stops it, and
nothing after that.  So a stream that begins with the same values is searched with the same
result, whatever follows them.
-/

section Transfer

variable {σ τ : Type} [Std.Stream σ UInt32] [Std.Stream τ UInt32]

theorem FreshRun.transfer
    {s mid : σ} {t mid' : τ} {cap : Nat} {vs : List UInt32}
    (hrun : FreshRun s cap vs mid)
    (hread : Yields t vs mid') :
    FreshRun t cap vs mid' where
  yields := hread
  nodup := hrun.nodup
  le_cap := hrun.le_cap

theorem Verdict.transfer
    {mid after : σ} {mid' after' : τ} {cap : Nat} {vs : List UInt32} {v : UInt32}
    {result : Except SearchError Report}
    (hverdict : Verdict cap vs mid result)
    (hnext : Std.Stream.next? mid = some (v, after))
    (hnext' : Std.Stream.next? mid' = some (v, after')) :
    Verdict cap vs mid' result := by
  cases hverdict with
  | exhausted hend =>
      rw [hend] at hnext
      cases hnext
  | repeated h hmem =>
      cases h.symm.trans hnext
      exact Verdict.repeated hnext' hmem
  | capped h hnew hfull =>
      cases h.symm.trans hnext
      exact Verdict.capped hnext' hnew hfull

theorem feed_of_same_values
    {s mid after : σ} {t rest : τ} {cap : Nat} {vs : List UInt32} {v : UInt32}
    {result : Except SearchError Report}
    (hrun : FreshRun s cap vs mid)
    (hnext : Std.Stream.next? mid = some (v, after))
    (hverdict : Verdict cap vs mid result)
    (hread : Yields t (vs ++ [v]) rest)
    (journal : Journal) :
    ((Detector.new cap).feed t journal).result = result ∧
      ((Detector.new cap).feed t journal).rest = rest := by
  rcases hread.of_concat with ⟨mid', hmid, hlast⟩
  rcases (hrun.transfer hmid).feed_of_verdict (hverdict.transfer hnext hlast) journal with
    ⟨hresult, _, hstop⟩
  exact ⟨hresult, (hstop v rest hlast).2⟩

end Transfer

section Endless

variable {σ : Type} [Std.Stream σ UInt32]

theorem FreshRun.cases_of_next
    {s mid after : σ} {cap : Nat} {vs : List UInt32} {v : UInt32}
    {result : Except SearchError Report}
    (hrun : FreshRun s cap vs mid)
    (hnext : Std.Stream.next? mid = some (v, after))
    (hverdict : Verdict cap vs mid result) :
    (exists r, result = .ok r ∧ r.distinct = vs.length) ∨
      (result = .error (.capExceeded cap) ∧ vs.length = cap ∧ cap < 2 ^ 32) := by
  cases hverdict with
  | exhausted hend =>
      rw [hend] at hnext
      cases hnext
  | repeated _ _ => exact Or.inl ⟨_, rfl, rfl⟩
  | @capped u _ _ hnew hfull =>
      have hlength := length_le_of_nodup (List.Nodup.concat hnew hrun.nodup)
      rw [List.concat_eq_append, List.length_append, List.length_singleton, hfull] at hlength
      exact Or.inr ⟨rfl, hfull, hlength⟩

end Endless

/--
A search of the terms of a function stops.  It has pulled one value more than its
report counts, or one more than the cap if the cap has stopped it; these are never more
than the words and one, and a cap of that many words is never exceeded.  Another
stream, finite or endless, that begins with the values pulled is searched with the
same result, and no further.
-/
theorem search_terms (term : Nat -> UInt32) (cap : Nat) (journal : Journal) :
    let fed := (Detector.new cap).feed (⟨term, 0⟩ : Terms) journal
    fed.result = search (⟨term, 0⟩ : Terms) cap ∧
    fed.rest = ⟨term, fed.pushed⟩ ∧
    ((exists r, fed.result = .ok r ∧ fed.pushed = r.distinct + 1) ∨
      (fed.result = .error (.capExceeded cap) ∧ fed.pushed = cap + 1)) ∧
    fed.pushed ≤ min cap (2 ^ 32) + 1 ∧
    (2 ^ 32 ≤ cap -> exists r, fed.result = .ok r) ∧
    forall (σ : Type) [Std.Stream σ UInt32] (s rest : σ),
      Yields s (Terms.values term fed.pushed) rest ->
        search s cap = fed.result ∧ ((Detector.new cap).feed s journal).rest = rest := by
  intro fed
  rcases (Terms.enumerates term).exists_run cap with ⟨n, hrun, hverdict⟩
  have hnext : Std.Stream.next? (⟨term, n⟩ : Terms) = some (term n, ⟨term, n + 1⟩) := rfl
  rcases hrun.feed_of_verdict hverdict journal with ⟨hresult, _, hstop⟩
  rcases hstop _ _ hnext with ⟨hpushed, hrest⟩
  have hcases := hrun.cases_of_next hnext hverdict
  have hwords := length_le_of_nodup hrun.nodup
  have hcap := hrun.le_cap
  rw [Terms.length_values] at hpushed hcases hwords hcap
  rw [← hresult] at hcases
  refine ⟨hresult, ?_, ?_, ?_, ?_, ?_⟩
  · rw [hpushed]
    exact hrest
  · rw [hpushed]
    cases hcases with
    | inl hok =>
        rcases hok with ⟨r, hr, hdistinct⟩
        exact Or.inl ⟨r, hr, by rw [hdistinct]⟩
    | inr hcapped => exact Or.inr ⟨hcapped.1, by rw [hcapped.2.1]⟩
  · rw [hpushed]
    exact Nat.succ_le_succ (Nat.le_min.mpr ⟨hcap, hwords⟩)
  · intro hlarge
    cases hcases with
    | inl hok =>
        rcases hok with ⟨r, hr, _⟩
        exact ⟨r, hr⟩
    | inr hcapped => exact absurd hcapped.2.2 (Nat.not_lt.mpr hlarge)
  · intro σ _ s rest hread
    rw [hpushed, Terms.values_succ] at hread
    have hsilent := feed_of_same_values hrun hnext hverdict hread Journal.silent
    have hfeed := feed_of_same_values hrun hnext hverdict hread journal
    exact ⟨hsilent.1.trans hresult.symm, hfeed.2⟩

end HashOrbit
