import HashOrbit.Proofs.Search.Verdict
import Mathlib.Data.Set.Function

/-!
# Renamed values

A detector asks of two values only whether they are equal.  So a function that keeps the
values of a run apart may be applied to each of them: the answers carry the renamed
values, and all their numbers, the failures and the counts stay as they are.  A search of
a stream with renamed values finds the renamed report.
-/

namespace HashOrbit

def Report.rename (f : UInt32 -> UInt32) (r : Report) : Report where
  first := f r.first
  lastBeforeRepeat := f r.lastBeforeRepeat
  repeated := f r.repeated
  distinct := r.distinct
  cycleStart := r.cycleStart

def Step.rename (f : UInt32 -> UInt32) : Step -> Step
  | .first v => .first (f v)
  | .fresh v => .fresh (f v)
  | .repeated r => .repeated (r.rename f)

def Answer.rename (f : UInt32 -> UInt32) (answer : Answer) : Answer :=
  answer.map (Step.rename f)

section Lists

variable {f : UInt32 -> UInt32} {v : UInt32} {xs : List UInt32}

theorem mem_map_iff_of_injOn (hinj : Set.InjOn f {x | x ∈ v :: xs}) :
    f v ∈ xs.map f <-> v ∈ xs := by
  constructor
  · intro hmem
    rcases List.mem_map.mp hmem with ⟨x, hx, heq⟩
    have hxv : x = v := hinj (List.mem_cons_of_mem v hx) List.mem_cons_self heq
    exact hxv ▸ hx
  · exact List.mem_map_of_mem

theorem idxOf_map_of_injOn (hinj : Set.InjOn f {x | x ∈ v :: xs}) :
    (xs.map f).idxOf (f v) = xs.idxOf v := by
  induction xs with
  | nil => rfl
  | cons x xs ih =>
      have hrest : v :: xs ⊆ v :: x :: xs := List.cons_subset_cons v (List.subset_cons_self x xs)
      have hhead : f x = f v <-> x = v :=
        hinj.eq_iff (List.mem_cons_of_mem v List.mem_cons_self) List.mem_cons_self
      rw [List.map_cons, List.idxOf_cons, List.idxOf_cons, ih (hinj.mono fun _ hu => hrest hu)]
      simp only [beq_eq_decide, hhead]

end Lists

/-!
## Renamed histories
-/

namespace History

def rename (f : UInt32 -> UInt32) (h : History) : History :=
  { h with accepted := h.accepted.map f }

section Pushes

variable {f : UInt32 -> UInt32} {h : History} {v : UInt32}

theorem reportOf_rename (hinj : Set.InjOn f {x | x ∈ v :: h.accepted}) :
    (h.rename f).reportOf (f v) = (h.reportOf v).rename f := by
  unfold reportOf rename Report.rename distinct
  rw [idxOf_map_of_injOn hinj, List.length_map]
  simp [List.headD_eq_head?_getD, List.getLastD_eq_getLast?]

theorem push_rename (hinj : Set.InjOn f {x | x ∈ v :: h.accepted}) :
    (h.rename f).push (f v) = ((h.push v).1.rename f, (h.push v).2.rename f) := by
  cases hfinished : h.finished with
  | true =>
      have hfinished' : (h.rename f).finished = true := hfinished
      rw [push_of_finished hfinished', push_of_finished hfinished]
      rfl
  | false =>
      have hopen : (h.rename f).finished = false := hfinished
      have hdistinct : (h.rename f).distinct = h.distinct := List.length_map f
      by_cases hmem : v ∈ h.accepted
      · have hmem' : f v ∈ (h.rename f).accepted := List.mem_map_of_mem hmem
        rw [push_of_mem hopen hmem', push_of_mem hfinished hmem, reportOf_rename hinj]
        rfl
      · have hnew : f v ∉ (h.rename f).accepted :=
          fun hmem' => hmem ((mem_map_iff_of_injOn hinj).mp hmem')
        by_cases hfull : h.cap ≤ h.distinct
        · have hfull' : (h.rename f).cap ≤ (h.rename f).distinct := hdistinct ▸ hfull
          rw [push_of_full hopen hnew hfull', push_of_full hfinished hmem hfull]
          rfl
        · have hroom : h.distinct < h.cap := Nat.lt_of_not_le hfull
          have hroom' : (h.rename f).distinct < (h.rename f).cap := hdistinct ▸ hroom
          rw [push_of_new hopen hnew hroom', push_of_new hfinished hmem hroom]
          apply Prod.ext
          · show Except.ok (if (h.accepted.map f).isEmpty then _ else _) = _
            cases h.accepted <;> rfl
          · simp [rename]

theorem accepted_push_subset (h : History) (v : UInt32) :
    (h.push v).2.accepted ⊆ v :: h.accepted := by
  have hkept : h.accepted ⊆ v :: h.accepted := List.subset_cons_self v _
  unfold push
  split
  · exact hkept
  · split
    · exact hkept
    · split
      · exact hkept
      · exact List.append_subset.mpr ⟨hkept, List.cons_subset_cons v (List.nil_subset _)⟩

end Pushes

theorem pushAll_rename
    {f : UInt32 -> UInt32} {h : History} {vs : List UInt32}
    (hinj : Set.InjOn f {x | x ∈ vs ++ h.accepted}) :
    (h.rename f).pushAll (vs.map f) =
      ((h.pushAll vs).1.map (Answer.rename f), (h.pushAll vs).2.rename f) := by
  induction vs generalizing h with
  | nil => rfl
  | cons v vs ih =>
      have hfirst : v :: h.accepted ⊆ v :: vs ++ h.accepted :=
        List.cons_subset_cons v (List.subset_append_right vs _)
      have hrest : vs ++ (h.push v).2.accepted ⊆ v :: vs ++ h.accepted := by
        apply List.append_subset.mpr
        constructor
        · exact List.subset_append_of_subset_left _ (List.subset_cons_self v vs)
        · exact List.Subset.trans (accepted_push_subset h v) hfirst
      rw [List.map_cons, pushAll_cons, pushAll_cons,
        push_rename (hinj.mono fun _ hx => hfirst hx), ih (hinj.mono fun _ hx => hrest hx)]
      rfl

end History

/-!
## Searches of renamed streams
-/

section Searching

variable {σ τ : Type} [Std.Stream σ UInt32] [Std.Stream τ UInt32]

/-- The stream `t` yields the renamed values of `s`, and it ends where `s` ends. -/
def Renames (f : UInt32 -> UInt32) (s : σ) (t : τ) : Prop :=
  forall vs rest, Yields s vs rest ->
    exists rest', Yields t (vs.map f) rest' ∧
      (Std.Stream.next? rest = none -> Std.Stream.next? rest' = none)

theorem Renames.next
    {f : UInt32 -> UInt32} {s mid after : σ} {t : τ} {vs : List UInt32} {v : UInt32}
    (hrenames : Renames f s t)
    (hread : Yields s vs mid)
    (hnext : Std.Stream.next? mid = some (v, after)) :
    exists mid' after',
      Yields t (vs.map f) mid' ∧ Std.Stream.next? mid' = some (f v, after') := by
  rcases hrenames _ _ (hread.concat hnext) with ⟨after', hread', _⟩
  rw [List.map_append] at hread'
  rcases hread'.of_concat with ⟨mid', hmid, hlast⟩
  exact ⟨mid', after', hmid, hlast⟩

theorem FreshRun.rename
    {f : UInt32 -> UInt32} {s mid : σ} {t mid' : τ} {cap : Nat} {vs : List UInt32}
    (hrun : FreshRun s cap vs mid)
    (hinj : Set.InjOn f {x | x ∈ vs})
    (hread : Yields t (vs.map f) mid') :
    FreshRun t cap (vs.map f) mid' where
  yields := hread
  nodup := hrun.nodup.map_on fun _ hx _ hy heq => hinj hx hy heq
  le_cap := by
    rw [List.length_map]
    exact hrun.le_cap

theorem search_of_renames
    {f : UInt32 -> UInt32} {s : σ} {t : τ}
    (hrenames : Renames f s t)
    (hinj : Set.InjOn f {x | exists vs rest, Yields s vs rest ∧ x ∈ vs})
    (cap : Nat) :
    search t cap = (search s cap).map (Report.rename f) := by
  rcases exists_run_of_search s cap with ⟨vs, mid, hrun, hverdict⟩
  have hinjRun : Set.InjOn f {x | x ∈ vs} :=
    hinj.mono fun _ hx => Exists.intro vs ⟨mid, hrun.yields, hx⟩
  have hinjStop {v after} (hnext : Std.Stream.next? mid = some (v, after)) :
      Set.InjOn f {x | x ∈ v :: vs} := by
    apply hinj.mono
    intro x hx
    exact ⟨vs ++ [v], after, hrun.yields.concat hnext, by simpa [or_comm] using hx⟩
  generalize search s cap = result at hverdict ⊢
  cases hverdict with
  | exhausted hend =>
      rcases hrenames _ _ hrun.yields with ⟨mid', hread, hend'⟩
      rw [search_eq_of_verdict (hrun.rename hinjRun hread) (Verdict.exhausted (hend' hend)),
        List.length_map]
      rfl
  | @repeated v _ hnext hmem =>
      rcases hrenames.next hrun.yields hnext with ⟨mid', after', hread, hnext'⟩
      have hreport := History.reportOf_rename (h := History.holding cap vs) (hinjStop hnext)
      rw [search_eq_of_verdict (hrun.rename hinjRun hread)
        (Verdict.repeated hnext' (List.mem_map_of_mem hmem))]
      exact congrArg Except.ok hreport
  | @capped v _ hnext hnew hfull =>
      rcases hrenames.next hrun.yields hnext with ⟨mid', after', hread, hnext'⟩
      have hnew' : f v ∉ vs.map f :=
        fun hmem => hnew ((mem_map_iff_of_injOn (hinjStop hnext)).mp hmem)
      have hfull' : (vs.map f).length = cap := by
        rw [List.length_map, hfull]
      exact search_eq_of_verdict (hrun.rename hinjRun hread) (Verdict.capped hnext' hnew' hfull')

end Searching

theorem renames_values (f : UInt32 -> UInt32) (xs : List UInt32) :
    Renames f (Source.values xs) (Source.values (xs.map f)) := by
  intro vs rest hread
  rcases append_eq_of_yields_values hread rfl with ⟨zs, hxs, hrest⟩
  subst hxs hrest
  refine ⟨Source.values (zs.map f), ?_, ?_⟩
  · rw [List.map_append]
    exact yields_values_append _ _
  · intro hend
    cases zs with
    | nil => rfl
    | cons z zs => cases hend

theorem renames_terms (f : UInt32 -> UInt32) (term : Nat -> UInt32) :
    Renames f (⟨term, 0⟩ : Terms) (⟨f ∘ term, 0⟩ : Terms) := by
  intro vs rest hread
  rcases (Terms.enumerates term).exists_eq_of_yields hread with ⟨n, hvs, hrest⟩
  subst hvs hrest
  refine ⟨⟨f ∘ term, n⟩, ?_, nofun⟩
  have hvalues : (Terms.values term n).map f = Terms.values (f ∘ term) n := List.map_map
  rw [hvalues]
  exact (Terms.enumerates (f ∘ term)).yields n

/--
If a function keeps the values of a run apart, a detector gives the renamed values the
renamed answers, and counts as many values after each push; a search of the list finds the
renamed report or fails in the same way.  So does a search of the terms of a function.
-/
theorem detection_of_renamed_values (f : UInt32 -> UInt32) (cap : Nat) :
    (forall vs : List UInt32, Set.InjOn f {v | v ∈ vs} ->
      ((Detector.new cap).pushAll (vs.map f)).1 =
        ((Detector.new cap).pushAll vs).1.map (Answer.rename f) ∧
      (forall n,
        ((Detector.new cap).pushAll ((vs.map f).take n)).2.distinct =
          ((Detector.new cap).pushAll (vs.take n)).2.distinct) ∧
      search (Source.values (vs.map f)) cap =
        (search (Source.values vs) cap).map (Report.rename f)) ∧
    forall term : Nat -> UInt32, Set.InjOn f (Set.range term) ->
      search (⟨f ∘ term, 0⟩ : Terms) cap =
        (search (⟨term, 0⟩ : Terms) cap).map (Report.rename f) := by
  have hruns : forall us : List UInt32, Set.InjOn f {v | v ∈ us} ->
      (History.new cap).pushAll (us.map f) =
        (((History.new cap).pushAll us).1.map (Answer.rename f),
          ((History.new cap).pushAll us).2.rename f) := by
    intro us hinj
    apply History.pushAll_rename (h := History.new cap)
    rw [show (History.new cap).accepted = [] from rfl, List.append_nil]
    exact hinj
  constructor
  · intro vs hinj
    refine ⟨?_, ?_, ?_⟩
    · rw [((Detector.remembers_new cap).pushAll _).1, hruns vs hinj,
        ((Detector.remembers_new cap).pushAll vs).1]
    · intro n
      have hpart : Set.InjOn f {v | v ∈ vs.take n} :=
        hinj.mono fun _ hv => List.mem_of_mem_take hv
      rw [← List.map_take, (Detector.remembers_pushAll_new cap _).distinct, hruns _ hpart,
        (Detector.remembers_pushAll_new cap _).distinct]
      exact List.length_map f
    · apply search_of_renames (renames_values f vs)
      apply hinj.mono
      intro x hx
      rcases hx with ⟨us, rest, hread, hmem⟩
      rcases append_eq_of_yields_values hread rfl with ⟨zs, hvs, _⟩
      exact hvs ▸ List.mem_append_left zs hmem
  · intro term hinj
    apply search_of_renames (renames_terms f term)
    apply hinj.mono
    intro x hx
    rcases hx with ⟨us, rest, hread, hmem⟩
    rcases (Terms.enumerates term).exists_eq_of_yields hread with ⟨n, hus, _⟩
    subst hus
    rcases List.mem_map.mp hmem with ⟨i, _, hi⟩
    exact ⟨i, hi⟩

theorem detection_of_last_digits :
    let lastDigit : UInt32 -> UInt32 := fun v => v % 10
    let term : Nat -> UInt32 := fun n => if n % 2 = 0 then 15 else 22
    Set.InjOn lastDigit {v | v ∈ [15, 22, 38, 22, 15]} ∧
    ((Detector.new 3).pushAll [5, 2, 8, 2, 5]).1 =
      [.ok (.first 5), .ok (.fresh 2), .ok (.fresh 8), .ok (.repeated ⟨5, 8, 2, 3, 1⟩),
        .error .finished] ∧
    ((Detector.new 3).pushAll [5, 2]).2.distinct = 2 ∧
    search (Source.values [5, 2, 8, 2, 5]) 3 = .ok ⟨5, 8, 2, 3, 1⟩ ∧
    Set.InjOn lastDigit (Set.range term) ∧
    search (⟨lastDigit ∘ term, 0⟩ : Terms) 3 = .ok ⟨5, 2, 5, 2, 0⟩ := by
  intro lastDigit term
  have hlist : Set.InjOn lastDigit {v | v ∈ [15, 22, 38, 22, 15]} := by
    have hnodup : ([15, 22, 38].map lastDigit).Nodup := by decide
    have hsame : [15, 22, 38, 22, 15] ⊆ ([15, 22, 38] : List UInt32) := by simp
    intro v hv u hu heq
    exact List.inj_on_of_nodup_map hnodup (hsame hv) (hsame hu) heq
  have hterms : Set.InjOn lastDigit (Set.range term) := by
    apply hlist.mono
    intro v hv
    rcases hv with ⟨n, hn⟩
    subst hn
    show (if n % 2 = 0 then 15 else 22) ∈ [15, 22, 38, 22, 15]
    split <;> decide
  rcases detection_of_renamed_values lastDigit 3 with ⟨hlists, hfunctions⟩
  rcases hlists _ hlist with ⟨hanswers, hcounts, hsearch⟩
  have hvalues : search (Source.values [15, 22, 38, 22, 15]) 3 = .ok ⟨15, 38, 22, 3, 1⟩ := by
    have hread := yields_values_append [15, 22, 38] [22, 15]
    exact search_eq_of_verdict ⟨hread, by decide, by decide⟩ (Verdict.repeated rfl (by decide))
  have hterm : search (⟨term, 0⟩ : Terms) 3 = .ok ⟨15, 22, 15, 2, 0⟩ := by
    have hread := (Terms.enumerates term).yields 2
    have hnext : forall t : Nat -> UInt32, t 2 = 15 ->
        Std.Stream.next? (⟨t, 2⟩ : Terms) = some (15, ⟨t, 3⟩) := by
      intro t ht
      rw [← ht]
      rfl
    exact search_eq_of_verdict ⟨hread, by decide, by decide⟩
      (Verdict.repeated (hnext term (by decide)) (by decide))
  refine ⟨hlist, ?_, ?_, ?_, hterms, ?_⟩
  · refine hanswers.trans ?_
    rw [((Detector.remembers_new 3).pushAll _).1]
    rfl
  · refine (hcounts 2).trans ?_
    rw [(Detector.remembers_pushAll_new 3 _).distinct]
    rfl
  · exact hsearch.trans (congrArg (Except.map (Report.rename lastDigit)) hvalues)
  · exact (hfunctions term hterms).trans (congrArg (Except.map (Report.rename lastDigit)) hterm)

end HashOrbit
