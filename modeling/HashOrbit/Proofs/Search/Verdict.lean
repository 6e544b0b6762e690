import HashOrbit.Proofs.Detector.Memory
import HashOrbit.Proofs.Stream
import HashOrbit.Search

/-!
# The verdict of a search

A search accepts a run of different values and then stops for one of three
reasons: the stream ends, the next value is one of the run, or the run has used
up the cap.  `search_eq_iff` says that the run and the reason decide what a search
returns, and that there is always such a run.
-/

namespace HashOrbit

namespace History

def holding (cap : Nat) (vs : List UInt32) : History := ⟨vs, cap, false⟩

end History

namespace Detector

theorem push_fresh
    {d : Detector} {cap : Nat} {vs : List UInt32} {v : UInt32}
    (hd : d.Remembers (History.holding cap vs))
    (hnew : v ∉ vs)
    (hroom : vs.length < cap) :
    exists (answer : Answer) (d' : Detector),
      d.push v = (answer, d') ∧ answer.accepted? = some v ∧
        d'.Remembers (History.holding cap (vs ++ [v])) := by
  have hpush := History.push_of_new (h := History.holding cap vs) rfl hnew hroom
  rcases hd.push v with ⟨hanswer, hafter⟩
  rw [hpush] at hanswer hafter
  have haccepted : (d.push v).1.accepted? = some v := by
    rw [hanswer]
    cases vs <;> rfl
  exact ⟨(d.push v).1, (d.push v).2, rfl, haccepted, hafter⟩

theorem push_repeated
    {d : Detector} {cap : Nat} {vs : List UInt32} {v : UInt32}
    (hd : d.Remembers (History.holding cap vs))
    (hmem : v ∈ vs) :
    exists d' : Detector,
      d.push v = (.ok (.repeated ((History.holding cap vs).reportOf v)), d') ∧
        d'.Remembers { History.holding cap vs with finished := true } := by
  rcases hd.push v with ⟨hanswer, hafter⟩
  rw [History.push_of_mem rfl hmem] at hanswer hafter
  exact ⟨(d.push v).2, Prod.ext hanswer rfl, hafter⟩

theorem push_capped
    {d : Detector} {cap : Nat} {vs : List UInt32} {v : UInt32}
    (hd : d.Remembers (History.holding cap vs))
    (hnew : v ∉ vs)
    (hfull : vs.length = cap) :
    exists d' : Detector,
      d.push v = (.error (.capExceeded cap), d') ∧
        d'.Remembers { History.holding cap vs with finished := true } := by
  rcases hd.push v with ⟨hanswer, hafter⟩
  rw [History.push_of_full rfl hnew (Nat.le_of_eq hfull.symm)] at hanswer hafter
  exact ⟨(d.push v).2, Prod.ext hanswer rfl, hafter⟩

/-!
## Feeding a run
-/

def acceptedRecord (index : Nat) (v : UInt32) : Record :=
  ⟨.debug, searchTarget, acceptedMessage index v⟩

def acceptedRecords (index : Nat) (vs : List UInt32) : List Record :=
  (vs.zipIdx index).map fun (v, i) => acceptedRecord i v

def Pending (last : Option Answer) : Prop :=
  forall answer, last = some answer -> exists v, answer.accepted? = some v

theorem pending_none : Pending none := by
  intro answer h
  cases h

theorem pending_some {answer : Answer} {v : UInt32} (haccepted : answer.accepted? = some v) :
    Pending (some answer) := by
  intro answer' h
  cases h
  exact ⟨v, haccepted⟩

theorem Fed.result_of_pending {σ : Type} {fed : Fed σ} (hpending : Pending fed.last) :
    fed.result = .error (.exhausted fed.detector.distinct) := by
  unfold Fed.result
  cases hlast : fed.last with
  | none => rfl
  | some answer =>
      rcases hpending answer hlast with ⟨v, haccepted⟩
      cases answer with
      | error e => cases haccepted
      | ok step =>
          cases step with
          | first w => rfl
          | fresh w => rfl
          | repeated r => cases haccepted

section Feeding

variable {σ : Type} [Std.Stream σ UInt32]

theorem feedFrom_run
    {s rest : σ} {vs : List UInt32}
    (hread : Yields s vs rest)
    (cap : Nat) :
    forall (d : Detector) (us : List UInt32) (journal : Journal) (pushed : Nat)
        (last : Option Answer),
      d.Remembers (History.holding cap us) ->
      (us ++ vs).Nodup ->
      (us ++ vs).length ≤ cap ->
      Pending last ->
      exists (d' : Detector) (last' : Option Answer),
        d'.Remembers (History.holding cap (us ++ vs)) ∧ Pending last' ∧
          d.feedFrom s journal pushed last =
            d'.feedFrom rest (journal.noteAll (acceptedRecords us.length vs))
              (pushed + vs.length) last' := by
  induction hread with
  | nil s =>
      intro d us journal pushed last hd _ _ hlast
      exact ⟨d, last, by simpa using hd, hlast, rfl⟩
  | @cons s next rest v vs hnext _ ih =>
      intro d us journal pushed last hd hnodup hroom _
      have hassoc : us ++ v :: vs = (us ++ [v]) ++ vs := by simp
      rw [hassoc] at hnodup hroom ⊢
      have hnew : v ∉ us := by
        intro hmem
        have hdisjoint := (List.nodup_append.mp (List.nodup_append.mp hnodup).1).2.2
        exact hdisjoint v hmem v (by simp) rfl
      have hlt : us.length < cap := by
        simp only [List.length_append, List.length_singleton] at hroom
        lia
      rcases push_fresh hd hnew hlt with ⟨answer, d', hpush, haccepted, hd'⟩
      rcases ih d' (us ++ [v]) (d.noteAnswer answer journal) (pushed + 1) (some answer)
          hd' hnodup hroom (pending_some haccepted) with
        ⟨d'', last'', hd'', hlast'', hfeed⟩
      refine ⟨d'', last'', hd'', hlast'', ?_⟩
      have hindex : d.distinct = us.length := hd.distinct
      have hnote :
          d.noteAnswer answer journal =
            journal.note .debug searchTarget fun _ => acceptedMessage us.length v := by
        rw [noteAnswer, haccepted, hindex]
      have hlength : (us ++ [v]).length = us.length + 1 := by simp
      rw [feedFrom_of_accepted hnext hpush haccepted, hfeed, hnote, hlength, List.length_cons,
        Nat.add_assoc pushed 1, Nat.add_comm 1]
      rfl

end Feeding

end Detector

/-!
## Runs and verdicts
-/

section Searching

variable {σ : Type} [Std.Stream σ UInt32]

/-- Different values, no more than the cap, that are read from the front of a stream. -/
structure FreshRun (s : σ) (cap : Nat) (vs : List UInt32) (rest : σ) : Prop where
  yields : Yields s vs rest
  nodup : vs.Nodup
  le_cap : vs.length ≤ cap

/-- What a search returns that has accepted the run `vs` and goes on to read `rest`. -/
inductive Verdict (cap : Nat) (vs : List UInt32) (rest : σ) :
    Except SearchError Report -> Prop where
  | exhausted :
      Std.Stream.next? rest = none ->
      Verdict cap vs rest (.error (.exhausted vs.length))
  | repeated {v : UInt32} {after : σ} :
      Std.Stream.next? rest = some (v, after) ->
      v ∈ vs ->
      Verdict cap vs rest (.ok ((History.holding cap vs).reportOf v))
  | capped {v : UInt32} {after : σ} :
      Std.Stream.next? rest = some (v, after) ->
      v ∉ vs ->
      vs.length = cap ->
      Verdict cap vs rest (.error (.capExceeded cap))

theorem FreshRun.feed_eq
    {s rest : σ} {cap : Nat} {vs : List UInt32}
    (hrun : FreshRun s cap vs rest)
    (journal : Journal) :
    exists (d : Detector) (last : Option Answer),
      d.Remembers (History.holding cap vs) ∧ Detector.Pending last ∧
        (Detector.new cap).feed s journal =
          d.feedFrom rest (journal.noteAll (Detector.acceptedRecords 0 vs)) vs.length last := by
  rcases Detector.feedFrom_run hrun.yields cap (Detector.new cap) [] journal 0 none
      (Detector.remembers_new cap) hrun.nodup hrun.le_cap Detector.pending_none with
    ⟨d, last, hd, hlast, hfeed⟩
  rw [Nat.zero_add] at hfeed
  exact ⟨d, last, hd, hlast, hfeed⟩

theorem FreshRun.feed_of_verdict
    {s rest : σ} {cap : Nat} {vs : List UInt32} {result : Except SearchError Report}
    (hrun : FreshRun s cap vs rest)
    (hverdict : Verdict cap vs rest result)
    (journal : Journal) :
    ((Detector.new cap).feed s journal).result = result ∧
    ((Detector.new cap).feed s journal).journal =
      journal.noteAll (Detector.acceptedRecords 0 vs) ∧
    forall v after, Std.Stream.next? rest = some (v, after) ->
      ((Detector.new cap).feed s journal).pushed = vs.length + 1 ∧
      ((Detector.new cap).feed s journal).rest = after := by
  rcases hrun.feed_eq journal with ⟨d, last, hd, hlast, hfeed⟩
  rw [hfeed]
  cases hverdict with
  | exhausted hend =>
      have hdistinct : d.distinct = vs.length := hd.distinct
      rw [Detector.feedFrom_of_end hend, Detector.Fed.result_of_pending hlast, hdistinct]
      refine ⟨rfl, rfl, ?_⟩
      intro v after hnext
      rw [hend] at hnext
      cases hnext
  | repeated hnext hmem =>
      rcases Detector.push_repeated hd hmem with ⟨d', hpush, _⟩
      rw [Detector.feedFrom_of_refused hnext hpush rfl]
      refine ⟨rfl, rfl, ?_⟩
      intro v after hnext'
      cases hnext.symm.trans hnext'
      exact ⟨rfl, rfl⟩
  | capped hnext hnew hfull =>
      rcases Detector.push_capped hd hnew hfull with ⟨d', hpush, _⟩
      rw [Detector.feedFrom_of_refused hnext hpush rfl]
      refine ⟨rfl, rfl, ?_⟩
      intro v after hnext'
      cases hnext.symm.trans hnext'
      exact ⟨rfl, rfl⟩

theorem searchNoted_eq_of_verdict
    {s rest : σ} {cap : Nat} {vs : List UInt32} {result : Except SearchError Report}
    (hrun : FreshRun s cap vs rest)
    (hverdict : Verdict cap vs rest result)
    (journal : Journal) :
    searchNoted s cap journal = (result, journal.noteAll (Detector.acceptedRecords 0 vs)) := by
  rcases hrun.feed_of_verdict hverdict journal with ⟨hresult, hjournal, _⟩
  exact Prod.ext hresult hjournal

theorem search_eq_of_verdict
    {s rest : σ} {cap : Nat} {vs : List UInt32} {result : Except SearchError Report}
    (hrun : FreshRun s cap vs rest)
    (hverdict : Verdict cap vs rest result) :
    search s cap = result :=
  congrArg Prod.fst (searchNoted_eq_of_verdict hrun hverdict Journal.silent)

theorem FreshRun.extend
    {s mid rest : σ} {cap : Nat} {vs : List UInt32} {v : UInt32}
    (hrun : FreshRun s cap vs mid)
    (hnext : Std.Stream.next? mid = some (v, rest))
    (hnew : v ∉ vs)
    (hroom : vs.length < cap) :
    FreshRun s cap (vs ++ [v]) rest where
  yields := hrun.yields.concat hnext
  nodup := by
    rw [← List.concat_eq_append]
    exact List.Nodup.concat hnew hrun.nodup
  le_cap := by
    rw [List.length_append, List.length_singleton]
    exact hroom

theorem FreshRun.exists_verdict
    {s mid : σ} {cap : Nat} {vs : List UInt32}
    (hrun : FreshRun s cap vs mid) :
    exists (us : List UInt32) (rest : σ) (result : Except SearchError Report),
      FreshRun s cap us rest ∧ Verdict cap us rest result := by
  cases hnext : Std.Stream.next? mid with
  | none => exact ⟨vs, mid, _, hrun, Verdict.exhausted hnext⟩
  | some head =>
      rcases head with ⟨v, after⟩
      by_cases hmem : v ∈ vs
      · exact ⟨vs, mid, _, hrun, Verdict.repeated hnext hmem⟩
      · cases Nat.lt_or_eq_of_le hrun.le_cap with
        | inl hroom => exact (hrun.extend hnext hmem hroom).exists_verdict
        | inr hfull => exact ⟨vs, mid, _, hrun, Verdict.capped hnext hmem hfull⟩
termination_by cap - vs.length
decreasing_by
  rw [List.length_append, List.length_singleton]
  lia

theorem freshRun_nil (s : σ) (cap : Nat) : FreshRun s cap [] s where
  yields := Yields.nil s
  nodup := List.nodup_nil
  le_cap := Nat.zero_le cap

/-- A search returns the verdict of the run that it accepts. -/
theorem search_eq_iff {s : σ} {cap : Nat} {result : Except SearchError Report} :
    search s cap = result <->
      exists (vs : List UInt32) (rest : σ),
        FreshRun s cap vs rest ∧ Verdict cap vs rest result := by
  constructor
  · intro hsearch
    rcases (freshRun_nil s cap).exists_verdict with ⟨vs, rest, verdict, hrun, hverdict⟩
    rw [search_eq_of_verdict hrun hverdict] at hsearch
    exact ⟨vs, rest, hrun, hsearch ▸ hverdict⟩
  · intro h
    rcases h with ⟨vs, rest, hrun, hverdict⟩
    exact search_eq_of_verdict hrun hverdict

theorem exists_run_of_search (s : σ) (cap : Nat) :
    exists (vs : List UInt32) (rest : σ),
      FreshRun s cap vs rest ∧ Verdict cap vs rest (search s cap) :=
  search_eq_iff.mp rfl

theorem Enumerates.exists_run {state : Nat -> σ} {term : Nat -> UInt32}
    (h : Enumerates state term) (cap : Nat) :
    exists n,
      FreshRun (state 0) cap (Terms.values term n) (state n) ∧
      Verdict cap (Terms.values term n) (state n) (search (state 0) cap) := by
  rcases exists_run_of_search (state 0) cap with ⟨vs, rest, hrun, hverdict⟩
  rcases h.exists_eq_of_yields hrun.yields with ⟨n, rfl, rfl⟩
  exact ⟨n, hrun, hverdict⟩

theorem fst_searchNoted (s : σ) (cap : Nat) (journal : Journal) :
    (searchNoted s cap journal).1 = search s cap := by
  rcases exists_run_of_search s cap with ⟨vs, rest, hrun, hverdict⟩
  rw [searchNoted_eq_of_verdict hrun hverdict]

end Searching

theorem fst_solveNoted (cap : Nat) (journal : Journal) :
    (solveNoted cap journal).1 = search Walk.start cap := by
  rcases hnoted : searchNoted Walk.start cap journal with ⟨result, journal'⟩
  have hresult : result = search Walk.start cap := by
    rw [← fst_searchNoted Walk.start cap journal, hnoted]
  unfold solveNoted
  rw [hnoted, ← hresult]
  cases result <;> rfl

theorem solve_eq_search (cap : Nat) : solve cap = search Walk.start cap :=
  fst_solveNoted cap .silent

end HashOrbit
