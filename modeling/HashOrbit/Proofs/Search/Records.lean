import HashOrbit.Journal
import HashOrbit.Proofs.Detector.Memory
import HashOrbit.Proofs.Render
import HashOrbit.Proofs.Search.Verdict

/-!
# The records of a run

A push leaves one record for a value that it accepts and none for any other answer, so the
records of a run are those of the accepted values, numbered from the index that comes next.
A search leaves the records of the run that it accepts, and the program's own search one
more if it succeeds.  None of this depends on the journal, which only hides records.
-/

namespace HashOrbit

namespace Detector

theorem acceptedRecords_append (index : Nat) (vs us : List UInt32) :
    acceptedRecords index (vs ++ us) =
      acceptedRecords index vs ++ acceptedRecords (index + vs.length) us := by
  simp [acceptedRecords, List.zipIdx_append]

/-!
## Pushes
-/

def acceptedValues (answers : List Answer) : List UInt32 :=
  answers.filterMap Answer.accepted?

section Pushes

variable (d : Detector)

theorem acceptedValues_pushAll_cons (v : UInt32) (vs : List UInt32) :
    acceptedValues (d.pushAll (v :: vs)).1 =
      acceptedValues [(d.push v).1] ++ acceptedValues ((d.push v).2.pushAll vs).1 := by
  rw [pushAll_cons]
  exact List.filterMap_append (l := [(d.push v).1])

theorem noteAnswer_eq_noteAll (answer : Answer) (journal : Journal) :
    d.noteAnswer answer journal =
      journal.noteAll (acceptedRecords d.distinct (acceptedValues [answer])) := by
  cases haccepted : answer.accepted? with
  | none =>
      simp only [noteAnswer, acceptedValues, List.filterMap_cons, haccepted]
      rfl
  | some v =>
      simp only [noteAnswer, acceptedValues, List.filterMap_cons, haccepted]
      rfl

theorem pushNoted_of_refused {d : Detector} {v : UInt32}
    (hrefused : (d.push v).1.accepted? = none)
    (journal : Journal) :
    (d.pushNoted v journal).2.2 = journal := by
  simp only [pushNoted, noteAnswer, hrefused]

theorem distinct_push (v : UInt32) :
    (d.push v).2.distinct = d.distinct + (acceptedValues [(d.push v).1]).length := by
  have hpushed := pushed_push d v
  generalize d.push v = pushed at hpushed ⊢
  cases hpushed with
  | finished _ => rfl
  | @seen start _ _ =>
      have hnone := accepted?_answerRepeat d v start
      simp only [acceptedValues, List.filterMap_cons, hnone]
      rfl
  | full _ _ _ => rfl
  | new _ hnew _ =>
      have hsome := accepted?_accept d v
      simp only [acceptedValues, List.filterMap_cons, hsome]
      exact distinct_accept hnew

theorem pushAllNoted_eq (vs : List UInt32) (journal : Journal) :
    d.pushAllNoted vs journal =
      ((d.pushAll vs).1, (d.pushAll vs).2,
        journal.noteAll (acceptedRecords d.distinct (acceptedValues (d.pushAll vs).1))) := by
  induction vs generalizing d journal with
  | nil => rfl
  | cons v vs ih =>
      have hstep : d.pushAllNoted (v :: vs) journal =
          let rest := (d.push v).2.pushAllNoted vs (d.noteAnswer (d.push v).1 journal)
          ((d.push v).1 :: rest.1, rest.2.1, rest.2.2) := rfl
      rw [hstep, ih, noteAnswer_eq_noteAll, distinct_push, acceptedValues_pushAll_cons,
        acceptedRecords_append, Journal.noteAll_append]
      rfl

end Pushes

theorem distinct_pushAll (d : Detector) (vs : List UInt32) :
    (d.pushAll vs).2.distinct = d.distinct + (acceptedValues (d.pushAll vs).1).length := by
  induction vs generalizing d with
  | nil => rfl
  | cons v vs ih =>
      rw [acceptedValues_pushAll_cons, List.length_append, ← Nat.add_assoc,
        ← distinct_push, ← ih]
      rfl

end Detector

/-!
## Searches
-/

section Searches

variable {σ : Type} [Std.Stream σ UInt32]

theorem exists_searchNoted_eq (s : σ) (cap : Nat) :
    exists rs, forall journal, searchNoted s cap journal = (search s cap, journal.noteAll rs) := by
  rcases exists_run_of_search s cap with ⟨vs, rest, hrun, hverdict⟩
  exact ⟨_, searchNoted_eq_of_verdict hrun hverdict⟩

end Searches

def announcements : Except SearchError Report -> List Record
  | .ok r => [⟨.info, searchTarget, r.announcement⟩]
  | .error _ => []

theorem solveNoted_eq_noteAll (cap : Nat) (journal : Journal) :
    solveNoted cap journal =
      (solve cap, (searchNoted Walk.start cap journal).2.noteAll (announcements (solve cap))) := by
  have hresult := fst_searchNoted Walk.start cap journal
  rw [solve_eq_search, solveNoted]
  rcases hnoted : searchNoted Walk.start cap journal with ⟨result, journal'⟩
  rw [hnoted] at hresult
  rw [← hresult]
  cases result <;> rfl

theorem exists_solveNoted_eq (cap : Nat) :
    exists rs, forall journal, solveNoted cap journal = (solve cap, journal.noteAll rs) := by
  rcases exists_searchNoted_eq Walk.start cap with ⟨rs, hnoted⟩
  refine ⟨rs ++ announcements (solve cap), ?_⟩
  intro journal
  rw [solveNoted_eq_noteAll, hnoted, Journal.noteAll_append]

/-!
## The journal as a history

A journal that keeps the debug records holds one line for each accepted value, with the
index of the value, and nothing for other answers.  So the lines of a successful search
tell its report: the first line names the first value, the last line the value before the
repeat, and the only line that names the repeated value stands where the cycle starts.
-/

namespace Detector

theorem toList_acceptedMessage (i : Nat) (v : UInt32) :
    (acceptedMessage i v).toList =
      "value #".toList ++ (Nat.toDigits 10 i ++ (':' :: [' '] ++ Nat.toDigits 10 v.toNat)) := by
  simp [acceptedMessage, toString]

theorem acceptedMessage_inj
    {i j : Nat} {v u : UInt32}
    (h : acceptedMessage i v = acceptedMessage j u) :
    i = j ∧ v = u := by
  have hlists := congrArg String.toList h
  rw [toList_acceptedMessage, toList_acceptedMessage] at hlists
  rcases FlatObject.two_numbers_inj rfl hlists with ⟨hindex, hvalue⟩
  exact ⟨hindex, UInt32.toNat_inj.mp hvalue⟩

theorem acceptedRecord_inj {i j : Nat} {v u : UInt32}
    (h : acceptedRecord i v = acceptedRecord j u) : i = j ∧ v = u :=
  acceptedMessage_inj (congrArg Record.message h)

theorem length_acceptedRecords (index : Nat) (vs : List UInt32) :
    (acceptedRecords index vs).length = vs.length := by
  simp [acceptedRecords]

theorem getElem?_acceptedRecords (index : Nat) (vs : List UInt32) (i : Nat) :
    (acceptedRecords index vs)[i]? = vs[i]?.map (acceptedRecord (index + i)) := by
  simp [acceptedRecords, Function.comp_def]

theorem level_of_mem_acceptedRecords
    {index : Nat} {vs : List UInt32} {line : Record}
    (hline : line ∈ acceptedRecords index vs) :
    line.level = .debug ∧ line.target = searchTarget := by
  rcases List.mem_map.mp hline with ⟨_, _, heq⟩
  rw [← heq]
  exact ⟨rfl, rfl⟩

theorem filter_acceptedRecords {f : Filter} (hdebug : f.allows .debug searchTarget = true)
    (index : Nat) (vs : List UInt32) :
    (acceptedRecords index vs).filter f.keeps = acceptedRecords index vs := by
  apply List.filter_eq_self.mpr
  intro line hline
  rcases level_of_mem_acceptedRecords hline with ⟨hlevel, htarget⟩
  rw [Filter.keeps, hlevel, htarget]
  exact hdebug

def acceptedAmong (vs : List UInt32) (answers : List Answer) : List UInt32 :=
  ((vs.zip answers).filter fun pushed => pushed.2.accepted?.isSome).map Prod.fst

theorem accepted?_push (d : Detector) (v : UInt32) :
    (d.push v).1.accepted? = if (d.push v).1.accepted?.isSome then some v else none := by
  have hpushed := pushed_push d v
  generalize d.push v = pushed at hpushed ⊢
  cases hpushed with
  | finished _ => rfl
  | @seen start _ _ =>
      rw [accepted?_answerRepeat]
      rfl
  | full _ _ _ => rfl
  | new _ _ _ =>
      rw [accepted?_accept]
      rfl

theorem acceptedAmong_pushAll (d : Detector) (vs : List UInt32) :
    acceptedAmong vs (d.pushAll vs).1 = acceptedValues (d.pushAll vs).1 := by
  induction vs generalizing d with
  | nil => rfl
  | cons v vs ih =>
      have hpush := accepted?_push d v
      rw [acceptedValues_pushAll_cons, ← ih, pushAll_cons]
      cases haccepted : (d.push v).1.accepted? with
      | none => simp [acceptedAmong, acceptedValues, haccepted]
      | some u =>
          rw [haccepted] at hpush
          cases hpush
          simp [acceptedAmong, acceptedValues, haccepted]

end Detector

open Detector

/-- The lines tell a report: how many values it counts, its ends, and where its cycle starts. -/
structure Tells (records : List Record) (r : Report) : Prop where
  length : records.length = r.distinct
  first : records[0]? = some (acceptedRecord 0 r.first)
  last : records[r.distinct - 1]? = some (acceptedRecord (r.distinct - 1) r.lastBeforeRepeat)
  start_iff (i : Nat) :
    (exists k, records[i]? = some (acceptedRecord k r.repeated)) <-> i = r.cycleStart

theorem tells_reportOf
    {h : History} {v : UInt32}
    (hnodup : h.accepted.Nodup)
    (hmem : v ∈ h.accepted) :
    Tells (acceptedRecords 0 h.accepted) (h.reportOf v) := by
  have hat : forall i,
      (acceptedRecords 0 h.accepted)[i]? = h.accepted[i]?.map (acceptedRecord i) := by
    intro i
    rw [getElem?_acceptedRecords, Nat.zero_add]
  constructor
  case length => exact length_acceptedRecords 0 h.accepted
  case first =>
    rw [hat, h.getElem?_zero_eq_first hmem]
    rfl
  case last =>
    have hlast : h.accepted[(h.reportOf v).distinct - 1]? = some (h.reportOf v).lastBeforeRepeat :=
      h.getElem?_pred_eq_lastBeforeRepeat hmem
    rw [hat, hlast]
    rfl
  case start_iff =>
    intro i
    rw [h.eq_cycleStart_iff hnodup hmem, hat]
    constructor
    · rintro ⟨k, hk⟩
      rcases Option.map_eq_some_iff.mp hk with ⟨u, hu, heq⟩
      rw [hu, (acceptedRecord_inj heq).2]
      rfl
    · intro hv
      rw [hv]
      exact ⟨i, rfl⟩

section Keeping

variable {f : Filter}

theorem records_noteAll_accepted
    (hdebug : f.allows .debug searchTarget = true)
    (index : Nat) (vs : List UInt32) :
    ((Journal.empty f).noteAll (acceptedRecords index vs)).records.toList =
      acceptedRecords index vs := by
  rw [Journal.records_noteAll_empty, filter_acceptedRecords hdebug]

theorem records_of_pushAllNoted
    (hdebug : f.allows .debug searchTarget = true)
    (cap : Nat) (vs : List UInt32) :
    exists (answers : List Answer) (d : Detector) (journal : Journal),
      (Detector.new cap).pushAllNoted vs (.empty f) = (answers, d, journal) ∧
      journal.records.toList = acceptedRecords 0 (acceptedAmong vs answers) ∧
      journal.records.toList.length = d.distinct := by
  have hcount := distinct_pushAll (Detector.new cap) vs
  rw [show (Detector.new cap).distinct = 0 from rfl, Nat.zero_add] at hcount
  refine ⟨_, _, _, (Detector.new cap).pushAllNoted_eq vs _, ?_, ?_⟩
  · rw [acceptedAmong_pushAll]
    exact records_noteAll_accepted hdebug _ _
  · rw [records_noteAll_accepted hdebug, length_acceptedRecords, hcount]

theorem records_of_searchNoted
    {σ : Type} [Std.Stream σ UInt32]
    (hdebug : f.allows .debug searchTarget = true)
    (s : σ) (cap : Nat) :
    exists vs rest, Yields s vs rest ∧
      (searchNoted s cap (.empty f)).2.records.toList = acceptedRecords 0 vs ∧
      forall r, search s cap = .ok r -> Tells (acceptedRecords 0 vs) r := by
  rcases exists_run_of_search s cap with ⟨vs, rest, hrun, hverdict⟩
  refine ⟨vs, rest, hrun.yields, ?_, ?_⟩
  · rw [searchNoted_eq_of_verdict hrun hverdict]
    exact records_noteAll_accepted hdebug 0 vs
  · intro r hr
    rw [hr] at hverdict
    cases hverdict with
    | repeated _ hmem => exact tells_reportOf (h := History.holding cap vs) hrun.nodup hmem

theorem records_of_solveNoted
    (hdebug : f.allows .debug searchTarget = true)
    (cap : Nat) :
    (solveNoted cap (.empty f)).2.records.toList =
      (searchNoted Walk.start cap (.empty f)).2.records.toList ++ announcements (solve cap) := by
  rcases exists_searchNoted_eq Walk.start cap with ⟨rs, hnoted⟩
  have hinfo : f.allows .info searchTarget = true := Filter.allows_of_rank_le (by decide) hdebug
  have hkept : (announcements (solve cap)).filter f.keeps = announcements (solve cap) := by
    cases solve cap with
    | ok r => exact List.filter_cons_of_pos hinfo
    | error e => rfl
  rw [solveNoted_eq_noteAll, hnoted, ← Journal.noteAll_append, Journal.records_noteAll_empty,
    Journal.records_noteAll_empty, List.filter_append, hkept]

end Keeping

/--
A journal that keeps debug records holds exactly the lines of the accepted values of a
run, in their order, and as many as the detector counts; an answer that accepts nothing
leaves no line.  The lines of a search are those of the values that it read before the
one that stopped it, so those of a successful search tell its report.  The program's own
search announces its report after these lines, and leaves no other line.
-/
theorem journal_records_history
    {f : Filter}
    (hdebug : f.allows .debug searchTarget = true) :
    let record (i : Nat) (v : UInt32) : Record :=
      ⟨.debug, searchTarget, s!"value #{i}: {v.toNat}"⟩
    (forall (cap : Nat) (vs : List UInt32),
      exists (answers : List Answer) (d : Detector) (journal : Journal),
        (Detector.new cap).pushAllNoted vs (.empty f) = (answers, d, journal) ∧
        journal.records.toList.length = d.distinct ∧
        (forall i,
          journal.records.toList[i]? = (acceptedAmong vs answers)[i]?.map (record i)) ∧
        forall v,
          ((exists r, (d.push v).1 = .ok (.repeated r)) ∨ exists e, (d.push v).1 = .error e) ->
            (d.pushNoted v journal).2.2 = journal) ∧
    (forall (σ : Type) [Std.Stream σ UInt32] (s : σ) (cap : Nat),
      let records := (searchNoted s cap (.empty f)).2.records.toList
      (exists vs rest, Yields s vs rest ∧ forall i, records[i]? = vs[i]?.map (record i)) ∧
      (forall line, line ∈ records -> line.level ≠ .info) ∧
      forall r, search s cap = .ok r ->
        records.length = r.distinct ∧
        records[0]? = some (record 0 r.first) ∧
        records[r.distinct - 1]? = some (record (r.distinct - 1) r.lastBeforeRepeat) ∧
        forall i, (exists k, records[i]? = some (record k r.repeated)) <-> i = r.cycleStart) ∧
    forall cap,
      let searched := (searchNoted Walk.start cap (.empty f)).2.records.toList
      let solved := (solveNoted cap (.empty f)).2.records.toList
      (forall r, solve cap = .ok r ->
        solved = searched ++
          [⟨.info, searchTarget,
            s!"Cycle found after {r.distinct} distinct values: {r.repeated.toNat} repeats index {r.cycleStart}"⟩]) ∧
      forall e, solve cap = .error e -> solved = searched := by
  intro record
  have hline : forall (vs : List UInt32) (i : Nat),
      (acceptedRecords 0 vs)[i]? = vs[i]?.map (record i) := by
    intro vs i
    rw [getElem?_acceptedRecords, Nat.zero_add]
    rfl
  refine ⟨?_, ?_, ?_⟩
  · intro cap vs
    rcases records_of_pushAllNoted hdebug cap vs with
      ⟨answers, d, journal, hrun, hrecords, hcount⟩
    refine ⟨answers, d, journal, hrun, hcount, ?_, ?_⟩
    · intro i
      rw [hrecords]
      exact hline _ i
    · intro v hanswer
      exact pushNoted_of_refused (accepted?_eq_none hanswer) journal
  · intro σ _ s cap records
    rcases records_of_searchNoted hdebug s cap with ⟨vs, rest, hyields, hrecords, htells⟩
    have hrecords : records = acceptedRecords 0 vs := hrecords
    rw [hrecords]
    refine ⟨⟨vs, rest, hyields, hline vs⟩, ?_, ?_⟩
    · intro line hline
      rw [(level_of_mem_acceptedRecords hline).1]
      decide
    · intro r hr
      have hr := htells r hr
      exact ⟨hr.length, hr.first, hr.last, hr.start_iff⟩
  · intro cap searched solved
    have hsolved : solved = searched ++ announcements (solve cap) :=
      records_of_solveNoted hdebug cap
    constructor
    · intro r hr
      rw [hsolved, hr]
      rfl
    · intro e he
      rw [hsolved, he]
      exact List.append_nil searched

theorem journal_records_seven_and_eight :
    (Filter.upTo .debug).allows .debug searchTarget = true ∧
    ((Detector.new 3).pushAllNoted [7, 8, 7, 9] (.empty (.upTo .debug))).2.2.records.toList =
      [⟨.debug, searchTarget, "value #0: 7"⟩, ⟨.debug, searchTarget, "value #1: 8"⟩] ∧
    search (Source.values [7, 8, 7, 9]) 3 = .ok ⟨7, 8, 7, 2, 0⟩ ∧
    (searchNoted (Source.values [7, 8, 7, 9]) 3 (.empty (.upTo .debug))).2.records.toList[1]? =
      some ⟨.debug, searchTarget, "value #1: 8"⟩ := by
  have hdebug := Filter.allows_upTo .debug searchTarget
  rcases journal_records_history hdebug with ⟨hpushes, hsearches, _⟩
  have hsearch : search (Source.values [7, 8, 7, 9]) 3 = .ok ⟨7, 8, 7, 2, 0⟩ := by
    have hread := yields_values_append [7, 8] [7, 9]
    exact search_eq_of_verdict ⟨hread, by decide, by decide⟩ (Verdict.repeated rfl (by decide))
  refine ⟨hdebug, ?_, hsearch, ?_⟩
  · rcases hpushes 3 [7, 8, 7, 9] with ⟨answers, d, journal, hrun, _, hrecords, _⟩
    have hanswers : answers = ((History.new 3).pushAll [7, 8, 7, 9]).1 := by
      have hfirst := congrArg Prod.fst hrun
      rw [pushAllNoted_eq] at hfirst
      exact hfirst.symm.trans ((remembers_new 3).pushAll _).1
    have haccepted : acceptedAmong [7, 8, 7, 9] answers = [7, 8] := by
      rw [hanswers]
      rfl
    apply List.ext_getElem?
    intro i
    rw [hrun, hrecords, haccepted]
    rcases i with _ | _ | i <;> rfl
  · exact ((hsearches Source (Source.values [7, 8, 7, 9]) 3).2.2 _ hsearch).2.2.1

end HashOrbit
