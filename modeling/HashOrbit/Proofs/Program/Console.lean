import HashOrbit.Program
import HashOrbit.Proofs.Search.Answers
import HashOrbit.Proofs.Search.Cap
import HashOrbit.Proofs.Search.Records

/-!
# What a run leaves on its console

As text the program pushes the values of its walk one by one and prints each line as soon
as it is known; as an object it runs a search and then prints.  Both paths end alike: a loop
of pushes leaves the console that the search of the same values leaves, but for the line
that is printed on the way.  A filter decides which records of a run are seen, and nothing
else.
-/

namespace HashOrbit
namespace Console

def settle (c : Console) : Except SearchError Report -> Except Failure Unit × Console
  | .ok r => c.conclude r
  | .error e => (.error (.search e), c)

theorem watch_eq_settle
    {σ : Type} [Std.Stream σ UInt32] {d : Detector} {last : Option Answer}
    (hfirst : d.first.isSome = true)
    (hlast : Detector.Pending last)
    (c : Console) (s : σ) (pushed : Nat) :
    c.watch d s =
      { c with journal := (d.feedFrom s c.journal pushed last).journal }.settle
        (d.feedFrom s c.journal pushed last).result := by
  cases hnext : Std.Stream.next? s with
  | none =>
      rw [watch_of_end hnext, Detector.feedFrom_of_end hnext,
        Detector.Fed.result_of_pending hlast]
      rfl
  | some head =>
      rcases head with ⟨v, rest⟩
      rcases hpush : d.push v with ⟨answer, d'⟩
      rcases Detector.first_of_push hfirst hpush with ⟨hfirst', hnot⟩
      cases answer with
      | error e =>
          rw [watch_of_error hnext hpush, Detector.feedFrom_of_refused hnext hpush rfl]
          rfl
      | ok step =>
          cases step with
          | first v => exact absurd rfl (hnot v)
          | fresh v =>
              rw [watch_of_fresh hnext hpush, Detector.feedFrom_of_accepted hnext hpush rfl]
              have _hroom : d'.room < d.room := Detector.room_push_lt hpush rfl
              exact watch_eq_settle hfirst' (Detector.pending_some rfl) _ rest (pushed + 1)
          | repeated r =>
              rw [watch_of_repeated hnext hpush, Detector.feedFrom_of_refused hnext hpush rfl]
              rfl
termination_by d.room

/-- What is printed first: the first value, if a detector under the cap accepts it. -/
def openingText {σ : Type} [Std.Stream σ UInt32] (cap : Nat) (s : σ) : String :=
  match Std.Stream.next? s with
  | none => ""
  | some (v, _) => if 0 < cap then soonestLine v ++ "\n" else ""

theorem watch_new_eq_settle
    {σ : Type} [Std.Stream σ UInt32]
    (c : Console) (cap : Nat) (s : σ) :
    c.watch (.new cap) s =
      settle ⟨c.printed ++ openingText cap s, (searchNoted s cap c.journal).2⟩
        (searchNoted s cap c.journal).1 := by
  have hsearch : searchNoted s cap c.journal =
      (((Detector.new cap).feed s c.journal).result,
        ((Detector.new cap).feed s c.journal).journal) := rfl
  rw [hsearch, Detector.feed, openingText]
  cases hnext : Std.Stream.next? s with
  | none =>
      rw [watch_of_end hnext, Detector.feedFrom_of_end hnext]
      simp only [String.append_empty]
      rfl
  | some head =>
      rcases head with ⟨v, rest⟩
      cases Nat.eq_zero_or_pos cap with
      | inl hzero =>
          subst hzero
          have hpush := Detector.push_new_zero v
          rw [watch_of_error hnext hpush, Detector.feedFrom_of_refused hnext hpush rfl]
          simp only [Nat.lt_irrefl, if_false, String.append_empty]
          rfl
      | inr hpos =>
          have hpush := Detector.push_new_of_pos hpos v
          rw [watch_of_first hnext hpush, Detector.feedFrom_of_accepted hnext hpush rfl]
          simp only [hpos, if_true, ← String.append_assoc]
          exact watch_eq_settle rfl (Detector.pending_some rfl) _ rest 1

/-!
## What the paths leave on a console
-/

def leave (c : Console) (text : String) (rs : List Record) : Console :=
  ⟨c.printed ++ text, c.journal.noteAll rs⟩

theorem leave_leave (c : Console) (text text' : String) (rs rs' : List Record) :
    (c.leave text rs).leave text' rs' = c.leave (text ++ text') (rs ++ rs') := by
  unfold leave
  rw [String.append_assoc, Journal.noteAll_append]

theorem printLine_eq_leave (c : Console) (line : String) :
    c.printLine line = c.leave (line ++ "\n") [] := by
  unfold leave printLine
  rw [String.append_assoc]
  rfl

theorem inform_eq_leave (c : Console) (message : Unit -> String) :
    c.inform message = c.leave "" [⟨.info, programTarget, message ()⟩] := by
  unfold leave
  rw [String.append_empty]
  rfl

def cycleRecord (r : Report) (length : Nat) : Record :=
  ⟨.info, programTarget, s!"Cycle of length {length} starts at index {r.cycleStart}"⟩

theorem conclude_eq_leave
    {r : Report} {length : Nat}
    (hlength : r.cycleLength = .ok length)
    (c : Console) :
    c.conclude r =
      (.ok (), c.leave (latestLine r.lastBeforeRepeat ++ "\n") [cycleRecord r length]) := by
  unfold conclude informChecked
  rw [hlength]
  cases hallowed : c.journal.filter.allows .info programTarget with
  | true =>
      show (Except.ok (), (c.inform _).printLine _) = _
      rw [printLine_eq_leave, inform_eq_leave, leave_leave, String.empty_append]
      rfl
  | false =>
      show (Except.ok (), c.printLine _) = _
      rw [printLine_eq_leave]
      simp [leave, cycleRecord, Journal.noteAll, Journal.note, hallowed]

section Leaving

variable {cap : Nat} {r : Report} {e : SearchError}

theorem exists_watch_eq {σ : Type} [Std.Stream σ UInt32] (s : σ) (cap : Nat) :
    exists rs, forall c : Console,
      c.watch (.new cap) s = (c.leave (openingText cap s) rs).settle (search s cap) := by
  rcases exists_searchNoted_eq s cap with ⟨rs, hnoted⟩
  refine ⟨rs, ?_⟩
  intro c
  rw [watch_new_eq_settle, hnoted]
  rfl

theorem exists_watch_of_ok (hsearch : search Walk.start cap = .ok r) :
    exists rs, forall c : Console,
      c.watch (.new cap) Walk.start =
        (.ok (), c.leave
          (soonestLine r.first ++ "\n" ++ latestLine r.lastBeforeRepeat ++ "\n") rs) := by
  rcases exists_watch_eq Walk.start cap with ⟨rs, hwatch⟩
  rcases Walk.search_eq_ok_iff.mp hsearch with ⟨hloops, hcap, hr⟩
  have hpos : 0 < cap := Nat.lt_of_lt_of_le (Nat.zero_lt_of_lt hloops.start_lt) hcap
  have hfirst : r.first = Walk.start.next.1 := congrArg Report.first hr
  have hopening : openingText cap Walk.start = soonestLine r.first ++ "\n" := by
    show (if 0 < cap then soonestLine Walk.start.next.1 ++ "\n" else "") = _
    rw [if_pos hpos, hfirst]
  have hlength := (sound_of_search hsearch).cycleLength_eq
  rw [hsearch] at hwatch
  refine ⟨rs ++ [cycleRecord r (r.distinct - r.cycleStart)], ?_⟩
  intro c
  rw [hwatch, settle, conclude_eq_leave hlength, leave_leave, hopening, ← String.append_assoc]

theorem exists_watch_of_error (hsearch : search Walk.start cap = .error e) :
    exists rs, forall c : Console,
      c.watch (.new cap) Walk.start =
        (.error (.search e), c.leave (openingText cap Walk.start) rs) := by
  rcases exists_watch_eq Walk.start cap with ⟨rs, hwatch⟩
  refine ⟨rs, ?_⟩
  intro c
  rw [hwatch, hsearch, settle]

theorem exists_solveObject_of_ok
    {text : String}
    (hsearch : search Walk.start cap = .ok r)
    (hrender : r.render .json = .ok text) :
    exists rs, forall c : Console,
      c.solveObject cap = (.ok (), c.leave (text ++ "\n") rs) := by
  rcases exists_solveNoted_eq cap with ⟨rs, hnoted⟩
  refine ⟨rs, ?_⟩
  intro c
  simp only [solveObject, hnoted, solve_eq_search, hsearch, hrender, printLine_eq_leave]
  rfl

theorem exists_solveObject_of_error (hsearch : search Walk.start cap = .error e) :
    exists rs, forall c : Console,
      c.solveObject cap = (.error (.search e), c.leave "" rs) := by
  rcases exists_solveNoted_eq cap with ⟨rs, hnoted⟩
  refine ⟨rs, ?_⟩
  intro c
  simp only [solveObject, hnoted, solve_eq_search, hsearch, leave, String.append_empty]

/-!
## Both paths of a solve
-/

def solveRecord (cap : Nat) : Record :=
  ⟨.info, programTarget, s!"Solving with at most {cap} iterations"⟩

theorem solve_text (c : Console) (cap : Nat) :
    c.solve cap .text = (c.leave "" [solveRecord cap]).watch (.new cap) Walk.start :=
  congrArg (fun c : Console => c.watch (.new cap) Walk.start) (inform_eq_leave c _)

theorem solve_json (c : Console) (cap : Nat) :
    c.solve cap .json = (c.leave "" [solveRecord cap]).solveObject cap :=
  congrArg (fun c : Console => c.solveObject cap) (inform_eq_leave c _)

theorem exists_solve_of_ok (hsearch : search Walk.start cap = .ok r) (format : Format) :
    exists text rs, r.render format = .ok text ∧
      forall c : Console, c.solve cap format = (.ok (), c.leave (text ++ "\n") rs) := by
  cases format with
  | text =>
      rcases exists_watch_of_ok hsearch with ⟨rs, hwatch⟩
      refine ⟨_, solveRecord cap :: rs, r.render_text, ?_⟩
      intro c
      rw [solve_text, hwatch, leave_leave, String.empty_append]
      rfl
  | json =>
      have hrender := Report.render_json_of_le (Nat.le_of_lt (sound_of_search hsearch).start_lt)
      rcases exists_solveObject_of_ok hsearch hrender with ⟨rs, hobject⟩
      refine ⟨_, solveRecord cap :: rs, hrender, ?_⟩
      intro c
      rw [solve_json, hobject, leave_leave, String.empty_append]
      rfl

def failureText (cap : Nat) : Format -> String
  | .text => openingText cap Walk.start
  | .json => ""

theorem exists_solve_of_error (hsearch : search Walk.start cap = .error e) (format : Format) :
    exists rs, forall c : Console,
      c.solve cap format = (.error (.search e), c.leave (failureText cap format) rs) := by
  cases format with
  | text =>
      rcases exists_watch_of_error hsearch with ⟨rs, hwatch⟩
      refine ⟨solveRecord cap :: rs, ?_⟩
      intro c
      rw [solve_text, hwatch, leave_leave, String.empty_append]
      rfl
  | json =>
      rcases exists_solveObject_of_error hsearch with ⟨rs, hobject⟩
      refine ⟨solveRecord cap :: rs, ?_⟩
      intro c
      rw [solve_json, hobject, leave_leave, String.empty_append]
      rfl

theorem solve_of_ok
    {c : Console}
    (hsearch : search Walk.start cap = .ok r) :
    (forall format, (c.solve cap format).1 = .ok ()) ∧
      exists text object, r.render .text = .ok text ∧ r.render .json = .ok object ∧
        (c.solve cap .text).2.printed = c.printed ++ text ++ "\n" ∧
        (c.solve cap .json).2.printed = c.printed ++ object ++ "\n" := by
  rcases exists_solve_of_ok hsearch .text with ⟨text, _, htext, htextSolve⟩
  rcases exists_solve_of_ok hsearch .json with ⟨object, _, hobject, hobjectSolve⟩
  constructor
  · intro format
    cases format with
    | text => rw [htextSolve]
    | json => rw [hobjectSolve]
  · refine ⟨text, object, htext, hobject, ?_, ?_⟩
    · rw [htextSolve, String.append_assoc]
      rfl
    · rw [hobjectSolve, String.append_assoc]
      rfl

theorem solve_of_error
    {c : Console}
    (hsearch : search Walk.start cap = .error e) :
    (forall format, (c.solve cap format).1 = .error (.search e)) ∧
      (c.solve cap .text).2.printed =
        c.printed ++ (if 0 < cap then soonestLine (HashOrbit.pass 0) ++ "\n" else "") ∧
      (c.solve cap .json).2.printed = c.printed := by
  rcases exists_solve_of_error hsearch .text with ⟨_, htext⟩
  rcases exists_solve_of_error hsearch .json with ⟨_, hobject⟩
  refine ⟨?_, ?_, ?_⟩
  · intro format
    cases format with
    | text => rw [htext]
    | json => rw [hobject]
  · rw [htext]
    rfl
  · rw [hobject]
    exact String.append_empty

end Leaving
end Console

/--
Both formats end a solve alike, and as the search alone ends.  A report is printed as
it renders.  If there is none, the object path has printed nothing, and the text path
the first line, unless the cap is zero.  Neither path fails but by the cap.
-/
theorem solve_formats_agree (c : Console) (cap : Nat) :
    (c.solve cap .text).1 = (c.solve cap .json).1 ∧
    (forall r, solve cap = .ok r ->
      (c.solve cap .text).1 = .ok () ∧
      exists text object, r.render .text = .ok text ∧ r.render .json = .ok object ∧
        (c.solve cap .text).2.printed = c.printed ++ text ++ "\n" ∧
        (c.solve cap .json).2.printed = c.printed ++ object ++ "\n") ∧
    (forall e, solve cap = .error e ->
      (c.solve cap .text).1 = .error (.search e) ∧
      (c.solve cap .text).2.printed =
        c.printed ++ (if 1 ≤ cap then soonestLine (pass 0) ++ "\n" else "") ∧
      (c.solve cap .json).2.printed = c.printed) ∧
    forall format,
      (forall n, (c.solve cap format).1 ≠ .error (.search (.exhausted n))) ∧
      (c.solve cap format).1 ≠ .error (.search .finished) := by
  rw [solve_eq_search]
  cases Walk.search_cases Walk.start cap with
  | inl hok =>
      rcases hok with ⟨r, hr⟩
      rcases Console.solve_of_ok (c := c) hr with ⟨hresult, hprinted⟩
      refine ⟨(hresult .text).trans (hresult .json).symm, ?_, ?_, ?_⟩
      · intro r' hr'
        cases hr.symm.trans hr'
        exact ⟨hresult .text, hprinted⟩
      · intro e he
        cases hr.symm.trans he
      · intro format
        rw [hresult format]
        exact ⟨nofun, nofun⟩
  | inr hcapped =>
      rcases Console.solve_of_error (c := c) hcapped.left with ⟨hresult, hprinted⟩
      refine ⟨(hresult .text).trans (hresult .json).symm, ?_, ?_, ?_⟩
      · intro r hr
        cases hcapped.left.symm.trans hr
      · intro e he
        cases hcapped.left.symm.trans he
        exact ⟨hresult .text, hprinted⟩
      · intro format
        rw [hresult format]
        exact ⟨nofun, nofun⟩

/-!
## What a filter decides

A command does the same on every console: it ends alike, prints the same text, and leaves
the same records, of which the journal keeps those that its filter allows.  This covers the
record whose text need not exist, because the report that it is about has a length.
-/

theorem Console.exists_run_eq (command : CommandLine.Command) :
    exists result text rs,
      (forall e : ReportError, result ≠ .error (.report e)) ∧
      forall c : Console, c.run command = (result, c.leave text rs) := by
  cases command with
  | solve cap format =>
      cases hsearch : search Walk.start cap with
      | ok r =>
          rcases exists_solve_of_ok hsearch format with ⟨text, rs, _, hsolve⟩
          exact ⟨.ok (), text ++ "\n", rs, nofun, hsolve⟩
      | error e =>
          rcases exists_solve_of_error hsearch format with ⟨rs, hsolve⟩
          exact ⟨.error (.search e), failureText cap format, rs, nofun, hsolve⟩
  | pass register format =>
      refine ⟨.ok (), renderPass register (HashOrbit.pass register) format ++ "\n",
        [⟨.info, programTarget, s!"Single pass from register {register.toNat}"⟩], nofun, ?_⟩
      intro c
      rw [run, pass, printLine_eq_leave, inform_eq_leave, leave_leave, String.empty_append]
      rfl

theorem ofConsole_leave
    (result : Except Failure Unit) (f : Filter) (text : String) (rs : List Record) :
    Outcome.ofConsole (result, (Console.empty f).leave text rs) =
      match result with
      | .ok () => ⟨0, text, "", rs.filter f.keeps⟩
      | .error e => ⟨e.exitCode, text, e.message, rs.filter f.keeps⟩ := by
  have hprinted : (Console.empty f).printed ++ text = text := String.empty_append
  cases result with
  | ok _ =>
      rw [Outcome.ofConsole, Console.leave, hprinted, ← Journal.records_noteAll_empty]
      rfl
  | error e =>
      rw [Outcome.ofConsole, Console.leave, hprinted, ← Journal.records_noteAll_empty]
      rfl

theorem exists_runProgram_eq (args : List String) :
    exists all : Outcome, forall f,
      runProgram f args = { all with records := all.records.filter f.keeps } := by
  cases hread : CommandLine.read args with
  | error e =>
      refine ⟨.ofUsageError e, ?_⟩
      intro f
      simp only [runProgram, hread]
      rfl
  | ok request =>
      cases request with
      | help topic =>
          refine ⟨.ofText topic.page, ?_⟩
          intro f
          simp only [runProgram, hread]
          rfl
      | version sub =>
          refine ⟨.ofText (CommandLine.versionLine sub ++ "\n"), ?_⟩
          intro f
          simp only [runProgram, hread]
          rfl
      | run command =>
          rcases Console.exists_run_eq command with ⟨result, text, rs, _, hrun⟩
          cases result with
          | ok _ =>
              refine ⟨⟨0, text, "", rs⟩, ?_⟩
              intro f
              simp only [runProgram, hread, hrun, ofConsole_leave]
          | error e =>
              refine ⟨⟨e.exitCode, text, e.message, rs⟩, ?_⟩
              intro f
              simp only [runProgram, hread, hrun, ofConsole_leave]

theorem results_of_filters (f g : Filter) :
    (forall (d : Detector) (vs : List UInt32),
      (d.pushAllNoted vs (.empty f)).1 = (d.pushAllNoted vs (.empty g)).1 ∧
      (d.pushAllNoted vs (.empty f)).2.1 = (d.pushAllNoted vs (.empty g)).2.1) ∧
    (forall (σ : Type) [Std.Stream σ UInt32] (s : σ) (cap : Nat),
      (searchNoted s cap (.empty f)).1 = (searchNoted s cap (.empty g)).1) ∧
    (forall cap, (solveNoted cap (.empty f)).1 = (solveNoted cap (.empty g)).1) ∧
    (forall args,
      (runProgram f args).exitCode = (runProgram g args).exitCode ∧
      (runProgram f args).stdout = (runProgram g args).stdout ∧
      (runProgram f args).stderr = (runProgram g args).stderr) := by
  refine ⟨?_, ?_, ?_, ?_⟩
  · intro d vs
    rw [d.pushAllNoted_eq, d.pushAllNoted_eq]
    exact ⟨rfl, rfl⟩
  · intro σ _ s cap
    rw [fst_searchNoted, fst_searchNoted]
  · intro cap
    rw [fst_solveNoted, fst_solveNoted]
  · intro args
    rcases exists_runProgram_eq args with ⟨all, heq⟩
    rw [heq, heq]
    exact ⟨rfl, rfl, rfl⟩

theorem fst_run_ne_report (f : Filter) (command : CommandLine.Command) (e : ReportError) :
    ((Console.empty f).run command).1 ≠ .error (.report e) := by
  rcases Console.exists_run_eq command with ⟨result, text, rs, hresult, heq⟩
  have hfst : ((Console.empty f).run command).1 = result := congrArg Prod.fst (heq _)
  rw [hfst]
  exact hresult e

theorem records_of_levels (target : String) :
    let info : Filter := ⟨target, some .info⟩
    let debug : Filter := ⟨target, some .debug⟩
    (forall (d : Detector) (vs : List UInt32),
      (d.pushAllNoted vs (.empty info)).2.2.records.toList =
        Filter.withoutDebug (d.pushAllNoted vs (.empty debug)).2.2.records.toList) ∧
    (forall (σ : Type) [Std.Stream σ UInt32] (s : σ) (cap : Nat),
      (searchNoted s cap (.empty info)).2.records.toList =
        Filter.withoutDebug (searchNoted s cap (.empty debug)).2.records.toList) ∧
    (forall cap,
      (solveNoted cap (.empty info)).2.records.toList =
        Filter.withoutDebug (solveNoted cap (.empty debug)).2.records.toList) ∧
    forall args,
      (runProgram info args).records = Filter.withoutDebug (runProgram debug args).records := by
  intro info debug
  refine ⟨?_, ?_, ?_, ?_⟩
  · intro d vs
    rw [d.pushAllNoted_eq, d.pushAllNoted_eq]
    exact Journal.records_info_eq target _
  · intro σ _ s cap
    rcases exists_searchNoted_eq s cap with ⟨rs, heq⟩
    rw [heq, heq]
    exact Journal.records_info_eq target rs
  · intro cap
    rcases exists_solveNoted_eq cap with ⟨rs, heq⟩
    rw [heq, heq]
    exact Journal.records_info_eq target rs
  · intro args
    rcases exists_runProgram_eq args with ⟨all, heq⟩
    rw [heq, heq]
    exact Filter.filter_keeps_info target all.records

/--
Whatever a journal keeps, pushes, searches, the program's own search and every command
line give the same results, texts and exit codes, and no command fails for a report
without a length.  The records kept down to the info level are those kept down to the
debug level without the debug records.
-/
theorem filters_change_nothing :
    (forall f g : Filter,
      (forall (d : Detector) (vs : List UInt32),
        (d.pushAllNoted vs (.empty f)).1 = (d.pushAllNoted vs (.empty g)).1 ∧
        (d.pushAllNoted vs (.empty f)).2.1 = (d.pushAllNoted vs (.empty g)).2.1) ∧
      (forall (σ : Type) [Std.Stream σ UInt32] (s : σ) (cap : Nat),
        (searchNoted s cap (.empty f)).1 = (searchNoted s cap (.empty g)).1) ∧
      (forall cap, (solveNoted cap (.empty f)).1 = (solveNoted cap (.empty g)).1) ∧
      (forall args,
        (runProgram f args).exitCode = (runProgram g args).exitCode ∧
        (runProgram f args).stdout = (runProgram g args).stdout ∧
        (runProgram f args).stderr = (runProgram g args).stderr)) ∧
    (forall (f : Filter) (command : CommandLine.Command) (e : ReportError),
      ((Console.empty f).run command).1 ≠ .error (.report e)) ∧
    forall target : String,
      let info : Filter := ⟨target, some .info⟩
      let debug : Filter := ⟨target, some .debug⟩
      (forall (d : Detector) (vs : List UInt32),
        (d.pushAllNoted vs (.empty info)).2.2.records.toList =
          Filter.withoutDebug (d.pushAllNoted vs (.empty debug)).2.2.records.toList) ∧
      (forall (σ : Type) [Std.Stream σ UInt32] (s : σ) (cap : Nat),
        (searchNoted s cap (.empty info)).2.records.toList =
          Filter.withoutDebug (searchNoted s cap (.empty debug)).2.records.toList) ∧
      (forall cap,
        (solveNoted cap (.empty info)).2.records.toList =
          Filter.withoutDebug (solveNoted cap (.empty debug)).2.records.toList) ∧
      forall args,
        (runProgram info args).records = Filter.withoutDebug (runProgram debug args).records :=
  ⟨results_of_filters, fst_run_ne_report, records_of_levels⟩

end HashOrbit
