import HashOrbit.CommandLine.Command
import HashOrbit.CommandLine.Reader
import HashOrbit.Render

/-!
# The program

The program reads its command line, runs the command on a console, and ends with
an exit code.  A console is what has been printed so far and the journal.

The search as text prints its first line as soon as the first value is known, so
a search that fails later has still printed it; the search as an object prints
nothing unless it succeeds.
-/

namespace HashOrbit

open CommandLine

def programTarget : String := "chronal"

structure Console where
  printed : String
  journal : Journal

inductive Failure where
  | search (e : SearchError)
  | report (e : ReportError)
deriving DecidableEq, Repr

namespace Console

def empty (filter : Filter) : Console := ⟨"", .empty filter⟩

def printLine (c : Console) (line : String) : Console :=
  { c with printed := c.printed ++ line ++ "\n" }

def inform (c : Console) (message : Unit -> String) : Console :=
  { c with journal := c.journal.note .info programTarget message }

/--
Leaves a record whose text may turn out not to exist.  The text is computed only
if the filter allows the record, so only then can this fail.
-/
def informChecked (c : Console) (message : Unit -> Except ReportError String) :
    Except ReportError Console :=
  if c.journal.filter.allows .info programTarget then
    (message ()).map fun text => c.inform fun _ => text
  else
    .ok c

def noteAnswer (c : Console) (d : Detector) (answer : Answer) : Console :=
  { c with journal := d.noteAnswer answer c.journal }

def conclude (c : Console) (r : Report) : Except Failure Unit × Console :=
  let announced := c.informChecked fun _ =>
    r.cycleLength.map fun length =>
      s!"Cycle of length {length} starts at index {r.cycleStart}"
  match announced with
  | .ok c => (.ok (), c.printLine (latestLine r.lastBeforeRepeat))
  | .error e => (.error (.report e), c)

/--
Pushes the values of a stream into a detector until one repeats, printing each of the two
lines as soon as its value is known.
-/
def watch {σ : Type} [Std.Stream σ UInt32] (c : Console) (d : Detector) (s : σ) :
    Except Failure Unit × Console :=
  match Std.Stream.next? s with
  | none => (.error (.search (.exhausted d.distinct)), c)
  | some (v, rest) =>
      match hpush : d.push v with
      | (.ok (.first first), d') =>
          have _hroom : d'.room < d.room := Detector.room_push_lt hpush rfl
          watch ((c.noteAnswer d (.ok (.first first))).printLine (soonestLine first)) d' rest
      | (.ok (.fresh fresh), d') =>
          have _hroom : d'.room < d.room := Detector.room_push_lt hpush rfl
          watch (c.noteAnswer d (.ok (.fresh fresh))) d' rest
      | (.ok (.repeated r), _) => c.conclude r
      | (.error e, _) => (.error (.search e), c)
termination_by d.room

section Rounds

variable {σ : Type} [Std.Stream σ UInt32] {s rest : σ} {v : UInt32} {d d' : Detector}

theorem watch_of_end (hend : Std.Stream.next? s = none) (c : Console) (d : Detector) :
    c.watch d s = (.error (.search (.exhausted d.distinct)), c) := by
  rw [watch, hend]

theorem watch_of_first
    {first : UInt32}
    (hnext : Std.Stream.next? s = some (v, rest))
    (hpush : d.push v = (.ok (.first first), d'))
    (c : Console) :
    c.watch d s =
      ((c.noteAnswer d (.ok (.first first))).printLine (soonestLine first)).watch d' rest := by
  rw [watch, hnext]
  simp only
  split <;> simp_all

theorem watch_of_fresh
    {fresh : UInt32}
    (hnext : Std.Stream.next? s = some (v, rest))
    (hpush : d.push v = (.ok (.fresh fresh), d'))
    (c : Console) :
    c.watch d s = (c.noteAnswer d (.ok (.fresh fresh))).watch d' rest := by
  rw [watch, hnext]
  simp only
  split <;> simp_all

theorem watch_of_repeated
    {r : Report}
    (hnext : Std.Stream.next? s = some (v, rest))
    (hpush : d.push v = (.ok (.repeated r), d'))
    (c : Console) :
    c.watch d s = c.conclude r := by
  rw [watch, hnext]
  simp only
  split <;> simp_all

theorem watch_of_error
    {e : SearchError}
    (hnext : Std.Stream.next? s = some (v, rest))
    (hpush : d.push v = (.error e, d'))
    (c : Console) :
    c.watch d s = (.error (.search e), c) := by
  rw [watch, hnext]
  simp only
  split <;> simp_all

end Rounds

def solveObject (c : Console) (cap : Nat) : Except Failure Unit × Console :=
  match solveNoted cap c.journal with
  | (.ok r, journal) =>
      let c := { c with journal := journal }
      match r.render .json with
      | .ok text => (.ok (), c.printLine text)
      | .error e => (.error (.report e), c)
  | (.error e, journal) => (.error (.search e), { c with journal := journal })

def solve (c : Console) (cap : Nat) (format : Format) : Except Failure Unit × Console :=
  let c := c.inform fun _ => s!"Solving with at most {cap} iterations"
  match format with
  | .json => c.solveObject cap
  | .text => c.watch (.new cap) Walk.start

def pass (c : Console) (register : UInt32) (format : Format) : Console :=
  let c := c.inform fun _ => s!"Single pass from register {register.toNat}"
  c.printLine (renderPass register (HashOrbit.pass register) format)

def run (c : Console) : Command -> Except Failure Unit × Console
  | .solve cap format => c.solve cap format
  | .pass register format => (.ok (), c.pass register format)

end Console

/-!
## Outcomes
-/

/--
What a run of the program leaves behind.  What is printed for the eye besides the records
is `stderr`, without its last line break.
-/
structure Outcome where
  exitCode : Nat
  stdout : String
  stderr : String
  records : List Record
deriving DecidableEq, Repr

namespace Failure

def exitCode : Failure -> Nat
  | search _ => 1
  | report _ => 101

def message : Failure -> String
  | search e => s!"Error: Failed to solve activation program\n\nCaused by:\n    {e.message}"
  | report e => e.message

end Failure

namespace Outcome

def ofText (text : String) : Outcome := ⟨0, text, "", []⟩

/-- Of a usage error only the first line; the hints and the usage after it are left out. -/
def ofUsageError (e : UsageError) : Outcome := ⟨2, "", s!"error: {e.message}", []⟩

def ofConsole : Except Failure Unit × Console -> Outcome
  | (.ok (), c) => ⟨0, c.printed, "", c.journal.records.toList⟩
  | (.error e, c) => ⟨e.exitCode, c.printed, e.message, c.journal.records.toList⟩

end Outcome

def runProgram (filter : Filter) (args : List String) : Outcome :=
  match CommandLine.read args with
  | .ok (.run command) => .ofConsole ((Console.empty filter).run command)
  | .ok (.help topic) => .ofText topic.page
  | .ok (.version sub) => .ofText (versionLine sub ++ "\n")
  | .error e => .ofUsageError e

end HashOrbit
