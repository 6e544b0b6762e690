import HashOrbit.Detector
import HashOrbit.Journal
import HashOrbit.Walk

/-!
# Searching for a repeat

A detector is fed from a stream: values are pulled and pushed until the stream ends or a
push answers with something other than an accepted value.  Each accepted value leaves one
record in the journal, under the index that the detector gave it; other answers leave none.
The loop ends on endless streams too, because accepted values use up the room under the cap.

A search feeds a new detector and returns the report of the first repeat.  The activation
program is searched by walking from a zeroed register.
-/

namespace HashOrbit

def searchTarget : String := "chronal::cycle"

namespace Detector

def acceptedMessage (index : Nat) (v : UInt32) : String :=
  s!"value #{index}: {v.toNat}"

/-- Records the value that `answer` accepted, under the index that the detector `d` has next. -/
def noteAnswer (d : Detector) (answer : Answer) (journal : Journal) : Journal :=
  match answer.accepted? with
  | some v => journal.note .debug searchTarget fun _ => acceptedMessage d.distinct v
  | none => journal

def pushNoted (d : Detector) (v : UInt32) (journal : Journal) :
    Answer × Detector × Journal :=
  let (answer, d') := d.push v
  (answer, d', d.noteAnswer answer journal)

def pushAllNoted (d : Detector) : List UInt32 -> Journal -> List Answer × Detector × Journal
  | [], journal => ([], d, journal)
  | v :: vs, journal =>
      let (answer, d, journal) := d.pushNoted v journal
      let (answers, d, journal) := d.pushAllNoted vs journal
      (answer :: answers, d, journal)

/--
What a feeding leaves: `rest` is the stream after the last value pulled, `pushed` the number
of values pulled, and `last` the answer to the last of them.
-/
structure Fed (σ : Type) where
  detector : Detector
  journal : Journal
  rest : σ
  pushed : Nat
  last : Option Answer

def feedFrom {σ : Type} [Std.Stream σ UInt32]
    (d : Detector) (s : σ) (journal : Journal) (pushed : Nat) (last : Option Answer) :
    Fed σ :=
  match Std.Stream.next? s with
  | none => ⟨d, journal, s, pushed, last⟩
  | some (v, rest) =>
      match hpush : d.push v with
      | (answer, d') =>
          match haccepted : answer.accepted? with
          | some _ =>
              have _hroom : d'.room < d.room := room_push_lt hpush haccepted
              feedFrom d' rest (d.noteAnswer answer journal) (pushed + 1) (some answer)
          | none => ⟨d', journal, rest, pushed + 1, some answer⟩
termination_by d.room

/-- Feeds a detector until the stream ends or a value is not accepted. -/
def feed {σ : Type} [Std.Stream σ UInt32] (d : Detector) (s : σ) (journal : Journal) : Fed σ :=
  d.feedFrom s journal 0 none

/-!
## One round of the feeding
-/

section Rounds

variable {σ : Type} [Std.Stream σ UInt32]

theorem feedFrom_of_end
    {s : σ}
    (hend : Std.Stream.next? s = none)
    (d : Detector) (journal : Journal) (pushed : Nat) (last : Option Answer) :
    d.feedFrom s journal pushed last = ⟨d, journal, s, pushed, last⟩ := by
  rw [feedFrom, hend]

theorem feedFrom_of_accepted
    {s rest : σ} {v w : UInt32} {d d' : Detector} {answer : Answer}
    (hnext : Std.Stream.next? s = some (v, rest))
    (hpush : d.push v = (answer, d'))
    (haccepted : answer.accepted? = some w)
    (journal : Journal) (pushed : Nat) (last : Option Answer) :
    d.feedFrom s journal pushed last =
      d'.feedFrom rest (d.noteAnswer answer journal) (pushed + 1) (some answer) := by
  rw [feedFrom, hnext]
  simp only [hpush]
  split
  · rfl
  · rename_i hrefused
    rw [hpush, haccepted] at hrefused
    cases hrefused

theorem feedFrom_of_refused
    {s rest : σ} {v : UInt32} {d d' : Detector} {answer : Answer}
    (hnext : Std.Stream.next? s = some (v, rest))
    (hpush : d.push v = (answer, d'))
    (hrefused : answer.accepted? = none)
    (journal : Journal) (pushed : Nat) (last : Option Answer) :
    d.feedFrom s journal pushed last = ⟨d', journal, rest, pushed + 1, some answer⟩ := by
  rw [feedFrom, hnext]
  simp only [hpush]
  split
  · rename_i haccepted
    rw [hpush, hrefused] at haccepted
    cases haccepted
  · rfl

end Rounds

end Detector

/-!
## Searches
-/

/--
The cap within which a stream of 24-bit values must repeat: one more value than
there are such values.
-/
def defaultCap : Nat := stateSpace + 1

namespace Detector.Fed

def result {σ : Type} (f : Fed σ) : Except SearchError Report :=
  match f.last with
  | some (.ok (.repeated r)) => .ok r
  | some (.error e) => .error e
  | _ => .error (.exhausted f.detector.distinct)

end Detector.Fed

def searchNoted {σ : Type} [Std.Stream σ UInt32]
    (s : σ) (cap : Nat) (journal : Journal) :
    Except SearchError Report × Journal :=
  let fed := (Detector.new cap).feed s journal
  (fed.result, fed.journal)

def search {σ : Type} [Std.Stream σ UInt32] (s : σ) (cap : Nat) :
    Except SearchError Report :=
  (searchNoted s cap .silent).1

namespace Report

def announcement (r : Report) : String :=
  s!"Cycle found after {r.distinct} distinct values: {r.repeated.toNat} repeats index {r.cycleStart}"

end Report

def solveNoted (cap : Nat) (journal : Journal) :
    Except SearchError Report × Journal :=
  match searchNoted Walk.start cap journal with
  | (.ok r, journal) =>
      (.ok r, journal.note .info searchTarget fun _ => r.announcement)
  | (.error e, journal) => (.error e, journal)

def solve (cap : Nat) : Except SearchError Report :=
  (solveNoted cap .silent).1

end HashOrbit
