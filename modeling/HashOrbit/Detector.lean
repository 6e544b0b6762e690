import Std.Data.TreeMap

/-!
# The repeat detector

A detector takes values one at a time and answers each with what it learned: the value is
the first, the value is fresh, or the value repeats an earlier one.  It remembers every
accepted value with the index at which it came, in a search tree, so that no choice of
values makes a look-up slow.  A cap bounds how many different values it accepts; after a
repeat or after the cap it answers nothing else.

A value is looked up before the cap is checked, so a repeat that lands on the cap is still
a repeat.  The measure `room` is what a loop over pushes runs out of.
-/

namespace HashOrbit

inductive SearchError where
  | capExceeded (cap : Nat)
  | exhausted (produced : Nat)
  | finished
deriving DecidableEq, Repr

namespace SearchError

def name : SearchError -> String
  | capExceeded _ => "IterationCapExceeded"
  | exhausted _ => "SequenceExhausted"
  | finished => "AlreadyFinished"

def message : SearchError -> String
  | capExceeded cap => s!"no repeated value within {cap} iterations"
  | exhausted produced => s!"sequence ended after {produced} values without repeating"
  | finished => "cycle already detected, detector does not accept more values"

def inspect (e : SearchError) : String :=
  match e with
  | capExceeded cap => s!"{e.name} \x7b cap: {cap} \x7d"
  | exhausted produced => s!"{e.name} \x7b produced: {produced} \x7d"
  | finished => e.name

end SearchError

/-!
## Reports

Nothing ties the fields of a report together, so the length of the cycle is computed with a
check: a report whose cycle starts after its last distinct value has none.
-/

/--
The ends of the values before a repeat, the value that came again, how many different
values there were, and the index at which the repeated value first came.
-/
structure Report where
  first : UInt32
  lastBeforeRepeat : UInt32
  repeated : UInt32
  distinct : Nat
  cycleStart : Nat
deriving DecidableEq, Inhabited, Repr

inductive ReportError where
  | startsTooLate
deriving DecidableEq, Repr

namespace ReportError

def message : ReportError -> String
  | startsTooLate => "attempt to subtract with overflow"

end ReportError

namespace Report

def cycleLength (r : Report) : Except ReportError Nat :=
  if r.cycleStart ≤ r.distinct then
    .ok (r.distinct - r.cycleStart)
  else
    .error .startsTooLate

theorem cycleLength_eq_ok {r : Report} (h : r.cycleStart ≤ r.distinct) :
    r.cycleLength = .ok (r.distinct - r.cycleStart) :=
  if_pos h

theorem cycleLength_eq_error {r : Report} (h : r.distinct < r.cycleStart) :
    r.cycleLength = .error .startsTooLate :=
  if_neg (Nat.not_le.mpr h)

end Report

/-!
## Detectors
-/

inductive Step where
  | first (v : UInt32)
  | fresh (v : UInt32)
  | repeated (r : Report)
deriving DecidableEq, Repr

abbrev Answer := Except SearchError Step

namespace Answer

def accepted? : Answer -> Option UInt32
  | .ok (.first v) => some v
  | .ok (.fresh v) => some v
  | _ => none

end Answer

structure Detector where
  seen : Std.TreeMap UInt32 Nat
  first : Option UInt32
  last : Option UInt32
  cap : Nat
  finished : Bool

namespace Detector

def new (cap : Nat) : Detector where
  seen := ∅
  first := none
  last := none
  cap := cap
  finished := false

def distinct (d : Detector) : Nat :=
  d.seen.size

def room (d : Detector) : Nat :=
  d.cap - d.distinct

def accept (d : Detector) (v : UInt32) : Answer × Detector :=
  let step := if d.first.isNone then Step.first v else Step.fresh v
  let index := d.distinct
  (.ok step,
    { d with
      seen := d.seen.insert v index
      first := d.first.or (some v)
      last := some v })

/--
The answer to a value first seen at index `start`.  A value can only have been
seen if there are a first and a last one.
-/
def answerRepeat (d : Detector) (v : UInt32) (start : Nat) : Answer :=
  match d.first, d.last with
  | some first, some last =>
      .ok (.repeated ⟨first, last, v, d.distinct, start⟩)
  | _, _ => .error .finished

def push (d : Detector) (v : UInt32) : Answer × Detector :=
  if d.finished then
    (.error .finished, d)
  else
    match d.seen[v]? with
    | some start => (d.answerRepeat v start, { d with finished := true })
    | none =>
        if d.cap ≤ d.distinct then
          (.error (.capExceeded d.cap), { d with finished := true })
        else
          d.accept v

def pushAll (d : Detector) : List UInt32 -> List Answer × Detector
  | [] => ([], d)
  | v :: vs =>
      let (answer, d) := d.push v
      let (answers, d) := d.pushAll vs
      (answer :: answers, d)

/-!
## The cases of a push
-/

theorem push_of_finished {d : Detector} (h : d.finished = true) (v : UInt32) :
    d.push v = (.error .finished, d) := by
  simp [push, h]

theorem push_of_seen
    {d : Detector} {v : UInt32} {start : Nat}
    (hopen : d.finished = false)
    (hseen : d.seen[v]? = some start) :
    d.push v = (d.answerRepeat v start, { d with finished := true }) := by
  simp [push, hopen, hseen]

theorem push_of_full
    {d : Detector} {v : UInt32}
    (hopen : d.finished = false)
    (hnew : d.seen[v]? = none)
    (hfull : d.cap ≤ d.distinct) :
    d.push v = (.error (.capExceeded d.cap), { d with finished := true }) := by
  simp [push, hopen, hnew, hfull]

theorem push_of_new
    {d : Detector} {v : UInt32}
    (hopen : d.finished = false)
    (hnew : d.seen[v]? = none)
    (hroom : d.distinct < d.cap) :
    d.push v = d.accept v := by
  simp [push, hopen, hnew, Nat.not_le.mpr hroom]

theorem accepted?_answerRepeat (d : Detector) (v : UInt32) (start : Nat) :
    (d.answerRepeat v start).accepted? = none := by
  unfold answerRepeat
  split <;> rfl

theorem accepted?_accept (d : Detector) (v : UInt32) :
    (d.accept v).1.accepted? = some v := by
  unfold accept
  cases d.first <;> rfl

theorem distinct_accept {d : Detector} {v : UInt32} (hnew : d.seen[v]? = none) :
    (d.accept v).2.distinct = d.distinct + 1 := by
  have hmem : v ∉ d.seen := by
    intro hv
    rw [Std.TreeMap.getElem?_eq_some_getElem hv] at hnew
    cases hnew
  simp [accept, distinct, Std.TreeMap.size_insert, hmem]

theorem room_push_lt
    {d d' : Detector} {v w : UInt32} {a : Answer}
    (hpush : d.push v = (a, d'))
    (haccepted : a.accepted? = some w) :
    d'.room < d.room := by
  by_cases hopen : d.finished = true
  · rw [push_of_finished hopen] at hpush
    cases hpush
    cases haccepted
  · have hopen : d.finished = false := Bool.eq_false_iff.mpr hopen
    cases hseen : d.seen[v]? with
    | some start =>
        rw [push_of_seen hopen hseen] at hpush
        cases hpush
        rw [accepted?_answerRepeat] at haccepted
        cases haccepted
    | none =>
        by_cases hfull : d.cap ≤ d.distinct
        · rw [push_of_full hopen hseen hfull] at hpush
          cases hpush
          cases haccepted
        · rw [push_of_new hopen hseen (Nat.not_le.mp hfull)] at hpush
          have hsize : d'.distinct = d.distinct + 1 := by
            rw [← distinct_accept hseen, hpush]
          have hcap : d'.cap = d.cap := by
            cases hpush
            rfl
          unfold room
          rw [hsize, hcap]
          omega

end Detector

end HashOrbit
