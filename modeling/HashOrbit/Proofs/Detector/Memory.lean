import HashOrbit.Detector
import Mathlib.Algebra.Group.Nat.Defs
import Mathlib.Data.Fintype.Card

/-!
# What a detector remembers

A history is the plainest detector: the list of the values accepted so far and a flag.  It
looks a value up by reading the whole list, and it reports the ends of the list and the
place of the value in it.  A detector remembers what a history does when its tree finds
each value at its place in the list.  From two such memories every push gets the same answer
and leaves two such memories, so the runs of a detector can be read off a list.
-/

namespace HashOrbit

structure History where
  accepted : List UInt32
  cap : Nat
  finished : Bool
deriving DecidableEq, Repr

namespace History

def new (cap : Nat) : History := ⟨[], cap, false⟩

def distinct (h : History) : Nat :=
  h.accepted.length

def reportOf (h : History) (v : UInt32) : Report where
  first := h.accepted.headD v
  lastBeforeRepeat := h.accepted.getLastD v
  repeated := v
  distinct := h.distinct
  cycleStart := h.accepted.idxOf v

def push (h : History) (v : UInt32) : Answer × History :=
  if h.finished then
    (.error .finished, h)
  else if v ∈ h.accepted then
    (.ok (.repeated (h.reportOf v)), { h with finished := true })
  else if h.cap ≤ h.distinct then
    (.error (.capExceeded h.cap), { h with finished := true })
  else
    (.ok (if h.accepted.isEmpty then .first v else .fresh v),
      { h with accepted := h.accepted ++ [v] })

def pushAll (h : History) : List UInt32 -> List Answer × History
  | [] => ([], h)
  | v :: vs =>
      let (answer, h) := h.push v
      let (answers, h) := h.pushAll vs
      (answer :: answers, h)

end History

/-!
## Detectors and histories
-/

theorem idxOf?_concat {xs : List UInt32} {v : UInt32} (hv : v ∉ xs) (w : UInt32) :
    (xs ++ [v]).idxOf? w = if v = w then some xs.length else xs.idxOf? w := by
  by_cases hvw : v = w
  · subst w
    have hnone : xs.findIdx? (fun x => x == v) = none := List.idxOf?_eq_none_iff.mpr hv
    simp [List.idxOf?, List.findIdx?_append, hnone]
  · simp [List.idxOf?, List.findIdx?_append, hvw]

theorem length_le_of_nodup {vs : List UInt32} (hnodup : vs.Nodup) : vs.length ≤ 2 ^ 32 := by
  have hmap : (vs.map UInt32.toFin).Nodup := hnodup.map fun _ _ h => UInt32.toFin_inj.mp h
  have hcard := hmap.length_le_card
  rw [List.length_map, Fintype.card_fin] at hcard
  exact hcard

namespace History

theorem push_of_finished {h : History} (hfinished : h.finished = true) (v : UInt32) :
    h.push v = (.error .finished, h) := by
  simp [push, hfinished]

theorem push_of_mem {h : History} {v : UInt32}
    (hopen : h.finished = false) (hmem : v ∈ h.accepted) :
    h.push v = (.ok (.repeated (h.reportOf v)), { h with finished := true }) := by
  simp [push, hopen, hmem]

theorem push_of_full {h : History} {v : UInt32}
    (hopen : h.finished = false) (hnew : v ∉ h.accepted) (hfull : h.cap ≤ h.distinct) :
    h.push v = (.error (.capExceeded h.cap), { h with finished := true }) := by
  simp [push, hopen, hnew, hfull]

theorem push_of_new {h : History} {v : UInt32}
    (hopen : h.finished = false) (hnew : v ∉ h.accepted) (hroom : h.distinct < h.cap) :
    h.push v =
      (.ok (if h.accepted.isEmpty then .first v else .fresh v),
        { h with accepted := h.accepted ++ [v] }) := by
  simp [push, hopen, hnew, Nat.not_le.mpr hroom]

section Reports

variable (h : History) {v : UInt32}

theorem getElem?_zero_eq_first (hmem : v ∈ h.accepted) :
    h.accepted[0]? = some (h.reportOf v).first := by
  have hne : h.accepted ≠ [] := List.ne_nil_of_mem hmem
  show h.accepted[0]? = some (h.accepted.headD v)
  rw [List.headD_eq_head?_getD, ← List.head?_eq_getElem?, List.head?_eq_some_head hne]
  rfl

theorem getElem?_pred_eq_lastBeforeRepeat (hmem : v ∈ h.accepted) :
    h.accepted[h.accepted.length - 1]? = some (h.reportOf v).lastBeforeRepeat := by
  have hne : h.accepted ≠ [] := List.ne_nil_of_mem hmem
  show h.accepted[h.accepted.length - 1]? = some (h.accepted.getLastD v)
  rw [List.getLastD_eq_getLast?, ← List.getLast?_eq_getElem?, List.getLast?_eq_some_getLast hne]
  rfl

theorem eq_cycleStart_iff (hnodup : h.accepted.Nodup) (hmem : v ∈ h.accepted) (j : Nat) :
    j = (h.reportOf v).cycleStart <-> h.accepted[j]? = some v := by
  have hat : h.accepted[h.accepted.idxOf v]? = some v := List.getElem?_idxOf hmem
  show j = h.accepted.idxOf v <-> _
  constructor
  · intro hj
    rw [hj]
    exact hat
  · intro hj
    have hlt : j < h.accepted.length := (List.getElem?_eq_some_iff.mp hj).1
    exact (List.getElem?_inj hlt hnodup).mp (hj.trans hat.symm)

end Reports

end History

namespace Detector

/-- The detector `d` knows exactly what the history `h` knows. -/
structure Remembers (d : Detector) (h : History) : Prop where
  seen : forall v, d.seen[v]? = h.accepted.idxOf? v
  distinct : d.distinct = h.distinct
  first : d.first = h.accepted.head?
  last : d.last = h.accepted.getLast?
  cap : d.cap = h.cap
  finished : d.finished = h.finished

theorem remembers_new (cap : Nat) : (Detector.new cap).Remembers (History.new cap) where
  seen v := by simp [Detector.new, History.new]
  distinct := rfl
  first := rfl
  last := rfl
  cap := rfl
  finished := rfl

theorem Remembers.finish {d : Detector} {h : History} (hd : d.Remembers h) :
    { d with finished := true }.Remembers { h with finished := true } where
  seen := hd.seen
  distinct := hd.distinct
  first := hd.first
  last := hd.last
  cap := hd.cap
  finished := rfl

theorem Remembers.answerRepeat_eq
    {d : Detector} {h : History} {v : UInt32} {start : Nat}
    (hd : d.Remembers h)
    (hplace : h.accepted.idxOf? v = some start) :
    d.answerRepeat v start = .ok (.repeated (h.reportOf v)) := by
  have hmem : v ∈ h.accepted := List.isSome_idxOf?.mp (by rw [hplace]; rfl)
  have hstart : h.accepted.idxOf v = start := by
    rw [List.idxOf_eq_getD_idxOf?, hplace]
    rfl
  have hfirst : d.first = some (h.reportOf v).first := by
    rw [hd.first, List.head?_eq_getElem?]
    exact h.getElem?_zero_eq_first hmem
  have hlast : d.last = some (h.reportOf v).lastBeforeRepeat := by
    rw [hd.last, List.getLast?_eq_getElem?]
    exact h.getElem?_pred_eq_lastBeforeRepeat hmem
  unfold answerRepeat
  rw [hfirst, hlast, hd.distinct, ← hstart]
  rfl

theorem Remembers.accept
    {d : Detector} {h : History} {v : UInt32}
    (hd : d.Remembers h)
    (hnew : v ∉ h.accepted) :
    (d.accept v).2.Remembers { h with accepted := h.accepted ++ [v] } where
  seen w := by
    change (d.seen.insert v d.distinct)[w]? = _
    rw [Std.TreeMap.getElem?_insert, idxOf?_concat hnew, hd.seen, hd.distinct]
    simp only [Std.LawfulEqCmp.compare_eq_iff_eq, History.distinct]
  distinct := by
    have hunseen : d.seen[v]? = none := by
      rw [hd.seen]
      exact List.idxOf?_eq_none_iff.mpr hnew
    rw [distinct_accept hunseen, hd.distinct]
    simp [History.distinct]
  first := by
    change d.first.or (some v) = _
    rw [hd.first, List.head?_append]
    rfl
  last := by
    change some v = _
    simp
  cap := hd.cap
  finished := hd.finished

theorem Remembers.fst_accept
    {d : Detector} {h : History}
    (hd : d.Remembers h) (v : UInt32) :
    (d.accept v).1 = .ok (if h.accepted.isEmpty then .first v else .fresh v) := by
  unfold Detector.accept
  rw [hd.first]
  cases h.accepted <;> rfl

theorem Remembers.push
    {d : Detector} {h : History}
    (hd : d.Remembers h) (v : UInt32) :
    (d.push v).1 = (h.push v).1 ∧ (d.push v).2.Remembers (h.push v).2 := by
  cases hfinished : h.finished with
  | true =>
      rw [push_of_finished (hd.finished.trans hfinished), History.push_of_finished hfinished]
      exact ⟨rfl, hd⟩
  | false =>
      have hopen : d.finished = false := hd.finished.trans hfinished
      cases hplace : h.accepted.idxOf? v with
      | some start =>
          have hmem : v ∈ h.accepted := List.isSome_idxOf?.mp (by rw [hplace]; rfl)
          rw [push_of_seen hopen ((hd.seen v).trans hplace), History.push_of_mem hfinished hmem]
          exact ⟨hd.answerRepeat_eq hplace, hd.finish⟩
      | none =>
          have hnew : v ∉ h.accepted := List.idxOf?_eq_none_iff.mp hplace
          have hunseen : d.seen[v]? = none := (hd.seen v).trans hplace
          by_cases hfull : h.cap ≤ h.distinct
          · have hfull' : d.cap ≤ d.distinct := by
              rw [hd.cap, hd.distinct]
              exact hfull
            rw [push_of_full hopen hunseen hfull', History.push_of_full hfinished hnew hfull]
            exact ⟨by rw [hd.cap], hd.finish⟩
          · have hroom : h.distinct < h.cap := Nat.lt_of_not_le hfull
            have hroom' : d.distinct < d.cap := by
              rw [hd.cap, hd.distinct]
              exact hroom
            rw [push_of_new hopen hunseen hroom', History.push_of_new hfinished hnew hroom]
            exact ⟨hd.fst_accept v, hd.accept hnew⟩

end Detector

/-!
## Whole runs

A run pushes every value of a list, whatever the answers.  It goes on after a
repeat or a failure, so the relation is kept between finished memories too.
-/

theorem Detector.pushAll_cons (d : Detector) (v : UInt32) (vs : List UInt32) :
    d.pushAll (v :: vs) =
      ((d.push v).1 :: ((d.push v).2.pushAll vs).1, ((d.push v).2.pushAll vs).2) := rfl

theorem History.pushAll_cons (h : History) (v : UInt32) (vs : List UInt32) :
    h.pushAll (v :: vs) =
      ((h.push v).1 :: ((h.push v).2.pushAll vs).1, ((h.push v).2.pushAll vs).2) := rfl

namespace Detector

theorem Remembers.pushAll
    {d : Detector} {h : History}
    (hd : d.Remembers h) (vs : List UInt32) :
    (d.pushAll vs).1 = (h.pushAll vs).1 ∧
      (d.pushAll vs).2.Remembers (h.pushAll vs).2 := by
  induction vs generalizing d h with
  | nil => exact ⟨rfl, hd⟩
  | cons v vs ih =>
      rcases hd.push v with ⟨hanswer, hafter⟩
      rcases ih hafter with ⟨hanswers, hend⟩
      rw [Detector.pushAll_cons, History.pushAll_cons, hanswer, hanswers]
      exact ⟨rfl, hend⟩

theorem remembers_pushAll_new (cap : Nat) (vs : List UInt32) :
    ((Detector.new cap).pushAll vs).2.Remembers ((History.new cap).pushAll vs).2 :=
  ((remembers_new cap).pushAll vs).2

end Detector

/--
A detector and a history with the same cap answer every run alike, and after each
push of the run they have accepted equally many values.
-/
theorem pushAll_new_eq_history (cap : Nat) (vs : List UInt32) :
    ((Detector.new cap).pushAll vs).1 = ((History.new cap).pushAll vs).1 ∧
    forall n,
      ((Detector.new cap).pushAll (vs.take n)).2.distinct =
        ((History.new cap).pushAll (vs.take n)).2.distinct := by
  constructor
  · exact ((Detector.remembers_new cap).pushAll vs).1
  · intro n
    exact (Detector.remembers_pushAll_new cap (vs.take n)).distinct

/-!
## What a push can do

A push ends in one of four ways.  Each is a constructor of `Pushed`, with what the
detector checked before it, so that later proofs about a push are case analyses.
-/
namespace Detector

/-- The ways in which a push of `v` can end: the answer and the detector after it. -/
inductive Pushed (d : Detector) (v : UInt32) : Answer × Detector -> Prop where
  | finished :
      d.finished = true ->
      Pushed d v (.error .finished, d)
  | seen {start : Nat} :
      d.finished = false ->
      d.seen[v]? = some start ->
      Pushed d v (d.answerRepeat v start, { d with finished := true })
  | full :
      d.finished = false ->
      d.seen[v]? = none ->
      d.cap ≤ d.distinct ->
      Pushed d v (.error (.capExceeded d.cap), { d with finished := true })
  | new :
      d.finished = false ->
      d.seen[v]? = none ->
      d.distinct < d.cap ->
      Pushed d v ((d.accept v).1, (d.accept v).2)

theorem pushed_push (d : Detector) (v : UInt32) : Pushed d v (d.push v) := by
  cases hfinished : d.finished with
  | true =>
      rw [push_of_finished hfinished]
      exact Pushed.finished hfinished
  | false =>
      cases hseen : d.seen[v]? with
      | some start =>
          rw [push_of_seen hfinished hseen]
          exact Pushed.seen hfinished hseen
      | none =>
          by_cases hfull : d.cap ≤ d.distinct
          · rw [push_of_full hfinished hseen hfull]
            exact Pushed.full hfinished hseen hfull
          · have hroom : d.distinct < d.cap := Nat.lt_of_not_le hfull
            rw [push_of_new hfinished hseen hroom]
            exact Pushed.new hfinished hseen hroom

theorem accepted?_eq_none {answer : Answer}
    (h : (exists r, answer = .ok (.repeated r)) ∨ exists e, answer = .error e) :
    answer.accepted? = none := by
  rcases h with ⟨r, rfl⟩ | ⟨e, rfl⟩
  · rfl
  · rfl

theorem cap_push (d : Detector) (v : UInt32) : (d.push v).2.cap = d.cap := by
  have hpushed := pushed_push d v
  generalize d.push v = pushed at hpushed ⊢
  cases hpushed <;> rfl

theorem snd_push_of_refused {d : Detector} {v : UInt32}
    (hrefused : (d.push v).1.accepted? = none) :
    (d.push v).2 = { d with finished := true } := by
  have hpushed := pushed_push d v
  generalize d.push v = pushed at hpushed hrefused ⊢
  cases hpushed with
  | finished hfinished => rw [← hfinished]
  | seen _ _ => rfl
  | full _ _ _ => rfl
  | new _ _ _ =>
      rw [accepted?_accept] at hrefused
      cases hrefused

theorem answerRepeat_ne_first (d : Detector) (v : UInt32) (start : Nat) (u : UInt32) :
    d.answerRepeat v start ≠ .ok (.first u) := by
  unfold answerRepeat
  split <;> intro h <;> cases h

theorem first_of_push
    {d d' : Detector} {v : UInt32} {answer : Answer}
    (hfirst : d.first.isSome = true)
    (hpush : d.push v = (answer, d')) :
    d'.first.isSome = true ∧ forall u, answer ≠ .ok (.first u) := by
  have hpushed := pushed_push d v
  rw [hpush] at hpushed
  cases hpushed with
  | finished _ =>
      exact ⟨hfirst, fun u h => by cases h⟩
  | seen _ _ =>
      exact ⟨hfirst, answerRepeat_ne_first d v _⟩
  | full _ _ _ =>
      exact ⟨hfirst, fun u h => by cases h⟩
  | new _ _ _ =>
      rcases Option.isSome_iff_exists.mp hfirst with ⟨u, hu⟩
      simp [accept, hu]

theorem push_new_of_pos {cap : Nat} (hcap : 0 < cap) (v : UInt32) :
    (Detector.new cap).push v = (.ok (.first v), ((Detector.new cap).accept v).2) :=
  push_of_new rfl Std.TreeMap.getElem?_emptyc hcap

theorem push_new_zero (v : UInt32) :
    (Detector.new 0).push v =
      (.error (.capExceeded 0), { Detector.new 0 with finished := true }) :=
  push_of_full rfl Std.TreeMap.getElem?_emptyc (Nat.zero_le _)

end Detector

end HashOrbit
