import HashOrbit.Proofs.Search.Records
import HashOrbit.Proofs.Search.Verdict
import HashOrbit.Render

/-!
# The answers of a detector

A detector that has accepted different values, no more than its cap, reports a repeat by
places of these values: the first, the last, and the only place of the value that came
again.  So the numbers of a report fit together, and everything that can be asked of it has
an answer.  A report made by hand need not be like that.

The answers to a whole run spell the beginning of a word: the first value, fresh values, one
answer that stops the detection, and refusals.
-/

namespace HashOrbit

/-- The numbers of a report fit together, and they say where its values stand. -/
structure Report.Sound (cap : Nat) (r : Report) : Prop where
  start_lt : r.cycleStart < r.distinct
  distinct_le_cap : r.distinct ≤ cap
  distinct_le_words : r.distinct ≤ 2 ^ 32
  start_last_iff : r.cycleStart = r.distinct - 1 <-> r.repeated = r.lastBeforeRepeat
  start_zero_iff : r.cycleStart = 0 <-> r.repeated = r.first

namespace History

structure Orderly (h : History) : Prop where
  nodup : h.accepted.Nodup
  le_cap : h.distinct ≤ h.cap

theorem orderly_new (cap : Nat) : (new cap).Orderly where
  nodup := List.nodup_nil
  le_cap := Nat.zero_le cap

theorem Orderly.cycleStart_eq_iff
    {h : History} {v x : UInt32} {j : Nat}
    (hh : h.Orderly)
    (hmem : v ∈ h.accepted)
    (hat : h.accepted[j]? = some x) :
    (h.reportOf v).cycleStart = j <-> v = x := by
  rw [eq_comm, h.eq_cycleStart_iff hh.nodup hmem, hat, Option.some_inj, eq_comm]

theorem Orderly.sound_reportOf
    {h : History} {v : UInt32}
    (hh : h.Orderly)
    (hmem : v ∈ h.accepted) :
    (h.reportOf v).Sound h.cap where
  start_lt := List.idxOf_lt_length_of_mem hmem
  distinct_le_cap := hh.le_cap
  distinct_le_words := length_le_of_nodup hh.nodup
  start_last_iff := hh.cycleStart_eq_iff hmem (h.getElem?_pred_eq_lastBeforeRepeat hmem)
  start_zero_iff := hh.cycleStart_eq_iff hmem (h.getElem?_zero_eq_first hmem)

theorem Orderly.push {h : History} (hh : h.Orderly) (v : UInt32) :
    (h.push v).2.Orderly ∧ (h.push v).2.cap = h.cap ∧
      forall r, (h.push v).1 = .ok (.repeated r) -> r.Sound h.cap := by
  cases hfinished : h.finished with
  | true =>
      rw [push_of_finished hfinished]
      exact ⟨hh, rfl, nofun⟩
  | false =>
      by_cases hmem : v ∈ h.accepted
      · rw [push_of_mem hfinished hmem]
        refine ⟨⟨hh.nodup, hh.le_cap⟩, rfl, ?_⟩
        intro r hr
        cases hr
        exact hh.sound_reportOf hmem
      · by_cases hfull : h.cap ≤ h.distinct
        · rw [push_of_full hfinished hmem hfull]
          exact ⟨⟨hh.nodup, hh.le_cap⟩, rfl, nofun⟩
        · have hroom : h.distinct < h.cap := Nat.lt_of_not_le hfull
          rw [push_of_new hfinished hmem hroom]
          refine ⟨⟨?_, ?_⟩, rfl, ?_⟩
          · exact List.concat_eq_append ▸ List.Nodup.concat hmem hh.nodup
          · rw [distinct, List.length_append, List.length_singleton]
            exact hroom
          · intro r hr
            split at hr <;> cases hr

theorem Orderly.pushAll {h : History} (hh : h.Orderly) (vs : List UInt32) :
    (h.pushAll vs).2.Orderly ∧ (h.pushAll vs).2.cap = h.cap ∧
      forall r, .ok (.repeated r) ∈ (h.pushAll vs).1 -> r.Sound h.cap := by
  induction vs generalizing h with
  | nil => exact ⟨hh, rfl, nofun⟩
  | cons v vs ih =>
      rcases hh.push v with ⟨hafter, hcap, hsound⟩
      rcases ih hafter with ⟨hend, hcap', hsounds⟩
      rw [pushAll_cons]
      refine ⟨hend, hcap'.trans hcap, ?_⟩
      intro r hr
      cases List.mem_cons.mp hr with
      | inl hfirst => exact hsound r hfirst.symm
      | inr hlater => exact hcap ▸ hsounds r hlater

end History

theorem sound_of_search
    {σ : Type} [Std.Stream σ UInt32] {s : σ} {cap : Nat} {r : Report}
    (hsearch : search s cap = .ok r) :
    r.Sound cap := by
  rcases search_eq_iff.mp hsearch with ⟨vs, rest, hrun, hverdict⟩
  cases hverdict with
  | repeated _ hmem =>
      have hh : (History.holding cap vs).Orderly := ⟨hrun.nodup, hrun.le_cap⟩
      exact hh.sound_reportOf hmem

namespace Report

theorem Sound.cycleLength_eq {cap : Nat} {r : Report} (h : r.Sound cap) :
    r.cycleLength = .ok (r.distinct - r.cycleStart) :=
  cycleLength_eq_ok (Nat.le_of_lt h.start_lt)

theorem Sound.exists_render {cap : Nat} {r : Report} (h : r.Sound cap) (format : Format) :
    exists text, r.render format = .ok text := by
  cases format with
  | text => exact ⟨_, r.render_text⟩
  | json => exact ⟨_, render_json_of_le (Nat.le_of_lt h.start_lt)⟩

theorem render_json_error_iff (r : Report) :
    r.render .json = .error .startsTooLate <-> r.distinct < r.cycleStart := by
  constructor
  · intro herror
    apply Nat.lt_of_not_le
    intro hle
    rw [render_json_of_le hle] at herror
    cases herror
  · exact render_json_of_lt

end Report

/--
Every report that a detector answers with, whatever it has taken before, has a cycle
that starts before its last value and fits under the cap and under the number of words.
So the cycle has a length; it is one exactly if the last value comes again at once, and
the cycle starts at the first value exactly if that one comes again.  A report that a
search returns can be rendered in every format, whereas a report made by hand can always
be rendered as text, but not as an object if its cycle starts too late.
-/
theorem reports_of_pushAll (cap : Nat) (vs : List UInt32) :
    (forall r, .ok (.repeated r) ∈ ((Detector.new cap).pushAll vs).1 ->
      r.cycleStart < r.distinct ∧ r.distinct ≤ cap ∧ r.distinct ≤ 2 ^ 32 ∧
      exists length, r.cycleLength = .ok length ∧
        1 ≤ length ∧ length ≤ r.distinct ∧
        (length = 1 <-> r.repeated = r.lastBeforeRepeat) ∧
        (r.cycleStart = 0 <-> r.repeated = r.first)) ∧
    (forall (σ : Type) [Std.Stream σ UInt32] (s : σ) (format : Format) (r : Report),
      search s cap = .ok r -> exists text, r.render format = .ok text) ∧
    forall r : Report,
      (r.render .json = .error .startsTooLate <-> r.distinct < r.cycleStart) ∧
      exists text, r.render .text = .ok text := by
  refine ⟨?_, ?_, ?_⟩
  · intro r hr
    rw [((Detector.remembers_new cap).pushAll vs).1] at hr
    have hsound := ((History.orderly_new cap).pushAll vs).2.2 r hr
    have hlt := hsound.start_lt
    have hlast := hsound.start_last_iff
    refine ⟨hlt, hsound.distinct_le_cap, hsound.distinct_le_words, _, hsound.cycleLength_eq,
      ?_, ?_, ?_, hsound.start_zero_iff⟩
    · exact Nat.sub_pos_of_lt hlt
    · exact Nat.sub_le _ _
    · rw [← hlast]
      lia
  · intro σ _ s format r hsearch
    exact (sound_of_search hsearch).exists_render format
  · intro r
    exact ⟨r.render_json_error_iff, _, r.render_text⟩

/-!
## The answers of a whole run

Whatever is not accepted only finishes the detector, and a finished detector never changes
again.  Under a cap of zero the detection is stopped at once.
-/

namespace Answer

inductive Stops (cap : Nat) : Answer -> Prop where
  | repeated (r : Report) : Stops cap (.ok (.repeated r))
  | capped : Stops cap (.error (.capExceeded cap))

theorem Stops.accepted?_eq {cap : Nat} {answer : Answer} (hstops : Stops cap answer) :
    answer.accepted? = none := by
  cases hstops <;> rfl

def fresh (vs : List UInt32) : List Answer :=
  vs.map fun v => .ok (.fresh v)

def refusals (n : Nat) : List Answer :=
  List.replicate n (.error .finished)

/-- The words that the answers of a detector under a cap are the beginnings of. -/
inductive Trace : Nat -> List Answer -> Prop where
  | detection {cap : Nat} {stop : Answer} (v : UInt32) (vs : List UInt32) (n : Nat) :
      0 < cap ->
      Stops cap stop ->
      Trace cap (.ok (.first v) :: fresh vs ++ stop :: refusals n)
  | noRoom (n : Nat) :
      Trace 0 (.error (.capExceeded 0) :: refusals n)

end Answer

namespace Detector

open Answer

theorem pushAll_of_finished {d : Detector} (hfinished : d.finished = true) (vs : List UInt32) :
    d.pushAll vs = (refusals vs.length, d) := by
  induction vs with
  | nil => rfl
  | cons v vs ih =>
      rw [pushAll_cons, push_of_finished hfinished, ih]
      rfl

theorem finished_pushAll
    {d : Detector} {vs : List UInt32} {answer : Answer}
    (hmem : answer ∈ (d.pushAll vs).1)
    (hrefused : answer.accepted? = none) :
    (d.pushAll vs).2.finished = true := by
  induction vs generalizing d with
  | nil => cases hmem
  | cons v vs ih =>
      rw [pushAll_cons] at hmem ⊢
      cases List.mem_cons.mp hmem with
      | inl hfirst =>
          subst hfirst
          have hafter : (d.push v).2.finished = true := by
            rw [snd_push_of_refused hrefused]
          simp [pushAll_of_finished hafter, hafter]
      | inr hlater => exact ih hlater

/-!
## Detectors that have begun

After the first value and before the stop a detector has both of its ends, so a value
that it has seen is reported.
-/

structure Begun (d : Detector) : Prop where
  opened : d.finished = false
  first : d.first.isSome = true
  last : d.last.isSome = true

theorem begun_accept_new (cap : Nat) (v : UInt32) : ((Detector.new cap).accept v).2.Begun where
  opened := rfl
  first := rfl
  last := rfl

theorem Begun.push {d : Detector} (hd : d.Begun) (v : UInt32) :
    ((d.push v).1 = .ok (.fresh v) ∧ (d.push v).2.Begun) ∨
      (Stops d.cap (d.push v).1 ∧ (d.push v).2.finished = true) := by
  rcases Option.isSome_iff_exists.mp hd.first with ⟨first, hfirst⟩
  rcases Option.isSome_iff_exists.mp hd.last with ⟨last, hlast⟩
  have hpushed := pushed_push d v
  generalize d.push v = pushed at hpushed ⊢
  cases hpushed with
  | finished hfinished =>
      rw [hd.opened] at hfinished
      cases hfinished
  | seen _ _ =>
      right
      constructor
      · simp only [answerRepeat, hfirst, hlast]
        exact Stops.repeated _
      · rfl
  | full _ _ _ => exact Or.inr ⟨Stops.capped, rfl⟩
  | new _ _ _ =>
      have hfresh : (d.accept v).1 = .ok (.fresh v) := by
        simp [accept, hfirst]
      have hbegun : (d.accept v).2.Begun :=
        ⟨hd.opened, by simp [accept, hfirst], rfl⟩
      exact Or.inl ⟨hfresh, hbegun⟩

theorem Begun.pushAll {d : Detector} (hd : d.Begun) (vs : List UInt32) :
    exists (us : List UInt32) (stop : Answer) (n : Nat),
      Stops d.cap stop ∧ (d.pushAll vs).1 <+: fresh us ++ stop :: refusals n := by
  induction vs generalizing d with
  | nil => exact ⟨[], _, 0, Stops.capped, List.nil_prefix⟩
  | cons v vs ih =>
      rw [pushAll_cons]
      cases hd.push v with
      | inl hgoes =>
          rcases hgoes with ⟨hanswer, hafter⟩
          rcases ih hafter with ⟨us, stop, n, hstops, hprefix⟩
          rw [cap_push] at hstops
          refine ⟨v :: us, stop, n, hstops, ?_⟩
          rw [hanswer]
          exact (List.prefix_cons_inj _).mpr hprefix
      | inr hstop =>
          rcases hstop with ⟨hstops, hfinished⟩
          rw [pushAll_of_finished hfinished]
          exact ⟨[], _, vs.length, hstops, List.prefix_rfl⟩

theorem exists_trace_pushAll_new (cap : Nat) (vs : List UInt32) :
    exists word, Trace cap word ∧ ((Detector.new cap).pushAll vs).1 <+: word := by
  cases Nat.eq_zero_or_pos cap with
  | inl hzero =>
      subst hzero
      cases vs with
      | nil => exact ⟨_, Trace.noRoom 0, List.nil_prefix⟩
      | cons v vs =>
          rw [pushAll_cons, push_new_zero, pushAll_of_finished rfl]
          exact ⟨_, Trace.noRoom vs.length, List.prefix_rfl⟩
  | inr hpos =>
      cases vs with
      | nil => exact ⟨_, Trace.detection 0 [] 0 hpos Stops.capped, List.nil_prefix⟩
      | cons v vs =>
          rcases (begun_accept_new cap v).pushAll vs with ⟨us, stop, n, hstops, hprefix⟩
          rw [pushAll_cons, push_new_of_pos hpos]
          exact ⟨_, Trace.detection v us n hpos hstops, (List.prefix_cons_inj _).mpr hprefix⟩

end Detector

open Answer Detector

/--
The answers of a detector spell the beginning of a word of its trace, and they accept as
many values as the detector counts, never more than the cap.  A push that accepts nothing
leaves the values and the count as they were, and after a repeat or the failure of the
cap nothing changes any more: every further push is refused.
-/
theorem trace_of_pushAll (cap : Nat) (vs : List UInt32) :
    exists (answers : List Answer) (d : Detector),
      (Detector.new cap).pushAll vs = (answers, d) ∧
      (exists word, Trace cap word ∧ answers <+: word) ∧
      (acceptedValues answers).length = d.distinct ∧
      d.distinct ≤ cap ∧
      (forall v,
        ((exists r, (d.push v).1 = .ok (.repeated r)) ∨ exists e, (d.push v).1 = .error e) ->
          (d.push v).2.seen = d.seen ∧ (d.push v).2.first = d.first ∧
            (d.push v).2.last = d.last ∧ (d.push v).2.cap = d.cap ∧
            (d.push v).2.distinct = d.distinct) ∧
      ((exists answer, answer ∈ answers ∧ Stops cap answer) ->
        forall us, d.pushAll us = (refusals us.length, d)) := by
  have hcount := distinct_pushAll (Detector.new cap) vs
  rw [show (Detector.new cap).distinct = 0 from rfl, Nat.zero_add] at hcount
  have horderly := (History.orderly_new cap).pushAll vs
  have hremembers := remembers_pushAll_new cap vs
  refine ⟨_, _, rfl, exists_trace_pushAll_new cap vs, hcount.symm, ?_, ?_, ?_⟩
  · calc
      ((Detector.new cap).pushAll vs).2.distinct = ((History.new cap).pushAll vs).2.distinct :=
        hremembers.distinct
      _ ≤ ((History.new cap).pushAll vs).2.cap := horderly.1.le_cap
      _ = cap := horderly.2.1
  · intro v hanswer
    rw [snd_push_of_refused (accepted?_eq_none hanswer)]
    exact ⟨rfl, rfl, rfl, rfl, rfl⟩
  · intro hstopped us
    rcases hstopped with ⟨answer, hmem, hstops⟩
    exact pushAll_of_finished (finished_pushAll hmem hstops.accepted?_eq) us

end HashOrbit
