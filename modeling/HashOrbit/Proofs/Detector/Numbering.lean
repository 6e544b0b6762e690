import HashOrbit.Proofs.Detector.Memory
import HashOrbit.Proofs.Search.Answers
import Mathlib.Data.Set.Function
import Mathlib.Order.Interval.Set.Defs

/-!
# The numbering of the values that a detector has seen

A detector gives a new value the number of values before it.  This numbers the values from
zero on without a gap, because a value that has been seen is never given a number again.
The two ends that a detector keeps are the values with the lowest and the highest number,
so a repeat always finds both of them.
-/

namespace HashOrbit

theorem idxOf?_eq_some_iff_of_nodup
    {xs : List UInt32}
    (hnodup : xs.Nodup)
    (v : UInt32) (i : Nat) :
    xs.idxOf? v = some i <-> xs[i]? = some v := by
  rw [List.idxOf?_eq_some_iff, List.getElem?_eq_some_iff]
  constructor
  · rintro ⟨hi, hat, _⟩
    exact ⟨hi, hat⟩
  · rintro ⟨hi, hat⟩
    refine ⟨hi, hat, ?_⟩
    intro j hj heq
    exact Nat.ne_of_lt hj (hnodup.getElem_inj_iff.mp (heq.trans hat.symm))

namespace Detector

/-- The indices of the seen values number them, and the ends are numbered first and last. -/
structure Numbered (d : Detector) : Prop where
  lt (v : UInt32) (i : Nat) : d.seen[v]? = some i -> i < d.distinct
  inj (v w : UInt32) (i : Nat) : d.seen[v]? = some i -> d.seen[w]? = some i -> v = w
  surj (i : Nat) : i < d.distinct -> exists v : UInt32, d.seen[v]? = some i
  first (v : UInt32) : d.first = some v <-> d.seen[v]? = some 0
  last (v : UInt32) : d.last = some v <-> d.seen[v]? = some (d.distinct - 1)

theorem Remembers.numbered
    {d : Detector} {h : History}
    (hd : d.Remembers h)
    (hh : h.Orderly) :
    d.Numbered := by
  have hplace : forall (v : UInt32) (i : Nat),
      d.seen[v]? = some i <-> h.accepted[i]? = some v := by
    intro v i
    rw [hd.seen]
    exact idxOf?_eq_some_iff_of_nodup hh.nodup v i
  constructor
  case lt =>
    intro v i hv
    rw [hd.distinct]
    exact (List.getElem?_eq_some_iff.mp ((hplace v i).mp hv)).1
  case inj =>
    intro v w i hv hw
    exact Option.some.inj (((hplace v i).mp hv).symm.trans ((hplace w i).mp hw))
  case surj =>
    intro i hi
    rw [hd.distinct] at hi
    exact ⟨h.accepted[i], (hplace _ i).mpr (List.getElem?_eq_getElem hi)⟩
  case first =>
    intro v
    rw [hplace, hd.first, List.head?_eq_getElem?]
  case last =>
    intro v
    rw [hplace, hd.last, hd.distinct, List.getLast?_eq_getElem?]
    rfl

theorem numbered_pushAll_new (cap : Nat) (vs : List UInt32) :
    ((Detector.new cap).pushAll vs).2.Numbered :=
  (remembers_pushAll_new cap vs).numbered ((History.orderly_new cap).pushAll vs).1

namespace Numbered

variable {d : Detector}

theorem bijOn (hd : d.Numbered) :
    Set.BijOn (fun v => d.seen.getD v 0) {v | v ∈ d.seen} (Set.Iio d.distinct) := by
  have hindex : forall v : UInt32, v ∈ d.seen -> d.seen[v]? = some (d.seen.getD v 0) := by
    intro v hv
    rw [Std.TreeMap.getElem?_eq_some_getD hv]
  refine ⟨?_, ?_, ?_⟩
  · intro v hv
    exact hd.lt v _ (hindex v hv)
  · intro v hv w hw heq
    have hw' := hindex w hw
    rw [← show d.seen.getD v 0 = d.seen.getD w 0 from heq] at hw'
    exact hd.inj v w _ (hindex v hv) hw'
  · intro i hi
    rcases hd.surj i hi with ⟨v, hv⟩
    have hmem : v ∈ d.seen := Std.TreeMap.mem_iff_isSome_getElem?.mpr (by rw [hv]; rfl)
    refine ⟨v, hmem, ?_⟩
    exact Option.some.inj ((hindex v hmem).symm.trans hv)

theorem exists_ends (hd : d.Numbered) (hpos : 0 < d.distinct) :
    exists first last : UInt32, d.first = some first ∧ d.last = some last ∧
      d.seen[first]? = some 0 ∧ d.seen[last]? = some (d.distinct - 1) := by
  rcases hd.surj 0 hpos with ⟨first, hfirst⟩
  rcases hd.surj (d.distinct - 1) (Nat.sub_lt hpos Nat.one_pos) with ⟨last, hlast⟩
  exact ⟨first, last, (hd.first first).mpr hfirst, (hd.last last).mpr hlast, hfirst, hlast⟩

theorem ends_of_empty (hd : d.Numbered) (hzero : d.distinct = 0) :
    d.first = none ∧ d.last = none := by
  have hnone : forall (v : UInt32) (i : Nat), d.seen[v]? ≠ some i := by
    intro v i hv
    have hlt := hd.lt v i hv
    rw [hzero] at hlt
    exact Nat.not_lt_zero i hlt
  constructor
  · apply Option.eq_none_iff_forall_ne_some.mpr
    intro v hv
    exact hnone v _ ((hd.first v).mp hv)
  · apply Option.eq_none_iff_forall_ne_some.mpr
    intro v hv
    exact hnone v _ ((hd.last v).mp hv)

theorem exists_answerRepeat_eq
    {v : UInt32} {start : Nat}
    (hd : d.Numbered)
    (hseen : d.seen[v]? = some start) :
    exists first last, d.first = some first ∧ d.last = some last ∧
      d.answerRepeat v start = .ok (.repeated ⟨first, last, v, d.distinct, start⟩) := by
  have hpos : 0 < d.distinct := Nat.zero_lt_of_lt (hd.lt v start hseen)
  rcases hd.exists_ends hpos with ⟨first, last, hfirst, hlast, _, _⟩
  refine ⟨first, last, hfirst, hlast, ?_⟩
  unfold answerRepeat
  rw [hfirst, hlast]

theorem push_eq_finished_iff (hd : d.Numbered) (v : UInt32) :
    (d.push v).1 = .error .finished <-> d.finished = true := by
  have hpushed := pushed_push d v
  generalize d.push v = pushed at hpushed ⊢
  cases hpushed with
  | finished hfinished => simp [hfinished]
  | seen hopen hseen =>
      rcases hd.exists_answerRepeat_eq hseen with ⟨first, last, _, _, hanswer⟩
      simp [hopen, hanswer]
  | full hopen _ _ => simp [hopen]
  | new hopen _ _ => simp [hopen, accept]

end Numbered

/-!
## Numbers are kept
-/

theorem getElem?_seen_push
    {d : Detector} {v : UInt32} {i : Nat}
    (hseen : d.seen[v]? = some i)
    (w : UInt32) :
    (d.push w).2.seen[v]? = some i := by
  have hpushed := pushed_push d w
  generalize d.push w = pushed at hpushed ⊢
  cases hpushed with
  | finished _ => exact hseen
  | seen _ _ => exact hseen
  | full _ _ _ => exact hseen
  | new _ hnew _ =>
      have hne : w ≠ v := by
        rintro rfl
        rw [hseen] at hnew
        cases hnew
      show (d.seen.insert w d.distinct)[v]? = some i
      rw [Std.TreeMap.getElem?_insert, if_neg (by simpa using hne)]
      exact hseen

theorem getElem?_seen_pushAll
    {d : Detector} {v : UInt32} {i : Nat}
    (hseen : d.seen[v]? = some i)
    (vs : List UInt32) :
    (d.pushAll vs).2.seen[v]? = some i := by
  induction vs generalizing d with
  | nil => exact hseen
  | cons w vs ih => exact ih (getElem?_seen_push hseen w)

end Detector

/--
Whatever a new detector has been given, the indices of the values that it has seen number
them, no more than its cap allows, and its ends are the values with the first and the last
number.  It keeps its cap, and every value keeps its number under all further pushes.  So a
value that has been seen is always reported, and only a finished detector refuses a push.
-/
theorem numbering_of_pushAll (cap : Nat) (vs : List UInt32) :
    exists d : Detector, ((Detector.new cap).pushAll vs).2 = d ∧
      Set.BijOn (fun v => d.seen.getD v 0) {v | v ∈ d.seen} (Set.Iio d.distinct) ∧
      d.distinct ≤ cap ∧
      (d.distinct = 0 -> d.first = none ∧ d.last = none) ∧
      (0 < d.distinct ->
        exists first last : UInt32, d.first = some first ∧ d.last = some last ∧
          d.seen[first]? = some 0 ∧ d.seen[last]? = some (d.distinct - 1)) ∧
      d.cap = cap ∧
      (forall (us : List UInt32) (v : UInt32) (i : Nat),
        d.seen[v]? = some i -> (d.pushAll us).2.seen[v]? = some i) ∧
      (forall (v : UInt32) (start : Nat), d.seen[v]? = some start ->
        exists first last, d.first = some first ∧ d.last = some last ∧
          d.answerRepeat v start = .ok (.repeated ⟨first, last, v, d.distinct, start⟩)) ∧
      forall v : UInt32, (d.push v).1 = .error .finished <-> d.finished = true := by
  have hnumbered := Detector.numbered_pushAll_new cap vs
  have hremembers := Detector.remembers_pushAll_new cap vs
  rcases (History.orderly_new cap).pushAll vs with ⟨horderly, hcap, _⟩
  refine ⟨_, rfl, hnumbered.bijOn, ?_, hnumbered.ends_of_empty, hnumbered.exists_ends,
    hremembers.cap.trans hcap, ?_, ?_, hnumbered.push_eq_finished_iff⟩
  · calc
      ((Detector.new cap).pushAll vs).2.distinct = ((History.new cap).pushAll vs).2.distinct :=
        hremembers.distinct
      _ ≤ ((History.new cap).pushAll vs).2.cap := horderly.le_cap
      _ = cap := hcap
  · intro us v i hseen
    exact Detector.getElem?_seen_pushAll hseen us
  · intro v start hseen
    exact hnumbered.exists_answerRepeat_eq hseen

end HashOrbit
