import HashOrbit.Walk
import Mathlib.Data.List.Nodup

/-!
# Reading a stream

Reading takes values off the front of a stream.  The relation `Yields` says
which values are read and which stream is left; it is all that later theory
knows of streams, finite or endless.  A list of values is read from its front,
and a walk or a function yields its own values.
-/

namespace HashOrbit

/-- Reading the values `vs` from the stream `s` leaves the stream `rest`. -/
inductive Yields {σ : Type} [Std.Stream σ UInt32] : σ -> List UInt32 -> σ -> Prop where
  | nil (s : σ) : Yields s [] s
  | cons {s next rest : σ} {v : UInt32} {vs : List UInt32} :
      Std.Stream.next? s = some (v, next) ->
      Yields next vs rest ->
      Yields s (v :: vs) rest

theorem Yields.concat
    {σ : Type} [Std.Stream σ UInt32] {s mid rest : σ} {v : UInt32} {vs : List UInt32}
    (hread : Yields s vs mid)
    (hnext : Std.Stream.next? mid = some (v, rest)) :
    Yields s (vs ++ [v]) rest := by
  induction hread with
  | nil s => exact Yields.cons hnext (Yields.nil rest)
  | cons hfirst _ ih => exact Yields.cons hfirst (ih hnext)

theorem Yields.of_append
    {σ : Type} [Std.Stream σ UInt32] {us vs : List UInt32} :
    forall {s rest : σ}, Yields s (us ++ vs) rest ->
      exists mid, Yields s us mid ∧ Yields mid vs rest := by
  induction us with
  | nil =>
      intro s rest hread
      exact ⟨s, Yields.nil s, hread⟩
  | cons u us ih =>
      intro s rest hread
      cases hread with
      | cons hnext hrest =>
          rcases ih hrest with ⟨mid, hmid, hlater⟩
          exact ⟨mid, Yields.cons hnext hmid, hlater⟩

theorem Yields.of_concat
    {σ : Type} [Std.Stream σ UInt32] {s rest : σ} {vs : List UInt32} {v : UInt32}
    (hread : Yields s (vs ++ [v]) rest) :
    exists mid, Yields s vs mid ∧ Std.Stream.next? mid = some (v, rest) := by
  rcases hread.of_append with ⟨mid, hmid, hlast⟩
  cases hlast with
  | cons hnext hrest =>
      cases hrest
      exact ⟨mid, hmid, hnext⟩

theorem Yields.unique
    {σ : Type} [Std.Stream σ UInt32] {s rest rest' : σ} {vs us : List UInt32}
    (hvs : Yields s vs rest)
    (hus : Yields s us rest')
    (hlength : vs.length = us.length) :
    vs = us ∧ rest = rest' := by
  induction hvs generalizing us with
  | nil s =>
      cases hus with
      | nil _ => exact ⟨rfl, rfl⟩
      | cons _ _ => cases hlength
  | cons hnext _ ih =>
      cases hus with
      | nil _ => cases hlength
      | cons hnext' hus =>
          rw [hnext] at hnext'
          cases hnext'
          rcases ih hus (Nat.succ.inj hlength) with ⟨hvs, hrest⟩
          exact ⟨by rw [hvs], hrest⟩

theorem append_eq_of_yields_values {s rest : Source} {vs : List UInt32}
    (hread : Yields s vs rest) :
    forall {xs : List UInt32}, s = Source.values xs ->
      exists zs, xs = vs ++ zs ∧ rest = Source.values zs := by
  induction hread with
  | nil s =>
      intro xs hs
      exact ⟨xs, rfl, hs⟩
  | @cons s next rest v vs hnext _ ih =>
      intro xs hs
      subst hs
      cases xs with
      | nil => cases hnext
      | cons x xs =>
          cases hnext
          rcases ih rfl with ⟨zs, hxs, hrest⟩
          exact ⟨zs, by rw [hxs]; rfl, hrest⟩

theorem yields_values_append (vs zs : List UInt32) :
    Yields (Source.values (vs ++ zs)) vs (Source.values zs) := by
  induction vs with
  | nil => exact Yields.nil _
  | cons v vs ih => exact Yields.cons rfl ih

/-!
## Terms of a function
-/

namespace Terms

def values (term : Nat -> UInt32) (n : Nat) : List UInt32 :=
  (List.range n).map term

variable {term : Nat -> UInt32}

theorem length_values (term : Nat -> UInt32) (n : Nat) : (values term n).length = n := by
  simp [values]

theorem values_succ (term : Nat -> UInt32) (n : Nat) :
    values term (n + 1) = values term n ++ [term n] := by
  simp [values, List.range_succ]

theorem getElem?_values {n i : Nat} (hi : i < n) : (values term n)[i]? = some (term i) := by
  simp [values, hi]

theorem mem_values {n : Nat} {v : UInt32} :
    v ∈ values term n <-> exists i, i < n ∧ term i = v := by
  simp [values]

theorem nodup_values_iff {n : Nat} :
    (values term n).Nodup <-> forall i j, i < n -> j < n -> term i = term j -> i = j := by
  unfold values
  rw [List.nodup_map_iff_inj_on List.nodup_range]
  simp only [List.mem_range]
  constructor
  · intro h i j hi hj hij
    exact h i hi j hj hij
  · intro h i hi j hj hij
    exact h i j hi hj hij

end Terms

/-- A stream goes through these states, and yields the terms of a function on the way. -/
def Enumerates {σ : Type} [Std.Stream σ UInt32]
    (state : Nat -> σ) (term : Nat -> UInt32) : Prop :=
  forall n, Std.Stream.next? (state n) = some (term n, state (n + 1))

namespace Enumerates

variable {σ : Type} [Std.Stream σ UInt32] {state : Nat -> σ} {term : Nat -> UInt32}

theorem yields (h : Enumerates state term) (n : Nat) :
    Yields (state 0) (Terms.values term n) (state n) := by
  induction n with
  | zero => exact Yields.nil _
  | succ n ih =>
      rw [Terms.values_succ]
      exact ih.concat (h n)

theorem exists_eq_of_yields
    (h : Enumerates state term)
    {vs : List UInt32} {rest : σ}
    (hread : Yields (state 0) vs rest) :
    exists n, vs = Terms.values term n ∧ rest = state n :=
  ⟨vs.length, hread.unique (h.yields vs.length) (Terms.length_values term vs.length).symm⟩

end Enumerates

theorem Terms.enumerates (term : Nat -> UInt32) :
    Enumerates (fun n => (⟨term, n⟩ : Terms)) term :=
  fun _ => rfl

/-!
## Walks
-/

namespace Walk

def value (w : Walk) : Nat -> UInt32
  | 0 => pass w.register
  | n + 1 => pass (w.value n)

theorem value_eq_orbit (w : Walk) (n : Nat) : w.value n = orbit w.register (n + 1) := by
  induction n with
  | zero => rfl
  | succ n ih =>
      rw [orbit_succ, ← ih]
      rfl

theorem enumerates (w : Walk) :
    Enumerates (fun n => (⟨orbit w.register n⟩ : Walk)) w.value := by
  intro n
  rw [value_eq_orbit]
  rfl

end Walk
end HashOrbit
