import HashOrbit.Walk

/-!
# Offsets of the walks of a pool

The walks of a pool that begins with one walk never leave the orbit of its register, so a
number says where each of them stands.  An action adds to the offset of its own walk as
many places as it takes values, and a copy begins at the offset of its source.  These
numbers decide every answer of a script.
-/

namespace HashOrbit
namespace Walk

def Action.consumed : Action -> Nat
  | .next => 1
  | .nth n => n + 1
  | .take n => n
  | .sizeHint => 0
  | .copy => 0
  | .inspect => 0

/-- The offsets after an action on walk number `on`; a copy is the last walk of the pool. -/
def moveOffsets (offsets : List Nat) (on : Nat) : Action -> List Nat
  | .copy => offsets ++ offsets[on]?.toList
  | a => offsets.modify on (· + a.consumed)

def offsetsAfter (offsets : List Nat) : List (Nat × Action) -> List Nat
  | [] => offsets
  | (on, a) :: script => offsetsAfter (moveOffsets offsets on a) script

/-- Every action of the script is on a walk that the pool has by then. -/
def Fits (offsets : List Nat) : List (Nat × Action) -> Prop
  | [] => True
  | (on, a) :: script => on < offsets.length ∧ Fits (moveOffsets offsets on a) script

def Action.replyAt (register : UInt32) (size k : Nat) : Action -> Reply
  | .next => .value (orbit register (k + 1))
  | .nth n => .value (orbit register (k + n + 1))
  | .take n => .values ((List.range' (k + 1) n).map (orbit register))
  | .sizeHint => .hint (UInt64.size - 1) none
  | .copy => .number size
  | .inspect => .text s!"Sequence \x7b register: {(orbit register k).toNat} \x7d"

/-!
## One action
-/

def poolAt (register : UInt32) (offsets : List Nat) : Pool :=
  (offsets.map fun k => ⟨orbit register k⟩).toArray

section Actions

variable (register : UInt32) {offsets : List Nat} {on : Nat}

theorem getElem?_poolAt :
    (poolAt register offsets)[on]? = offsets[on]?.map (⟨orbit register ·⟩) := by
  simp [poolAt]

theorem setIfInBounds_poolAt {k : Nat} (hk : offsets[on]? = some k) (n : Nat) :
    (poolAt register offsets).setIfInBounds on ⟨orbit register (k + n)⟩ =
      poolAt register (offsets.modify on (· + n)) := by
  simp [poolAt, List.modify_eq_set, hk]

theorem act_poolAt {k : Nat} (hk : offsets[on]? = some k) (a : Action) :
    (poolAt register offsets).act on a =
      some (a.replyAt register offsets.length k, poolAt register (moveOffsets offsets on a)) := by
  have hmove := setIfInBounds_poolAt register hk
  unfold Pool.act
  rw [getElem?_poolAt, hk]
  cases a with
  | next => exact congrArg (fun pool => some (_, pool)) (hmove 1)
  | nth n =>
      simp only [Option.map_some, nth_at]
      exact congrArg (fun pool => some (_, pool)) (hmove (n + 1))
  | take n =>
      simp only [Option.map_some, take_at]
      exact congrArg (fun pool => some (_, pool)) (hmove n)
  | sizeHint => exact congrArg (fun pool => some (_, pool)) (hmove 0)
  | copy => simp [Action.replyAt, moveOffsets, poolAt, hk]
  | inspect => exact congrArg (fun pool => some (_, pool)) (hmove 0)

theorem act_poolAt_of_le (hon : offsets.length ≤ on) (a : Action) :
    (poolAt register offsets).act on a = none := by
  unfold Pool.act
  rw [getElem?_poolAt, List.getElem?_eq_none hon]
  rfl

theorem getElem?_of_act
    {pool pool' : Pool} {a : Action} {reply : Reply} {i : Nat}
    (hact : pool.act on a = some (reply, pool'))
    (hi : i < pool.size)
    (hother : i ≠ on) :
    pool'[i]? = pool[i]? := by
  rcases Option.map_eq_some_iff.mp hact with ⟨w, _, hpair⟩
  have hset : forall w' : Walk, (pool.setIfInBounds on w')[i]? = pool[i]? :=
    fun w' => Array.getElem?_setIfInBounds_ne hother.symm
  cases a with
  | copy =>
      cases hpair
      rw [Array.getElem?_push_lt hi, Array.getElem?_eq_getElem hi]
  | next | nth n | take n | sizeHint | inspect =>
      cases hpair
      exact hset _

end Actions

/-!
## Scripts
-/

theorem run_cons_of_act
    {pool pool' : Pool} {on : Nat} {a : Action} {reply : Reply}
    (hact : pool.act on a = some (reply, pool'))
    (script : List (Nat × Action)) :
    pool.run ((on, a) :: script) =
      (pool'.run script).map fun (replies, last) => (reply :: replies, last) := by
  simp only [Pool.run, hact, Option.bind_eq_bind, Option.bind_some]
  cases pool'.run script <;> rfl

theorem run_poolAt
    (register : UInt32) {offsets : List Nat} {script : List (Nat × Action)}
    (hfits : Fits offsets script) :
    exists replies,
      (poolAt register offsets).run script =
        some (replies, poolAt register (offsetsAfter offsets script)) ∧
      replies.length = script.length ∧
      forall before on a after, script = before ++ (on, a) :: after ->
        exists k, (offsetsAfter offsets before)[on]? = some k ∧
          replies[before.length]? =
            some (a.replyAt register (offsetsAfter offsets before).length k) := by
  induction script generalizing offsets with
  | nil =>
      refine ⟨[], rfl, rfl, ?_⟩
      intro before on a after h
      cases before <;> cases h
  | cons first script ih =>
      rcases first with ⟨on, a⟩
      rcases hfits with ⟨hon, hlater⟩
      rcases ih hlater with ⟨replies, hrun, hlength, hreplies⟩
      have hk : offsets[on]? = some offsets[on] := List.getElem?_eq_getElem hon
      refine ⟨a.replyAt register offsets.length offsets[on] :: replies, ?_, ?_, ?_⟩
      · rw [run_cons_of_act (act_poolAt register hk a), hrun]
        rfl
      · rw [List.length_cons, List.length_cons, hlength]
      · intro before on' a' after h
        cases before with
        | nil =>
            cases h
            exact ⟨offsets[on], hk, rfl⟩
        | cons first before =>
            cases h
            exact hreplies before on' a' after rfl

theorem fits_of_run
    {register : UInt32} {offsets : List Nat} {script : List (Nat × Action)}
    {result : List Reply × Pool}
    (hrun : (poolAt register offsets).run script = some result) :
    Fits offsets script := by
  induction script generalizing offsets result with
  | nil => exact trivial
  | cons first script ih =>
      rcases first with ⟨on, a⟩
      by_cases hon : on < offsets.length
      · rw [run_cons_of_act (act_poolAt register (List.getElem?_eq_getElem hon) a)] at hrun
        rcases Option.map_eq_some_iff.mp hrun with ⟨_, hlater, _⟩
        exact ⟨hon, ih hlater⟩
      · rw [Pool.run, act_poolAt_of_le register (Nat.le_of_not_lt hon)] at hrun
        cases hrun

/--
A script over a pool that begins with one walk runs to its end exactly if each of its
actions is on a walk that the pool has by then.  Its answers are those of the offsets of
the walks on the orbit of the register, which is also where the walks of the last pool
stand.  An action leaves all walks but its own where they are.
-/
theorem scripts_walk_one_orbit (register : UInt32) (script : List (Nat × Action)) :
    ((exists replies pool, Pool.run #[⟨register⟩] script = some (replies, pool)) <->
      Fits [0] script) ∧
    (forall replies pool, Pool.run #[⟨register⟩] script = some (replies, pool) ->
      pool.toList = (offsetsAfter [0] script).map (fun k => ⟨orbit register k⟩) ∧
      replies.length = script.length ∧
      forall before on a after, script = before ++ (on, a) :: after ->
        exists k, (offsetsAfter [0] before)[on]? = some k ∧
          replies[before.length]? =
            some (a.replyAt register (offsetsAfter [0] before).length k)) ∧
    forall (pool pool' : Pool) (on : Nat) (a : Action) (reply : Reply),
      pool.act on a = some (reply, pool') ->
        forall i, i < pool.size -> i ≠ on -> pool'[i]? = pool[i]? := by
  have hstart : (#[⟨register⟩] : Pool) = poolAt register [0] := rfl
  rw [hstart]
  refine ⟨?_, ?_, ?_⟩
  · constructor
    · intro hruns
      rcases hruns with ⟨replies, pool, hrun⟩
      exact fits_of_run hrun
    · intro hfits
      rcases run_poolAt register hfits with ⟨replies, hrun, _⟩
      exact ⟨replies, _, hrun⟩
  · intro replies pool hrun
    rcases run_poolAt register (fits_of_run hrun) with ⟨replies', hrun', hanswers⟩
    cases hrun.symm.trans hrun'
    exact ⟨rfl, hanswers⟩
  · intro pool pool' on a reply hact i hi hother
    exact getElem?_of_act hact hi hother

example : offsetsAfter [0] [(0, .nth 1), (0, .copy), (1, .take 2), (0, .next)] = [3, 4] := rfl

end Walk
end HashOrbit
