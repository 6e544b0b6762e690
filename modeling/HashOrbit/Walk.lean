import HashOrbit.Pass

/-!
# Walks along an orbit

The orbit of a register is the register itself followed by the values of repeated passes.
A walk stands at one place of an orbit and remembers only the value there, so a copy of a
walk goes on independently of the walk it was made from.  Scripts act on the walks of a
pool by their numbers, and sources describe streams of words, walks among them.
-/

namespace HashOrbit

def orbit (register : UInt32) : Nat -> UInt32
  | 0 => register
  | k + 1 => pass (orbit register k)

theorem orbit_succ (register : UInt32) (k : Nat) :
    orbit register (k + 1) = pass (orbit register k) := rfl

/-- A place on an orbit, known by the value there. -/
structure Walk where
  register : UInt32
deriving DecidableEq, Inhabited

namespace Walk

def start : Walk := ⟨0⟩

def next (w : Walk) : UInt32 × Walk :=
  (pass w.register, ⟨pass w.register⟩)

instance : Std.Stream Walk UInt32 where
  next? w := some w.next

def nth (w : Walk) : Nat -> UInt32 × Walk
  | 0 => w.next
  | n + 1 => nth w.next.2 n

def takeOnto (taken : Array UInt32) (w : Walk) : Nat -> Array UInt32 × Walk
  | 0 => (taken, w)
  | n + 1 => takeOnto (taken.push w.next.1) w.next.2 n

def take (w : Walk) (n : Nat) : List UInt32 × Walk :=
  let (taken, w) := w.takeOnto #[] n
  (taken.toList, w)

/--
Bounds on the number of values still to come.  A walk never ends: the lower
bound is the largest 64-bit count and there is no upper one.
-/
def sizeHint (_ : Walk) : Nat × Option Nat :=
  (UInt64.size - 1, none)

def inspect (w : Walk) : String :=
  s!"Sequence \x7b register: {w.register.toNat} \x7d"

theorem nth_at (register : UInt32) (k n : Nat) :
    nth ⟨orbit register k⟩ n =
      (orbit register (k + n + 1), ⟨orbit register (k + n + 1)⟩) := by
  induction n generalizing k with
  | zero => rfl
  | succ n ih =>
      have hstep : nth ⟨orbit register k⟩ (n + 1) = nth ⟨orbit register (k + 1)⟩ n := rfl
      rw [hstep, ih, Nat.add_right_comm k 1 n, Nat.add_assoc k n 1]

theorem takeOnto_at (taken : Array UInt32) (register : UInt32) (k n : Nat) :
    takeOnto taken ⟨orbit register k⟩ n =
      (taken ++ (List.range' (k + 1) n).map (orbit register), ⟨orbit register (k + n)⟩) := by
  induction n generalizing taken k with
  | zero => simp [takeOnto]
  | succ n ih =>
      have hstep :
          takeOnto taken ⟨orbit register k⟩ (n + 1) =
            takeOnto (taken.push (orbit register (k + 1))) ⟨orbit register (k + 1)⟩ n := rfl
      rw [hstep, ih, Nat.add_right_comm k 1 n, Nat.add_assoc k n 1]
      simp [List.range'_succ]

theorem take_at (register : UInt32) (k n : Nat) :
    take ⟨orbit register k⟩ n =
      ((List.range' (k + 1) n).map (orbit register), ⟨orbit register (k + n)⟩) := by
  simp [take, takeOnto_at]

/-!
## Scripts

A script is a list of actions, each on one walk of a pool.  A copy is added to the pool,
and its number is the answer; an action on a number that the pool does not have is refused.
-/

abbrev Pool := Array Walk

inductive Action where
  | next
  | nth (n : Nat)
  | take (n : Nat)
  | sizeHint
  | copy
  | inspect
deriving DecidableEq

inductive Reply where
  | value (v : UInt32)
  | values (vs : List UInt32)
  | hint (lower : Nat) (upper : Option Nat)
  | number (n : Nat)
  | text (s : String)
deriving DecidableEq

def Pool.act (pool : Pool) (on : Nat) (a : Action) : Option (Reply × Pool) :=
  pool[on]?.map fun w =>
    let moveTo := fun (answer : Reply) (after : Walk) =>
      (answer, pool.setIfInBounds on after)
    match a with
    | .next => let (v, after) := w.next; moveTo (.value v) after
    | .nth n => let (v, after) := w.nth n; moveTo (.value v) after
    | .take n => let (vs, after) := w.take n; moveTo (.values vs) after
    | .sizeHint => moveTo (.hint w.sizeHint.1 w.sizeHint.2) w
    | .inspect => moveTo (.text w.inspect) w
    | .copy => (.number pool.size, pool.push w)

def Pool.run (pool : Pool) : List (Nat × Action) -> Option (List Reply × Pool)
  | [] => some ([], pool)
  | (on, a) :: script => do
      let (answer, pool) ← pool.act on a
      let (answers, pool) ← run pool script
      return (answer :: answers, pool)

end Walk

/-!
## Sources

A source describes a finite or endless stream of words and is read one value at a time, so
an endless part costs nothing before it is reached.
-/

inductive Source where
  | values (vs : List UInt32)
  | walk (w : Walk)
  | progression (start step : UInt32) (count : Nat)
  | take (n : Nat) (s : Source)
  | append (s t : Source)
deriving Inhabited

namespace Source

def empty : Source := values []

def ofList : List Source -> Source
  | [] => empty
  | [s] => s
  | s :: rest => append s (ofList rest)

def next? : Source -> Option (UInt32 × Source)
  | values [] => none
  | values (v :: vs) => some (v, values vs)
  | walk w => let (v, w) := w.next; some (v, walk w)
  | progression _ _ 0 => none
  | progression start step (count + 1) =>
      some (start, progression (start + step) step count)
  | take 0 _ => none
  | take (n + 1) s => s.next?.map fun (v, s) => (v, take n s)
  | append s t =>
      match s.next? with
      | some (v, s) => some (v, append s t)
      | none => t.next?

instance : Std.Stream Source UInt32 := ⟨next?⟩

end Source

structure Terms where
  term : Nat -> UInt32
  index : Nat

namespace Terms

def next? (t : Terms) : Option (UInt32 × Terms) :=
  some (t.term t.index, { t with index := t.index + 1 })

instance : Std.Stream Terms UInt32 := ⟨next?⟩

end Terms

end HashOrbit
