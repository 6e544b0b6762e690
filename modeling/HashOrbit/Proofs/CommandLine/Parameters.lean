import HashOrbit.CommandLine.Reader
import HashOrbit.Proofs.Render

/-!
# Parameters given one after the other

A parameter that is an option is given by two arguments or by one, and a positional one by
its text alone.  The reader leaves the value of a parameter pending, but however the
parameters are given it arrives at the values that are read in their order: what is kept
from one to the next is that the pending value, once settled, is the value that was given.
-/

namespace HashOrbit
namespace CommandLine

theorem ofList_long {cs : List Char} (hne : cs ≠ []) :
    Argument.ofList ('-' :: '-' :: cs) =
      .long (String.ofList (cs.takeWhile (· != '='))) (Argument.attached? cs) := by
  cases cs with
  | nil => exact absurd rfl hne
  | cons c cs => rfl

theorem ofList_plain {c : Char} (hc : c ≠ '-') (cs : List Char) :
    Argument.ofList (c :: cs) = .plain := by
  unfold Argument.ofList
  split <;> simp_all

section Names

variable {name : String}

theorem ofString_long (hne : name.toList ≠ []) (hplain : '=' ∉ name.toList) :
    Argument.ofString ("--" ++ name) = .long name none := by
  have hend := delimits_nil (· != '=')
  have htake := takeWhile_append_of_delimits (bne_of_mem hplain) hend
  have hdrop := dropWhile_append_of_delimits (bne_of_mem hplain) hend
  rw [List.append_nil] at htake hdrop
  show Argument.ofList ("--" ++ name).toList = _
  rw [String.toList_append, show "--".toList = ['-', '-'] from rfl]
  show Argument.ofList ('-' :: '-' :: name.toList) = _
  rw [ofList_long hne, htake, Argument.attached?, hdrop, String.ofList_toList]

theorem ofString_attached (hplain : '=' ∉ name.toList) (text : String) :
    Argument.ofString ("--" ++ name ++ "=" ++ text) = .long name (some text) := by
  have hequals : Delimits (· != '=') ('=' :: text.toList) := delimits_cons rfl _
  have htake := takeWhile_append_of_delimits (bne_of_mem hplain) hequals
  have hdrop := dropWhile_append_of_delimits (bne_of_mem hplain) hequals
  have hlist : ("--" ++ name ++ "=" ++ text).toList =
      '-' :: '-' :: (name.toList ++ '=' :: text.toList) := by
    simp [String.toList_append]
  have hne : name.toList ++ '=' :: text.toList ≠ [] := by simp
  unfold Argument.ofString
  rw [hlist, ofList_long hne, htake, Argument.attached?, hdrop, String.ofList_toList]
  show Argument.long name (some (String.ofList text.toList)) = _
  rw [String.ofList_toList]

end Names

theorem name_of_option {sub : Subcommand} {p : Parameter} {name : String}
    (hoption : sub.option? name = some p) :
    name.toList ≠ [] ∧ '=' ∉ name.toList := by
  unfold Subcommand.option? at hoption
  split at hoption
  · decide
  · decide
  · decide
  · cases hoption

namespace Values

section Reading

variable {values values' : Values} {p : Parameter} {text : String}

theorem has_of_read (hread : values.read p text = .ok values') : values.has p = false := by
  unfold read at hread
  split at hread
  · cases hread
  · rename_i hnone
    exact Bool.eq_false_iff.mpr hnone

theorem exists_of_map_eq_ok
    {α : Type} {x : Except UsageError α} {f : α -> Values}
    (h : x.map f = .ok values) :
    exists a, f a = values := by
  cases x with
  | error e => cases h
  | ok a =>
      cases h
      exact ⟨a, rfl⟩

theorem has_read (hread : values.read p text = .ok values') (q : Parameter) :
    values'.has q = true <-> values.has q = true ∨ q = p := by
  have hnone := has_of_read hread
  unfold read at hread
  rw [hnone, if_neg Bool.false_ne_true] at hread
  cases p with
  | cap =>
      rcases exists_of_map_eq_ok hread with ⟨n, rfl⟩
      cases q <;> simp [has]
  | format =>
      rcases exists_of_map_eq_ok hread with ⟨format, rfl⟩
      cases q <;> simp [has]
  | register =>
      rcases exists_of_map_eq_ok hread with ⟨v, rfl⟩
      cases q <;> simp [has]

theorem read_cap (hfree : values.cap = none) (text : String) :
    values.read .cap text = (readCap text).map fun n => { values with cap := some n } := by
  simp [read, has, hfree]

theorem read_format (hfree : values.format = none) (text : String) :
    values.read .format text =
      (readFormat text).map fun format => { values with format := some format } := by
  simp [read, has, hfree]

theorem read_register (hfree : values.register = none) (text : String) :
    values.read .register text =
      (readRegister text).map fun v => { values with register := some v } := by
  simp [read, has, hfree]

end Reading
end Values

/-!
## Parameters on a command line
-/

/-- The arguments that give a parameter of a command by this text. -/
inductive Written (sub : Subcommand) (p : Parameter) (text : String) : List String -> Prop where
  | apart {name : String} :
      sub.option? name = some p ->
      Argument.ofString text = .plain ->
      Written sub p text ["--" ++ name, text]
  | attached {name : String} :
      sub.option? name = some p ->
      Written sub p text ["--" ++ name ++ "=" ++ text]
  | operand :
      sub.positional? = some p ->
      Argument.ofString text = .plain ->
      Written sub p text [text]

/-- Arguments that give parameters one after the other, and the values before and after. -/
inductive Gives (sub : Subcommand) : Values -> List String -> Values -> Prop where
  | nil (values : Values) : Gives sub values [] values
  | cons {values values' final : Values} {p : Parameter} {text : String}
      {words line : List String} :
      Written sub p text words ->
      values.read p text = .ok values' ->
      Gives sub values' line final ->
      Gives sub values (words ++ line) final

theorem Gives.append
    {sub : Subcommand} {values values' final : Values} {line line' : List String}
    (h : Gives sub values line values')
    (h' : Gives sub values' line' final) :
    Gives sub values (line ++ line') final := by
  induction h with
  | nil => exact h'
  | cons hwritten hread _ ih =>
      rw [List.append_assoc]
      exact Gives.cons hwritten hread (ih h')

namespace Scan

/-!
## What a scan holds
-/

/-- The scan arrives at these values once its pending value is settled. -/
structure Holds (sub : Subcommand) (scan : Scan) (values : Values) : Prop where
  settle : scan.settle = .ok values
  separated : scan.separated = false
  positioned : forall p, sub.positional? = some p -> scan.positioned = true -> values.has p = true

theorem holds_start (sub : Subcommand) : Scan.start.Holds sub .empty where
  settle := rfl
  separated := rfl
  positioned := fun _ _ h => by cases h

theorem finish_cons_of_step
    {sub : Subcommand} {scan scan' : Scan} {text : String}
    (hstep : scan.step sub text = .ok scan')
    (rest : List String) :
    scan.finish sub (text :: rest) = scan'.finish sub rest := by
  rw [finish, hstep]

theorem awaiting?_of_settle
    {scan : Scan} {values : Values}
    (hsettle : scan.settle = .ok values) :
    scan.awaiting? = none := by
  rcases scan with ⟨given, pending, separated, positioned⟩
  cases pending with
  | none => rfl
  | some pending =>
      rcases pending with ⟨p, text⟩
      cases text with
      | none => cases hsettle
      | some text => rfl

section Steps

variable {sub : Subcommand} {scan : Scan} {values values' : Values}
variable {p : Parameter} {name text : String}

theorem meet_of_settle
    (hsettle : scan.settle = .ok values)
    (p : Parameter) (value : Option String) :
    scan.meet p value = .ok { scan with values := values, pending := some ⟨p, value⟩ } := by
  rw [meet, hsettle]

theorem step_of_option
    (hscan : scan.Holds sub values)
    (hoption : sub.option? name = some p) :
    scan.step sub ("--" ++ name) =
      .ok { scan with values := values, pending := some ⟨p, none⟩ } := by
  rcases name_of_option hoption with ⟨hne, hplain⟩
  have hstep : scan.step sub ("--" ++ name) = scan.meetLong sub name none := by
    simp [step, hscan.separated, ofString_long hne hplain]
  have hmeet : scan.meetLong sub name none = scan.meet p none := by
    simp [meetLong, hoption]
  rw [hstep, hmeet, meet_of_settle hscan.settle]

theorem step_eq_meetAttached
    (hopen : scan.separated = false)
    (hoption : sub.option? name = some p)
    (text : String) :
    scan.step sub ("--" ++ name ++ "=" ++ text) = scan.meetAttached p text := by
  have hshape := ofString_attached (name_of_option hoption).2 text
  have hstep :
      scan.step sub ("--" ++ name ++ "=" ++ text) = scan.meetLong sub name (some text) := by
    simp [step, hopen, hshape]
  have hmeet : scan.meetLong sub name (some text) = scan.meetAttached p text := by
    simp [meetLong, hoption]
  rw [hstep, hmeet]

theorem step_of_attached
    (hscan : scan.Holds sub values)
    (hoption : sub.option? name = some p)
    (hread : values.read p text = .ok values') :
    scan.step sub ("--" ++ name ++ "=" ++ text) =
      .ok { scan with values := values', pending := none } := by
  rw [step_eq_meetAttached hscan.separated hoption]
  simp only [meetAttached, hscan.settle, hread]

theorem step_of_awaited
    (hopen : scan.separated = false)
    (hpending : scan.pending = some ⟨p, none⟩)
    (hplain : Argument.ofString text = .plain) :
    scan.step sub text = .ok { scan with pending := some ⟨p, some text⟩ } := by
  simp [step, hopen, hplain, meetPlain, awaiting?, hpending]

theorem step_of_operand
    (hscan : scan.Holds sub values)
    (hpositional : sub.positional? = some p)
    (hfree : values.has p = false)
    (hplain : Argument.ofString text = .plain) :
    scan.step sub text =
      .ok
        { scan with
          values := values
          pending := some ⟨p, some text⟩
          positioned := true } := by
  have hposition : scan.positioned = false := by
    cases hpositioned : scan.positioned with
    | false => rfl
    | true =>
        rw [hscan.positioned p hpositional hpositioned] at hfree
        cases hfree
  have hstep : scan.step sub text = scan.meetOperand sub text := by
    simp [step, hscan.separated, hplain, meetPlain, awaiting?_of_settle hscan.settle]
  have hmeet : scan.meetOperand sub text = { scan with positioned := true }.meet p (some text) := by
    simp [meetOperand, hpositional, hposition]
  have hsettle : { scan with positioned := true }.settle = .ok values := hscan.settle
  rw [hstep, hmeet, meet_of_settle hsettle]

end Steps

theorem Holds.finish_append
    {sub : Subcommand} {scan : Scan} {values values' : Values}
    {p : Parameter} {text : String} {words : List String}
    (hscan : scan.Holds sub values)
    (hwritten : Written sub p text words)
    (hread : values.read p text = .ok values') :
    exists scan' : Scan, scan'.Holds sub values' ∧
      forall rest, scan.finish sub (words ++ rest) = scan'.finish sub rest := by
  have hkept : forall q, sub.positional? = some q -> scan.positioned = true ->
      values'.has q = true := by
    intro q hq hpositioned
    exact (Values.has_read hread q).mpr (Or.inl (hscan.positioned q hq hpositioned))
  cases hwritten with
  | apart hoption hplain =>
      let named : Scan := { scan with values := values, pending := some ⟨p, none⟩ }
      have hvalue : named.step sub text = .ok { named with pending := some ⟨p, some text⟩ } :=
        step_of_awaited hscan.separated rfl hplain
      refine ⟨{ named with pending := some ⟨p, some text⟩ },
        ⟨hread, hscan.separated, hkept⟩, ?_⟩
      intro rest
      show scan.finish sub (_ :: text :: rest) = _
      rw [finish_cons_of_step (step_of_option hscan hoption), finish_cons_of_step hvalue]
  | attached hoption =>
      refine ⟨{ scan with values := values', pending := none },
        ⟨rfl, hscan.separated, hkept⟩, ?_⟩
      intro rest
      exact finish_cons_of_step (step_of_attached hscan hoption hread) rest
  | operand hpositional hplain =>
      have hfree := Values.has_of_read hread
      have hgiven : forall q, sub.positional? = some q -> true = true -> values'.has q = true := by
        intro q hq _
        rw [hpositional] at hq
        cases hq
        exact (Values.has_read hread p).mpr (Or.inr rfl)
      let given : Scan :=
        { scan with values := values, pending := some ⟨p, some text⟩, positioned := true }
      refine ⟨given, ⟨hread, hscan.separated, hgiven⟩, ?_⟩
      intro rest
      exact finish_cons_of_step (step_of_operand hscan hpositional hfree hplain) rest

theorem Holds.finish_of_gives
    {sub : Subcommand} {scan : Scan} {values final : Values} {line : List String}
    (hscan : scan.Holds sub values)
    (hgives : Gives sub values line final) :
    scan.finish sub line = .ok final := by
  induction hgives generalizing scan with
  | nil values => rw [finish, hscan.settle]
  | cons hwritten hread _ ih =>
      rcases hscan.finish_append hwritten hread with ⟨scan', hscan', hfinish⟩
      rw [hfinish]
      exact ih hscan'

end Scan

theorem read_of_gives
    {sub : Subcommand} {line : List String} {values : Values}
    (hgives : Gives sub .empty line values) :
    CommandLine.read (sub.name :: line) = (values.command sub).map .run := by
  have hname : Topic.ofName? sub.name = some (.subcommand sub) := by
    cases sub <;> rfl
  rw [CommandLine.read, hname]
  show sub.readArguments line = _
  rw [Subcommand.readArguments, (Scan.holds_start sub).finish_of_gives hgives]

end CommandLine
end HashOrbit
