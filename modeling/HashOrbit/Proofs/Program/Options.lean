import HashOrbit.Program
import HashOrbit.Proofs.CommandLine.Numerals
import HashOrbit.Proofs.CommandLine.Parameters

/-!
# Command lines that the program accepts

A text stands for a register if it is a numeral, with either sign, whose value is a word,
and for a cap if it is a numeral without a minus sign that fits in 64 bits.  With such a
text the command runs on the value alone, and with any other the program ends with a usage
error before it prints anything.
-/

namespace HashOrbit
namespace CommandLine

theorem read_separated_register (text : String) :
    CommandLine.read ["pass", "--", text] =
      (readRegister text).map fun v => .run (.pass v .standard) := by
  let separated : Scan := { Scan.start with separated := true }
  let ready : Scan := ⟨.empty, some ⟨.register, some text⟩, true, true⟩
  have hseparator : Scan.start.step .pass "--" = .ok separated := rfl
  have hoperand : separated.step .pass text = .ok ready := rfl
  have hsettle : ready.settle = (readRegister text).map fun v => ⟨none, none, some v⟩ := rfl
  show Subcommand.pass.readArguments ["--", text] = _
  rw [Subcommand.readArguments, Scan.finish_cons_of_step hseparator,
    Scan.finish_cons_of_step hoperand, Scan.finish, hsettle]
  cases readRegister text <;> rfl

theorem read_attached_cap (text : String) :
    CommandLine.read ["solve", "--max-iterations=" ++ text] =
      (readCap text).map fun n => .run (.solve n .standard) := by
  have hoption : Subcommand.solve.option? "max-iterations" = some .cap := rfl
  have hstep :
      Scan.start.step .solve ("--max-iterations=" ++ text) = Scan.start.meetAttached .cap text :=
    Scan.step_eq_meetAttached rfl hoption text
  have hread : Values.empty.read .cap text = (readCap text).map fun n => ⟨some n, none, none⟩ :=
    Values.read_cap rfl text
  show Subcommand.solve.readArguments ["--max-iterations=" ++ text] = _
  rw [Subcommand.readArguments, Scan.finish, hstep]
  cases hcap : readCap text with
  | ok n =>
      rw [hcap] at hread
      simp only [Scan.meetAttached, (Scan.holds_start .solve).settle, hread]
      rfl
  | error e =>
      rw [hcap] at hread
      simp only [Scan.meetAttached, (Scan.holds_start .solve).settle, hread]
      rfl

end CommandLine

open CommandLine

/-!
## Outcomes
-/

theorem exitCode_ofConsole_ne_two (result : Except Failure Unit × Console) :
    (Outcome.ofConsole result).exitCode ≠ 2 := by
  rcases result with ⟨result, c⟩
  cases result with
  | ok _ => exact Nat.zero_ne_add_one 1
  | error e =>
      cases e with
      | search _ => exact Nat.succ_ne_succ_iff.mpr (by decide)
      | report _ => exact Nat.succ_ne_succ_iff.mpr (by decide)

theorem ofConsole_pass (filter : Filter) (register : UInt32) (format : Format) :
    Outcome.ofConsole ((Console.empty filter).run (.pass register format)) =
      ⟨0, renderPass register (pass register) format ++ "\n", "",
        ((Console.empty filter).pass register format).journal.records.toList⟩ := by
  have hprinted : ((Console.empty filter).pass register format).printed =
      "" ++ renderPass register (pass register) format ++ "\n" := rfl
  rw [String.empty_append] at hprinted
  rw [← hprinted]
  rfl

section Numbers

variable {filter : Filter} {text : String}

theorem runProgram_of_register {v : UInt32} (hread : readRegister text = .ok v) :
    runProgram filter ["pass", "--", text] =
      .ofConsole ((Console.empty filter).run (.pass v .text)) := by
  rw [runProgram, read_separated_register, hread]
  rfl

theorem runProgram_of_cap {n : Nat} (hread : readCap text = .ok n) :
    runProgram filter ["solve", "--max-iterations=" ++ text] =
      .ofConsole ((Console.empty filter).solve n .text) := by
  rw [runProgram, read_attached_cap, hread]
  rfl

theorem pass_cases (filter : Filter) (text : String) :
    (exists v : UInt32, Numeral.Signed text.toList v.toNat ∧
      (runProgram filter ["pass", "--", text]).exitCode = 0) ∨
    (forall v : UInt32, ¬ Numeral.Signed text.toList v.toNat) ∧
      exists e, runProgram filter ["pass", "--", text] = .ofUsageError e := by
  cases hread : readRegister text with
  | ok v =>
      refine Or.inl ⟨v, readRegister_eq_ok_iff.mp hread, ?_⟩
      rw [runProgram_of_register hread, ofConsole_pass]
  | error e =>
      refine Or.inr ⟨?_, e, ?_⟩
      · intro v hv
        rw [readRegister_eq_ok_iff.mpr hv] at hread
        cases hread
      · rw [runProgram, read_separated_register, hread]
        rfl

theorem solve_cases (filter : Filter) (text : String) :
    (exists n : Nat, (Numeral.Unsigned text.toList n ∧ n < UInt64.size) ∧
      (runProgram filter ["solve", "--max-iterations=" ++ text]).exitCode ≠ 2) ∨
    (forall n : Nat, ¬ (Numeral.Unsigned text.toList n ∧ n < UInt64.size)) ∧
      exists e, runProgram filter ["solve", "--max-iterations=" ++ text] = .ofUsageError e := by
  cases hread : readCap text with
  | ok n =>
      refine Or.inl ⟨n, readCap_eq_ok_iff.mp hread, ?_⟩
      rw [runProgram_of_cap hread]
      exact exitCode_ofConsole_ne_two _
  | error e =>
      refine Or.inr ⟨?_, e, ?_⟩
      · intro n hn
        rw [readCap_eq_ok_iff.mpr hn] at hread
        cases hread
      · rw [runProgram, read_attached_cap, hread]
        rfl

end Numbers

theorem exists_word_iff {cs : List Char} :
    (exists z : Int, Numeral.Signed cs z ∧ 0 ≤ z ∧ z ≤ 4294967295) <->
      exists v : UInt32, Numeral.Signed cs v.toNat := by
  constructor
  · rintro ⟨z, hsigned, hlow, hhigh⟩
    have hrange : 0 ≤ z ∧ z < UInt32.size := ⟨hlow, Int.lt_of_le_of_lt hhigh (by decide)⟩
    have hz := (ofNat_toNat_eq_iff hrange).mp rfl
    exact ⟨UInt32.ofNat z.toNat, hz ▸ hsigned⟩
  · rintro ⟨v, hsigned⟩
    have hlt : v.toNat < 4294967296 := v.toNat_lt
    exact ⟨v.toNat, hsigned, by lia, by lia⟩

theorem pass_accepts (filter : Filter) (text : String) :
    let passed := runProgram filter ["pass", "--", text]
    (passed.exitCode = 0 <->
      exists z : Int, Numeral.Signed text.toList z ∧ 0 ≤ z ∧ z ≤ 4294967295) ∧
    (forall v : UInt32, Numeral.Signed text.toList v.toNat ->
      passed.stdout = toString (pass v).toNat ++ "\n") ∧
    (passed.exitCode ≠ 0 -> passed.exitCode = 2 ∧ passed.stdout = "") := by
  intro passed
  have hregister := pass_cases filter text
  refine ⟨?_, ?_, ?_⟩
  · rw [exists_word_iff]
    rcases hregister with ⟨v, hv, hexit⟩ | ⟨hnone, e, he⟩
    · exact iff_of_true hexit ⟨v, hv⟩
    · have hexit : passed.exitCode = 2 := congrArg Outcome.exitCode he
      exact iff_of_false (by lia) (not_exists.mpr hnone)
  · intro v hv
    have hpassed : passed = _ := runProgram_of_register (readRegister_eq_ok_iff.mpr hv)
    rw [hpassed, ofConsole_pass]
    rfl
  · intro hfailed
    rcases hregister with ⟨_, _, hexit⟩ | ⟨_, e, he⟩
    · exact absurd hexit hfailed
    · exact ⟨congrArg Outcome.exitCode he, congrArg Outcome.stdout he⟩

theorem solve_accepts (filter : Filter) (text : String) :
    let solved := runProgram filter ["solve", "--max-iterations=" ++ text]
    (solved.exitCode ≠ 2 <->
      exists n : Nat, Numeral.Unsigned text.toList n ∧ n < UInt64.size) ∧
    (forall n : Nat, Numeral.Unsigned text.toList n -> n < UInt64.size ->
      solved = .ofConsole ((Console.empty filter).solve n .text)) ∧
    (solved.exitCode = 2 -> solved.stdout = "") := by
  intro solved
  have hcap := solve_cases filter text
  refine ⟨?_, ?_, ?_⟩
  · rcases hcap with ⟨n, hn, hexit⟩ | ⟨hnone, e, he⟩
    · exact iff_of_true hexit ⟨n, hn⟩
    · have hexit : solved.exitCode = 2 := congrArg Outcome.exitCode he
      exact iff_of_false (not_not_intro hexit) (not_exists.mpr hnone)
  · intro n hn hlt
    exact runProgram_of_cap (readCap_eq_ok_iff.mpr ⟨hn, hlt⟩)
  · intro hrefused
    rcases hcap with ⟨_, _, hexit⟩ | ⟨_, e, he⟩
    · exact absurd hrefused hexit
    · exact congrArg Outcome.stdout he

/--
After the separator, a pass accepts the numerals whose value is a word and prints the value
of the pass; attached to its option, a cap can be every numeral without a minus sign that
fits in 64 bits, and the search runs under its value, however it is written.  For any other
text the program ends with a usage error and prints nothing.
-/
theorem accepted_numbers (filter : Filter) (text : String) :
    let passed := runProgram filter ["pass", "--", text]
    let solved := runProgram filter ["solve", "--max-iterations=" ++ text]
    (passed.exitCode = 0 <->
      exists z : Int, Numeral.Signed text.toList z ∧ 0 ≤ z ∧ z ≤ 4294967295) ∧
    (forall v : UInt32, Numeral.Signed text.toList v.toNat ->
      passed.stdout = toString (pass v).toNat ++ "\n") ∧
    (passed.exitCode ≠ 0 -> passed.exitCode = 2 ∧ passed.stdout = "") ∧
    (solved.exitCode ≠ 2 <->
      exists n : Nat, Numeral.Unsigned text.toList n ∧ n < UInt64.size) ∧
    (forall n : Nat, Numeral.Unsigned text.toList n -> n < UInt64.size ->
      solved = .ofConsole ((Console.empty filter).solve n .text) ∧
      forall text' : String, Numeral.Unsigned text'.toList n ->
        runProgram filter ["solve", "--max-iterations=" ++ text'] = solved) ∧
    (solved.exitCode = 2 -> solved.stdout = "") := by
  intro passed solved
  rcases pass_accepts filter text with ⟨hpass, hprinted, hrefused⟩
  rcases solve_accepts filter text with ⟨hsolve, hrun, hsilent⟩
  refine ⟨hpass, hprinted, hrefused, hsolve, ?_, hsilent⟩
  intro n hn hlt
  refine ⟨hrun n hn hlt, ?_⟩
  intro text' hn'
  exact ((solve_accepts filter text').2.1 n hn' hlt).trans (hrun n hn hlt).symm

/-!
## Options in any order

An option can be left out, given by two arguments, or given by one.  Whichever it is, and in
whatever order the parameters of a command come, the command runs on the values that were
given and on the defaults of the others.  The empty command line has defaults of its own,
and they are the same.
-/
namespace CommandLine

theorem ofList_of_digits {cs : List Char} {n : Nat} (h : Numeral.Digits cs n) :
    Argument.ofList cs = .plain := by
  cases cs with
  | nil => exact absurd rfl h.ne_nil
  | cons c cs =>
      apply ofList_plain
      rintro rfl
      exact absurd h.head_isDigit (by decide)

theorem ofString_of_unsigned {text : String} {n : Nat} (h : Numeral.Unsigned text.toList n) :
    Argument.ofString text = .plain := by
  show Argument.ofList text.toList = .plain
  generalize text.toList = cs at h ⊢
  cases h with
  | bare hdigits => exact ofList_of_digits hdigits
  | plus _ => exact ofList_plain (by decide) _

theorem ofString_name (format : Format) : Argument.ofString format.name = .plain := by
  cases format <;> rfl

theorem readFormat_name (format : Format) : readFormat format.name = .ok format := by
  rw [readFormat, Format.ofName?_name]

/-- The arguments that give a cap, or none if it is left out. -/
inductive CapWords : Option Nat -> List String -> Prop where
  | omitted : CapWords none []
  | apart {text : String} {n : Nat} :
      Numeral.Unsigned text.toList n ->
      n < UInt64.size ->
      CapWords (some n) ["--max-iterations", text]
  | attached {text : String} {n : Nat} :
      Numeral.Unsigned text.toList n ->
      n < UInt64.size ->
      CapWords (some n) ["--max-iterations=" ++ text]

inductive FormatWords : Option Format -> List String -> Prop where
  | omitted : FormatWords none []
  | apart (format : Format) : FormatWords (some format) ["--format", format.name]
  | attached (format : Format) : FormatWords (some format) ["--format=" ++ format.name]

section Giving

variable {values : Values} {words : List String}

theorem Gives.of_written
    {sub : Subcommand} {p : Parameter} {text : String} {values' : Values}
    (hwritten : Written sub p text words)
    (hread : values.read p text = .ok values') :
    Gives sub values words values' := by
  rw [← List.append_nil words]
  exact Gives.cons hwritten hread (Gives.nil values')

theorem CapWords.gives
    {cap : Option Nat}
    (hwords : CapWords cap words)
    (hfree : values.cap = none) :
    Gives .solve values words { values with cap := cap } := by
  have hread : forall (text : String) (n : Nat),
      Numeral.Unsigned text.toList n -> n < UInt64.size ->
        values.read .cap text = .ok { values with cap := some n } := by
    intro text n hn hlt
    rw [Values.read_cap hfree, readCap_eq_ok_iff.mpr ⟨hn, hlt⟩]
    rfl
  have hoption : Subcommand.solve.option? "max-iterations" = some .cap := rfl
  cases hwords with
  | omitted =>
      rw [← hfree]
      exact Gives.nil values
  | apart hn hlt =>
      exact Gives.of_written (Written.apart hoption (ofString_of_unsigned hn)) (hread _ _ hn hlt)
  | attached hn hlt => exact Gives.of_written (Written.attached hoption) (hread _ _ hn hlt)

theorem FormatWords.gives
    {format : Option Format}
    (hwords : FormatWords format words)
    (hfree : values.format = none)
    (sub : Subcommand) :
    Gives sub values words { values with format := format } := by
  have hread : forall format : Format,
      values.read .format format.name = .ok { values with format := some format } := by
    intro format
    rw [Values.read_format hfree, readFormat_name]
    rfl
  have hoption : sub.option? "format" = some .format := by
    cases sub <;> rfl
  cases hwords with
  | omitted =>
      rw [← hfree]
      exact Gives.nil values
  | apart format =>
      exact Gives.of_written (Written.apart hoption (ofString_name format)) (hread format)
  | attached format => exact Gives.of_written (Written.attached hoption) (hread format)

theorem gives_register
    {text : String} {v : UInt32}
    (hfree : values.register = none)
    (htext : Numeral.Unsigned text.toList v.toNat) :
    Gives .pass values [text] { values with register := some v } := by
  have hread : values.read .register text = .ok { values with register := some v } := by
    rw [Values.read_register hfree,
      readRegister_eq_ok_iff.mpr (Numeral.Signed.unsigned htext)]
    rfl
  exact Gives.of_written (Written.operand rfl (ofString_of_unsigned htext)) hread

end Giving
end CommandLine

open CommandLine

theorem runProgram_of_gives
    {sub : Subcommand} {line : List String} {values : Values} {command : Command}
    (hgives : Gives sub .empty line values)
    (hcommand : values.command sub = .ok command)
    (filter : Filter) :
    runProgram filter (sub.name :: line) = .ofConsole ((Console.empty filter).run command) := by
  rw [runProgram, read_of_gives hgives, hcommand]
  rfl

/--
A search runs under the cap and in the format that were given, or under the default ones,
in whatever order and way the options are given; so it does without any arguments.  A pass
prints its result in the format that was given, before or after its register.
-/
theorem options_in_any_order (filter : Filter) :
    (forall (cap : Option Nat) (format : Option Format) (capWords formatWords : List String),
      CapWords cap capWords -> FormatWords format formatWords ->
      let outcome : Outcome :=
        .ofConsole ((Console.empty filter).solve (cap.getD defaultCap) (format.getD .text))
      runProgram filter ("solve" :: (capWords ++ formatWords)) = outcome ∧
      runProgram filter ("solve" :: (formatWords ++ capWords)) = outcome) ∧
    runProgram filter [] = runProgram filter ["solve"] ∧
    forall (register : UInt32) (text : String) (format : Option Format)
        (formatWords : List String),
      Numeral.Unsigned text.toList register.toNat -> FormatWords format formatWords ->
      forall line : List String, line = text :: formatWords ∨ line = formatWords ++ [text] ->
        let outcome := runProgram filter ("pass" :: line)
        outcome.exitCode = 0 ∧ outcome.stderr = "" ∧
          outcome.stdout = renderPass register (pass register) (format.getD .text) ++ "\n" := by
  refine ⟨?_, ?_, ?_⟩
  · intro cap format capWords formatWords hcap hformat outcome
    have hforth : Gives .solve .empty (capWords ++ formatWords) ⟨cap, format, none⟩ :=
      (hcap.gives rfl).append (hformat.gives rfl .solve)
    have hback : Gives .solve .empty (formatWords ++ capWords) ⟨cap, format, none⟩ :=
      (hformat.gives rfl .solve).append (hcap.gives rfl)
    exact ⟨runProgram_of_gives hforth rfl filter, runProgram_of_gives hback rfl filter⟩
  · have hnothing : Gives .solve .empty [] .empty := Gives.nil _
    exact (runProgram_of_gives hnothing rfl filter).symm
  · intro register text format formatWords htext hformat line hline outcome
    have hgives : Gives .pass .empty line ⟨none, format, some register⟩ := by
      rcases hline with rfl | rfl
      · exact (gives_register rfl htext).append (hformat.gives rfl .pass)
      · exact (hformat.gives rfl .pass).append (gives_register rfl htext)
    have houtcome : outcome = _ := runProgram_of_gives hgives rfl filter
    rw [houtcome, ofConsole_pass]
    exact ⟨rfl, rfl, rfl⟩

end HashOrbit
