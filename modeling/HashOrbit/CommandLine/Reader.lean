import HashOrbit.CommandLine.UsageError

/-!
# Reading command lines

The reader keeps to the rules that the `clap` parser documents for the arguments of a
command:

- Arguments are read from left to right, and the first fault ends the reading.
- An option is given by two arguments, `--name value`, or by one, `--name=value`; no option
  is given twice, and one that is left out has its default.
- An argument that begins with a dash is an option, unless it is a lone dash.  After the
  separator `--` nothing is an option any more.
- A positional parameter is given by its text alone, and it must be given.
- `-h`, `--help`, `-V` and `--version` end the reading with what they ask for.
- A count is a numeral of 64 bits without a minus sign; a word is a signed numeral of 64
  bits whose range is checked.

The value of a parameter is examined late: it stays pending until the next parameter or
flag is met or the arguments end.  An argument that fits nowhere is refused at once, before
the pending value is looked at.
-/

namespace HashOrbit
namespace CommandLine

inductive Argument where
  | separator
  | long (name : String) (value : Option String)
  | short (letter : Char)
  | plain
deriving DecidableEq, Repr

namespace Argument

def attached? (cs : List Char) : Option String :=
  match cs.dropWhile (· != '=') with
  | [] => none
  | _ :: value => some (String.ofList value)

def ofList : List Char -> Argument
  | ['-', '-'] => separator
  | '-' :: '-' :: cs => long (String.ofList (cs.takeWhile (· != '='))) (attached? cs)
  | '-' :: c :: _ => short c
  | _ => plain

def ofString (text : String) : Argument :=
  ofList text.toList

end Argument

def readCap (text : String) : Except UsageError Nat :=
  match Numeral.readUnsigned (UInt64.size - 1) text with
  | .ok n => .ok n
  | .error fault => .error (.invalidValue text .cap (.numeral fault))

def readRegister (text : String) : Except UsageError UInt32 :=
  match Numeral.readSigned (UInt64.size / 2) (UInt64.size / 2 - 1) text with
  | .ok n =>
      if 0 ≤ n ∧ n < UInt32.size then
        .ok (UInt32.ofNat n.toNat)
      else
        .error (.invalidValue text .register (.outOfRange n))
  | .error fault => .error (.invalidValue text .register (.numeral fault))

/-- Reads the name of a format; an empty text counts as no value. -/
def readFormat (text : String) : Except UsageError Format :=
  match Format.ofName? text false with
  | some format => .ok format
  | none =>
      if text.isEmpty then
        .error (.missingValue .format)
      else
        .error (.invalidValue text .format .unknownName)

structure Values where
  cap : Option Nat
  format : Option Format
  register : Option UInt32
deriving DecidableEq, Repr

namespace Values

def empty : Values := ⟨none, none, none⟩

def has (values : Values) : Parameter -> Bool
  | .cap => values.cap.isSome
  | .format => values.format.isSome
  | .register => values.register.isSome

def read (values : Values) (p : Parameter) (text : String) : Except UsageError Values :=
  if values.has p then
    .error (.repeatedOption p)
  else
    match p with
    | .cap => (readCap text).map fun n => { values with cap := some n }
    | .format => (readFormat text).map fun format => { values with format := some format }
    | .register => (readRegister text).map fun v => { values with register := some v }

def command (values : Values) : Subcommand -> Except UsageError Command
  | .solve => .ok (.solve (values.cap.getD defaultCap) (values.format.getD .standard))
  | .pass =>
      match values.register with
      | some register => .ok (.pass register (values.format.getD .standard))
      | none => .error .missingArguments

end Values

/-!
## The arguments of a command
-/

/-- A parameter that has been met and, if it has been met too, the text of its value. -/
structure Pending where
  parameter : Parameter
  text : Option String
deriving DecidableEq, Repr

/--
What has been read of the arguments of a command: `separated` says that the separator has
been met, and `positioned` that the positional parameter has.
-/
structure Scan where
  values : Values
  pending : Option Pending
  separated : Bool
  positioned : Bool
deriving DecidableEq, Repr

inductive Stop where
  | misuse (e : UsageError)
  | flag (f : Flag)
deriving DecidableEq, Repr

namespace Scan

def start : Scan := ⟨.empty, none, false, false⟩

def settle (scan : Scan) : Except UsageError Values :=
  match scan.pending with
  | none => .ok scan.values
  | some ⟨p, none⟩ => .error (.missingValue p)
  | some ⟨p, some text⟩ => scan.values.read p text

def awaiting? (scan : Scan) : Option Parameter :=
  match scan.pending with
  | some ⟨p, none⟩ => some p
  | _ => none

def meet (scan : Scan) (p : Parameter) (text : Option String) : Except Stop Scan :=
  match scan.settle with
  | .ok values => .ok { scan with values := values, pending := some ⟨p, text⟩ }
  | .error e => .error (.misuse e)

/-- Meets an option with its value attached, which is settled at once. -/
def meetAttached (scan : Scan) (p : Parameter) (text : String) : Except Stop Scan :=
  match scan.settle with
  | .ok values =>
      match values.read p text with
      | .ok values => .ok { scan with values := values, pending := none }
      | .error e => .error (.misuse e)
  | .error e => .error (.misuse e)

def meetFlag (scan : Scan) (f : Flag) : Except Stop Scan :=
  match scan.settle with
  | .ok _ => .error (.flag f)
  | .error e => .error (.misuse e)

def meetOperand (sub : Subcommand) (scan : Scan) (text : String) : Except Stop Scan :=
  match sub.positional?, scan.positioned with
  | some p, false => { scan with positioned := true }.meet p (some text)
  | _, _ => .error (.misuse (.unexpectedArgument text))

def meetLong (sub : Subcommand) (scan : Scan) (name : String) (value : Option String) :
    Except Stop Scan :=
  match sub.option? name, Flag.ofName? name, value with
  | some p, _, some text => scan.meetAttached p text
  | some p, _, none => scan.meet p none
  | none, some f, none => scan.meetFlag f
  | none, some f, some text => .error (.misuse (.unexpectedValue text f))
  | none, none, _ => .error (.misuse (.unexpectedArgument ("--" ++ name)))

def meetShort (scan : Scan) (letter : Char) : Except Stop Scan :=
  match Flag.ofLetter? letter with
  | some f => scan.meetFlag f
  | none => .error (.misuse (.unexpectedArgument (String.ofList ['-', letter])))

def meetPlain (sub : Subcommand) (scan : Scan) (text : String) : Except Stop Scan :=
  match scan.awaiting? with
  | some p => .ok { scan with pending := some ⟨p, some text⟩ }
  | none => scan.meetOperand sub text

def step (sub : Subcommand) (scan : Scan) (text : String) : Except Stop Scan :=
  if scan.separated then
    scan.meetOperand sub text
  else
    match Argument.ofString text with
    | .separator => .ok { scan with separated := true }
    | .long name value => scan.meetLong sub name value
    | .short letter => scan.meetShort letter
    | .plain => scan.meetPlain sub text

def finish (sub : Subcommand) (scan : Scan) : List String -> Except Stop Values
  | [] =>
      match scan.settle with
      | .ok values => .ok values
      | .error e => .error (.misuse e)
  | text :: rest =>
      match scan.step sub text with
      | .ok scan => finish sub scan rest
      | .error stop => .error stop

end Scan

/-!
## Whole command lines
-/

namespace Flag

def request (sub : Option Subcommand) : Flag -> Request
  | help => .help (sub.elim .program .subcommand)
  | version => .version sub

end Flag

namespace Subcommand

def readArguments (sub : Subcommand) (args : List String) : Except UsageError Request :=
  match Scan.start.finish sub args with
  | .ok values => (values.command sub).map .run
  | .error (.flag f) => .ok (f.request (some sub))
  | .error (.misuse e) => .error e

end Subcommand

def Topic.ofName? (name : String) : Option Topic :=
  if name = "help" then some .help else (Subcommand.ofName? name).map .subcommand

def readTopic : List String -> Except UsageError Request
  | [] => .ok (.help .program)
  | name :: rest =>
      match Topic.ofName? name, rest with
      | some topic, [] => .ok (.help topic)
      | some _, extra :: _ => .error (.unrecognizedSubcommand extra)
      | none, _ => .error (.unrecognizedSubcommand name)

/-- Reads the arguments after a separator that stands before any command. -/
def readSeparated : List String -> Except UsageError Request
  | [] => .ok (.run .standard)
  | text :: _ =>
      if (Topic.ofName? text).isSome then
        .error (.unexpectedArgument text)
      else
        .error (.unrecognizedSubcommand text)

def readOption (text : String) : Argument -> Except UsageError Request
  | .long name value =>
      match Flag.ofName? name, value with
      | some f, none => .ok (f.request none)
      | some f, some value => .error (.unexpectedValue value f)
      | none, _ => .error (.unexpectedArgument ("--" ++ name))
  | .short letter =>
      match Flag.ofLetter? letter with
      | some f => .ok (f.request none)
      | none => .error (.unexpectedArgument (String.ofList ['-', letter]))
  | _ => .error (.unrecognizedSubcommand text)

def read : List String -> Except UsageError Request
  | [] => .ok (.run .standard)
  | text :: rest =>
      match Topic.ofName? text with
      | some (.subcommand sub) => sub.readArguments rest
      | some _ => readTopic rest
      | none =>
          match Argument.ofString text with
          | .separator => readSeparated rest
          | argument => readOption text argument

end CommandLine

end HashOrbit
