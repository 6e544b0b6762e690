import HashOrbit.CommandLine.Command

/-!
# Usage errors

Why a command line is not understood, and the line that says so.  The line is made for a
terminal: of a text from the command line it quotes what is shown.

## What a terminal shows

A terminal shows some of the characters that it is sent and acts on the others.  A control
character is acted on by itself; the escape character opens a sequence of characters that
are acted on together.  The phase says which sequence the terminal is in.  It is followed
only between shown characters: from one that is shown on, each character that can be shown
is shown, whatever the phase, up to the first that cannot.  So a line break inside of a
sequence is shown, and with it what comes after it.
-/

namespace HashOrbit
namespace Terminal

def isLayout (c : Char) : Bool :=
  c ∈ ['\t', '\n', '\x0c', '\r']

def isVisible (c : Char) : Bool :=
  isLayout c || (' ' ≤ c && c ≠ '\x7f')

def within (low high : Char) (c : Char) : Bool :=
  low ≤ c && c ≤ high

def isMark : Char -> Bool := within ' ' '/'

def isEnding : Char -> Bool := within '0' '~'

def isFinal : Char -> Bool := within '@' '~'

/--
Whether a character is the terminator of eight bits, or has it among the bytes
that encode the character.
-/
def holdsTerminator (c : Char) : Bool :=
  0x9c ∈ String.utf8EncodeChar c

/--
Where a terminal is in what it is sent: on the ground, outside of every sequence, or at a
place inside of one.
-/
inductive Phase where
  | ground
  | escape
  | marked
  | parameters
  | device
  | deviceParameters
  | deviceMarked
  | command
  | string
deriving DecidableEq, Repr

namespace Phase

def opened (c : Char) : Phase :=
  if isMark c then
    marked
  else if c = '[' then
    parameters
  else if c = ']' then
    command
  else if c = 'P' then
    device
  else if c ∈ ['X', '^', '_'] then
    string
  else if isEnding c then
    ground
  else
    escape

def follow : Phase -> Char -> Phase
  | ground, _ => ground
  | escape, c => opened c
  | marked, c => if isEnding c then ground else marked
  | parameters, c => if isFinal c then ground else parameters
  | device, c =>
      if isMark c then
        deviceMarked
      else if within '0' '?' c then
        deviceParameters
      else if isFinal c then
        string
      else
        device
  | deviceParameters, c =>
      if isMark c then
        deviceMarked
      else if within '<' '~' c then
        string
      else
        deviceParameters
  | deviceMarked, c => if isEnding c then string else deviceMarked
  | command, c => if c = '\x07' then ground else command
  | string, c => if holdsTerminator c then ground else string

def advance (phase : Phase) (c : Char) : Phase :=
  if c = '\x1b' then
    escape
  else if c ∈ ['\x18', '\x1a'] then
    ground
  else
    phase.follow c

def shows : Phase -> Char -> Bool
  | ground, c => isVisible c
  | escape, c | marked, c | parameters, c => isLayout c
  | _, _ => false

end Phase

/-- What a terminal has to know of the characters before the next one. -/
structure Screen where
  phase : Phase
  showing : Bool
deriving DecidableEq, Repr

namespace Screen

def start : Screen := ⟨.ground, false⟩

def shows (screen : Screen) (c : Char) : Bool :=
  if screen.showing && isVisible c then true else screen.phase.shows c

/-- Takes one character; one beyond ASCII ends every sequence where it is shown. -/
def advance (screen : Screen) (c : Char) : Screen where
  phase :=
    if screen.showing && isVisible c then
      if c ≤ '\x7f' then screen.phase else .ground
    else
      screen.phase.advance c
  showing := screen.shows c

def visible (screen : Screen) : List Char -> List Char
  | [] => []
  | c :: cs =>
      let rest := (screen.advance c).visible cs
      if screen.shows c then c :: rest else rest

end Screen

def visible (text : String) : String :=
  String.ofList (Screen.start.visible text.toList)

end Terminal

/-!
## Numerals

A numeral is read from the left, and the first fault met is the one reported: a character
that is no digit is noticed before the digits up to it can exceed the limit, but after the
digits before it have.
-/
namespace Numeral

inductive Fault where
  | empty
  | badDigit
  | tooLarge
  | tooSmall
deriving DecidableEq, Repr

namespace Fault

def message : Fault -> String
  | empty => "cannot parse integer from empty string"
  | badDigit => "invalid digit found in string"
  | tooLarge => "number too large to fit in target type"
  | tooSmall => "number too small to fit in target type"

end Fault

/-- Appends digits to `n`; a value above `limit` is the fault `excess`. -/
def appendDigits (limit : Nat) (excess : Fault) (n : Nat) : List Char -> Except Fault Nat
  | [] => .ok n
  | c :: cs =>
      if c.isDigit then
        let m := 10 * n + (c.toNat - '0'.toNat)
        if m ≤ limit then appendDigits limit excess m cs else .error excess
      else
        .error .badDigit

def magnitude (limit : Nat) (excess : Fault) : List Char -> Except Fault Nat
  | [] => .error .badDigit
  | cs => appendDigits limit excess 0 cs

def readUnsigned (limit : Nat) (text : String) : Except Fault Nat :=
  match text.toList with
  | [] => .error .empty
  | '+' :: cs => magnitude limit .tooLarge cs
  | cs => magnitude limit .tooLarge cs

def readSigned (least greatest : Nat) (text : String) : Except Fault Int :=
  match text.toList with
  | [] => .error .empty
  | '+' :: cs => (magnitude greatest .tooLarge cs).map fun n : Nat => (n : Int)
  | '-' :: cs => (magnitude least .tooSmall cs).map fun n : Nat => -(n : Int)
  | cs => (magnitude greatest .tooLarge cs).map fun n : Nat => (n : Int)

end Numeral

/-!
## Messages
-/
namespace CommandLine

inductive Defect where
  | numeral (fault : Numeral.Fault)
  | outOfRange (n : Int)
  | unknownName
deriving DecidableEq, Repr

namespace Defect

def detail? : Defect -> Option String
  | numeral fault => some fault.message
  | outOfRange n => some s!"{n} is not in 0..={UInt32.size - 1}"
  | unknownName => none

end Defect

inductive UsageError where
  | unrecognizedSubcommand (text : String)
  | unexpectedArgument (text : String)
  | unexpectedValue (value : String) (flag : Flag)
  | missingValue (p : Parameter)
  | repeatedOption (p : Parameter)
  | invalidValue (text : String) (p : Parameter) (defect : Defect)
  | missingArguments
deriving DecidableEq, Repr

namespace UsageError

def quote (text : String) : String :=
  s!"'{Terminal.visible text}'"

def message : UsageError -> String
  | unrecognizedSubcommand text => s!"unrecognized subcommand {quote text}"
  | unexpectedArgument text => s!"unexpected argument {quote text} found"
  | unexpectedValue value flag =>
      s!"unexpected value {quote value} for '--{flag.name}' found; no more were expected"
  | missingValue p => s!"a value is required for '{p.label}' but none was supplied"
  | repeatedOption p => s!"the argument '{p.label}' cannot be used multiple times"
  | invalidValue text p defect =>
      let statement := s!"invalid value {quote text} for '{p.label}'"
      match defect.detail? with
      | some detail => s!"{statement}: {detail}"
      | none => statement
  | missingArguments => "the following required arguments were not provided:"

end UsageError
end CommandLine

end HashOrbit
