import HashOrbit.Render
import HashOrbit.Search

/-!
# Commands

What a command line can ask for: a run of one of two commands, a page of help,
or the version.  Each command has parameters of its own; a parameter is shown by
a label, an option with its name and a positional one without.
-/

namespace HashOrbit
namespace CommandLine

inductive Subcommand where
  | solve
  | pass
deriving DecidableEq, Repr

inductive Parameter where
  | cap
  | format
  | register
deriving DecidableEq, Repr

namespace Parameter

def label : Parameter -> String
  | cap => "--max-iterations <MAX_ITERATIONS>"
  | format => "--format <FORMAT>"
  | register => "<REGISTER>"

end Parameter

namespace Subcommand

def all : List Subcommand := [solve, pass]

def name : Subcommand -> String
  | solve => "solve"
  | pass => "pass"

def ofName? (name : String) : Option Subcommand :=
  all.find? fun sub => sub.name == name

def option? : Subcommand -> String -> Option Parameter
  | solve, "max-iterations" => some .cap
  | solve, "format" => some .format
  | pass, "format" => some .format
  | _, _ => none

def positional? : Subcommand -> Option Parameter
  | solve => none
  | pass => some .register

end Subcommand

inductive Flag where
  | help
  | version
deriving DecidableEq, Repr

namespace Flag

def ofName? : String -> Option Flag
  | "help" => some help
  | "version" => some version
  | _ => none

def ofLetter? : Char -> Option Flag
  | 'h' => some help
  | 'V' => some version
  | _ => none

def name : Flag -> String
  | help => "help"
  | version => "version"

end Flag

inductive Topic where
  | program
  | subcommand (sub : Subcommand)
  | help
deriving DecidableEq, Repr

inductive Command where
  | solve (cap : Nat) (format : Format)
  | pass (register : UInt32) (format : Format)
deriving DecidableEq, Repr

namespace Command

/-- The command that an empty command line runs. -/
def standard : Command := solve defaultCap .standard

end Command

inductive Request where
  | run (c : Command)
  | help (topic : Topic)
  | version (sub : Option Subcommand)
deriving DecidableEq, Repr

/-!
## Pages of help

One page for each topic, and the lines that tell the version.  Every page ends
with a line break.
-/

def programName : String := "chronal"

def version : String := "0.1.0"

def versionLine : Option Subcommand -> String
  | none => s!"{programName} {version}"
  | some sub => s!"{programName}-{sub.name} {version}"

namespace Subcommand

def summary : Subcommand -> String
  | solve => "Prints the values that halt the program soonest and latest"
  | pass => "Runs one pass of the program from a register value and prints the result"

end Subcommand

def formatHint : String :=
  let names := ", ".intercalate (Format.all.map Format.name)
  s!"[default: {Format.standard.name}] [possible values: {names}]"

namespace Topic

def lines : Topic -> List String
  | program => [
      s!"Usage: {programName} [COMMAND]",
      "",
      "Commands:",
      s!"  solve  {Subcommand.solve.summary}",
      s!"  pass   {Subcommand.pass.summary}",
      "  help   Print this message or the help of the given subcommand(s)",
      "",
      "Options:",
      "  -h, --help     Print help",
      "  -V, --version  Print version"]
  | subcommand .solve => [
      Subcommand.solve.summary,
      "",
      s!"Usage: {programName} solve [OPTIONS]",
      "",
      "Options:",
      s!"      --max-iterations <MAX_ITERATIONS>  [default: {defaultCap}]",
      s!"      --format <FORMAT>                  {formatHint}",
      "  -h, --help                             Print help",
      "  -V, --version                          Print version"]
  | subcommand .pass => [
      Subcommand.pass.summary,
      "",
      s!"Usage: {programName} pass [OPTIONS] <REGISTER>",
      "",
      "Arguments:",
      "  <REGISTER>  ",
      "",
      "Options:",
      s!"      --format <FORMAT>  {formatHint}",
      "  -h, --help             Print help",
      "  -V, --version          Print version"]
  | help => [
      "Print this message or the help of the given subcommand(s)",
      "",
      s!"Usage: {programName} help [COMMAND]...",
      "",
      "Arguments:",
      "  [COMMAND]...  Print help for the subcommand(s)"]

def page (topic : Topic) : String :=
  String.join (topic.lines.map (· ++ "\n"))

end Topic
end CommandLine

end HashOrbit
