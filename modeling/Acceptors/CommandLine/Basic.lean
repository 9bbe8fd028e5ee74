import Acceptors.CommandLine.Arguments
import Acceptors.Files.Load
import Acceptors.Findings
import Acceptors.Json.Printer
import Acceptors.Report
import Acceptors.Samples
import Acceptors.Text.Quoted

/-! The command line: load an automaton, report findings, and run it on inputs. -/

namespace Acceptors.CommandLine

structure Output where
  code : Nat
  stdout : String
  stderr : String
deriving DecidableEq, Repr

def settings (read : ReadFile) (a : Arguments) : Except Failure Settings := do
  let s ←
    match a.settings with
    | none => .ok Settings.default
    | some path =>
      match read path with
      | .error e => .error (.file (.unreadable path e))
      | .ok text => (Settings.read text).mapError Failure.file
  return (a.maxSteps.map s.withMaxSteps).getD s

def automaton (read : ReadFile) (a : Arguments) (s : Settings) : Except Failure Automaton :=
  match a.sample, a.file, a.formalism with
  | some name, _, _ =>
    match Sample.find? name with
    | some sample => (sample.load s).mapError .parse
    | none => .error (.file (.unknownSample name Sample.names))
  | none, some path, some f => loadAs read path f s
  | none, some path, none => load read path s
  | none, none, _ => .error (.file .noFile)

/-- Shows control characters that a terminal would act on. -/
def shown (c : Char) : String :=
  let n := c.toNat
  if n = 0x07 || n = 0x08 || n = 0x0C || n = 0x1B || n = 0x7F then
    "\\x" ++ String.ofList [Json.hexDigit (n / 16), Json.hexDigit (n % 16)]
  else if 0x80 ≤ n && n ≤ 0x9F then "\\u\x7b" ++ Text.Quoted.codePoint c ++ "\x7d"
  else c.toString

def warning (f : Finding) : String :=
  " WARN autosim_cli: " ++ String.join (f.message.toList.map shown)

def lines (a : Arguments) (input : String) (r : Record) : List String :=
  if a.json then [r.toJson.indented]
  else (Text.Quoted.encode input ++ ": " ++ r.verdict) :: (if a.trace then r.lines else [])

def runAll (a : Arguments) (s : Settings) (m : Automaton) :
    List String → List String × Option Failure
  | [] => ([], none)
  | input :: rest =>
    match m.execute input.toList s with
    | .error e => ([], some e)
    | .ok r =>
      let (more, failure) := runAll a s m rest
      (lines a input r ++ more, failure)

def process (a : Arguments) (s : Settings) (m : Automaton) : List String × Option Failure :=
  if a.minimize then
    match m.minimize with
    | .error e => ([], some (.domain e))
    | .ok m =>
      let header := match m with
        | .dfa d => d.lines
        | _ => []
      let (output, failure) := runAll a s m a.inputs
      (header ++ output, failure)
  else runAll a s m a.inputs

def withLineEnds (lines : List String) : String := String.join (lines.map fun l => l ++ "\n")

/-- The output of a run: lines for the two streams, and a failure at the end of the second. -/
def Output.ofLines (stdout stderr : List String) (failure : Option Failure) : Output :=
  match failure with
  | none => ⟨0, withLineEnds stdout, withLineEnds stderr⟩
  | some e => ⟨1, withLineEnds stdout, withLineEnds (stderr ++ [e.message])⟩

def execute (read : ReadFile) (a : Arguments) : Output :=
  match settings read a with
  | .error e => .ofLines [] [] (some e)
  | .ok s =>
    match automaton read a s with
    | .error e => .ofLines [] [] (some e)
    | .ok m =>
      let (stdout, failure) := process a s m
      .ofLines stdout (m.findings.map warning) failure

def usage : String :=
  "Usage: autosim-cli [OPTIONS] <FILE|--sample <SAMPLE>>"

def run (read : ReadFile) (args : List String) : Output :=
  match Request.ofArguments args with
  | .run a => execute read a
  | .help => ⟨0, usage ++ "\n", ""⟩
  | .version => ⟨0, "autosim-cli 0.0.1\n", ""⟩
  | .misuse => ⟨2, "", usage ++ "\n"⟩

end Acceptors.CommandLine
