import Acceptors.Formalism

/-! The arguments of the command line. Options have a long name, most also a letter; letters can be
put together behind one dash, and the value of an option can follow it at once, after an equals
sign, or as the next argument. After `--` no argument is an option. -/

namespace Acceptors.CommandLine

structure Arguments where
  file : Option String
  sample : Option String
  formalism : Option Formalism
  inputs : List String
  trace : Bool
  json : Bool
  minimize : Bool
  maxSteps : Option Nat
  settings : Option String
  verbosity : Nat
deriving DecidableEq, Repr

inductive Request
  | run (arguments : Arguments)
  | help
  | version
  | misuse
deriving DecidableEq, Repr

namespace Arguments

def empty : Arguments := ⟨none, none, none, [], false, false, false, none, none, 0⟩

inductive Key
  | sample
  | formalism
  | input
  | maxSteps
  | settings
deriving DecidableEq, Repr

inductive Flag
  | trace
  | json
  | minimize
  | verbose
  | help
  | version
deriving DecidableEq, Repr

abbrev Named := Key ⊕ Flag

def ofLong? : String → Option Named
  | "sample" => some (.inl .sample)
  | "formalism" => some (.inl .formalism)
  | "input" => some (.inl .input)
  | "max-steps" => some (.inl .maxSteps)
  | "config" => some (.inl .settings)
  | "trace" => some (.inr .trace)
  | "json" => some (.inr .json)
  | "minimize" => some (.inr .minimize)
  | "verbose" => some (.inr .verbose)
  | "help" => some (.inr .help)
  | "version" => some (.inr .version)
  | _ => none

def ofLetter? : Char → Option Named
  | 's' => some (.inl .sample)
  | 'f' => some (.inl .formalism)
  | 'i' => some (.inl .input)
  | 'c' => some (.inl .settings)
  | 't' => some (.inr .trace)
  | 'm' => some (.inr .minimize)
  | 'v' => some (.inr .verbose)
  | 'h' => some (.inr .help)
  | 'V' => some (.inr .version)
  | _ => none

def number? (text : String) : Option Nat := do
  let digits := match text.toList with
    | '+' :: rest => rest
    | rest => rest
  if digits.isEmpty || !digits.all Char.isDigit then none
  else
    let n := digits.foldl (fun n c => 10 * n + (c.toNat - 48)) 0
    if n < 18446744073709551616 then some n else none

/-- The request so far: arguments, or what ends the reading of them. -/
abbrev Reading := Except Request Arguments

def misuse : Reading := .error .misuse

def once {α : Type} (old new : Option α) (change : Arguments → Arguments)
    (a : Arguments) : Reading :=
  if old.isNone && new.isSome then .ok (change a) else misuse

def assign (a : Arguments) (key : Key) (value : String) : Reading :=
  match key with
  | .sample => once a.sample (some value) (fun a => { a with sample := some value }) a
  | .formalism =>
    let f := Formalism.ofName? value
    once a.formalism f (fun a => { a with formalism := f }) a
  | .input => .ok { a with inputs := a.inputs ++ [value] }
  | .maxSteps =>
    let n := number? value
    once a.maxSteps n (fun a => { a with maxSteps := n }) a
  | .settings =>
    if value.isEmpty then misuse
    else once a.settings (some value) (fun a => { a with settings := some value }) a

/-- Switches are given once, but verbosity can be raised again and again. -/
def raise (a : Arguments) : Flag → Reading
  | .trace => if a.trace then misuse else .ok { a with trace := true }
  | .json => if a.json then misuse else .ok { a with json := true }
  | .minimize => if a.minimize then misuse else .ok { a with minimize := true }
  | .verbose => .ok { a with verbosity := a.verbosity + 1 }
  | .help => .error .help
  | .version => .error .version

def position (a : Arguments) (value : String) : Reading :=
  if a.file.isSome || value.isEmpty then misuse else .ok { a with file := some value }

/-- Letters behind one dash. The last may be an option whose value is still to come. -/
def letters (a : Arguments) : List Char → Except Request (Arguments × Option Key)
  | [] => .ok (a, none)
  | c :: rest =>
    match ofLetter? c, rest with
    | none, _ => .error .misuse
    | some (.inr flag), rest =>
      match raise a flag with
      | .error r => .error r
      | .ok a => letters a rest
    | some (.inl key), [] => .ok (a, some key)
    | some (.inl key), '=' :: value => (assign a key (String.ofList value)).map fun a => (a, none)
    | some (.inl key), value => (assign a key (String.ofList value)).map fun a => (a, none)

def long (a : Arguments) (text : List Char) : Except Request (Arguments × Option Key) :=
  let (name, rest) := text.span (· != '=')
  match ofLong? (String.ofList name), rest with
  | some (.inl key), [] => .ok (a, some key)
  | some (.inl key), _ :: value => (assign a key (String.ofList value)).map fun a => (a, none)
  | some (.inr flag), [] => (raise a flag).map fun a => (a, none)
  | _, _ => .error .misuse

/-- Reads arguments from left to right; `pending` is an option that waits for its value. -/
def read (a : Arguments) (pending : Option Key) : List String → Reading
  | [] => if pending.isSome then misuse else .ok a
  | arg :: rest =>
    match pending, arg.toList with
    | some _, '-' :: _ :: _ => misuse
    | some key, _ =>
      match assign a key arg with
      | .error r => .error r
      | .ok a => read a none rest
    | none, ['-', '-'] => rest.foldlM position a
    | none, '-' :: '-' :: text =>
      match long a text with
      | .error r => .error r
      | .ok (a, pending) => read a pending rest
    | none, '-' :: c :: text =>
      match letters a (c :: text) with
      | .error r => .error r
      | .ok (a, pending) => read a pending rest
    | none, _ =>
      match position a arg with
      | .error r => .error r
      | .ok a => read a none rest

end Arguments

def Request.ofArguments (args : List String) : Request :=
  match Arguments.read .empty none args with
  | .error r => r
  | .ok a => if a.file.isSome == a.sample.isSome then .misuse else .run a

end Acceptors.CommandLine
