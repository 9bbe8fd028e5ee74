import Acceptors.Failure
import Acceptors.Grammar.Basic
import Acceptors.Json.Reader

/-! Limits and switches for reading and running acceptors, and how they are read from JSON. -/

namespace Acceptors

structure Settings where
  maxSteps : Nat
  maxTreeDepth : Nat
  maxChartCells : Nat
  requireTotalDelta : Bool
deriving DecidableEq, Repr

namespace Settings

def default : Settings :=
  { maxSteps := 10000
    maxTreeDepth := Grammar.defaultTreeDepth
    maxChartCells := Grammar.defaultChartCells
    requireTotalDelta := false }

def withMaxSteps (s : Settings) (n : Nat) : Settings := { s with maxSteps := n }

def keys : List String := ["max_steps", "max_tree_depth", "max_chart_cells", "require_total_delta"]

/-- Limits are plain decimal numbers below two to the sixty-fourth. -/
def limit? : Json → Option Nat
  | .number text =>
    if text.toList.all Char.isDigit then
      match text.toNat? with
      | some n => if n < 18446744073709551616 then some n else none
      | none => none
    else none
  | _ => none

def switch? : Json → Option Bool
  | .bool b => some b
  | _ => none

def assign? (s : Settings) (v : Json) : Nat → Option Settings
  | 0 => (limit? v).map fun n => { s with maxSteps := n }
  | 1 => (limit? v).map fun n => { s with maxTreeDepth := n }
  | 2 => (limit? v).map fun n => { s with maxChartCells := n }
  | 3 => (switch? v).map fun b => { s with requireTotalDelta := b }
  | _ => none

/-- Settings by key. Unknown keys do not matter, and a known one is given once at most. -/
def ofMembers? (given : List String) (s : Settings) : List (String × Json) → Option Settings
  | [] => some s
  | (key, v) :: rest =>
    match keys.idxOf? key with
    | none => ofMembers? given s rest
    | some i =>
      if key ∈ given then none
      else
        match s.assign? v i with
        | some s => ofMembers? (key :: given) s rest
        | none => none

def ofItems? (place : Nat) (s : Settings) : List Json → Option Settings
  | [] => some s
  | v :: rest =>
    match s.assign? v place with
    | some s => ofItems? (place + 1) s rest
    | none => none

def ofJson? : Json → Option Settings
  | .object members => ofMembers? [] default members
  | .array items => ofItems? 0 default items
  | _ => none

def read (text : String) : Except FileError Settings :=
  match (Json.parse? text).bind ofJson? with
  | some s => .ok s
  | none => .error .invalidSettings

end Settings

end Acceptors
