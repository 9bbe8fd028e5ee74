import Acceptors.CommandLine.Basic

/-! The program itself: it reads the files that its arguments name and prints what a run leaves
behind. -/

namespace Acceptors.CommandLine

/-- The number of a system's error, which some calls report with its sign changed. -/
def errorNumber (code : UInt32) : UInt32 := if code ≤ -code then code else -code

def readErrorOf : IO.Error → ReadError
  | .noFileOrDirectory _ _ _ => .missing
  | .permissionDenied _ _ _ => .denied
  | .inappropriateType _ code _ => if errorNumber code = 20 then .notDirectory else .isDirectory
  | e@(.invalidArgument _ code _) =>
    if errorNumber code = 36 then .nameTooLong else .other (toString e)
  | e => .other (toString e)

def readText (path : String) : IO (Except ReadError String) := do
  if let .error e := Path.check path then return .error e
  try
    let bytes ← IO.FS.readBinFile path
    match String.fromUTF8? bytes with
    | some text => return .ok text
    | none => return .error .notText
  catch e => return .error (readErrorOf e)

def neededPaths : Request → List String
  | .run a => a.settings.toList ++ a.file.toList
  | _ => []

end Acceptors.CommandLine

def main (args : List String) : IO UInt32 := do
  let paths := Acceptors.CommandLine.neededPaths (.ofArguments args)
  let texts ← paths.mapM fun path => do
    return (path, ← Acceptors.CommandLine.readText path)
  let output := Acceptors.CommandLine.run
    (fun path => (texts.lookup path).getD (.error .missing)) args
  IO.print output.stdout
  IO.eprint output.stderr
  return output.code.toUInt32
