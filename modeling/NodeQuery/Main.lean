/-
The command line: a trace of the query in a file.

The environment variable `KIRIN_CONFIG` names a file of settings.
-/
import NodeQuery.Trace

namespace NodeQuery

/-- What is said of a failure to open or read a file. -/
def readFailure : IO.Error → String
  | .noFileOrDirectory .. => "No such file or directory (os error 2)"
  | .permissionDenied .. => "Permission denied (os error 13)"
  | .inappropriateType .. => "Is a directory (os error 21)"
  | error => toString error

/-- The text in a file, or why it cannot be had. -/
def readText (path : String) : IO (Except String String) := do
  try
    let bytes ← IO.FS.readBinFile path
    match String.fromUTF8? bytes with
    | some text => return .ok text
    | none => return .error "stream did not contain valid UTF-8"
  catch error =>
    return .error (readFailure error)

/-- The texts in files, each under the path of its file. -/
def readAll (paths : List String) : IO (List (String × Except String String)) :=
  paths.mapM fun path => do return (path, ← readText path)

end NodeQuery

/-- Prints the trace of a query, and exits with its code. -/
def main (args : List String) : IO UInt32 := do
  let settingsPath? ← IO.getEnv "KIRIN_CONFIG"
  let texts ← NodeQuery.readAll (args.take 2 ++ settingsPath?.toList)
  let read (path : String) : Except String String :=
    (texts.lookup path).getD (.error "No such file or directory (os error 2)")
  let outcome := NodeQuery.trace read settingsPath? args
  IO.print outcome.output
  IO.eprint outcome.errors
  return UInt32.ofNat outcome.exitCode
