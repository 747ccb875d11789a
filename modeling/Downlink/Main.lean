import Downlink.CommandLine.Perform

/-!
The program: it reads the files that its command line names, and writes what comes of them in the
milliseconds in which it is due. It opens no sockets: every one is refused.
-/

open Downlink Downlink.CommandLine

namespace Downlink.Program

/-- A refusal by its number, which may come negated. -/
def refusal (code : UInt32) : SystemError :=
  let number := (min code (0 - code)).toNat
  let known : List SystemError :=
    [.notFound, .permissionDenied, .notDirectory, .isDirectory, .nameTooLong]
  (known.find? (·.code = number)).getD ⟨number, "Unknown error " ++ toString number⟩

def systemError : IO.Error → SystemError
  | .noFileOrDirectory .. => .notFound
  | .permissionDenied .. => .permissionDenied
  | .inappropriateType _ code _ => refusal code
  | .invalidArgument _ code _ => refusal code
  | .otherError code _ => refusal code
  | e => ⟨5, toString e⟩

def readFile (path : String) : IO (Except SystemError Bytes) := do
  try
    let content ← IO.FS.readBinFile path
    return .ok content.toList
  catch e => return .error (systemError e)

def readInputs (environment : Option String) (arguments : List String) :
    IO (List (String × Except SystemError Bytes)) := do
  match Invocation.ofArguments environment arguments with
  | .error _ => return []
  | .ok invocation => invocation.inputs.mapM fun path => return (path, ← readFile path)

def network : Network :=
  let refused : SystemError := ⟨38, "Function not implemented"⟩
  ⟨fun _ => .error refused, fun _ _ => .error refused⟩

/-- Writes each text in its millisecond. -/
def write (out : IO.FS.Stream) (now : Nat) : List (Nat × String) → IO Unit
  | [] => return
  | (time, text) :: rest => do
    IO.sleep (UInt32.ofNat (time - now))
    out.putStr text
    out.flush
    write out time rest

end Downlink.Program

def main (arguments : List String) : IO UInt32 := do
  let configPath ← IO.getEnv "GROUNDLINK_CONFIG"
  let inputs ← Program.readInputs configPath arguments
  let files : Files :=
    ⟨fun path => (inputs.lookup path).getD (.error .notFound), fun _ => .ok ()⟩
  let outcome := Host.run ⟨files, Program.network, configPath⟩ arguments
  Program.write (← IO.getStdout) 0 outcome.output
  IO.eprint outcome.note
  match outcome.exitCode with
  | some code => return UInt32.ofNat code
  | none =>
    IO.eprintln "Error: datagrams cannot be received here"
    return 1
