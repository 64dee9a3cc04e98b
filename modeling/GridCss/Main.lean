import GridCss.CommandLine

/-!
# The program

Reads the source, prints the outcome.
-/

namespace GridCss.CommandLine

/-- The source as text. -/
def decodeSource (bytes : ByteArray) : Except ReadFault String :=
  match String.fromUTF8? bytes with
  | some text => .ok text
  | none => .error .notText

/-- The number of the operating system's error, which some calls give negated. -/
def errorCode? : IO.Error → Option UInt32
  | .noFileOrDirectory _ code _ | .permissionDenied _ code _ | .inappropriateType _ code _
  | .invalidArgument _ code _ => some (if code < 0x80000000 then code else 0 - code)
  | _ => none

def readFault (e : IO.Error) : ReadFault :=
  ((errorCode? e).bind ReadFault.ofCode?).getD (.other (toString e))

def readSource (file : Option String) : IO (Except ReadFault String) :=
  try
    let bytes ←
      match file with
      | some name => IO.FS.readBinFile name
      | none => do (← IO.getStdin).readBinToEnd
    return decodeSource bytes
  catch e => return .error (readFault e)

def freshSeed : IO UInt64 := do
  return UInt64.ofNat (← IO.rand 0 (UInt64.size - 1))

def outcome (arguments : List String) : IO Outcome := do
  match parse arguments with
  | .error fault => return .refused fault
  | .ok .version => return .success versionText
  | .ok .help => return .success helpText
  | .ok (.compile options) => return options.run (← readSource options.file) (← freshSeed)

end GridCss.CommandLine

def main (arguments : List String) : IO UInt32 := do
  let o ← GridCss.CommandLine.outcome arguments
  (← IO.getStdout).putStr o.stdout
  (← IO.getStderr).putStr o.stderr
  return o.exit
