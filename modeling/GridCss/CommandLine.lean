import GridCss.Compiler
import GridCss.Document
import GridCss.Text.Quoted

/-!
# The command line

The arguments name a file, a grid, a seed and a format. The file, or else standard input, is
compiled and the result printed.
-/

namespace GridCss.CommandLine

inductive Format where
  | css | json | html
  deriving DecidableEq, Repr

def Format.ofText? : String → Option Format
  | "css" => some .css
  | "json" => some .json
  | "html" => some .html
  | _ => none

structure Options where
  file : Option String := none
  grid : Option String := none
  seed : Option UInt64 := none
  format : Option Format := none
  deriving DecidableEq, Repr

inductive OptionName where
  | grid | seed | format
  deriving DecidableEq, Repr

def OptionName.text : OptionName → String
  | grid => "--grid"
  | seed => "--seed"
  | format => "--format"

/-- Why arguments are refused. -/
inductive UsageFault where
  | unknownArgument (argument : String)
  | missingValue (name : OptionName)
  | badValue (name : OptionName) (value : String)
  | repeated (name : OptionName)
  | emptyFileName
  deriving DecidableEq, Repr

def UsageFault.message : UsageFault → String
  | unknownArgument argument => "unexpected argument '" ++ argument ++ "'"
  | missingValue name => "a value is required for " ++ name.text
  | badValue name value => "invalid value '" ++ value ++ "' for " ++ name.text
  | repeated name => name.text ++ " cannot be used multiple times"
  | emptyFileName => "the name of the file is empty"

/-- What the arguments ask for. -/
inductive Request where
  | version
  | help
  | compile (options : Options)
  deriving DecidableEq, Repr

/-- The forms of an argument. -/
inductive ArgumentForm where
  | separator
  | version
  | help
  | option (name : OptionName) (value : Option String)
  | file
  | unknown

namespace ArgumentForm

/-- `name` or `name=value`, behind two hyphens. -/
def ofLong (cs : List Char) : ArgumentForm :=
  let name := String.ofList (cs.takeWhile (· != '='))
  let value :=
    match cs.dropWhile (· != '=') with
    | [] => none
    | _ :: value => some (String.ofList value)
  match name with
  | "grid" => .option .grid value
  | "seed" => .option .seed value
  | "format" => .option .format value
  | "version" => if value.isNone then .version else .unknown
  | "help" => if value.isNone then .help else .unknown
  | _ => .unknown

/-- The value that directly follows the letter of an option. -/
def attached : List Char → Option String
  | [] => none
  | '=' :: value => some (String.ofList value)
  | value => some (String.ofList value)

/-- A letter and what follows it, behind one hyphen. -/
def ofShort (c : Char) (cs : List Char) : ArgumentForm :=
  match c with
  | 'g' => .option .grid (attached cs)
  | 's' => .option .seed (attached cs)
  | 'f' => .option .format (attached cs)
  | 'V' => .version
  | 'h' => .help
  | _ => .unknown

def ofText (argument : String) : ArgumentForm :=
  match argument.toList with
  | ['-', '-'] => .separator
  | '-' :: '-' :: cs => ofLong cs
  | '-' :: c :: cs => ofShort c cs
  | _ => .file

end ArgumentForm

/-- Whether an argument cannot be the value of an option in front of it. -/
def isOptionLike (argument : String) : Bool :=
  match argument.toList with
  | '-' :: _ :: _ => true
  | _ => false

/-- A seed: decimal digits, with a plus sign if need be, below `2 ^ 64`. -/
def parseSeed (text : String) : Option UInt64 :=
  let digits :=
    match text.toList with
    | '+' :: cs => cs
    | cs => cs
  let n := Literal.natOfDigits digits
  if !digits.isEmpty && digits.all Literal.isDigit && n < UInt64.size then some (UInt64.ofNat n)
  else none

namespace Options

def isSet (o : Options) : OptionName → Bool
  | .grid => o.grid.isSome
  | .seed => o.seed.isSome
  | .format => o.format.isSome

def set (o : Options) (name : OptionName) (value : String) : Except UsageFault Options :=
  if o.isSet name then .error (.repeated name)
  else
    match name with
    | .grid => .ok { o with grid := some value }
    | .seed =>
      match parseSeed value with
      | some seed => .ok { o with seed := some seed }
      | none => .error (.badValue name value)
    | .format =>
      match Format.ofText? value with
      | some format => .ok { o with format := some format }
      | none => .error (.badValue name value)

def setFile (o : Options) (name : String) : Except UsageFault Options :=
  if o.file.isSome then .error (.unknownArgument name)
  else if name.isEmpty then .error .emptyFileName
  else .ok { o with file := some name }

end Options

/-- Behind the separator every argument is a file. -/
def parseFiles (o : Options) : List String → Except UsageFault Request
  | [] => .ok (.compile o)
  | name :: rest =>
    match o.setFile name with
    | .error e => .error e
    | .ok o => parseFiles o rest

/-- Reads arguments from left to right. The first fault, or the first request for version or help,
settles the matter. -/
def parseFrom (o : Options) : List String → Except UsageFault Request
  | [] => .ok (.compile o)
  | argument :: rest =>
    match ArgumentForm.ofText argument with
    | .separator => parseFiles o rest
    | .version => .ok .version
    | .help => .ok .help
    | .unknown => .error (.unknownArgument argument)
    | .file =>
      match o.setFile argument with
      | .error e => .error e
      | .ok o => parseFrom o rest
    | .option name (some value) =>
      match o.set name value with
      | .error e => .error e
      | .ok o => parseFrom o rest
    | .option name none =>
      match rest with
      | [] => .error (.missingValue name)
      | value :: rest =>
        if isOptionLike value then .error (.missingValue name)
        else
          match o.set name value with
          | .error e => .error e
          | .ok o => parseFrom o rest

def parse (arguments : List String) : Except UsageFault Request := parseFrom {} arguments

/-- Why a file cannot be read. -/
inductive ReadFault where
  | notFound
  | denied
  /-- A part of the name in front of a slash is no directory. -/
  | notDirectory
  | isDirectory
  | nameTooLong
  | notText
  | other (text : String)
  deriving DecidableEq, Repr

namespace ReadFault

def message : ReadFault → String
  | notFound => "No such file or directory (os error 2)"
  | denied => "Permission denied (os error 13)"
  | notDirectory => "Not a directory (os error 20)"
  | isDirectory => "Is a directory (os error 21)"
  | nameTooLong => "File name too long (os error 36)"
  | notText => "stream did not contain valid UTF-8"
  | other text => text

/-- The fault with a number of the operating system. -/
def ofCode? : UInt32 → Option ReadFault
  | 2 => some notFound
  | 13 => some denied
  | 20 => some notDirectory
  | 21 => some isDirectory
  | 36 => some nameTooLong
  | _ => none

end ReadFault

/-- What a run of the program prints, and its exit code. -/
structure Outcome where
  exit : UInt32
  stdout : String := ""
  stderr : String := ""
  deriving DecidableEq, Repr

def Outcome.success (text : String) : Outcome := { exit := 0, stdout := text ++ "\n" }

def Outcome.failure (text : String) : Outcome := { exit := 1, stderr := "error: " ++ text ++ "\n" }

def Outcome.refused (fault : UsageFault) : Outcome :=
  { exit := 2, stderr := "error: " ++ fault.message ++ "\n" }

def versionText : String := "doodlec 0.1.0"

def helpText : String :=
  "Compile a doodle source into per-cell stylesheets\n\n" ++
    "Usage: doodlec [OPTIONS] [FILE]\n\n" ++
    "  -g, --grid <GRID>      Grid size: 5, 3x4 or 3,4 [default: 1]\n" ++
    "  -s, --seed <SEED>      Seed for reproducible random output\n" ++
    "  -f, --format <FORMAT>  css, json or html [default: css]\n" ++
    "  -h, --help             Print help\n" ++
    "  -V, --version          Print version"

/-- `"key":value` -/
def jsonField (key value : String) : String := Text.quoted key ++ ":" ++ value

def jsonObject (fields : List String) : String := "\x7b" ++ ",".intercalate fields ++ "\x7d"

def jsonBool (b : Bool) : String := if b then "true" else "false"

/-- Flags, grid and style sheets as one object. -/
def json (grid : Grid) (output : Output) : String :=
  jsonObject
    [jsonField "flags" (jsonObject
        [jsonField "has_animation" (jsonBool output.flags.animation),
          jsonField "has_transition" (jsonBool output.flags.transition)]),
      jsonField "grid" (jsonObject
        [jsonField "cols" (toString grid.cols), jsonField "rows" (toString grid.rows)]),
      jsonField "stylesheets" (jsonObject
        [jsonField "cells" (Text.quoted output.stylesheets.cells),
          jsonField "host" (Text.quoted output.stylesheets.host),
          jsonField "keyframes" (Text.quoted output.stylesheets.keyframes)])]

def render (format : Format) (grid : Grid) (output : Output) : String :=
  match format with
  | .css => output.stylesheets.css
  | .json => json grid output
  | .html => (Document.mk grid output).html

namespace Options

/-- The name under which the source is reported. -/
def sourceName (o : Options) : String := o.file.getD "<stdin>"

/-- Compiles the source that has been read. Without a seed among the options the given one is
used. -/
def run (o : Options) (source : Except ReadFault String) (seed : UInt64) : Outcome :=
  match source with
  | .error fault => .failure ("failed to read " ++ o.sourceName ++ ": " ++ fault.message)
  | .ok text =>
    let grid := Grid.parse (o.grid.getD "1")
    let compiler : Compiler := { seed := o.seed.getD seed }
    match (compiler.compile text grid).1 with
    | .error e => .failure e.message
    | .ok output => .success (render (o.format.getD .css) grid output)

end Options
end GridCss.CommandLine
