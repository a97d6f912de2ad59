import Markup.Convert

/-! # The command line

Options are read from left to right; asking for help or the version ends the reading. Without files the standard input
is converted. With files each one is handled on its own: a file that fails is reported and the others still convert.

The log of a verbose run is not modelled. Its lines, with their times and levels and the filter that the environment
sets, are made by a library, and nothing is proved of their text: one line of our own stands for each file that is
converted, and none for the standard input. -/
namespace Markup.CommandLine

structure Options where
  write : Bool
  verbose : Bool
  files : List Text
deriving DecidableEq, Repr

inductive UsageError where
  | unknownOption (arg : Text)
  | unexpectedValue (arg : Text)
  | repeatedOption (arg : Text)
  | emptyFile
  | noFiles
deriving DecidableEq, Repr

inductive Request where
  | convert (options : Options)
  | help
  | version
deriving DecidableEq, Repr

inductive Flag where
  | write
  | verbose
  | help
  | version
deriving DecidableEq, Repr

def Flag.ofLong? (name : Text) : Option Flag :=
  if name = "write".toList then some .write
  else if name = "verbose".toList then some .verbose
  else if name = "help".toList then some .help
  else if name = "version".toList then some .version
  else none

def Flag.ofShort? : Char → Option Flag
  | 'v' => some .verbose
  | 'h' => some .help
  | 'V' => some .version
  | _ => none

/-- The options after a flag, or the request that the flag makes at once. The files so far are checked first. -/
def Options.take (o : Options) (arg : Text) (flag : Flag) : Except UsageError (Options ⊕ Request) :=
  if o.files.contains [] then .error .emptyFile
  else match flag with
    | .write => if o.write then .error (.repeatedOption arg) else .ok (.inl { o with write := true })
    | .verbose => if o.verbose then .error (.repeatedOption arg) else .ok (.inl { o with verbose := true })
    | .help => .ok (.inr .help)
    | .version => .ok (.inr .version)

/-- Short flags may share one dash. -/
def Options.takeShort (o : Options) (arg : Text) : Text → Except UsageError (Options ⊕ Request)
  | [] => .ok (.inl o)
  | c :: cs =>
    match Flag.ofShort? c with
    | none => .error (.unknownOption arg)
    | some flag =>
      match o.take arg flag with
      | .ok (.inl o) => o.takeShort arg cs
      | result => result

def Options.takeLong (o : Options) (arg name : Text) : Except UsageError (Options ⊕ Request) :=
  match Flag.ofLong? (name.takeWhile (· != '=')) with
  | none => .error (.unknownOption arg)
  | some flag => if name.contains '=' then .error (.unexpectedValue arg) else o.take arg flag

def Options.finish (o : Options) : Except UsageError Request :=
  if o.files.contains [] then .error .emptyFile
  else if o.write && o.files.isEmpty then .error .noFiles
  else .ok (.convert o)

def readArgs (o : Options) : List Text → Except UsageError Request
  | [] => o.finish
  | arg :: args =>
    match arg with
    | ['-', '-'] => { o with files := o.files ++ args }.finish
    | '-' :: '-' :: name => goOn args (o.takeLong arg name)
    | '-' :: c :: cs => goOn args (o.takeShort arg (c :: cs))
    | file => readArgs { o with files := o.files ++ [file] } args
where
  goOn (args : List Text) : Except UsageError (Options ⊕ Request) → Except UsageError Request
    | .error e => .error e
    | .ok (.inr request) => .ok request
    | .ok (.inl o) => readArgs o args

def parse (args : List Text) : Except UsageError Request := readArgs ⟨false, false, []⟩ args

structure Outcome where
  code : Nat
  stdout : Text
  stderr : Text
deriving DecidableEq, Repr

def UsageError.message : UsageError → Text
  | unknownOption arg => "unexpected argument '".toList ++ arg ++ "' found".toList
  | unexpectedValue arg => "unexpected value for '".toList ++ arg ++ "' found; no more were expected".toList
  | repeatedOption arg => "the argument '".toList ++ arg ++ "' cannot be used multiple times".toList
  | emptyFile => "a value is required for '[FILES]...' but none was supplied".toList
  | noFiles => "the following required arguments were not provided:\n  [FILES]...".toList

def versionText : Text := "expressiv 0.1.0\n".toList

def helpText : Text :=
  ("Convert expressiv markup to HTML\n\nUsage: expressiv [OPTIONS] [FILES]...\n\nArguments:\n" ++
    "  [FILES]...  Documents to convert; standard input is read when none are given\n\nOptions:\n" ++
    "      --write    Write `<file>.html` next to each input instead of printing\n" ++
    "  -v, --verbose  Log each conversion to stderr\n  -h, --help     Print help\n" ++
    "  -V, --version  Print version\n").toList

/-- What became of one file: the text to print, or why it failed. -/
structure FileResult where
  path : Text
  result : Except FileError Text

namespace FileResult

def failed (r : FileResult) : Bool :=
  match r.result with
  | .ok _ => false
  | .error _ => true

def printed (r : FileResult) : Text :=
  match r.result with
  | .ok text => text
  | .error _ => []

def complaint (write : Bool) (r : FileResult) : Text :=
  match r.result with
  | .ok _ => []
  | .error e =>
    (if write then "expressiv: failed to convert " else "expressiv: failed to read ").toList ++ r.path ++
      ": ".toList ++ e.message.toList ++ ['\n']

/-- In the place of what is logged about the file; the text is not the program's. -/
def logLine (r : FileResult) : Text := if r.failed then [] else "converted ".toList ++ r.path ++ ['\n']

end FileResult

/-- The outcome of a run over files, from what became of each. The log comes before the reports, as one block, where the
program may mix them. -/
def summarize (o : Options) (results : List FileResult) : Outcome :=
  let failures := (results.filter FileResult.failed).length
  let log := if o.verbose then results.flatMap FileResult.logLine else []
  let summary :=
    if failures = 0 then []
    else "Error: ".toList ++ Nat.toDigits 10 failures ++ " file(s) failed to convert\n".toList
  { code := if failures = 0 then 0 else 1
    stdout := results.flatMap FileResult.printed
    stderr := log ++ results.flatMap (FileResult.complaint o.write) ++ summary }

section
variable {m : Type → Type} [Monad m]

def handleFile (s : Storage m) (write : Bool) (path : Text) : m FileResult := do
  if write then return ⟨path, (← writeHtml s path).map fun _ => []⟩
  else return ⟨path, (← convertFile s path).map (· ++ ['\n'])⟩

/-- Converts the standard input; what a verbose run logs on the way is left out. -/
def convertInput (input : Content) : Outcome :=
  match input with
  | .text text => ⟨0, html text ++ ['\n'], []⟩
  | .binary _ =>
    ⟨1, [], "Error: failed to read standard input\n\nCaused by:\n    ".toList ++
      FileError.invalidData.message.toList ++ ['\n']⟩

/-- Runs the program with its arguments; the standard input is read only when it is needed.

The program handles its files at the same time and takes the results in the order of the arguments; here one file is
handled after the other. A run that prints only reads, so what becomes of a file does not depend on the others. In a run
that writes, the theorems speak of files to which one fragment only goes, with none of the documents that share such a
file being the file itself: whichever document comes last, the file holds that fragment, and no document is read after
another one has changed it. -/
def run (s : Storage m) (stdin : m Content) (args : List Text) : m Outcome :=
  match parse args with
  | .error e => return ⟨2, [], "error: ".toList ++ e.message ++ ['\n']⟩
  | .ok .help => return ⟨0, helpText, []⟩
  | .ok .version => return ⟨0, versionText, []⟩
  | .ok (.convert o) =>
    if o.files.isEmpty then return convertInput (← stdin)
    else return summarize o (← o.files.mapM (handleFile s o.write))

end
end Markup.CommandLine
