/-
The arguments of the command, read in the way of `argparse`. Options may stand before or behind the
patterns, but not between them; a `--` makes patterns of all that follows. A long option can be
called by every beginning of its name that no other shares. Short options can be written together,
and a value can follow its option directly, behind an equals sign, or as the next argument.

What is written on to a short option is not read alike by every release of `argparse`, so there are
the rules of two: 3.11.2 and 3.11.10.
-/
import Munch.Options
import Munch.Text.Integer

namespace Munch.CommandLine

open Text

/-- A release of `argparse`. -/
inductive Release where
  /-- As of 3.11.2. More short options can stand behind the equals sign of one, no other sign ends the
  options in front of a value, and a value that is `--` is lost. -/
  | early
  /-- As of 3.11.10. -/
  | late
deriving DecidableEq

structure Arguments where
  patterns : List String
  /-- The file to match the lines of, `-` for the standard input; absent if it was lost. -/
  file : Option String
  /-- The file to write to, `-` for the standard output; absent if it was lost. -/
  output : Option String
  /-- Write the emitted function. -/
  emit : Bool
  /-- Write the table. -/
  table : Bool
  /-- The file to write the graph to, if there is to be one; absent in it if it was lost. -/
  dot : Option (Option String)
  /-- The limit of merged steps, absent if it was lost. -/
  maxSteps : Option Int
  codegen : Bool
  verbose : Bool
  /-- Write how long the matching takes, and nothing else. -/
  time : Bool

/-- Nothing chosen. -/
def Arguments.initial : Arguments :=
  ⟨[], some "-", some "-", false, false, none, some 10000, false, false, false⟩

/-- An option without a value. -/
inductive Flag where
  /-- Show how the command is called, and do nothing else. -/
  | help
  | emit
  | table
  | codegen
  | verbose
  | time

/-- An option with a value. -/
inductive Field where
  | file
  | output
  | dot
  | maxSteps

inductive OptionName where
  | flag (f : Flag)
  | field (f : Field)

def shortOption? : Char → Option OptionName
  | 'h' => some (.flag .help)
  | 'f' => some (.field .file)
  | 'o' => some (.field .output)
  | 'v' => some (.flag .verbose)
  | 't' => some (.flag .time)
  | _ => none

/-- The long options. No name begins another, so that a full name is never ambiguous. -/
def longOptions : List (String × OptionName) :=
  [("help", .flag .help), ("file", .field .file), ("output", .field .output), ("emit", .flag .emit),
    ("table", .flag .table), ("dot", .field .dot), ("max-steps", .field .maxSteps),
    ("codegen", .flag .codegen), ("verbose", .flag .verbose), ("time", .flag .time)]

/-- The long options whose names begin like this. -/
def longOptionsLike (beginning : List Char) : List OptionName :=
  (longOptions.filter fun option => beginning.isPrefixOf option.1.toList).map (·.2)

/-! ## What an option asks for -/

/-- An option that is taken. -/
inductive Action where
  | flag (f : Flag)
  | field (f : Field) (value : String)

/-- What an argument asks for. -/
structure Request where
  actions : List Action
  /-- The field whose value has to be the next argument. -/
  wanted : Option Field
  /-- There is something that no option is known for. -/
  isOdd : Bool

namespace Request

/-- A long option, with what stands behind an equals sign. -/
def long? : OptionName → Option String → Option Request
  | .flag f, none => some ⟨[.flag f], none, false⟩
  | .flag _, some _ => none
  | .field f, none => some ⟨[], some f, false⟩
  | .field f, some value => some ⟨[.field f value], none, false⟩

/-- A short option and what is written on to it: the value of an option that has one, else more short
options. An equals sign in front of that may or may not be a part of it. -/
def short? (release : Release) (isPart : Bool) : OptionName → List Char → Option Request
  | .flag f, [] => some ⟨[.flag f], none, false⟩
  | .field f, [] => some ⟨[], some f, false⟩
  | .field f, c :: rest =>
    let value := if c == '=' && !isPart then rest else c :: rest
    some ⟨[.field f (String.ofList value)], none, false⟩
  | .flag f, c :: rest =>
    if c == '=' && !isPart then
      if release = .late || rest.isEmpty then none else short? release true (.flag f) rest
    else if release = .late && c == '-' then none
    else
      match shortOption? c with
      | none => if release = .late then some ⟨[.flag f], none, true⟩ else none
      | some next =>
        (short? release (release = .early) next rest).map fun r =>
          { r with actions := .flag f :: r.actions }

end Request

/-- An argument by its form. -/
inductive Token where
  /-- A pattern, or the value of the option before it. -/
  | plain (text : String)
  /-- The `--` that ends the options. -/
  | separator
  /-- An option, with what it asks for if it is in order. -/
  | option (request : Option Request)

/-- A minus and a number, with a decimal point or without, is no option. -/
def isNegativeNumber : List Char → Bool
  | '-' :: cs =>
    let isDecimal := fun c => (decimalValue? c).isSome
    let cs := if cs.getLast? = some '\n' then cs.dropLast else cs
    match cs.dropWhile isDecimal with
    | [] => !cs.isEmpty
    | c :: fraction => c == '.' && !fraction.isEmpty && fraction.all isDecimal
  | _ => false

/-- An argument that looks like an option but is none is a pattern if it is a number or has a blank
in it. -/
def Token.ofOther (arg : List Char) : Token :=
  if isNegativeNumber arg || arg.contains ' ' then .plain (String.ofList arg)
  else .option (some ⟨[], none, true⟩)

/-- The form of an argument in front of the separator, unless several options are meant by it. -/
def Token.ofArgument? (release : Release) (arg : String) : Option Token :=
  match arg.toList with
  | '-' :: '-' :: text =>
    match longOptionsLike (text.takeWhile (· != '=')) with
    | [] => some (.ofOther arg.toList)
    | [name] =>
      match text.dropWhile (· != '=') with
      | [] => some (.option (Request.long? name none))
      | _ :: value => some (.option (Request.long? name (some (String.ofList value))))
    | _ => none
  | '-' :: c :: text =>
    match shortOption? c with
    | some name => some (.option (Request.short? release false name text))
    | none => some (.ofOther arg.toList)
  | _ => some (.plain arg)

/-- The forms of all arguments, unless one has none. -/
def tokens? (release : Release) : List String → Option (List Token)
  | [] => some []
  | arg :: args =>
    if arg = "--" then some (.separator :: args.map .plain)
    else return (← Token.ofArgument? release arg) :: (← tokens? release args)

/-! ## The options one by one -/

/-- Why a command line is not run. -/
inductive Stop where
  | help
  /-- The arguments are not in order. -/
  | refused

/-- The value of an option, unless it is lost. -/
def Release.kept (release : Release) (value : String) : Option String :=
  if release = .early && value = "--" then none else some value

/-- The arguments behind an option. -/
def Arguments.take (release : Release) (a : Arguments) : Action → Except Stop Arguments
  | .flag .help => .error .help
  | .flag .emit => .ok { a with emit := true }
  | .flag .table => .ok { a with table := true }
  | .flag .codegen => .ok { a with codegen := true }
  | .flag .verbose => .ok { a with verbose := true }
  | .flag .time => .ok { a with time := true }
  | .field .file value => .ok { a with file := release.kept value }
  | .field .output value => .ok { a with output := release.kept value }
  | .field .dot value => .ok { a with dot := some (release.kept value) }
  | .field .maxSteps value =>
    match release.kept value with
    | none => .ok { a with maxSteps := none }
    | some value =>
      match integer? value with
      | none => .error .refused
      | some n => .ok { a with maxSteps := some n }

/-- How far the patterns are. -/
inductive Phase where
  | before
  | within
  | after

/-- The phase behind an option. -/
def Phase.pastOption : Phase → Phase
  | .before => .before
  | .within | .after => .after

/-- What is known after some of the arguments. -/
structure Progress where
  arguments : Arguments
  phase : Phase
  /-- There was an argument that has no place. The help can still be asked for behind it. -/
  isOdd : Bool

namespace Progress

def initial : Progress := ⟨.initial, .before, false⟩

/-- A pattern, unless the patterns have ended. -/
def pattern (s : Progress) (p : String) : Progress :=
  match s.phase with
  | .after => { s with isOdd := true }
  | _ =>
    ⟨{ s.arguments with patterns := s.arguments.patterns ++ [p] }, .within, s.isOdd⟩

/-- The separator stands in front of a pattern, or behind the last. -/
def separator (s : Progress) : Progress :=
  match s.phase with
  | .after => { s with isOdd := true }
  | _ => s

/-- Takes some options, one by one. -/
def take (release : Release) (s : Progress) (actions : List Action) (isOdd : Bool) :
    Except Stop Progress := do
  let a ← actions.foldlM (Arguments.take release) s.arguments
  return ⟨a, s.phase.pastOption, s.isOdd || isOdd⟩

/-- Goes on with the arguments that are left. Of several options that are written together none is
taken before the value behind them is there. -/
def read (release : Release) (s : Progress) : List Token → Except Stop Progress
  | [] => .ok s
  | .plain p :: rest => (s.pattern p).read release rest
  | .separator :: rest => s.separator.read release rest
  | .option none :: _ => .error .refused
  | .option (some ⟨actions, none, isOdd⟩) :: rest => do
    let s ← s.take release actions isOdd
    s.read release rest
  | .option (some ⟨actions, some f, isOdd⟩) :: .plain value :: rest => do
    let s ← s.take release (actions ++ [.field f value]) isOdd
    s.read release rest
  | .option (some ⟨_, some _, _⟩) :: _ => .error .refused

/-- The arguments, if each had its place and there are patterns. -/
def finish (s : Progress) : Except Stop Arguments :=
  if s.isOdd || s.arguments.patterns.isEmpty then .error .refused else .ok s.arguments

end Progress

namespace Arguments

/-- The arguments of a command line that is to be run. -/
def parse (release : Release) (argv : List String) : Except Stop Arguments :=
  match tokens? release argv with
  | none => .error .refused
  | some tokens => do (← Progress.initial.read release tokens).finish

/-- The options of the pattern set, with the limit of merged steps. -/
def options (a : Arguments) (maxSteps : Int) : Options :=
  ⟨some maxSteps, a.verbose, a.codegen, Options.standard.functionName⟩

/-- The set is to be described, and nothing to be matched. -/
def describes (a : Arguments) : Bool :=
  a.table || a.emit || a.dot.isSome

end Arguments

end Munch.CommandLine
