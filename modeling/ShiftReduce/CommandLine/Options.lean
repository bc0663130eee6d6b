import ShiftReduce.Automaton.Basic

/-!
# Command-line arguments

A grammar file is named by itself. Options that take a value have it after `=`
or as the next argument, which must not look like an option; the short option
has its value attached too. What comes after `--` is never an option.
-/

namespace ShiftReduce.CommandLine

/-- What may be printed besides the answers. -/
inductive Dump
  | grammar
  | first
  | follow
  | automaton
  | table
  | all
  deriving DecidableEq, Repr

/-- What the arguments ask for. -/
structure Options where
  path : String
  algorithm : Algorithm
  strict : Bool
  inputs : List String
  trace : Bool
  dumps : List Dump
  deriving DecidableEq, Repr

/-- What the arguments read so far ask for. -/
structure Given where
  path? : Option String := none
  algorithm? : Option Algorithm := none
  strict : Bool := false
  inputs : List String := []
  trace : Bool := false
  dumps : List Dump := []

inductive ValueOption
  | algorithm
  | input
  | dump

/-- An argument, taken by itself. -/
inductive Argument
  | path (path : String)
  | strict
  | trace
  /-- An option whose value is attached, or else follows. -/
  | option (option : ValueOption) (value? : Option String)
  | unknown

/-- The methods by their names. -/
def algorithmNamed? : String → Option Algorithm
  | "canonical" => some .canonical
  | "lalr" => some .merged
  | _ => none

/-- What may be printed, by name. -/
def dumpNamed? : String → Option Dump
  | "grammar" => some .grammar
  | "first" => some .first
  | "follow" => some .follow
  | "automaton" => some .automaton
  | "table" => some .table
  | "all" => some .all
  | _ => none

/-- Whether an argument is taken for an option rather than a value. A lone
hyphen is a value. -/
def looksLikeOption (argument : String) : Bool :=
  match argument.toList with
  | '-' :: _ :: _ => true
  | _ => false

/-- A long option, without its hyphens, and the value attached to it. -/
def longOption (name : String) (value? : Option String) : Argument :=
  match name, value? with
  | "strict", none => .strict
  | "trace", none => .trace
  | "algorithm", _ => .option .algorithm value?
  | "input", _ => .option .input value?
  | "dump", _ => .option .dump value?
  | _, _ => .unknown

def Argument.ofString (argument : String) : Argument :=
  match argument.toList with
  | '-' :: '-' :: long =>
    let name := String.ofList (long.takeWhile fun c => c != '=')
    match long.dropWhile fun c => c != '=' with
    | [] => longOption name none
    | _ :: value => longOption name (some (String.ofList value))
  | '-' :: 'i' :: [] => .option .input none
  | '-' :: 'i' :: '=' :: value => .option .input (some (String.ofList value))
  | '-' :: 'i' :: value => .option .input (some (String.ofList value))
  | '-' :: _ :: _ => .unknown
  | _ => .path argument

namespace Given

/-- Adds a file; there must be one only, with a name. -/
def addPath (given : Given) (path : String) : Option Given :=
  if path.isEmpty || given.path?.isSome then none else some { given with path? := some path }

def addValue (given : Given) (value : String) : ValueOption → Option Given
  | .algorithm =>
    if given.algorithm?.isSome then none
    else (algorithmNamed? value).map fun algorithm => { given with algorithm? := some algorithm }
  | .input => some { given with inputs := given.inputs ++ [value] }
  | .dump => (dumpNamed? value).map fun dump => { given with dumps := given.dumps ++ [dump] }

def addAll (given : Given) : List String → Option Given
  | [] => some given
  | "--" :: paths => paths.foldlM addPath given
  | argument :: rest =>
    match Argument.ofString argument with
    | .path path => (given.addPath path).bind fun given => given.addAll rest
    | .strict => if given.strict then none else { given with strict := true }.addAll rest
    | .trace => if given.trace then none else { given with trace := true }.addAll rest
    | .option option (some value) =>
      (given.addValue value option).bind fun given => given.addAll rest
    | .option option none =>
      match rest with
      | [] => none
      | value :: rest =>
        if looksLikeOption value then none
        else (given.addValue value option).bind fun given => given.addAll rest
    | .unknown => none

end Given

/-- Reads the arguments. They are `none` if they do not make sense. -/
def Options.ofArguments? (arguments : List String) : Option Options := do
  let given ← Given.addAll {} arguments
  let path ← given.path?
  return {
    path
    algorithm := given.algorithm?.getD .merged
    strict := given.strict
    inputs := given.inputs
    trace := given.trace
    dumps := given.dumps }

def Options.dumps? (options : Options) (dump : Dump) : Bool :=
  options.dumps.contains dump || options.dumps.contains .all

end ShiftReduce.CommandLine
