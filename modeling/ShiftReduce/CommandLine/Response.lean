import ShiftReduce.CommandLine.Options
import ShiftReduce.Machine.Printer
import ShiftReduce.First.Printer
import ShiftReduce.Follow.Printer
import ShiftReduce.Grammar.Source
import ShiftReduce.Parsing.Printer
import ShiftReduce.Table.Printer
import ShiftReduce.Text.Quoted

/-!
# Answering the command line

The answer is written in the order of the work: the grammar and its sets, the
automaton, the table and its conflicts, and then one line for each input. The
first failure ends it.
-/

namespace ShiftReduce.CommandLine

/-- What the program writes, and its exit code. -/
structure Response where
  code : Nat
  stdout : String
  stderr : String
  deriving DecidableEq, Repr

/-- Writing to the standard output, until a failure with a last message. -/
abbrev Report := ExceptT String (StateM String)

/-- The response of a report. -/
def Report.response (report : Report Unit) : Response :=
  match report.run.run "" with
  | (.ok (), stdout) => ⟨0, stdout, ""⟩
  | (.error message, stdout) => ⟨1, stdout, message⟩

def say (text : String) : Report Unit := modify fun written => written ++ text ++ "\n"

/-- Writes a text as a line if it is to be printed. Every text of a grammar's
own sets and tables exists. -/
def Options.sayIf (options : Options) (dump : Dump) (text? : Option String) : Report Unit :=
  if options.dumps? dump then say (text?.getD "") else pure ()

def fail {α : Type} (work cause : String) : Report α :=
  throw ("Error: " ++ work ++ "\n\nCaused by:\n    " ++ cause ++ "\n")

def pluralEnding (count : Nat) : String := if count = 1 then "" else "s"

def sayConflicts (g : Grammar) (conflicts : List Conflict) : Report Unit := do
  if !conflicts.isEmpty then
    say ("[warning] The table has " ++ toString conflicts.length ++ " conflict" ++
      pluralEnding conflicts.length ++ "; the first action is kept in each cell.")
    conflicts.forM fun conflict => say ("- " ++ (conflict.text? g).getD "")

/-- The message on conflicts that are not allowed. -/
def refusal (g : Grammar) (conflicts : List Conflict) : String :=
  unlines (conflicts.map fun conflict => "[error] " ++ (conflict.text? g).getD "") ++
    "Error: " ++ conflictCountText conflicts ++ " in strict mode\n"

def answer : Verdict StateId Terminal InputToken → String
  | .accepted => "accepted"
  | .rejected rejection =>
    match rejection.lookahead with
    | some token =>
      "rejected at token " ++ toString (rejection.position + 1) ++ " (`" ++ token.text ++ "')"
    | none => "rejected at the end of input"

/-- How many actions are looked up for one input before it is given up. A parse
can go on for ever, even over a table without conflicts. -/
def lookupLimit : Nat := 1000000

/-- Parses an input and writes the answer. -/
def Options.sayInput (options : Options) (g : Grammar) (table : ParseTable) (input : String) :
    Report Unit :=
  match table.parse g input lookupLimit with
  | .finished verdict trace => do
    if options.trace then say ((g.traceText? verdict trace).getD "")
    say (Text.quote input ++ ": " ++ answer verdict)
  | .failed fault =>
    fail ("the parse table is malformed (input: " ++ Text.quote input ++ ")")
      (fault.message .labelled)
  | .outOfLookups =>
    fail ("the parse was given up (input: " ++ Text.quote input ++ ")")
      ("no answer after " ++ toString lookupLimit ++ " actions")

def Options.sayAutomaton (options : Options) (g : Grammar) (construction : Construction) :
    Report Automaton := do
  match construction.automaton g with
  | .ok automaton =>
    options.sayIf .automaton (automaton.text? g)
    return automaton
  | .error e => fail "failed to build the automaton" ((e.message? g).getD "")

def Options.sayTable (options : Options) (g : Grammar) (construction : Construction)
    (automaton : Automaton) : Report ParseTable := do
  match construction.table g automaton with
  | .ok table =>
    options.sayIf .table (table.text? g)
    return table
  | .error (.conflicts conflicts) => throw (refusal g conflicts)
  | .error e => fail "failed to build the parse table" ((e.message? g).getD "")

/-- Does all that the options ask for with a grammar. -/
def Options.sayAll (options : Options) (g : Grammar) : Report Unit := do
  let construction : Construction := ⟨options.algorithm, options.strict⟩
  options.sayIf .grammar g.text?
  options.sayIf .first (g.firstSets.text? g)
  options.sayIf .follow ((g.followSets g.firstSets).text? g)
  let automaton ← options.sayAutomaton g construction
  let table ← options.sayTable g construction automaton
  sayConflicts g table.conflicts
  options.inputs.forM (options.sayInput g table)

/-- The response to options, given what the grammar file holds. -/
def Options.respond (options : Options) (contents : Except FileError ByteArray) : Response :=
  Report.response <|
    match Grammar.ofFile contents with
    | .ok g => options.sayAll g
    | .error e => fail ("failed to load the grammar from " ++ options.path) e.message

end ShiftReduce.CommandLine
