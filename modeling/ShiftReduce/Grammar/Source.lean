import ShiftReduce.Grammar.Draft
import ShiftReduce.Grammar.Line

/-!
# Grammars from text

A text defines a grammar: whatever stands on the left of an arrow somewhere is
a nonterminal, every other name is a terminal, and each alternative is a rule.
Symbols are numbered by their first appearance, nonterminals as left-hand
sides and terminals in alternatives, and the first left-hand side is the start
symbol.
-/

namespace ShiftReduce

/-- Why a file cannot be read as text. -/
inductive FileError
  | notFound
  | notText
  | isDirectory
  | notDirectory
  /-- The path, or a name in it, has more bytes than a path or a name may
  have. -/
  | nameTooLong
  | other (message : String)
  deriving DecidableEq, Repr

def FileError.message : FileError → String
  | .notFound => "IO error: No such file or directory (os error 2)"
  | .notText => "IO error: stream did not contain valid UTF-8"
  | .isDirectory => "IO error: Is a directory (os error 21)"
  | .notDirectory => "IO error: Not a directory (os error 20)"
  | .nameTooLong => "IO error: File name too long (os error 36)"
  | .other message => "IO error: " ++ message

inductive GrammarError
  | line (error : LineError)
  | definition (error : DefinitionError)
  | file (error : FileError)
  deriving DecidableEq, Repr

def GrammarError.message : GrammarError → String
  | .line e => e.message
  | .definition e => e.message
  | .file e => e.message

namespace Draft

def nonterminalNamed? (d : Draft) (name : String) : Option Nonterminal :=
  (d.nonterminals.findIdx? (· == name)).map (· + 1)

def terminalNamed? (d : Draft) (name : String) : Option Terminal :=
  (d.terminals.findIdx? (· == name)).map (· + 1)

/-- The symbol of a name; a name that is new declares a terminal. -/
def symbolNamed (name : String) : Definition Symbol := do
  let d ← get
  match d.nonterminalNamed? name with
  | some n => return .nonterminal n
  | none =>
    match d.terminalNamed? name with
    | some t => return .terminal t
    | none => return .terminal (← terminal name)

def alternative (left : String) (names : List String) : Definition Unit := do
  let right ← names.mapM symbolNamed
  let d ← get
  let _ ← rule ((d.nonterminalNamed? left).getD augmentedStart) right

/-- Declares all that the lines of a text hold: first the nonterminals, so that
a name is known for one wherever it is defined. -/
def productionLines (lines : List ProductionLine) : Definition Unit := do
  (lines.map (·.left)).eraseDups.forM fun name => do
    let _ ← nonterminal name
  lines.forM fun line => line.alternatives.forM (alternative line.left)

end Draft

def Grammar.ofText (source : String) : Except GrammarError Grammar := do
  let lines ← (ProductionLine.readAll source).mapError .line
  (Grammar.define (Draft.productionLines lines)).mapError .definition

/-- The grammar that a file defines, if it can be read and is a text. -/
def Grammar.ofFile (contents : Except FileError ByteArray) : Except GrammarError Grammar := do
  let bytes ← contents.mapError .file
  match String.fromUTF8? bytes with
  | some source => Grammar.ofText source
  | none => .error (.file .notText)

end ShiftReduce
