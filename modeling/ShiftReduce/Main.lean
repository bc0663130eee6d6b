import ShiftReduce.CommandLine.Response

/-!
# The program

Reads the arguments and the grammar file, and writes the response.
-/

namespace ShiftReduce.CommandLine

/-- The response to arguments that do not make sense. -/
def usage : String :=
  "Usage: [OPTIONS] <GRAMMAR>\n\n" ++
  "Options:\n" ++
  "      --algorithm <canonical|lalr>\n" ++
  "      --strict\n" ++
  "  -i, --input <TOKENS>\n" ++
  "      --trace\n" ++
  "      --dump <grammar|first|follow|automaton|table|all>\n"

def fileError : IO.Error → FileError
  | .noFileOrDirectory _ _ _ => .notFound
  | .inappropriateType _ 20 _ => .notDirectory
  | .inappropriateType _ _ _ => .isDirectory
  | .invalidArgument _ 36 _ => .nameTooLong
  | e => .other (toString e)

def readFile (path : String) : IO (Except FileError ByteArray) := do
  try
    return .ok (← IO.FS.readBinFile path)
  catch e =>
    return .error (fileError e)

end ShiftReduce.CommandLine

open ShiftReduce.CommandLine in
/-- The program: its exit code is that of the response, or `2` for arguments
that do not make sense. -/
def main (arguments : List String) : IO UInt32 := do
  match Options.ofArguments? arguments with
  | none =>
    IO.eprint usage
    return 2
  | some options =>
    let contents ← readFile options.path
    let response := options.respond contents
    IO.print response.stdout
    IO.eprint response.stderr
    return response.code.toUInt32
