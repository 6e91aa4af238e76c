import TreebankGrammar.CommandLine.Conversion

/-!
# The command

The command line works on the files of the current directory: it reads the treebank, carries
out the run, shows what the run reports, and writes the files that the run has changed.
-/

namespace TreebankGrammar
namespace CommandLine

/-- How the command is used. -/
def usageText : String :=
  "usage: input output [--binary FILE] [--shared FILE] [--length WORDS] [--n TREES] " ++
    "[--prefix STEM] [--verbose]"

/-- The directory with the treebank in it, if it can be read. -/
def directoryWith (file : String) : IO Directory := do
  match Place.ofName file with
  | .entry true name .nothing =>
    try
      let bytes ← IO.FS.readBinFile name
      return { files := Table.empty.insert name bytes }
    catch _ => return {}
  | _ => return {}

/-- Writes the files that differ between two directories. -/
def writeChanges (before after : Directory) : IO Unit := do
  for (name, bytes) in after.files.entries do
    if (before.files.get? name).map ByteArray.data ≠ some bytes.data then
      IO.FS.writeBinFile name bytes

end CommandLine
end TreebankGrammar

open TreebankGrammar CommandLine in
/-- Runs the command with its arguments. -/
def main (args : List String) : IO UInt32 := do
  match Options.parse args with
  | .error stop =>
    IO.eprintln usageText
    return stop.code.toUInt32
  | .ok options =>
    let before ← directoryWith options.input
    let report := convert options before
    IO.eprint (shownNotices options report)
    writeChanges before report.directory
    match report.result with
    | .ok () => return 0
    | .error e =>
      IO.eprintln (e.message.getD "The text is not well-formed UTF-8")
      return 1
