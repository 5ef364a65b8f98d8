-- SUMMARY: The command line: arguments in, files read and written, text out.
import Yolol.Command

/-!
# Command line

The outer layer looks at the files that the arguments name and carries out the report on
them. It decides nothing itself.
-/

namespace Yolol.Command

/-- What stands at a path of the file system. -/
def readEntry (p : Path) : IO Entry := do
  try
    return .file (← IO.FS.readFile p.text)
  catch
    | .inappropriateType .. => return .directory
    | _ => return .absent

/-- Carry out a report. -/
def Report.carryOut (r : Report) : IO UInt32 := do
  for (path, text) in r.files do
    IO.FS.writeFile path.text text
  IO.print r.stdout
  IO.eprint r.stderr
  match r.ending with
  | .exit code => return code.toUInt32
  | .crash c =>
    IO.eprintln c.message
    return 1

end Yolol.Command

open Yolol.Command in
def main (arguments : List String) : IO UInt32 :=
  match options arguments with
  | .error halt => halt.report.carryOut
  | .ok o => do
    if o.verbosity ≠ 0 then IO.FS.writeFile traceFile.text ""
    let entries ← (o.task.elim [] Task.paths).mapM fun p => return (p, ← readEntry p)
    (o.perform fun p => (entries.lookup p).getD .absent).carryOut
