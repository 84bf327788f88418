import LimeLang.Command
import LimeLang.Tree.Imports

/-! The command line of the latest edition. -/

namespace LimeLang.Main

def setting : Setting := ⟨.latest, "limelang", Code.unknownTriple⟩

/-- Reads a file from disk, if it is there. -/
def load? (path : String) : IO (Option (String × String)) := do
  try
    return some (path, ← IO.FS.readFile path)
  catch _ =>
    return none

/-- Adds the files that a source imports, directly or through others. -/
partial def loadImports (files : Files) (source : String) : IO Files := do
  let scan := Scan.ofSource setting.edition source
  let mut files := files
  for path in imports (Parsed.ofLexemes setting.edition scan.lexemes).program do
    let place := String.ofList (Files.normalize ("tests\\" ++ path).toList)
    if !files.texts.any (·.1 == place) then
      match ← load? place with
      | none => pure ()
      | some file => files ← loadImports { files with texts := files.texts ++ [file] } file.2
  return files

/-- The files that the arguments lead to. -/
def loadFiles (args : List String) : IO Files := do
  match Request.ofArguments args with
  | .run o =>
    match ← load? (Command.sourceOf o setting.edition) with
    | some file => loadImports ⟨[file], []⟩ file.2
    | none => return ⟨[], []⟩
  | _ => return ⟨[], []⟩

def milliseconds (nanoseconds : Nat) : String :=
  let digits := Nat.toDigits 10 (nanoseconds % 1000000)
  toString (nanoseconds / 1000000) ++ "." ++
    String.ofList (List.replicate (6 - digits.length) '0' ++ digits)

/-- Takes a step of the command and the time that it needs. -/
def timed {α : Type} (c : Command α) (r : Report) : IO (Except Ending α × Report × String) := do
  let start ← IO.monoNanosNow
  let (result, r) ← IO.lazyPure fun _ => (ExceptT.run c).run r
  let stop ← IO.monoNanosNow
  return (result, r, milliseconds (stop - start))

def display (time : Stage → String) : Line → IO Unit
  | .text s => IO.println s
  | .duration stage => IO.println (stage.report (time stage))
  | .diagnosis => IO.println Crash.refused.message
  | .program s => IO.print s

/-- Prints a report and gives the exit code. -/
def finish (time : Stage → String) (r : Report) (ending : Ending) : IO UInt32 := do
  r.lines.forM (display time)
  IO.eprint r.complaints
  match ending with
  | .exit code => return code.toUInt32
  | .crash c =>
    IO.eprintln c.message
    return 1

def untimed : Stage → String := fun _ => ""

def run (args : List String) : IO UInt32 := do
  let parse : Command (Options × Program) := do
    let o ← Command.options setting args
    let program ← Command.parseWell setting
      (← Command.readFile (Command.sourceOf o setting.edition))
    return (o, program)
  match ← timed parse ⟨← loadFiles args, [], ""⟩ with
  | (.error ending, r, _) => finish untimed r ending
  | (.ok (o, program), r, parsing) =>
    match ← timed (Command.compile setting program) r with
    | (.error ending, r, _) => finish untimed r ending
    | (.ok session, r, compiling) =>
      let execute := do
        Command.checkErrors session
        Command.execute setting session
      match ← timed execute r with
      | (.error ending, r, _) => finish untimed r ending
      | (.ok result, r, running) =>
        let time := fun
          | Stage.parsing => parsing
          | .compiling => compiling
          | .running => running
        let (_, r, _) ← timed (Command.reportResult o.debug result) r
        finish time r (.exit 0)

end LimeLang.Main

def main (args : List String) : IO UInt32 := LimeLang.Main.run args
