import LimeLang.Compile.Statement

/-! Compiling programs, with the files that they import. -/

namespace LimeLang

namespace Gen

def maxImportDepth : Nat := 250

def alreadyImported (path : String) : String :=
  "[Lime Warning]: \x60" ++ path ++ "\x60 is already imported globally\n"

/-- Importing a file compiles it in place, unless its import was finished before. The file is
entered in the list of imports only when it is compiled, so files that import each other in a
circle are opened again and again, down to the limit. -/
def importer (e : Edition) (files : Files) : Nat → String → Gen Unit
  | 0, _ => throw .importsTooDeep
  | depth + 1, path => do
    if (← get).pallets.contains path then
      print (alreadyImported path)
    else
      match files.read (Files.normalize ("tests\\" ++ path).toList) with
      | .error error => throw (.file error)
      | .ok source =>
        modify fun s => { s with opened := s.opened ++ [path] }
        let scan := Scan.ofSource e source
        scan.notices.forM fun n => print n.message
        match scan.failure with
        | some failure => throw (.numberTooLong failure)
        | none =>
          let parsed := Parsed.ofLexemes e scan.lexemes
          if parsed.errors.isEmpty then
            program e (importer e files depth) parsed.program
            modify fun s => { s with pallets := s.pallets ++ [path] }
          else
            print ("Error with imported pallet: " ++ path)
            parsed.errors.forM fun error => print error.message
            throw .brokenPallet

end Gen

namespace Session

def booleanItem (name : String) (n : Int) : Code.Item :=
  .constant ⟨name, false, .i1, .int n⟩

def printfRoutine : Code.Routine := .declare "printf" .i32 [.bytes] true

/-- The globals that an edition starts with, with the types recorded for them. -/
def builtins (e : Edition) : List (Code.Item × Code.Ty) :=
  (if e.has .strings then [(.routine printfRoutine, Code.Ty.i32)] else []) ++
    if e.has .conditions then
      [(booleanItem "true" 1, .pointer .i1), (booleanItem "false" 0, .pointer .i1)]
    else []

def start (e : Edition) : Session where
  assembly := ⟨(builtins e).map Prod.fst⟩
  scopes := [(builtins e).map fun b => (.text b.1.name, ⟨b.1.operand, b.2⟩)]
  builder := 0
  builders := 1
  place := none
  counter := 0
  errors := []
  loops := ⟨[], []⟩
  pallets := []
  opened := []
  output := []

/-- Compiles one more program. The session goes on whether or not that fails. -/
def compile (s : Session) (e : Edition) (files : Files) (p : Program) :
    Except Failure Unit × Session :=
  (Gen.program e (Gen.importer e files Gen.maxImportDepth) p).run s

end Session

end LimeLang
