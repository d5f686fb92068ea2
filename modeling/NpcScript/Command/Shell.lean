import NpcScript.Command.FileTree

/-! # The surroundings of a run

A run reads and writes files and prints. It is written for any monad that can
do these things, so that the same run works on the real system and on a value
that stands for it. -/
namespace NpcScript.Command

class Shell (m : Type → Type) where
  read : String → m (Except FileError (List UInt8))
  write : String → List UInt8 → m (Except FileError Unit)
  /-- Print to the standard output. -/
  print : String → m Unit
  /-- Print to the standard error. -/
  warn : String → m Unit

/-- A file tree and what has been printed. -/
structure World where
  files : FileTree := {}
  output : String := ""
  errors : String := ""
  deriving DecidableEq, Repr

instance : Shell (StateM World) where
  read path := fun w => (w.files.read path, w)
  write path bytes := fun w =>
    match w.files.write path bytes with
    | .ok files => (.ok (), { w with files })
    | .error e => (.error e, w)
  print text := fun w => ((), { w with output := w.output ++ text })
  warn text := fun w => ((), { w with errors := w.errors ++ text })

end NpcScript.Command
