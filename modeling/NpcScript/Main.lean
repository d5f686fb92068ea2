import NpcScript.Command.Run

/-! # The command on the real system -/
namespace NpcScript.Command

/-- The kind of a failure of the system, by its error number. -/
def FileError.ofSystem : IO.Error → FileError
  | .noFileOrDirectory .. => .notFound
  | .inappropriateType _ number message =>
    if number = 20 then .notDirectory else if number = 21 then .isDirectory else .other message
  | e => .other (toString e)

instance : Shell IO where
  read path := do
    try
      let bytes ← IO.FS.withFile path .read fun file => file.readBinToEnd
      return .ok bytes.toList
    catch e => return .error (.ofSystem e)
  write path bytes := do
    try
      IO.FS.writeBinFile path (ByteArray.mk bytes.toArray)
      return .ok ()
    catch e => return .error (.ofSystem e)
  print text := IO.print text
  warn text := IO.eprint text

end NpcScript.Command

def main (args : List String) : IO UInt32 := NpcScript.Command.runArguments args
