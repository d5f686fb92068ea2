/-! # The path of a word file

A script's words go beside it, into a file of the same name with the extension
`bin`. -/
namespace NpcScript.Command

/-- A name up to its last dot and after it. A dot at the start makes a hidden
file, not an extension, and `..` has none. -/
def splitExtension? (name : List Char) : Option (List Char × List Char) :=
  if name = ['.', '.'] || !name.contains '.' then none
  else
    let ext := (name.reverse.takeWhile (· != '.')).reverse
    let stem := name.take (name.length - ext.length - 1)
    if stem.isEmpty then none else some (stem, ext)

/-- A file name without its extension; the dot stays. -/
def dropExtension (name : List Char) : List Char :=
  match splitExtension? name with
  | some (_, ext) => name.take (name.length - ext.length)
  | none => name

/-- A file name with the extension `bin` in place of its own. What is left of
the name without its extension may be no file name (of `..txt` it is `..`), and
then stays as it is. -/
def binaryName (name : List Char) : List Char :=
  let base := dropExtension name
  if base = [] || base = ['.'] || base = ['.', '.'] then base
  else ((splitExtension? base).map Prod.fst |>.getD base) ++ ['.', 'b', 'i', 'n']

/-- The path of the word file for a script. -/
def wordFile (path : String) : String :=
  let cs := path.toList
  let name := (cs.reverse.takeWhile (· != '/')).reverse
  String.ofList (cs.take (cs.length - name.length) ++ binaryName name)

end NpcScript.Command
