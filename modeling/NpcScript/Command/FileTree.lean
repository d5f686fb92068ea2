import NpcScript.Text.Split

/-! # Files

A file tree says what each path holds. A path is followed as in POSIX: through
directories only, with `.` for the directory itself and `..` for the one above,
from the root if it starts with a slash and else from the working directory. -/
namespace NpcScript.Command
open NpcScript.Text

inductive FileError
  | notFound
  | notDirectory
  | isDirectory
  /-- Any other failure, in words. -/
  | other (message : String)
  deriving DecidableEq, Repr

def FileError.message : FileError → String
  | notFound => "No such file or directory (os error 2)"
  | notDirectory => "Not a directory (os error 20)"
  | isDirectory => "Is a directory (os error 21)"
  | other message => message

inductive Node
  | file (bytes : List UInt8)
  | directory
  deriving DecidableEq, Repr

/-- A node's place: the names that lead to it from the root. -/
abbrev Place := List String

structure FileTree where
  nodes : List (Place × Node) := []
  /-- The working directory. -/
  here : Place := []
  deriving DecidableEq, Repr

namespace FileTree

/-- The root is always there. -/
def node? (t : FileTree) (place : Place) : Option Node :=
  if place.isEmpty then some .directory else t.nodes.lookup place

def put (t : FileTree) (place : Place) (node : Node) : FileTree :=
  { t with nodes := (place, node) :: t.nodes.filter fun p => p.1 != place }

/-- The parts of a path between slashes. -/
def parts (path : String) : List String := (splitAtChar '/' path.toList).map String.ofList

/-- A part that names the directory that it is reached in, or the one above. -/
def isDots (part : String) : Bool := part = "" || part = "." || part = ".."

/-- Go from a directory to the directory that a part of a path names. -/
def enter (t : FileTree) (place : Place) (part : String) : Except FileError Place :=
  if part = "" || part = "." then .ok place
  else if part = ".." then .ok place.dropLast
  else match t.node? (place ++ [part]) with
    | none => .error .notFound
    | some (.file _) => .error .notDirectory
    | some .directory => .ok (place ++ [part])

def start (t : FileTree) (path : String) : Place :=
  if path.toList.head? = some '/' then [] else t.here

/-- The directory that the parts of a path lead to. -/
def walk (t : FileTree) (place : Place) : List String → Except FileError Place
  | [] => .ok place
  | part :: rest =>
    match t.enter place part with
    | .error e => .error e
    | .ok place => walk t place rest

/-- The content of a file. -/
def read (t : FileTree) (path : String) : Except FileError (List UInt8) :=
  let parts := parts path
  match t.walk (t.start path) parts.dropLast with
  | .error e => .error e
  | .ok place =>
    let last := parts.getLast?.getD ""
    if isDots last then .error .isDirectory
    else match t.node? (place ++ [last]) with
      | none => .error .notFound
      | some .directory => .error .isDirectory
      | some (.file bytes) => .ok bytes

/-- Where a file for writing is. A slash at the end asks for a directory, which
cannot be written. -/
def locate (t : FileTree) (path : String) : Except FileError Place :=
  let parts := parts path
  let named := (parts.reverse.dropWhile (· = "")).reverse
  match t.walk (t.start path) named.dropLast with
  | .error e => .error e
  | .ok place =>
    let last := named.getLast?.getD ""
    if isDots last || named.length < parts.length then .error .isDirectory
    else match t.node? (place ++ [last]) with
      | some .directory => .error .isDirectory
      | _ => .ok (place ++ [last])

/-- Make a file with a content, or give an old one a new content. -/
def write (t : FileTree) (path : String) (bytes : List UInt8) : Except FileError FileTree :=
  (t.locate path).map fun place => t.put place (.file bytes)

theorem node?_put {t : FileTree} {place : Place} (node : Node) (other : Place)
    (h : place ≠ []) :
    (t.put place node).node? other = if other = place then some node else t.node? other := by
  by_cases ho : other = place
  · subst ho
    have hb : other.isEmpty = false := by cases other <;> simp_all
    simp [node?, put, hb]
  · have hb : (other == place) = false := by simpa using ho
    have hl : ∀ xs : List (Place × Node),
        (xs.filter fun p => p.1 != place).lookup other = xs.lookup other := by
      intro xs
      induction xs with
      | nil => rfl
      | cons x xs ih =>
        obtain ⟨k, n⟩ := x
        by_cases hk : k = place
        · subst hk
          simp [List.lookup_cons, hb, ih]
        · simp [List.lookup_cons, hk, ih]
    simp [node?, put, List.lookup_cons, hb, hl, ho]

end FileTree

end NpcScript.Command
