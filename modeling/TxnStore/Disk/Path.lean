/-!
# Paths

A path is a row of names with slashes between them. An empty name and the name `.` stay where they
are, the name `..` goes back to the directory that holds the present one, and every other name goes
on to what has that name.
-/

namespace TxnStore.Path

/-- The names between slashes. Two slashes side by side have an empty name between them. -/
def split : List Char → List (List Char)
  | [] => [[]]
  | c :: cs =>
    if c = '/' then [] :: split cs
    else
      match split cs with
      | [] => [[c]]
      | name :: names => (c :: name) :: names

def names (path : String) : List String := (split path.toList).map String.ofList

/-- Whether a path starts at the top of the host rather than in a directory at hand. -/
def isAbsolute (path : String) : Bool := path.toList.head? = some '/'

def stays (name : String) : Bool := name == "" || name == "."

/-- Whether a path lies below a directory or is the directory. -/
def isWithin (directory path : String) : Bool :=
  (directory ++ "/").toList.isPrefixOf (path ++ "/").toList

/-- The names of a path that go somewhere. -/
def steps (path : String) : List String := (names path).filter (!stays ·)

/-- Whether the last name of a path is `.`; slashes behind it do not count. -/
def endsInDot (path : String) : Bool :=
  ((names path).reverse.find? fun name => name ≠ "") = some "."

def maxNameBytes : Nat := 255

/-- How many bytes a path can have. -/
def maxBytes : Nat := 4095

/-- The path of a name within a directory. -/
def join (directory name : String) : String :=
  if directory = "" then name else directory ++ "/" ++ name

/-- A path without its last name. -/
def parent (path : String) : String :=
  String.ofList ((path.toList.reverse.dropWhile (· ≠ '/')).drop 1).reverse

end TxnStore.Path
