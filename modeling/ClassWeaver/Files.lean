import ClassWeaver.Fault

/-!
# Files

A directory tree given by its files. A path leads down from the top; `.` stays where it is and
`..` goes back up, from the top into directories around the tree. The faults name the path as
it was given.
-/

namespace ClassWeaver

/-- The names on the way to a file, from the top down. -/
abbrev Route := List Text

/-- Files with their contents. A directory is there if a file is inside it, and the top always
is. -/
structure Files where
  entries : List (Route × List UInt8) := []

namespace Files

/-- What lies at the end of a path. -/
inductive Place where
  | directory (route : Route)
  /-- A directory around the tree, of which nothing more is known. -/
  | outside
  | file (route : Route) (data : List UInt8)
  /-- Nothing, but the directory around it is there; without a route that one is outside. -/
  | vacant (route : Option Route)
  /-- Nothing, nor the directory around it. -/
  | missing
  /-- The way leads through a file. -/
  | blocked
  /-- The path or a name in it is longer than a file system takes. -/
  | tooLong
  deriving DecidableEq, Repr

/-- The greatest length of a name, in bytes. -/
def maxName : Nat := 255

/-- The greatest length of a path, in bytes. -/
def maxPath : Nat := 4095

/-- The contents of a file. -/
def get? (fs : Files) (route : Route) : Option (List UInt8) :=
  (fs.entries.find? (·.1 = route)).map Prod.snd

def isDirectory (fs : Files) (route : Route) : Bool :=
  route.isEmpty || fs.entries.any fun (r, _) => route.isPrefixOf r && route ≠ r

/-- What lies at the end of a route. -/
def classify (fs : Files) (route : Route) : Place :=
  match fs.get? route with
  | some data => .file route data
  | none => if fs.isDirectory route then .directory route else .vacant (some route)

/-- Whether a name stays in the directory it is looked up in. -/
def staysAt (name : Text) : Bool := name.isEmpty || name = utf8 "."

/-- Follows names from a place. -/
def follow (fs : Files) : Place → List Text → Place
  | here, [] => here
  | .directory route, name :: rest =>
    if staysAt name then follow fs (.directory route) rest
    else if name = utf8 ".." then
      follow fs (if route.isEmpty then .outside else .directory route.dropLast) rest
    else if maxName < name.length then .tooLong
    else follow fs (fs.classify (route ++ [name])) rest
  | .outside, name :: rest =>
    if staysAt name || name = utf8 ".." then follow fs .outside rest
    else if maxName < name.length then .tooLong
    else follow fs (.vacant none) rest
  | .file .., _ :: _ => .blocked
  | .vacant _, _ :: _ => .missing
  | .missing, _ :: _ => .missing
  | .blocked, _ :: _ => .blocked
  | .tooLong, _ :: _ => .tooLong

/-- What lies at a path. Paths from the root of the system lead out of the tree. -/
def locate (fs : Files) (path : Text) : Place :=
  if path.isEmpty then .missing
  else if maxPath < path.length then .tooLong
  else fs.follow (if path.head? = some 47 then .outside else .directory []) (path.splitAtByte 47)

/-- The fault of an operation on a path. -/
def refuse (operation path why : Text) : Fault := .note (operation ++ " " ++ path ++ ": " ++ why)

/-- The contents of the file at a path. -/
def read (fs : Files) (path : Text) : Except Fault (List UInt8) :=
  match fs.locate path with
  | .file _ data => .ok data
  | .directory _ | .outside => .error (refuse "read" path "is a directory")
  | .blocked => .error (refuse "open" path "not a directory")
  | .tooLong => .error (refuse "open" path "file name too long")
  | .vacant _ | .missing => .error (refuse "open" path "no such file or directory")

/-- Whether there is nothing at the path. -/
def lacks (fs : Files) (path : Text) : Bool :=
  match fs.locate path with
  | .vacant _ => true
  | .missing => true
  | _ => false

/-- Gives a file new contents. -/
def put (route : Route) (data : List UInt8) :
    List (Route × List UInt8) → List (Route × List UInt8)
  | [] => [(route, data)]
  | (r, old) :: rest =>
    if r = route then (r, data) :: rest else (r, old) :: put route data rest

/-- The path without slashes at its end. -/
def bare (path : Text) : Text := (path.reverse.dropWhile (· = 47)).reverse

/-- Writes the file at a path, which need not exist yet. What is written outside the tree
leaves it as it is, and a path that ends with a slash never names a file. -/
def write (fs : Files) (path : Text) (data : List UInt8) : Except Fault Files :=
  let named := path.getLast? ≠ some 47
  match fs.locate (if named then path else (bare path).orElse path) with
  | .file route _ => if named then .ok ⟨put route data fs.entries⟩ else directory
  | .vacant (some route) => if named then .ok ⟨put route data fs.entries⟩ else directory
  | .vacant none => if named then .ok fs else directory
  | .directory _ | .outside => directory
  | .blocked => .error (refuse "open" path "not a directory")
  | .tooLong => .error (refuse "open" path "file name too long")
  | .missing => .error (refuse "open" path "no such file or directory")
where
  directory : Except Fault Files := .error (refuse "open" path "is a directory")

end Files

end ClassWeaver
