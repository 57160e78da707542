import LiveProse.Command.Error

/-!
A directory of files in memory, for running commands without a disk.
-/

namespace LiveProse

/-- The files of a directory, each by its path with its text. -/
structure Directory where
  files : List (Text × Text)

namespace Directory

/-- The bytes that a name in a path may have. -/
def nameBound : Nat := 255

/-- The bytes that a path may have. -/
def pathBound : Nat := 4095

/-- The number of bytes that a text takes. -/
def byteCount (text : Text) : Nat :=
  (String.ofList text).utf8ByteSize

/-- What a path has led to. -/
inductive Place where
  /-- A directory that holds this one, in which nothing else is known. -/
  | outside
  /-- The directory that these names lead to, this one where there are none. -/
  | folder (names : List Text)
  | file (text : Text)
deriving DecidableEq, Repr

/-- Whether a name leads nowhere else: two slashes in a row enclose such a name, and a last slash
stands before one. -/
def staysInPlace (name : Text) : Bool :=
  name.isEmpty || name == ['.']

/-- The names that lead to a file of the directory. -/
def names (path : Text) : List Text :=
  (path.splitOn '/').filter (!staysInPlace ·)

/-- What the names lead to. A directory is there when it holds a file. -/
def lookup (directory : Directory) (wanted : List Text) : Option Place :=
  match directory.files.find? fun (path, _) => names path = wanted with
  | some (_, text) => some (.file text)
  | none =>
    if directory.files.any fun (path, _) => wanted.isPrefixOf (names path)
      then some (.folder wanted) else none

/-- Goes from a place to what the name stands for there. Nothing lies behind a file, not even the
file itself. -/
def step (directory : Directory) (place : Place) (name : Text) : Except ReadFault Place :=
  match place with
  | .file _ => .error .notDirectory
  | .outside =>
    if staysInPlace name || name = ['.', '.'] then .ok .outside
    else if nameBound < byteCount name then .error .nameTooLong
    else .error .notFound
  | .folder here =>
    if staysInPlace name then .ok (.folder here)
    else if name = ['.', '.'] then .ok (if here = [] then .outside else .folder here.dropLast)
    else if nameBound < byteCount name then .error .nameTooLong
    else match directory.lookup (here ++ [name]) with
      | some place => .ok place
      | none => .error .notFound

/-- What a path leads to, from the left. A path that begins with a slash begins outside. -/
def follow (directory : Directory) (path : Text) : Except ReadFault Place :=
  let start := if path.head? = some '/' then .outside else .folder []
  (path.splitOn '/').foldlM directory.step start

/-- The text of the file at a path. -/
def read (directory : Directory) (path : Text) : Except ReadFault Text :=
  if path = [] then .error .notFound
  else if pathBound < byteCount path then .error .nameTooLong
  else do
    match ← directory.follow path with
    | .file text => .ok text
    | .outside | .folder _ => .error .isDirectory

end Directory

end LiveProse
