import Protocell.Text.Pieces

/-!
# Files — a tree of folders and files

Files are kept by their paths from a working folder.  Finding a path walks through its folders one
by one, so what is missing on the way is found out in order.  The working folder, those above it and
the root are always there; nothing else is known of those above and of the root.
-/

namespace Protocell

/-- What a path leads to. -/
inductive Node
  | file (bytes : List UInt8)
  | folder
deriving DecidableEq

/-- Why a file operation fails. -/
inductive Fault
  | notFound
  | alreadyExists
  | notFolder
  | isFolder
  | nameTooLong
  /-- A path has a character in it that ends texts for the system. -/
  | nulInPath
  /-- The bytes of a file are no UTF-8. -/
  | notText
deriving DecidableEq, Repr

/-- The text of a fault. -/
def Fault.message : Fault → String
  | notFound => "No such file or directory (os error 2)"
  | alreadyExists => "File exists (os error 17)"
  | notFolder => "Not a directory (os error 20)"
  | isFolder => "Is a directory (os error 21)"
  | nameTooLong => "File name too long (os error 36)"
  | nulInPath => "file name contained an unexpected NUL byte"
  | notText => "stream did not contain valid UTF-8"

/-- Files and folders by their paths; those always there are not listed. -/
structure Files where
  nodes : List (List String × Node) := []

namespace Files

/-! ## Paths -/

/-- The longest name of a file or folder, in bytes. -/
def nameLimit : Nat := 255

/-- The longest path, in bytes. -/
def pathLimit : Nat := 4095

/-- The name of the root in a list of names. -/
def root : String := "/"

/-- The names between the slashes of a path. -/
def pieces (path : String) : List String := (Text.pieces '/' path.toList).map String.ofList

/-- Whether a piece of a path stays where it is. -/
def isStay (name : String) : Bool := name == "" || name == "."

/-- The names in a path, that of the root first if the path starts there.  Empty ones and single
dots lead nowhere. -/
def names (path : String) : List String :=
  (if path.toList.head? = some '/' then [root] else []) ++ (pieces path).filter (!isStay ·)

/-- The names in a path, and a dot behind them if the path asks for a folder: one that ends in a
slash or a dot does. -/
def steps (path : String) : List String :=
  names path ++ if (pieces path).getLast?.any isStay then ["."] else []

/-- The path of an entry of a folder.  An entry that starts at the root stands for itself. -/
def join (folder entry : String) : String :=
  if folder.isEmpty || entry.toList.head? == some '/' then entry
  else if folder.toList.getLast? == some '/' then folder ++ entry
  else folder ++ "/" ++ entry

/-- Refuses a path that leads nowhere whatever there is. -/
def check (path : String) : Except Fault Unit :=
  if path.toList.contains '\x00' then .error .nulInPath
  else if path.isEmpty then .error .notFound
  else if pathLimit < path.utf8ByteSize then .error .nameTooLong
  else .ok ()

/-! ## The tree -/

/-- Whether names lead to a folder that is always there. -/
def isGiven (ns : List String) : Bool := ns == [root] || ns.all (· == "..")

/-- What a list of names leads to. -/
def node? (f : Files) (ns : List String) : Option Node :=
  if isGiven ns then some .folder else f.nodes.lookup ns

/-- Sets what a list of names leads to. -/
def setNode (f : Files) (ns : List String) (n : Node) : Files :=
  ⟨(ns, n) :: f.nodes.filter fun e => e.1 != ns⟩

/-- The folder above a folder; the root is above itself. -/
def above (folder : List String) : List String :=
  if folder = [root] then folder
  else if folder.all (· == "..") then folder ++ [".."]
  else folder.dropLast

/-- Goes from a folder to one of its entries. -/
def entryPath (folder : List String) (name : String) : Except Fault (List String) :=
  if name = root then .ok [root]
  else if name = "." then .ok folder
  else if name = ".." then .ok (above folder)
  else if nameLimit < name.utf8ByteSize then .error .nameTooLong
  else .ok (folder ++ [name])

/-- Goes from a folder into one of its folders. -/
def enter (f : Files) (folder : List String) (name : String) : Except Fault (List String) := do
  let path ← entryPath folder name
  match f.node? path with
  | some .folder => return path
  | some (.file _) => throw .notFolder
  | none => throw .notFound

/-- Finds where names lead from a folder; all but the last must lead to folders. -/
def locateFrom (f : Files) (folder : List String) : List String → Except Fault (List String)
  | [] => .ok folder
  | [name] => entryPath folder name
  | name :: rest => do
    let path ← f.enter folder name
    f.locateFrom path rest

/-- Finds where a path leads. -/
def locate (f : Files) (path : String) : Except Fault (List String) := do
  check path
  f.locateFrom [] (steps path)

/-- Whether a path leads to a file. -/
def isFile (f : Files) (path : String) : Bool :=
  match f.locate path with
  | .ok ns => (f.node? ns).any fun n => n != .folder
  | .error _ => false

/-- The bytes of a file. -/
def read (f : Files) (path : String) : Except Fault (List UInt8) := do
  match f.node? (← f.locate path) with
  | some (.file bytes) => return bytes
  | some .folder => throw .isFolder
  | none => throw .notFound

/-- The text of a file. -/
def readText (f : Files) (path : String) : Except Fault String := do
  match String.fromUTF8? ⟨(← f.read path).toArray⟩ with
  | some text => return text
  | none => throw .notText

/-- Writes a file, in place of what is there. -/
def write (f : Files) (path : String) (bytes : List UInt8) : Except Fault Files := do
  let ns ← f.locate path
  match f.node? ns with
  | some .folder => throw .isFolder
  | _ => return f.setNode ns (.file bytes)

/-- Makes the folders that names lead to from a folder, as far as they are not there; those made
before a failure stay. -/
def makeFoldersFrom (f : Files) (folder : List String) : List String → Files × Except Fault Unit
  | [] => (f, .ok ())
  | name :: rest =>
    match entryPath folder name with
    | .error fault => (f, .error fault)
    | .ok path =>
      match f.node? path with
      | some .folder => f.makeFoldersFrom path rest
      | some (.file _) => (f, .error (if rest.isEmpty then .alreadyExists else .notFolder))
      | none => (f.setNode path .folder).makeFoldersFrom path rest

/-- Makes a folder and the folders on the way to it.  An empty path asks for none, and a dot at the
end stands for a folder that must be there already. -/
def makeFolders (f : Files) (path : String) : Files × Except Fault Unit :=
  if path.isEmpty then (f, .ok ())
  else match check path with
    | .error fault => (f, .error fault)
    | .ok () =>
      if ((pieces path).filter (· != "")).getLast? = some "." then
        match f.makeFoldersFrom [] (names path).dropLast with
        | (f, .ok ()) => (f, (f.locate path).map fun _ => ())
        | made => made
      else f.makeFoldersFrom [] (names path)

/-- The files of a folder by their names; nothing if it is no folder. -/
def filesIn? (f : Files) (folder : String) : Option (List (String × List UInt8)) :=
  match f.locate folder with
  | .ok ns =>
    match f.node? ns with
    | some .folder => some (f.nodes.filterMap fun e =>
        match e.1.getLast?, e.2 with
        | some name, .file bytes => if e.1.dropLast = ns then some (name, bytes) else none
        | _, _ => none)
    | _ => none
  | .error _ => none

end Files

end Protocell
