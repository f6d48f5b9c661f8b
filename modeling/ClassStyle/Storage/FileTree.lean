import ClassStyle.Storage.Path

/-!
# File trees

Files and directories by their location. Paths are followed from the root segment by segment, so
`..` leaves the directory that was reached, and every segment but the last has to be a directory.
-/

namespace ClassStyle

/-- Why a file cannot be read. -/
inductive Fault where
  | notFound
  | isADirectory
  | notADirectory
  | notText
  /-- Anything else that the system reports. -/
  | other (reason : String)
  deriving DecidableEq, Inhabited

def Fault.message : Fault → String
  | notFound => "No such file or directory (os error 2)"
  | isADirectory => "Is a directory (os error 21)"
  | notADirectory => "Not a directory (os error 20)"
  | notText => "stream did not contain valid UTF-8"
  | other reason => reason

/-- The names on the way from the root. -/
abbrev Location := List String

inductive FileEntry where
  | directory
  | file (content : ByteArray)
  deriving Inhabited

/-- Entries below the root, the latest first. -/
structure FileTree where
  entries : List (Location × FileEntry)
  deriving Inhabited

namespace FileTree

def empty : FileTree := ⟨[]⟩

/-- What is at a location. The root is a directory. -/
def node? (tree : FileTree) (location : Location) : Option FileEntry :=
  if location = [] then some .directory
  else (tree.entries.find? fun e => e.1 = location).map Prod.snd

def put (tree : FileTree) (location : Location) (entry : FileEntry) : FileTree :=
  ⟨(location, entry) :: tree.entries.filter fun e => e.1 ≠ location⟩

def erase (tree : FileTree) (location : Location) : FileTree :=
  ⟨tree.entries.filter fun e => e.1 ≠ location⟩

theorem node?_put_self (tree : FileTree) {location : Location} (h : location ≠ [])
    (entry : FileEntry) : (tree.put location entry).node? location = some entry := by
  simp [node?, put, h]

theorem node?_put_of_ne (tree : FileTree) {location other : Location} (h : location ≠ other)
    (entry : FileEntry) : (tree.put location entry).node? other = tree.node? other := by
  unfold node? put
  split
  · rfl
  · rw [List.find?_cons_of_neg (by simpa using h), List.find?_filter]
    congr 2
    funext e
    by_cases he : e.1 = other
    · simp [he, Ne.symm h]
    · simp [he]

theorem node?_erase_self (tree : FileTree) {location : Location} (h : location ≠ []) :
    (tree.erase location).node? location = none := by
  simp [node?, erase, h]

/-! ## Following paths -/

/-- The location that a segment leads to from a directory. -/
def stepTo (location : Location) (segment : String) : Location :=
  if segment = "." then location
  else if segment = ".." then location.dropLast
  else location ++ [segment]

/-- The segments that a path is followed by. A slash at its end asks for a directory. -/
def steps (path : Path) : List String :=
  path.segments ++ if path.endsInSlash then ["."] else []

/-- Where segments lead to from a location, if there is something. -/
def follow (tree : FileTree) (location : Location) : List String → Except Fault Location
  | [] =>
    match tree.node? location with
    | some _ => .ok location
    | none => .error .notFound
  | segment :: rest =>
    match tree.node? location with
    | some .directory => tree.follow (stepTo location segment) rest
    | some (.file _) => .error .notADirectory
    | none => .error .notFound

/-- Where a path leads to, if there is something. -/
def locate (tree : FileTree) (path : Path) : Except Fault Location :=
  if path.text.isEmpty then .error .notFound else tree.follow [] (steps path)

def pathOf (location : Location) : Path := ⟨"/".intercalate location⟩

/-- The path without detours to what a path leads to. -/
def canonical (tree : FileTree) (path : Path) : Except Fault Path :=
  (tree.locate path).map pathOf

/-- There is something at the path. -/
def hasPath (tree : FileTree) (path : Path) : Bool := (tree.locate path).isOk

/-! ## Reading -/

/-- The text of a file. -/
def readText (tree : FileTree) (path : Path) : Except Fault String := do
  let location ← tree.locate path
  match tree.node? location with
  | some (.file content) =>
    match String.fromUTF8? content with
    | some text => .ok text
    | none => .error .notText
  | some .directory => .error .isADirectory
  | none => .error .notFound

/-! ## Changing -/

/-- Follows segments from a location and makes the directories that are missing. Gives the
location that they lead to, unless a file is in the way. -/
def makeFrom (tree : FileTree) (location : Location) : List String → FileTree × Option Location
  | [] => (tree, some location)
  | segment :: rest =>
    let next := stepTo location segment
    match tree.node? next with
    | some .directory => tree.makeFrom next rest
    | some (.file _) => (tree, none)
    | none => (tree.put next .directory).makeFrom next rest

/-- Makes a directory and those above it. -/
def makeDirectory (tree : FileTree) (path : Path) : FileTree × Option Location :=
  tree.makeFrom [] path.segments

/-- Writes a file inside a directory and gives its location. -/
def writeInto (tree : FileTree) (directory : Location) (name : String) (content : ByteArray) :
    FileTree × Option Location :=
  let location := directory ++ [name]
  match tree.node? location with
  | some .directory => (tree, none)
  | _ => (tree.put location (.file content), some location)

/-- Writes a file and gives its location. The directories above it are made first. -/
def write (tree : FileTree) (path : Path) (content : ByteArray) : FileTree × Option Location :=
  match path.parent? with
  | none => (tree, none)
  | some dir =>
    match tree.makeDirectory dir, path.segments.getLast? with
    | (tree, some directory), some name =>
      if path.endsInSlash || name = "." || name = ".." then (tree, none)
      else tree.writeInto directory name content
    | (tree, _), _ => (tree, none)

/-- Removes a file and gives its location. -/
def remove (tree : FileTree) (path : Path) : FileTree × Option Location :=
  match tree.locate path with
  | .error _ => (tree, none)
  | .ok location =>
    match tree.node? location with
    | some (.file _) => (tree.erase location, some location)
    | _ => (tree, none)

end FileTree

end ClassStyle
