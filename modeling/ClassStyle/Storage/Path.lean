/-!
# Paths

A path is a text of segments with slashes between them. Repeated slashes, a slash at the end and a
dot that is not the first segment do not count when two paths are compared.
-/

namespace ClassStyle

structure Path where
  text : String
  deriving DecidableEq, Inhabited

namespace Path

/-! ## Segments -/

/-- The texts between slashes, empty ones included. -/
def splitSlashes : List Char → List (List Char)
  | [] => [[]]
  | c :: rest =>
    if c = '/' then [] :: splitSlashes rest
    else match splitSlashes rest with
      | [] => [[c]]
      | first :: others => (c :: first) :: others

def isAbsolute (path : Path) : Bool := path.text.toList.head? = some '/'

/-- The segments as they are written, without the empty ones. -/
def segments (path : Path) : List String :=
  ((splitSlashes path.text.toList).filter fun s => !s.isEmpty).map String.ofList

/-- A slash stands at the end, so that the path can only be one of a directory. -/
def endsInSlash (path : Path) : Bool := path.text.toList.getLast? = some '/'

/-- A part of a path that counts in comparisons. -/
inductive Part where
  | root
  | here
  | parent
  | name (text : String)
  deriving DecidableEq, Inhabited

def Part.ofSegment (segment : String) : Part :=
  if segment = "." then .here else if segment = ".." then .parent else .name segment

/-- The parts of a path. A dot counts only where it is the first of a relative path. -/
def parts (path : Path) : List Part :=
  let parts := path.segments.map Part.ofSegment
  let named := parts.filter (· != .here)
  if path.isAbsolute then .root :: named
  else if parts.head? = some .here then .here :: named
  else named

/-- Two texts name a path in the same way. -/
def same (a b : Path) : Bool := a.parts == b.parts

/-! ## Order -/

def Part.rank : Part → Nat
  | root => 0
  | here => 1
  | parent => 2
  | name _ => 3

def Part.lt : Part → Part → Bool
  | name a, name b => a < b
  | a, b => a.rank < b.rank

/-- Compares lists of parts part by part. A list comes after its own beginnings. -/
def partsLe : List Part → List Part → Bool
  | [], _ => true
  | _ :: _, [] => false
  | a :: as, b :: bs => if a.lt b then true else if b.lt a then false else partsLe as bs

def le (a b : Path) : Bool := partsLe a.parts b.parts

/-! ## Directories -/

/-- Drops the segments at the end that do not count. The last segment comes first in the list. -/
def dropInert (absolute : Bool) : List (List Char) → List (List Char)
  | [] => []
  | [first] => if first = [] || (absolute && first = ['.']) then [] else [first]
  | s :: rest => if s = [] || s = ['.'] then dropInert absolute rest else s :: rest

def joinSegments (segments : List (List Char)) : String :=
  String.ofList (['/'].intercalate segments)

/-- The path without its last part, if it has one besides the root. -/
def parent? (path : Path) : Option Path :=
  let written := splitSlashes path.text.toList
  if path.isAbsolute then
    match dropInert true written.tail.reverse with
    | [] => none
    | _ :: before => some ⟨"/" ++ joinSegments (dropInert true before).reverse⟩
  else
    match dropInert false written.reverse with
    | [] => none
    | _ :: before => some ⟨joinSegments (dropInert false before).reverse⟩

/-- A path seen from a directory. An absolute one stays as it is. -/
def join (dir path : Path) : Path :=
  if path.isAbsolute || dir.text.isEmpty then path
  else if dir.endsInSlash then ⟨dir.text ++ path.text⟩
  else ⟨dir.text ++ "/" ++ path.text⟩

end Path

end ClassStyle
