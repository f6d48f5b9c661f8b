import ClassStyle.Css.Value
import ClassStyle.Sheet.Rule

/-!
# Declaration blocks

A block is read into chunks: declarations, and what is malformed. The custom properties of all
chunks are collected before any value is written, so a reference may stand before the property
that it refers to.
-/

namespace ClassStyle.Css

open Text

/-! ## Chunks -/

inductive Chunk where
  | declared (name : String) (value : List Char)
  /-- The chunk does not start with a name. -/
  | nameless
  /-- There is no colon behind the name. -/
  | colonless (name : String)
  deriving DecidableEq, Inhabited

/-- What the next component of a block belongs to. -/
inductive ChunkState where
  | between
  | behindName (name : String)
  /-- In the value of a declaration. Holds the components read, the last one first. -/
  | inValue (name : String) (read : List Component)
  | skipping
  deriving Inhabited

/-- The chunks of the rest of a block. A malformed chunk is skipped up to the next semicolon
behind the component that makes it malformed. -/
def chunksFrom : ChunkState → List Component → List Chunk
  | .between, [] => []
  | .behindName name, [] => [.colonless name]
  | .inValue name read, [] => [.declared name (Component.sourceAll read.reverse)]
  | .skipping, [] => []
  | .between, c :: rest =>
    if c.isSeparator || c.isLeaf .semicolon then chunksFrom .between rest
    else match c.ident? with
      | some name => chunksFrom (.behindName name) rest
      | none => .nameless :: chunksFrom .skipping rest
  | .behindName name, c :: rest =>
    if c.isSeparator then chunksFrom (.behindName name) rest
    else if c.isLeaf .colon then chunksFrom (.inValue name []) rest
    else .colonless name :: chunksFrom .skipping rest
  | .inValue name read, c :: rest =>
    if c.isLeaf .semicolon then
      .declared name (Component.sourceAll read.reverse) :: chunksFrom .between rest
    else chunksFrom (.inValue name (c :: read)) rest
  | .skipping, c :: rest =>
    chunksFrom (if c.isLeaf .semicolon then .between else .skipping) rest

def chunks (body : List Component) : List Chunk := chunksFrom .between body

/-- Custom properties are those whose names start with two dashes. -/
def isCustom (name : String) : Bool :=
  match name.toList with
  | '-' :: '-' :: _ => true
  | _ => false

namespace Chunk

/-- The custom property of a chunk, with its value as it stands but for blanks at its ends. -/
def custom? : Chunk → Option (String × String)
  | declared name value =>
    if isCustom name then some (name, String.ofList (trim value)) else none
  | _ => none

/-- The ordinary declaration of a chunk. The case of its name does not count. -/
def declaration? : Chunk → Option (String × List Char)
  | declared name value => if isCustom name then none else some (lowerString name, value)
  | _ => none

def notice? : Chunk → Option Notice
  | declared .. => none
  | nameless => some .skippedDeclaration
  | colonless name => some (.missingColon name)

end Chunk

/-! ## Rules -/

/-- The property that takes the alpha channel of a color. -/
def opacityProperty (property : String) : String :=
  if property = "background-color" then "background-opacity"
  else if property = "border-color" then "border-opacity"
  else if property = "color" then "text-opacity"
  else "opacity"

/-- The entries that a written value makes: none if it is empty, and one more if it has an
opacity. -/
def entriesOf (property : String) (written : Written) : List (String × String) :=
  if written.text = [] then []
  else
    (property, String.ofList written.text) ::
      (written.opacity.map fun alpha => (opacityProperty property, String.ofList alpha)).toList

def noticesOf (property : String) (written : Written) : List Notice :=
  written.notices ++ if written.text = [] then [.emptyValue property] else []

/-- The custom properties of a block. Of several with one name the last one counts. -/
def customOf (chunks : List Chunk) : SortedMap String :=
  SortedMap.ofList (chunks.filterMap Chunk.custom?)

/-- The ordinary declarations of a block with their values written. -/
def writtenDeclarations (chunks : List Chunk) : List (String × Written) :=
  (chunks.filterMap Chunk.declaration?).map fun declaration =>
    (declaration.1, writeValue (customOf chunks) declaration.2)

/-- The rule of a block, and what was noticed in reading it. -/
def readBlock (body : List Component) : Rule × List Notice :=
  let chunks := chunks body
  let written := writtenDeclarations chunks
  (⟨customOf chunks, .ofList (written.flatMap fun d => entriesOf d.1 d.2)⟩,
    chunks.filterMap Chunk.notice? ++ written.flatMap fun d => noticesOf d.1 d.2)

end ClassStyle.Css
