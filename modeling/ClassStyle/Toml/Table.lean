/-!
# Tables of a TOML document

Tables are built entry by entry. A key that has a value is never given another one, and a table
whose header or value was read is not opened again by keys with dots.
-/

namespace ClassStyle.Toml

/-- A value. Of most kinds nothing but the kind is kept. -/
inductive Value where
  | string (text : String)
  | scalar
  | array
  | table
  deriving DecidableEq, Inhabited

/-- What a table came from. -/
inductive Origin where
  /-- A header of its own. -/
  | header
  /-- The header of a table inside it. -/
  | innerHeader
  /-- A key with dots. -/
  | dottedKey
  deriving DecidableEq, Inhabited

inductive Item where
  | value (value : Value)
  | table (origin : Origin) (entries : List (String × Item))
  /-- Tables of one name, the last one first. -/
  | tables (all : List (List (String × Item)))
  deriving Inhabited

abbrev Entries := List (String × Item)

namespace Entries

def find? (entries : Entries) (key : String) : Option Item :=
  (List.find? (fun e => e.1 == key) entries).map Prod.snd

/-- Replaces the item of a key, or adds one. -/
def put (entries : Entries) (key : String) (item : Item) : Entries :=
  match entries with
  | [] => [(key, item)]
  | (k, old) :: rest => if k = key then (k, item) :: rest else (k, old) :: put rest key item

/-- Changes the table at the end of a path, and makes those on the way that are missing.
`dotted` tells whether the path is of a key with dots or of a header. -/
def change (dotted : Bool) (edit : Origin → Entries → Option Entries) :
    List String → Origin → Entries → Option Entries
  | [], origin, entries => edit origin entries
  | key :: path, _, entries =>
    match entries.find? key with
    | none =>
      let origin : Origin := if dotted then .dottedKey else .innerHeader
      (change dotted edit path origin []).map fun inner => entries.put key (.table origin inner)
    | some (.value _) => none
    | some (.table origin inner) =>
      if dotted && origin = .header then none
      else
        (change dotted edit path origin inner).map fun inner =>
          entries.put key (.table origin inner)
    | some (.tables []) => none
    | some (.tables (last :: earlier)) =>
      (change dotted edit path .header last).map fun last =>
        entries.put key (.tables (last :: earlier))

/-- Adds a value under a key, which may have dots. -/
def add (path : List String) (key : String) (value : Value) :
    Origin → Entries → Option Entries :=
  change true (fun origin entries =>
    if (origin = .dottedKey) = path.isEmpty then none
    else if (entries.find? key).isSome then none
    else some (entries.put key (.value value))) path

/-- Opens the table of a header. -/
def openTable (path : List String) (key : String) : Entries → Option Entries :=
  change false (fun _ entries =>
    match entries.find? key with
    | none => some (entries.put key (.table .header []))
    | some (.table .innerHeader inner) => some (entries.put key (.table .header inner))
    | some _ => none) path .header

/-- Opens one more table of a name. -/
def openTables (path : List String) (key : String) : Entries → Option Entries :=
  change false (fun _ entries =>
    match entries.find? key with
    | none => some (entries.put key (.tables [[]]))
    | some (.tables all) => some (entries.put key (.tables ([] :: all)))
    | some _ => none) path .header

/-- Adds a value inside the table of a header. -/
def addUnder (header path : List String) (key : String) (value : Value) :
    Entries → Option Entries :=
  change false (add path key value) header .header

end Entries

end ClassStyle.Toml
