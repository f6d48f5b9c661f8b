import ClassStyle.Sheet.Cascade
import ClassStyle.Synthesis.Reading
import ClassStyle.Synthesis.Request

/-!
# Working out the style of an element

The declarations of the named classes are read one after another and set one thing each, so later
ones replace earlier ones part by part. Each class is read by itself and not through the cascade,
since lengths in `em` are relative to the font size of their own class.
-/

namespace ClassStyle

open Text

/-- The font size of a class in pixels. -/
def classFontSize (declarations : Declarations) : Float :=
  match (declarations.get? Property.fontSize.name).bind fun value => Length.read? value.toList with
  | some length => length.toPixels baseFontSize
  | none => baseFontSize

/-- A declaration of a known property, as one class applies it. -/
structure Application where
  className : String
  fontSize : Float
  property : Property
  /-- The value without blanks at its ends. -/
  value : String
  deriving DecidableEq, Inhabited

namespace Application

def read (a : Application) (isText : Bool) : Reading :=
  a.property.read isText a.fontSize a.value

def setting? (a : Application) (isText : Bool) : Option Setting := (a.read isText).setting

def warning? (a : Application) (isText : Bool) : Option Warning :=
  (a.read isText).remark.bind (Remark.warning? a.className)

def record? (a : Application) (isText : Bool) : Option Record :=
  (a.read isText).remark.map (Remark.record a.className)

/-- The applications of a class. -/
def ofRule (className : String) (declarations : Declarations) : List Application :=
  declarations.entries.filterMap fun entry =>
    (Property.ofName? entry.1).map fun property =>
      { className, fontSize := classFontSize declarations, property
        value := String.ofList (trim entry.2.toList) }

end Application

namespace Draft

/-- The synthesis of a draft: the parts of its style come last. -/
def finish (d : Draft) (isText : Bool) (warnings : List Warning) : Synthesis where
  attributes := d.attributes.putAll (d.style.attributes isText)
  nodes := d.nodes ++ d.style.nodes
  warnings := warnings ++ d.style.warnings

end Draft

namespace Sheet

/-- The applications of all classes that an element names, in order. -/
def applications (sheet : Sheet) (classes : List String) : List Application :=
  (sheet.matched classes).flatMap fun entry => Application.ofRule entry.1 entry.2.declarations

/-- What all declarations of the named classes set. -/
def draft (sheet : Sheet) (request : Request) : Draft :=
  Draft.empty.setAll <|
    (sheet.applications request.classes).filterMap fun a => a.setting? request.isText

/-- The attributes, nodes and warnings of an element. -/
def synthesis (sheet : Sheet) (request : Request) : Synthesis :=
  (sheet.draft request).finish request.isText <|
    (sheet.applications request.classes).filterMap fun a => a.warning? request.isText

def strokeRecord (warning : Warning) : Record :=
  { level := .warn, area := .synthesis, message := warning.message, className := none }

/-- The synthesis of an element with the records of its making. -/
def synthesize (sheet : Sheet) (request : Request) : Logged Synthesis where
  value := sheet.synthesis request
  records :=
    ((sheet.applications request.classes).filterMap fun a => a.record? request.isText) ++
      (sheet.draft request).style.warnings.map strokeRecord

end Sheet

end ClassStyle
