import ClassStyle.Arithmetic.Reader
import ClassStyle.Length
import ClassStyle.Log
import ClassStyle.Number.Exact
import ClassStyle.Synthesis.Property
import ClassStyle.Synthesis.Setting
import ClassStyle.Text.Part

/-!
# Readings of declarations

What a declaration sets, given the font size of its class, and what is remarked about it. Nothing
that other declarations say has a part in it.
-/

namespace ClassStyle

/-! ## Lengths on the target -/

namespace Length

/-- Viewport units are fractions of the container. Percent are pixels. -/
def toUDim (length : Length) (fontSize : Float) : UDim :=
  match length.unit with
  | .vw | .vh => .ofScale (length.value / 100)
  | _ => .ofOffset (length.toPixels fontSize)

/-- All relative units are fractions of the container. -/
def toPosition (length : Length) (fontSize : Float) : UDim :=
  if length.unit.isRelative then .ofScale (length.value / 100)
  else .ofOffset (length.toPixels fontSize)

/-- Viewport units stay fractions of the viewport. -/
def toBound (length : Length) (fontSize : Float) : SizeBound :=
  match length.unit with
  | .vw => .viewport .x (length.value / 100)
  | .vh => .viewport .y (length.value / 100)
  | _ => .px (length.toPixels fontSize)

/-- An opacity as a fraction of one. -/
def toOpacity (length : Length) : Float :=
  match length.unit with
  | .percent => length.value / 100
  | _ => length.value

end Length

/-! ## Remarks -/

inductive Remark where
  | unsupported (feature : Feature)
  /-- The value of a property cannot be read. -/
  | unreadable (property : Property) (value : String)
  /-- A value is no color, so an attribute is not set. -/
  | noColor (value name : String)
  deriving DecidableEq, Inhabited

namespace Remark

/-- The record of a remark about a declaration of a class. -/
def record (className : String) : Remark → Record
  | unsupported feature =>
    { level := .warn, area := .synthesis, message := feature.message, className }
  | unreadable property value =>
    { level := .debug, area := .synthesis, className := none
      message := "Ignoring " ++ property.name ++ " '" ++ value ++ "' in ." ++ className }
  | noColor value name =>
    { level := .debug, area := .synthesis, className := none
      message := "Ignoring color '" ++ value ++ "' for " ++ name }

def warning? (className : String) : Remark → Option Warning
  | unsupported feature => some (.unsupported className feature)
  | _ => none

end Remark

/-! ## Readings -/

structure Reading where
  setting : Option Setting
  remark : Option Remark
  deriving DecidableEq, Inhabited

namespace Reading

def silent (setting : Option Setting) : Reading := ⟨setting, none⟩

def edit (e : StyleEdit) : Reading := ⟨some (.style e), none⟩

def unsupported (feature : Feature) : Reading := ⟨none, some (.unsupported feature)⟩

/-- A setting, or a remark if there is none. -/
def orElse (setting : Option Setting) (remark : Remark) : Reading :=
  match setting with
  | some setting => ⟨some setting, none⟩
  | none => ⟨none, some remark⟩

end Reading

/-! ## Kinds of values -/

def readColorAttribute (name value : String) : Reading :=
  .orElse ((Color.read? value.toList).map fun color => .element name (.color color))
    (.noColor value name)

/-- The first length of a value makes an edit. -/
def readEdit (value : String) (edit : Length → StyleEdit) : Reading :=
  .silent ((Length.read? value.toList).map fun length => .style (edit length))

/-- An opacity sets how transparent something is. -/
def readTransparency (name value : String) : Reading :=
  .silent <| (Length.read? value.toList).map fun length =>
    .element name (.number (1 - length.toOpacity))

def fontWeight? (value : String) : Option FontWeight :=
  if value = "normal" then some .regular
  else if value = "bold" then some .bold
  else ((Length.firstNumber? value.toList).bind natural?).bind FontWeight.ofNumber?

def textAlignment (value : String) : TextXAlignment :=
  if value = "right" then .right
  else if value = "center" then .center
  else .left

def lineAlignment (value : String) : TextYAlignment :=
  if value = "middle" then .center
  else if value = "bottom" ∨ value = "text-bottom" then .bottom
  else .top

/-- The place that a keyword of `justify-content` or `align-items` names. -/
def placement? (value : String) : Option Placement :=
  if value = "flex-start" ∨ value = "start" then some .start
  else if value = "flex-end" ∨ value = "end" then some .finish
  else if value = "center" then some .center
  else none

def mainDistribution (value : String) : FlexAlignment :=
  if value = "space-between" then .spaceBetween
  else if value = "space-around" then .spaceAround
  else if value = "space-evenly" then .spaceEvenly
  else if value = "stretch" then .fill
  else .none

def crossDistribution (value : String) : FlexAlignment :=
  if value = "stretch" then .fill else .none

def readAnchor (value : String) : Option StyleEdit :=
  match Length.readAll value.toList with
  | [] => none
  | [both] => some (.anchor both.value both.value)
  | x :: y :: _ => some (.anchor x.value y.value)

def readPadding (fontSize : Float) (value : String) : Option StyleEdit :=
  match Length.readAll value.toList with
  | [] => none
  | lengths => some (.padding (lengths.map fun length => length.toUDim fontSize))

def readRadius (fontSize : Float) (value : String) : Option Node :=
  (Length.read? value.toList).map fun length =>
    .ofList .cornerRadius [("CornerRadius", .udim (.ofOffset (length.toPixels fontSize)))]

/-- A ratio has to be above zero. -/
def readRatio (value : String) : Option Node :=
  (Arithmetic.evaluate value.toList).bind fun ratio =>
    if ratio > 0 then some (.ofList .aspectRatioConstraint [("AspectRatio", .number ratio)])
    else none

/-! ## Properties -/

/-- Reads the value of a property. `em` is the font size of the class that declares it. -/
def Property.read (isText : Bool) (em : Float) (value : String) : Property → Reading
  | color => readColorAttribute (if isText then "TextColor3" else "ImageColor3") value
  | backgroundColor => readColorAttribute "BackgroundColor3" value
  | backgroundOpacity => readTransparency "BackgroundTransparency" value
  | textOpacity => readTransparency "TextTransparency" value
  | opacity => readTransparency "Transparency" value
  | fontWeight =>
    .orElse ((fontWeight? value).map fun weight => .style (.fontWeight weight))
      (.unreadable fontWeight value)
  | fontStyle => .edit (.fontStyle (if value = "normal" then .normal else .italic))
  | fontSize =>
    .silent <| (Length.read? value.toList).map fun length =>
      .element "TextSize" (.number (length.toPixels baseFontSize))
  | lineHeight =>
    .silent <| (Length.firstNumber? value.toList).map fun height =>
      .element "LineHeight" (.number (limit 1 3 height))
  | textAlign => .silent (some (.element "TextXAlignment" (.ofItem (textAlignment value))))
  | verticalAlign => .silent (some (.element "TextYAlignment" (.ofItem (lineAlignment value))))
  | padding => .silent ((readPadding em value).map .style)
  | paddingSide side => readEdit value fun length => .paddingSide side (length.toUDim em)
  | borderRadius => .silent ((readRadius em value).map .node)
  | aspectRatio => .orElse ((readRatio value).map .node) (.unreadable aspectRatio value)
  | borderWidth => readEdit value fun length => .borderWidth (length.toPixels em)
  | borderColor =>
    .orElse ((Color.read? value.toList).map fun color => .style (.borderColor color))
      (.unreadable borderColor value)
  | borderOpacity => readEdit value fun length => .borderTransparency (1 - length.toOpacity)
  | borderStyle => .unsupported .borderStyle
  | borderSideWidth _ => .unsupported .borderSideWidth
  | display => .silent (if value = "flex" then some (.style .flexEnabled) else none)
  | flexDirection =>
    ⟨some (.style (.direction
        (if Text.occursIn "column".toList value.toList then .vertical else .horizontal))),
      if Text.occursIn "reverse".toList value.toList then some (.unsupported .flexReverse)
      else none⟩
  | flexWrap => if value = "nowrap" then .silent none else .unsupported .flexWrap
  | justifyContent =>
    .edit <| match placement? value with
      | some placement => .mainPlacement placement
      | none => .mainDistribution (mainDistribution value)
  | alignItems =>
    ⟨some <| .style <| match placement? value with
        | some placement => .crossPlacement placement
        | none => .crossDistribution (crossDistribution value),
      if value = "baseline" then some (.unsupported .baselineItems) else none⟩
  | gap => readEdit value fun length => .gap (length.toUDim em)
  | anchorPoint => .silent ((readAnchor value).map .style)
  | anchorPointX => readEdit value fun length => .anchorX length.value
  | anchorPointY => readEdit value fun length => .anchorY length.value
  | left => readEdit value fun length => .left (length.toPosition em)
  | top => readEdit value fun length => .top (length.toPosition em)
  | width => readEdit value fun length => .width (length.toUDim em)
  | height => readEdit value fun length => .height (length.toUDim em)
  | minWidth => readEdit value fun length => .minWidth (length.toBound em)
  | minHeight => readEdit value fun length => .minHeight (length.toBound em)
  | maxWidth => readEdit value fun length => .maxWidth (length.toBound em)
  | maxHeight => readEdit value fun length => .maxHeight (length.toBound em)

end ClassStyle
