import ClassStyle.Synthesis

/-!
# Fields that one property writes

Each field of a draft that one property writes holds the last value of that property that could be
read. No other property changes it (`content_draft`, `get?_draft`).
-/

namespace ClassStyle

open Text

/-! ## Fields -/

/-- An attribute of the element that a property sets at once. -/
inductive AttributeField where
  | color
  | backgroundColor
  | backgroundOpacity
  | textOpacity
  | opacity
  | fontSize
  | lineHeight
  | textAlign
  | verticalAlign
  deriving DecidableEq

/-- A part of the style that a property sets. -/
inductive StyleField where
  | fontWeight
  | fontStyle
  | borderWidth
  | borderColor
  | borderOpacity
  | display
  | flexDirection
  | gap
  | left
  | top
  | width
  | height
  | minWidth
  | minHeight
  | maxWidth
  | maxHeight
  deriving DecidableEq

namespace AttributeField

def property : AttributeField → Property
  | color => .color
  | backgroundColor => .backgroundColor
  | backgroundOpacity => .backgroundOpacity
  | textOpacity => .textOpacity
  | opacity => .opacity
  | fontSize => .fontSize
  | lineHeight => .lineHeight
  | textAlign => .textAlign
  | verticalAlign => .verticalAlign

def name (isText : Bool) : AttributeField → String
  | color => if isText then "TextColor3" else "ImageColor3"
  | backgroundColor => "BackgroundColor3"
  | backgroundOpacity => "BackgroundTransparency"
  | textOpacity => "TextTransparency"
  | opacity => "Transparency"
  | fontSize => "TextSize"
  | lineHeight => "LineHeight"
  | textAlign => "TextXAlignment"
  | verticalAlign => "TextYAlignment"

/-- The value of the attribute, if that of the property is accepted. -/
def read? (value : String) : AttributeField → Option AttributeValue
  | color | backgroundColor => (Color.read? value.toList).map .color
  | backgroundOpacity | textOpacity | opacity =>
    (Length.read? value.toList).map fun length => .number (1 - length.toOpacity)
  | fontSize =>
    (Length.read? value.toList).map fun length => .number (length.toPixels baseFontSize)
  | lineHeight => (Length.firstNumber? value.toList).map fun height => .number (limit 1 3 height)
  | textAlign => some (.ofItem (textAlignment value))
  | verticalAlign => some (.ofItem (lineAlignment value))

end AttributeField

namespace StyleField

def property : StyleField → Property
  | fontWeight => .fontWeight
  | fontStyle => .fontStyle
  | borderWidth => .borderWidth
  | borderColor => .borderColor
  | borderOpacity => .borderOpacity
  | display => .display
  | flexDirection => .flexDirection
  | gap => .gap
  | left => .left
  | top => .top
  | width => .width
  | height => .height
  | minWidth => .minWidth
  | minHeight => .minHeight
  | maxWidth => .maxWidth
  | maxHeight => .maxHeight

@[reducible]
def Content : StyleField → Type
  | fontWeight => FontWeight
  | fontStyle => FontStyle
  | borderWidth | borderOpacity => Float
  | borderColor => Option Color
  | display => Bool
  | flexDirection => FillDirection
  | gap | left | top | width | height => UDim
  | minWidth | minHeight | maxWidth | maxHeight => SizeBound

def content (s : Style) : (f : StyleField) → f.Content
  | fontWeight => s.font.weight
  | fontStyle => s.font.style
  | borderWidth => s.border.width
  | borderColor => s.border.color
  | borderOpacity => s.border.transparency
  | display => s.flex.enabled
  | flexDirection => s.flex.direction
  | gap => s.flex.gap
  | left => s.position.left
  | top => s.position.top
  | width => s.size.width
  | height => s.size.height
  | minWidth => s.size.minWidth
  | minHeight => s.size.minHeight
  | maxWidth => s.size.maxWidth
  | maxHeight => s.size.maxHeight

/-- What the field holds when nothing is said. -/
def initial : (f : StyleField) → f.Content
  | fontWeight => Enumeration.standard
  | fontStyle => Enumeration.standard
  | borderWidth | borderOpacity => (0 : Float)
  | borderColor => none
  | display => false
  | flexDirection => Enumeration.standard
  | gap | left | top => UDim.zero
  | width | height => UDim.ofOffset 100
  | minWidth | minHeight => SizeBound.px 0
  | maxWidth | maxHeight => SizeBound.unbounded

/-- What the field holds after a declaration, if its value is accepted. `em` is the font size of
the class that declares it. -/
def read? (em : Float) (value : String) : (f : StyleField) → Option f.Content
  | fontWeight => fontWeight? value
  | fontStyle => some (if value = "normal" then FontStyle.normal else FontStyle.italic)
  | borderWidth => (Length.read? value.toList).map fun length => length.toPixels em
  | borderColor => (Color.read? value.toList).map some
  | borderOpacity => (Length.read? value.toList).map fun length => 1 - length.toOpacity
  | display => if value = "flex" then some true else none
  | flexDirection =>
    some (if occursIn "column".toList value.toList then FillDirection.vertical
      else FillDirection.horizontal)
  | gap | width | height => (Length.read? value.toList).map fun length => length.toUDim em
  | left | top => (Length.read? value.toList).map fun length => length.toPosition em
  | minWidth | minHeight | maxWidth | maxHeight =>
    (Length.read? value.toList).map fun length => length.toBound em

end StyleField

/-! ## What a declaration sets -/

/-- The field that a property is about. -/
inductive Role where
  | element (f : AttributeField)
  | style (f : StyleField)
  | other
  deriving DecidableEq

def Property.role : Property → Role
  | color => .element .color
  | backgroundColor => .element .backgroundColor
  | backgroundOpacity => .element .backgroundOpacity
  | textOpacity => .element .textOpacity
  | opacity => .element .opacity
  | fontSize => .element .fontSize
  | lineHeight => .element .lineHeight
  | textAlign => .element .textAlign
  | verticalAlign => .element .verticalAlign
  | fontWeight => .style .fontWeight
  | fontStyle => .style .fontStyle
  | borderWidth => .style .borderWidth
  | borderColor => .style .borderColor
  | borderOpacity => .style .borderOpacity
  | display => .style .display
  | flexDirection => .style .flexDirection
  | gap => .style .gap
  | left => .style .left
  | top => .style .top
  | width => .style .width
  | height => .style .height
  | minWidth => .style .minWidth
  | minHeight => .style .minHeight
  | maxWidth => .style .maxWidth
  | maxHeight => .style .maxHeight
  | _ => .other

theorem role_eq_element_iff {p : Property} {f : AttributeField} :
    p.role = .element f ↔ p = f.property := by
  constructor
  · intro h
    cases p <;> cases h <;> rfl
  · rintro rfl
    cases f <;> rfl

theorem role_eq_style_iff {p : Property} {f : StyleField} :
    p.role = .style f ↔ p = f.property := by
  constructor
  · intro h
    cases p <;> cases h <;> rfl
  · rintro rfl
    cases f <;> rfl

/-- The field that an edit writes, and what it writes. -/
def StyleEdit.write? : StyleEdit → Option (Σ f : StyleField, f.Content)
  | fontWeight value => some ⟨.fontWeight, value⟩
  | fontStyle value => some ⟨.fontStyle, value⟩
  | borderWidth value => some ⟨.borderWidth, value⟩
  | borderColor value => some ⟨.borderColor, some value⟩
  | borderTransparency value => some ⟨.borderOpacity, value⟩
  | flexEnabled => some ⟨.display, true⟩
  | direction value => some ⟨.flexDirection, value⟩
  | gap value => some ⟨.gap, value⟩
  | left value => some ⟨.left, value⟩
  | top value => some ⟨.top, value⟩
  | width value => some ⟨.width, value⟩
  | height value => some ⟨.height, value⟩
  | minWidth value => some ⟨.minWidth, value⟩
  | minHeight value => some ⟨.minHeight, value⟩
  | maxWidth value => some ⟨.maxWidth, value⟩
  | maxHeight value => some ⟨.maxHeight, value⟩
  | _ => none

theorem align_eq (f : Flex) (axis : Axis) (placement : Placement) :
    (f.align axis placement).enabled = f.enabled ∧
    (f.align axis placement).direction = f.direction ∧
    (f.align axis placement).gap = f.gap := by
  cases axis <;> exact ⟨rfl, rfl, rfl⟩

theorem distribute_eq (f : Flex) (axis : Axis) (alignment : FlexAlignment) :
    (f.distribute axis alignment).enabled = f.enabled ∧
    (f.distribute axis alignment).direction = f.direction ∧
    (f.distribute axis alignment).gap = f.gap := by
  cases axis <;> exact ⟨rfl, rfl, rfl⟩

theorem content_edit (s : Style) (e : StyleEdit) (f : StyleField) :
    (∀ v, e.write? = some ⟨f, v⟩ → f.content (s.edit e) = v) ∧
    ((∀ v, e.write? ≠ some ⟨f, v⟩) → f.content (s.edit e) = f.content s) := by
  constructor
  · intro v h
    cases e <;> cases h <;> rfl
  · intro h
    have halign := align_eq s.flex
    have hdistribute := distribute_eq s.flex
    cases e <;> cases f <;> first
      | rfl
      | exact absurd rfl (h _)
      | simp only [StyleField.content, Style.edit, Flex.edit, halign, hdistribute]

theorem setting_orElse (setting : Option Setting) (remark : Remark) :
    (Reading.orElse setting remark).setting = setting := by
  cases setting <;> rfl

theorem setting_attribute (f : AttributeField) (isText : Bool) (em : Float) (value : String) :
    (f.property.read isText em value).setting =
      (f.read? value).map (.element (f.name isText)) := by
  cases f <;> simp only [AttributeField.property, Property.read, AttributeField.read?,
    AttributeField.name, readColorAttribute, readTransparency, setting_orElse, Reading.silent,
    Option.map_map, Option.map_some] <;> rfl

theorem setting_style (f : StyleField) (isText : Bool) (em : Float) (value : String) :
    ((f.property.read isText em value).setting = none ∧ f.read? em value = none) ∨
    ∃ e v, (f.property.read isText em value).setting = some (.style e) ∧
      e.write? = some ⟨f, v⟩ ∧ f.read? em value = some v := by
  cases f with
  | fontStyle => exact .inr ⟨_, _, rfl, rfl, rfl⟩
  | flexDirection => exact .inr ⟨_, _, rfl, rfl, rfl⟩
  | display =>
    by_cases h : value = "flex"
    · exact .inr ⟨.flexEnabled, true, by simp [StyleField.property, Property.read, h,
        Reading.silent], rfl, by simp [StyleField.read?, h]⟩
    · exact .inl ⟨by simp [StyleField.property, Property.read, h, Reading.silent],
        by simp [StyleField.read?, h]⟩
  | fontWeight =>
    simp only [StyleField.property, Property.read, setting_orElse, StyleField.read?]
    cases fontWeight? value with
    | none => exact .inl ⟨rfl, rfl⟩
    | some weight => exact .inr ⟨_, _, rfl, rfl, rfl⟩
  | borderColor =>
    simp only [StyleField.property, Property.read, setting_orElse, StyleField.read?]
    cases Color.read? value.toList with
    | none => exact .inl ⟨rfl, rfl⟩
    | some color => exact .inr ⟨_, _, rfl, rfl, rfl⟩
  | _ =>
    simp only [StyleField.property, Property.read, readEdit, Reading.silent, StyleField.read?]
    cases Length.read? value.toList with
    | none => exact .inl ⟨rfl, rfl⟩
    | some length => exact .inr ⟨_, _, rfl, rfl, rfl⟩

/-- What a setting writes: the field of a role, or something that is no field. -/
inductive Setting.Writes (isText : Bool) : Setting → Role → Prop
  | element (f : AttributeField) (value : AttributeValue) :
      Writes isText (.element (f.name isText) value) (.element f)
  | style {e : StyleEdit} {f : StyleField} {v : f.Content} (h : e.write? = some ⟨f, v⟩) :
      Writes isText (.style e) (.style f)
  | node {made : Node} (h : made.kind = .cornerRadius ∨ made.kind = .aspectRatioConstraint) :
      Writes isText (.node made) .other
  | edit {e : StyleEdit} (h : e.write? = none) : Writes isText (.style e) .other

theorem writes_other {p : Property} (h : p.role = .other) {isText : Bool} {em : Float}
    {value : String} {s : Setting} (hs : (p.read isText em value).setting = some s) :
    s.Writes isText .other := by
  cases p with
  | padding =>
    obtain ⟨e, he, rfl⟩ := Option.map_eq_some_iff.mp hs
    unfold readPadding at he
    split at he
    · simp at he
    · cases he
      exact .edit rfl
  | paddingSide | anchorPointX | anchorPointY =>
    obtain ⟨length, -, rfl⟩ := Option.map_eq_some_iff.mp hs
    exact .edit rfl
  | borderRadius =>
    obtain ⟨node, hnode, rfl⟩ := Option.map_eq_some_iff.mp hs
    obtain ⟨length, -, rfl⟩ := Option.map_eq_some_iff.mp hnode
    exact .node (.inl rfl)
  | aspectRatio =>
    simp only [Property.read, setting_orElse] at hs
    obtain ⟨node, hnode, rfl⟩ := Option.map_eq_some_iff.mp hs
    obtain ⟨ratio, -, hratio⟩ := Option.bind_eq_some_iff.mp hnode
    split at hratio
    · cases hratio
      exact .node (.inr rfl)
    · simp at hratio
  | flexWrap =>
    simp only [Property.read] at hs
    split at hs <;> cases hs
  | justifyContent | alignItems =>
    obtain rfl := Option.some.inj hs
    refine .edit ?_
    split <;> rfl
  | anchorPoint =>
    obtain ⟨e, he, rfl⟩ := Option.map_eq_some_iff.mp hs
    unfold readAnchor at he
    split at he
    · simp at he
    · cases he
      exact .edit rfl
    · cases he
      exact .edit rfl
  | borderStyle | borderSideWidth => cases hs
  | _ => cases h

theorem writes_setting {p : Property} {isText : Bool} {em : Float} {value : String}
    {s : Setting} (hs : (p.read isText em value).setting = some s) :
    s.Writes isText p.role := by
  cases hrole : p.role with
  | element f =>
    rw [role_eq_element_iff.mp hrole, setting_attribute] at hs
    obtain ⟨v, -, rfl⟩ := Option.map_eq_some_iff.mp hs
    exact .element f v
  | style f =>
    rw [role_eq_style_iff.mp hrole] at hs
    rcases setting_style f isText em value with ⟨hnone, -⟩ | ⟨e, v, hsome, he, -⟩
    · rw [hnone] at hs
      cases hs
    · rw [hsome] at hs
      cases hs
      exact .style he
  | other => exact writes_other hrole hs

/-- The property that makes an edit. -/
def StyleEdit.property : StyleEdit → Property
  | fontWeight _ => .fontWeight
  | fontStyle _ => .fontStyle
  | padding _ => .padding
  | paddingSide side _ => .paddingSide side
  | borderWidth _ => .borderWidth
  | borderColor _ => .borderColor
  | borderTransparency _ => .borderOpacity
  | flexEnabled => .display
  | direction _ => .flexDirection
  | mainPlacement _ | mainDistribution _ => .justifyContent
  | crossPlacement _ | crossDistribution _ => .alignItems
  | gap _ => .gap
  | anchor _ _ => .anchorPoint
  | anchorX _ => .anchorPointX
  | anchorY _ => .anchorPointY
  | left _ => .left
  | top _ => .top
  | width _ => .width
  | height _ => .height
  | minWidth _ => .minWidth
  | minHeight _ => .minHeight
  | maxWidth _ => .maxWidth
  | maxHeight _ => .maxHeight

theorem property_eq_of_write? {e : StyleEdit} {f : StyleField} {v : f.Content}
    (h : e.write? = some ⟨f, v⟩) : e.property = f.property := by
  cases e <;> cases h <;> rfl

theorem property_of_read {p : Property} {isText : Bool} {em : Float} {value : String}
    {e : StyleEdit} (hs : (p.read isText em value).setting = some (.style e)) :
    e.property = p := by
  cases hrole : p.role with
  | element f =>
    rw [role_eq_element_iff.mp hrole, setting_attribute] at hs
    obtain ⟨w, -, hw⟩ := Option.map_eq_some_iff.mp hs
    cases hw
  | style f =>
    rw [role_eq_style_iff.mp hrole] at hs ⊢
    rcases setting_style f isText em value with ⟨hnone, -⟩ | ⟨e', w, hsome, he, -⟩
    · rw [hnone] at hs
      cases hs
    · rw [hsome] at hs
      cases hs
      exact property_eq_of_write? he
  | other =>
    cases p with
    | padding =>
      obtain ⟨e', he, hset⟩ := Option.map_eq_some_iff.mp hs
      cases hset
      unfold readPadding at he
      split at he <;> cases he
      rfl
    | anchorPoint =>
      obtain ⟨e', he, hset⟩ := Option.map_eq_some_iff.mp hs
      cases hset
      unfold readAnchor at he
      split at he <;> cases he <;> rfl
    | paddingSide | anchorPointX | anchorPointY =>
      obtain ⟨length, -, hset⟩ := Option.map_eq_some_iff.mp hs
      cases hset
      rfl
    | borderRadius =>
      obtain ⟨node, -, hset⟩ := Option.map_eq_some_iff.mp hs
      cases hset
    | aspectRatio =>
      simp only [Property.read, setting_orElse] at hs
      obtain ⟨node, -, hset⟩ := Option.map_eq_some_iff.mp hs
      cases hset
    | flexWrap =>
      simp only [Property.read] at hs
      split at hs <;> cases hs
    | justifyContent | alignItems =>
      cases hs
      cases placement? value <;> rfl
    | borderStyle | borderSideWidth => cases hs
    | _ => cases hrole

/-! ## One declaration after another -/

theorem content_set {isText : Bool} {s : Setting} {r : Role} (h : s.Writes isText r)
    {f : StyleField} (hf : r ≠ .style f) (d : Draft) :
    f.content (d.set s).style = f.content d.style := by
  cases h with
  | element g v => rfl
  | node hmade => rfl
  | style he =>
    refine (content_edit d.style _ f).2 ?_
    intro w hw
    rw [he] at hw
    cases hw
    exact hf rfl
  | edit he =>
    refine (content_edit d.style _ f).2 ?_
    intro w hw
    rw [he] at hw
    cases hw

theorem name_injective (isText : Bool) {f g : AttributeField}
    (h : f.name isText = g.name isText) : f = g := by
  cases isText <;> cases f <;> cases g <;> first | rfl | exact absurd h (by decide)

theorem get?_set {isText : Bool} {s : Setting} {r : Role} (h : s.Writes isText r)
    {f : AttributeField} (hf : r ≠ .element f) (d : Draft) :
    (d.set s).attributes.get? (f.name isText) = d.attributes.get? (f.name isText) := by
  cases h with
  | element g v =>
    have hname : g.name isText ≠ f.name isText := by
      intro hname
      exact hf (congrArg Role.element (name_injective isText hname))
    exact ArrivalMap.get?_put_of_ne d.attributes hname v
  | style he => rfl
  | node hmade => rfl
  | edit he => rfl

def Draft.apply (isText : Bool) (d : Draft) (a : Application) : Draft :=
  ((a.setting? isText).map d.set).getD d

theorem draft_eq_foldl (sheet : Sheet) (request : Request) :
    sheet.draft request =
      (sheet.applications request.classes).foldl (Draft.apply request.isText) .empty := by
  unfold Sheet.draft Draft.setAll
  rw [List.foldl_filterMap]
  congr 1
  funext d a
  unfold Draft.apply
  cases a.setting? request.isText <;> rfl

/-- The edit that a declaration makes of the style, if it makes one. -/
def Application.edit? (a : Application) (isText : Bool) : Option StyleEdit :=
  match a.setting? isText with
  | some (.style e) => some e
  | _ => none

section

variable {isText : Bool} {a : Application}

theorem style_apply (d : Draft) :
    (d.apply isText a).style = ((a.edit? isText).map d.style.edit).getD d.style := by
  unfold Draft.apply Application.edit?
  cases a.setting? isText with
  | none => rfl
  | some s => cases s <;> rfl

/-- A declaration makes of a part of the style what its edit writes there. -/
theorem part_style_apply {α : Type} (part : Style → α) {written? : StyleEdit → Option α} {d : Draft}
    (h : ∀ e, part (d.style.edit e) = (written? e).getD (part d.style)) :
    part (d.apply isText a).style = ((a.edit? isText).bind written?).getD (part d.style) := by
  rw [style_apply]
  cases a.edit? isText with
  | none => rfl
  | some e => exact h e

theorem property_of_edit? {e : StyleEdit} (h : a.edit? isText = some e) :
    e.property = a.property := by
  unfold Application.edit? at h
  split at h
  · next e' he =>
    cases h
    exact property_of_read he
  · cases h

theorem bind_edit?_eq_none {α : Type} {written? : StyleEdit → Option α}
    (h : ∀ e v, written? e = some v → e.property ≠ a.property) :
    (a.edit? isText).bind written? = none := by
  rw [Option.bind_eq_none_iff]
  intro e he
  exact Option.eq_none_iff_forall_ne_some.mpr fun v hv => h e v hv (property_of_edit? he)

end

theorem content_apply (f : StyleField) (isText : Bool) (d : Draft) (a : Application) :
    f.content (d.apply isText a).style =
      (if a.property = f.property then f.read? a.fontSize a.value else none).getD
        (f.content d.style) := by
  unfold Draft.apply Application.setting? Application.read
  by_cases hf : a.property = f.property
  · rw [if_pos hf, hf]
    rcases setting_style f isText a.fontSize a.value with ⟨hs, hv⟩ | ⟨e, v, hs, he, hv⟩
    · rw [hs, hv]
      rfl
    · rw [hs, hv]
      exact (content_edit d.style e f).1 v he
  · rw [if_neg hf]
    cases hs : (a.property.read isText a.fontSize a.value).setting with
    | none => rfl
    | some s =>
      have hrole : a.property.role ≠ .style f := fun h => hf (role_eq_style_iff.mp h)
      exact content_set (writes_setting hs) hrole d

theorem get?_apply (f : AttributeField) (isText : Bool) (d : Draft) (a : Application) :
    (d.apply isText a).attributes.get? (f.name isText) =
      (if a.property = f.property then f.read? a.value else none).or
        (d.attributes.get? (f.name isText)) := by
  unfold Draft.apply Application.setting? Application.read
  by_cases hf : a.property = f.property
  · rw [if_pos hf, hf, setting_attribute]
    cases f.read? a.value with
    | none => rfl
    | some v => exact ArrivalMap.get?_put_self d.attributes (f.name isText) v
  · rw [if_neg hf]
    cases hs : (a.property.read isText a.fontSize a.value).setting with
    | none => rfl
    | some s =>
      have hrole : a.property.role ≠ .element f := fun h => hf (role_eq_element_iff.mp h)
      exact get?_set (writes_setting hs) hrole d

/-! ## All declarations -/

/-- What a part holds after a list of steps is what the last step that writes it gives it. -/
theorem foldl_last {σ α γ : Type} {step : σ → α → σ} (part : σ → γ) {write : α → Option γ}
    (h : ∀ s a, part (step s a) = (write a).getD (part s)) (s : σ) (l : List α) :
    part (l.foldl step s) = (l.filterMap write).getLast?.getD (part s) := by
  induction l generalizing s with
  | nil => rfl
  | cons a l ih =>
    rw [List.foldl_cons, ih, h]
    cases hw : write a with
    | none => rw [List.filterMap_cons_none hw]; rfl
    | some v =>
      rw [List.filterMap_cons_some hw, List.getLast?_cons]
      rfl

/-- The values of a property that are accepted, in the order in which they apply: class by class
as they are named, and declaration by declaration in a class. Each is read with the font size of
its own class. -/
def Sheet.accepted {α : Type} (sheet : Sheet) (classes : List String) (property : Property)
    (read? : Float → String → Option α) : List α :=
  classes.flatMap fun className =>
    match sheet.get? className with
    | none => []
    | some rule =>
      rule.declarations.entries.filterMap fun entry =>
        if entry.1 = property.name then
          read? (classFontSize rule.declarations) (String.ofList (trim entry.2.toList))
        else none

theorem filterMap_ofRule {α : Type} (className : String) (declarations : Declarations)
    (property : Property) (read? : Float → String → Option α) :
    ((Application.ofRule className declarations).filterMap fun a =>
      if a.property = property then read? a.fontSize a.value else none) =
      declarations.entries.filterMap fun entry =>
        if entry.1 = property.name then
          read? (classFontSize declarations) (String.ofList (trim entry.2.toList))
        else none := by
  unfold Application.ofRule
  rw [List.filterMap_filterMap]
  congr 1
  funext entry
  by_cases h : entry.1 = property.name
  · rw [if_pos h, Property.ofName?_eq_some_iff.mpr h.symm]
    simp
  · rw [if_neg h]
    cases hp : Property.ofName? entry.1 with
    | none => rfl
    | some p =>
      have hne : p ≠ property := by
        rintro rfl
        exact h (Property.name_of_ofName? hp).symm
      simp [hne]

theorem filterMap_applications {α : Type} (sheet : Sheet) (classes : List String)
    (property : Property) (read? : Float → String → Option α) :
    ((sheet.applications classes).filterMap fun a =>
      if a.property = property then read? a.fontSize a.value else none) =
      sheet.accepted classes property read? := by
  unfold Sheet.applications Sheet.matched Sheet.accepted
  induction classes with
  | nil => rfl
  | cons className classes ih =>
    rw [List.flatMap_cons, ← ih]
    cases hrule : sheet.get? className with
    | none => simp [hrule]
    | some rule =>
      have hof := filterMap_ofRule className rule.declarations property read?
      simp [hrule, ← hof]

/-- The last accepted value of a property sets a part of the style. -/
def Sheet.final (sheet : Sheet) (classes : List String) (f : StyleField) : f.Content :=
  (sheet.accepted classes f.property fun em value => f.read? em value).getLast?.getD f.initial

/-- The last accepted value of a property sets an attribute. -/
def Sheet.finalAttribute (sheet : Sheet) (classes : List String) (f : AttributeField) :
    Option AttributeValue :=
  (sheet.accepted classes f.property fun _ value => f.read? value).getLast?

theorem content_draft (sheet : Sheet) (request : Request) (f : StyleField) :
    f.content (sheet.draft request).style = sheet.final request.classes f := by
  have hlast := foldl_last (fun d : Draft => f.content d.style)
    (fun d a => content_apply f request.isText d a) .empty (sheet.applications request.classes)
  have haccepted := filterMap_applications sheet request.classes f.property
    fun em value => f.read? em value
  have hinitial : f.content Draft.empty.style = f.initial := by cases f <;> rfl
  rw [draft_eq_foldl, hlast, haccepted, hinitial]
  rfl

theorem get?_draft (sheet : Sheet) (request : Request) (f : AttributeField) :
    (sheet.draft request).attributes.get? (f.name request.isText) =
      sheet.finalAttribute request.classes f := by
  have hstep : ∀ (d : Draft) (a : Application),
      (d.apply request.isText a).attributes.get? (f.name request.isText) =
        ((if a.property = f.property then f.read? a.value else none).map some).getD
          (d.attributes.get? (f.name request.isText)) := by
    intro d a
    rw [get?_apply]
    cases (if a.property = f.property then f.read? a.value else none) <;> rfl
  have hlast := foldl_last (fun d : Draft => d.attributes.get? (f.name request.isText)) hstep
    .empty (sheet.applications request.classes)
  have haccepted := filterMap_applications sheet request.classes f.property
    fun _ value => f.read? value
  rw [draft_eq_foldl, hlast, ← List.map_filterMap, haccepted, List.getLast?_map]
  unfold Sheet.finalAttribute
  cases (sheet.accepted request.classes f.property fun _ value => f.read? value).getLast? <;> rfl

end ClassStyle
