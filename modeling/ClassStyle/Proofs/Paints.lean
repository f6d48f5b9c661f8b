import ClassStyle.Proofs.Colors
import ClassStyle.Proofs.Emission

/-!
# Colors and their transparencies

The color of a declaration and the alpha that it lifts are two entries of a rule, and each of them
is overridden by itself. So the color of an element is the last one that its classes give, and the
transparency belongs to the last alpha that they give (`synthesis_paints`): the two come from one
declaration if that declaration has an alpha and no later one of the same paint follows it.
-/

namespace ClassStyle.Css

open Component Text

/-! ## The block of a class -/

def Construct.blockFor? (name : String) : Construct → Option (List Component)
  | rule selectors body => if name ∈ selectedClasses selectors then some body else none
  | _ => none

/-- The block of a class is that of the last rule that names it. -/
def blockOf (text : List Char) (name : String) : Option (List Component) :=
  ((constructs (components text)).filterMap (Construct.blockFor? name)).getLast?

theorem get?_addRules_read (sheet : Sheet) (construct : Construct) (name : String) :
    (addRules sheet construct.read.1).get? name =
      ((construct.blockFor? name).map fun body => some (readBlock body).1).getD
        (sheet.get? name) := by
  cases construct with
  | atRule => rfl
  | unfinished => rfl
  | rule selectors body =>
    rw [addRules_read_rule, Statement.get?_foldl_insert, Construct.blockFor?]
    split <;> rfl

theorem get?_readSheet (text : List Char) (name : String) :
    (readSheet text).value.get? name =
      (blockOf text name).map fun body => (readBlock body).1 := by
  have hlast := foldl_last (fun sheet : Sheet => sheet.get? name)
    (fun sheet construct => get?_addRules_read sheet construct name) .empty
    (constructs (components text))
  rw [value_readSheet, rulesFrom, addRules, List.foldl_flatMap]
  unfold addRules at hlast
  rw [hlast, ← List.map_filterMap, List.getLast?_map, ← blockOf]
  cases blockOf text name <;> rfl

/-! ## Entries of a rule -/

theorem filterMap_entries {α β : Type} {m : ArrivalMap α} (h : m.names.Nodup) (name : String)
    (f : α → Option β) :
    (m.entries.filterMap fun entry => if entry.1 = name then f entry.2 else none) =
      ((m.get? name).bind f).toList := by
  obtain ⟨entries⟩ := m
  unfold ArrivalMap.names at h
  unfold ArrivalMap.get?
  simp only at h ⊢
  induction entries with
  | nil => rfl
  | cons entry entries ih =>
    obtain ⟨key, value⟩ := entry
    rw [List.map_cons, List.nodup_cons] at h
    rw [ArrivalMap.lookup, List.filterMap_cons]
    by_cases hkey : key = name
    · -- The name does not come again.
      have hnone : (entries.filterMap fun entry =>
          if entry.1 = name then f entry.2 else none) = [] := by
        rw [List.filterMap_eq_nil_iff]
        intro entry hentry
        rw [if_neg]
        rintro rfl
        exact h.1 (List.mem_map.mpr ⟨entry, hentry, hkey.symm⟩)
      simp only [hkey, if_true, hnone, Option.bind_some]
      cases f value <;> rfl
    · simp only [hkey, if_false]
      exact ih h.2

theorem accepted_readSheet {α : Type} (text : List Char) (classes : List String)
    (property : Property) (read? : String → Option α) :
    (readSheet text).value.accepted classes property (fun _ value => read? value) =
      classes.filterMap fun name => (blockOf text name).bind fun body =>
        ((readBlock body).1.declarations.get? property.name).bind fun value =>
          read? (String.ofList (trim value.toList)) := by
  unfold Sheet.accepted
  induction classes with
  | nil => rfl
  | cons name classes ih =>
    rw [List.flatMap_cons, ih, List.filterMap_cons, get?_readSheet]
    cases blockOf text name with
    | none => rfl
    | some body =>
      have hnodup : (readBlock body).1.declarations.names.Nodup :=
        ArrivalMap.nodup_names_ofList _
      have hentries := filterMap_entries hnodup property.name
        fun value => read? (String.ofList (trim value.toList))
      simp only [Option.map_some, Option.bind_some, hentries]
      cases ((readBlock body).1.declarations.get? property.name).bind
        fun value => read? (String.ofList (trim value.toList)) <;> rfl

/-! ## Paints -/

/-- What has a color and a transparency of its own. -/
inductive Paint where
  | text
  | background
  | border
  deriving DecidableEq

namespace Paint

def color : Paint → Property
  | text => .color
  | background => .backgroundColor
  | border => .borderColor

def opacity : Paint → Property
  | text => .textOpacity
  | background => .backgroundOpacity
  | border => .borderOpacity

theorem opacityProperty_cases (property : String) :
    (∃ p : Paint, property = p.color.name ∧ opacityProperty property = p.opacity.name) ∨
      opacityProperty property = "opacity" := by
  by_cases hbackground : property = "background-color"
  · exact .inl ⟨background, hbackground, hbackground ▸ rfl⟩
  by_cases hborder : property = "border-color"
  · exact .inl ⟨border, hborder, hborder ▸ rfl⟩
  by_cases htext : property = "color"
  · exact .inl ⟨text, htext, htext ▸ rfl⟩
  · exact .inr (by simp [opacityProperty, hbackground, hborder, htext])

theorem opacityProperty_eq_iff (p : Paint) (property : String) :
    opacityProperty property = p.opacity.name ↔ property = p.color.name := by
  constructor
  · intro h
    rcases opacityProperty_cases property with ⟨q, rfl, hq⟩ | hother
    · rw [hq] at h
      revert h
      cases p <;> cases q <;> decide
    · rw [hother] at h
      exact absurd h (by cases p <;> decide)
  · rintro rfl
    cases p <;> rfl

theorem opacityProperty_ne (p : Paint) (property : String) :
    opacityProperty property ≠ p.color.name := by
  rcases opacityProperty_cases property with ⟨q, -, hq⟩ | hother
  · rw [hq]
    cases p <;> cases q <;> decide
  · rw [hother]
    cases p <;> decide

end Paint

/-- The values written for the color of a paint, but for empty ones, which make no entries. -/
def paintsAmong (p : Paint) (declarations : List (String × Written)) : List Written :=
  declarations.filterMap fun d =>
    if d.1 = p.color.name ∧ d.2.text ≠ [] then some d.2 else none

def paintsOf (p : Paint) (body : List Component) : List Written :=
  paintsAmong p (writtenDeclarations (chunks body))

section

variable (p : Paint) (declarations : List (String × Written))

theorem filterMap_color :
    ((declarations.flatMap fun d => entriesOf d.1 d.2).filterMap fun entry =>
      if entry.1 = p.color.name then some entry.2 else none) =
      (paintsAmong p declarations).map fun w => String.ofList w.text := by
  unfold paintsAmong
  induction declarations with
  | nil => rfl
  | cons d declarations ih =>
    rw [List.flatMap_cons, List.filterMap_append, ih, List.filterMap_cons]
    have hne := p.opacityProperty_ne d.1
    unfold entriesOf
    by_cases htext : d.2.text = []
    · simp [htext]
    · by_cases hname : d.1 = p.color.name
      · cases d.2.opacity <;> simp [htext, hname, hname ▸ hne]
      · cases d.2.opacity <;> simp [htext, hname, hne]

theorem filterMap_opacity (h : ∀ d ∈ declarations, d.1 ≠ p.opacity.name) :
    ((declarations.flatMap fun d => entriesOf d.1 d.2).filterMap fun entry =>
      if entry.1 = p.opacity.name then some entry.2 else none) =
      ((paintsAmong p declarations).filterMap Written.opacity).map String.ofList := by
  unfold paintsAmong
  induction declarations with
  | nil => rfl
  | cons d declarations ih =>
    obtain ⟨hd, h⟩ := List.forall_mem_cons.mp h
    rw [List.flatMap_cons, List.filterMap_append, ih h, List.filterMap_cons]
    have hiff := p.opacityProperty_eq_iff d.1
    unfold entriesOf
    by_cases htext : d.2.text = []
    · simp [htext]
    · by_cases hname : d.1 = p.color.name
      · cases hopacity : d.2.opacity <;> simp [htext, hname, hname ▸ hd, hname ▸ hiff, hopacity]
      · cases d.2.opacity <;> simp [htext, hname, hd, hiff]

end

theorem get?_readBlock_color (p : Paint) (body : List Component) :
    (readBlock body).1.declarations.get? p.color.name =
      (paintsOf p body).getLast?.map fun w => String.ofList w.text := by
  have hget := get?_ofList ((writtenDeclarations (chunks body)).flatMap fun d =>
    entriesOf d.1 d.2) p.color.name
  rw [filterMap_color, List.getLast?_map] at hget
  exact hget

theorem get?_readBlock_opacity {p : Paint} {body : List Component}
    (h : ∀ d ∈ (chunks body).filterMap Chunk.declaration?, d.1 ≠ p.opacity.name) :
    (readBlock body).1.declarations.get? p.opacity.name =
      ((paintsOf p body).filterMap Written.opacity).getLast?.map String.ofList := by
  have hwritten : ∀ d ∈ writtenDeclarations (chunks body), d.1 ≠ p.opacity.name := by
    intro d hd
    obtain ⟨declaration, hdeclaration, rfl⟩ := List.mem_map.mp hd
    exact h declaration hdeclaration
  have hget := get?_ofList ((writtenDeclarations (chunks body)).flatMap fun d =>
    entriesOf d.1 d.2) p.opacity.name
  rw [filterMap_opacity p _ hwritten, List.getLast?_map] at hget
  exact hget

theorem wellFormed_of_mem_paintsOf {p : Paint} {body : List Component} {w : Written}
    (h : w ∈ paintsOf p body) : w.WellFormed := by
  obtain ⟨d, hd, hw⟩ := List.mem_filterMap.mp h
  obtain ⟨declaration, -, rfl⟩ := List.mem_map.mp hd
  split at hw
  · obtain rfl := Option.some.inj hw
    exact wellFormed_writeValue _ _
  · cases hw

/-! ## What a block gives -/

/-- The color that a block gives: that of the last value, if it is one. -/
def colorIn? (p : Paint) (body : List Component) : Option Color :=
  (paintsOf p body).getLast?.bind fun w => Color.read? (trim w.text)

/-- The alpha that a block gives: the last one of its values, if it is finite. -/
def alphaIn? (p : Paint) (body : List Component) : Option Float :=
  ((paintsOf p body).filterMap Written.opacity).getLast?.bind Length.firstNumber?

/-- What the last class gives, of those that give anything. -/
def lastGiven {α : Type} (text : List Char) (classes : List String)
    (give? : List Component → Option α) : Option α :=
  (classes.filterMap fun name => (blockOf text name).bind give?).getLast?

/-- No block of the classes declares an opacity of a paint itself. -/
def DeclaresNoOpacity (text : List Char) (classes : List String) : Prop :=
  ∀ name ∈ classes, ∀ body ∈ blockOf text name,
    ∀ d ∈ (chunks body).filterMap Chunk.declaration?,
      d.1 ∉ ["text-opacity", "background-opacity", "border-opacity"]

instance (text : List Char) (classes : List String) :
    Decidable (DeclaresNoOpacity text classes) :=
  inferInstanceAs (Decidable (∀ name ∈ classes, ∀ body ∈ blockOf text name, _))

theorem opacity_mem (p : Paint) :
    p.opacity.name ∈ ["text-opacity", "background-opacity", "border-opacity"] := by
  cases p <;> decide

theorem toOpacity_printed {alpha : List Char} (h : Printed alpha) :
    (Length.read? (trim alpha)).map Length.toOpacity = Length.firstNumber? alpha := by
  unfold Length.firstNumber?
  rw [trim_of_no_blank h.no_blank]
  rcases Length.read?_printed h with hnone | ⟨x, -, hx⟩
  · rw [hnone]; rfl
  · rw [hx]; rfl

section

variable {α : Type} (sheet : Sheet) (classes : List String)

/-- The colors of a paint that are accepted. -/
def acceptedColors (p : Paint) (make : Color → α) : List α :=
  sheet.accepted classes p.color fun _ value => (Color.read? value.toList).map make

/-- The opacities of a paint that are accepted, each as what is made of its number. -/
def acceptedOpacities (p : Paint) (make : Float → α) : List α :=
  sheet.accepted classes p.opacity fun _ value =>
    (Length.read? value.toList).map fun length => make length.toOpacity

theorem finalAttribute_paints :
    sheet.finalAttribute classes .color = (acceptedColors sheet classes .text .color).getLast? ∧
    sheet.finalAttribute classes .textOpacity =
      (acceptedOpacities sheet classes .text fun a => .number (1 - a)).getLast? ∧
    sheet.finalAttribute classes .backgroundColor =
      (acceptedColors sheet classes .background .color).getLast? ∧
    sheet.finalAttribute classes .backgroundOpacity =
      (acceptedOpacities sheet classes .background fun a => .number (1 - a)).getLast? :=
  ⟨rfl, rfl, rfl, rfl⟩

theorem final_border :
    sheet.final classes .borderColor =
      (acceptedColors sheet classes .border some).getLast?.getD none ∧
    sheet.final classes .borderOpacity =
      (acceptedOpacities sheet classes .border fun a => 1 - a).getLast?.getD 0 :=
  ⟨rfl, rfl⟩

end

section

variable (text : List Char) (classes : List String) {β : Type}

theorem getLast?_acceptedColors (p : Paint) (make : Color → β) :
    (acceptedColors (readSheet text).value classes p make).getLast? =
      (lastGiven text classes (colorIn? p)).map make := by
  unfold acceptedColors lastGiven
  rw [accepted_readSheet, ← List.getLast?_map, List.map_filterMap]
  congr 1
  congr 1
  funext name
  cases blockOf text name with
  | none => rfl
  | some body =>
    simp only [Option.bind_some, get?_readBlock_color, colorIn?]
    cases (paintsOf p body).getLast? with
    | none => rfl
    | some w => simp [String.toList_ofList]

theorem read_opacity {body : List Component} {p : Paint}
    (h : ∀ d ∈ (chunks body).filterMap Chunk.declaration?, d.1 ≠ p.opacity.name)
    (make : Float → β) :
    (((readBlock body).1.declarations.get? p.opacity.name).bind fun value =>
      (Length.read? (String.ofList (trim value.toList)).toList).map fun length =>
        make length.toOpacity) = (alphaIn? p body).map make := by
  rw [get?_readBlock_opacity h, alphaIn?]
  cases halpha : ((paintsOf p body).filterMap Written.opacity).getLast? with
  | none => rfl
  | some alpha =>
    obtain ⟨w, hw, hopacity⟩ := List.mem_filterMap.mp (List.mem_of_getLast? halpha)
    obtain ⟨x, rfl⟩ := (wellFormed_of_mem_paintsOf hw).opacity alpha hopacity
    have hread := toOpacity_printed (printed_writeSingle x)
    simp only [Option.map_some, Option.bind_some, String.toList_ofList, ← hread, Option.map_map]
    rfl

theorem getLast?_acceptedOpacities {text : List Char} {classes : List String}
    (h : DeclaresNoOpacity text classes) (p : Paint) (make : Float → β) :
    (acceptedOpacities (readSheet text).value classes p make).getLast? =
      (lastGiven text classes (alphaIn? p)).map make := by
  unfold acceptedOpacities lastGiven
  rw [accepted_readSheet, ← List.getLast?_map]
  congr 1
  induction classes with
  | nil => rfl
  | cons name classes ih =>
    obtain ⟨hname, h⟩ := List.forall_mem_cons.mp h
    rw [List.filterMap_cons, List.filterMap_cons, ih h]
    cases hblock : blockOf text name with
    | none => rfl
    | some body =>
      have hno : ∀ d ∈ (chunks body).filterMap Chunk.declaration?, d.1 ≠ p.opacity.name :=
        fun d hd hd' => hname body hblock d hd (hd' ▸ opacity_mem p)
      have hread := read_opacity hno make
      simp only [Option.bind_some, hread]
      cases alphaIn? p body <;> rfl

end

/-! ## What the synthesis carries -/

theorem given_eq_nil {α : Type} {text : List Char} {classes : List String}
    {give? : List Component → Option α}
    (h : ∀ name ∈ classes, ∀ body ∈ blockOf text name, give? body = none) :
    (classes.filterMap fun name => (blockOf text name).bind give?) = [] := by
  rw [List.filterMap_eq_nil_iff]
  intro name hname
  cases hblock : blockOf text name with
  | none => rfl
  | some body => exact h name hname body hblock

theorem lastGiven_append {α : Type} {text : List Char} {before after : List String}
    {name : String} {body : List Component} {give? : List Component → Option α} {v : α}
    (hbody : blockOf text name = some body) (hgive : give? body = some v)
    (hafter : ∀ later ∈ after, ∀ body ∈ blockOf text later, give? body = none) :
    lastGiven text (before ++ name :: after) give? = some v := by
  have hnone := given_eq_nil hafter
  have hname : (blockOf text name).bind give? = some v := by rw [hbody]; exact hgive
  unfold lastGiven
  rw [List.filterMap_append, List.filterMap_cons]
  simp only [hname, hnone, List.getLast?_concat]

theorem give_of_getLast? {p : Paint} {body : List Component} {w : Written} {c : Color} {a : Float}
    (hlast : (paintsOf p body).getLast? = some w) (hcolor : Color.read? (trim w.text) = some c)
    (halpha : w.opacity.bind Length.firstNumber? = some a) :
    colorIn? p body = some c ∧ alphaIn? p body = some a := by
  obtain ⟨alpha, hopacity, hnumber⟩ := Option.bind_eq_some_iff.mp halpha
  obtain ⟨earlier, hpaints⟩ := List.getLast?_eq_some_iff.mp hlast
  constructor
  · unfold colorIn?
    rw [hlast]
    exact hcolor
  · unfold alphaIn?
    rw [hpaints, List.filterMap_append, List.filterMap_cons_some hopacity, List.filterMap_nil,
      List.getLast?_concat]
    exact hnumber

theorem alphaIn?_eq_none {p : Paint} {body : List Component}
    (h : ∀ w ∈ paintsOf p body, w.opacity = none) : alphaIn? p body = none := by
  unfold alphaIn?
  rw [List.filterMap_eq_nil_iff.mpr h]
  rfl

theorem give_of_no_paints {p : Paint} {body : List Component} (h : paintsOf p body = []) :
    colorIn? p body = none ∧ alphaIn? p body = none := by
  refine ⟨?_, alphaIn?_eq_none (by simp [h])⟩
  unfold colorIn?
  rw [h]
  rfl

theorem get?_synthesis (sheet : Sheet) (request : Request) (f : AttributeField) :
    (sheet.synthesis request).attributes.get? (f.name request.isText) =
      sheet.finalAttribute request.classes f := by
  rw [← get?_draft]
  exact (get?_finish (bounded_draft sheet request) _).2.2.2 _ (name_not_mem_style f _)

/-- The synthesis has the last color that its classes give a paint, and the transparency of the
last alpha that they give it. Both come from the last value of the paint if that is a color with a
finite alpha, whatever was declared before. -/
theorem synthesis_paints (text : List Char) (request : Request)
    (h : DeclaresNoOpacity text request.classes) :
    let result := (readSheet text).value.synthesis request
    let color := fun p => lastGiven text request.classes (colorIn? p)
    let alpha := fun p => lastGiven text request.classes (alphaIn? p)
    (result.attributes.get? (AttributeField.color.name request.isText) =
        (color .text).map .color ∧
      result.attributes.get? "TextTransparency" = (alpha .text).map fun a => .number (1 - a)) ∧
    (result.attributes.get? "BackgroundColor3" = (color .background).map .color ∧
      result.attributes.get? "BackgroundTransparency" =
        (alpha .background).map fun a => .number (1 - a)) ∧
    (∃ border : Border, border.color = color .border ∧
      border.transparency = ((alpha .border).map fun a => 1 - a).getD 0 ∧
      result.nodesOf .stroke =
        if border.isStandard then []
        else [.ofList .stroke
          [("Thickness", .number border.width),
            ("Color", (border.color.map .color).getD .empty),
            ("Transparency", .number border.transparency),
            ("ApplyStrokeMode", .ofItem StrokeMode.border)]]) ∧
    ∀ p : Paint,
      (∀ before name after body w c a, request.classes = before ++ name :: after →
        blockOf text name = some body → (paintsOf p body).getLast? = some w →
        (∀ later ∈ after, ∀ body ∈ blockOf text later, paintsOf p body = []) →
        Color.read? (trim w.text) = some c → w.opacity.bind Length.firstNumber? = some a →
        color p = some c ∧ alpha p = some a) ∧
      ((∀ name ∈ request.classes, ∀ body ∈ blockOf text name, ∀ w ∈ paintsOf p body,
        w.opacity = none) → alpha p = none) := by
  intro result color alpha
  have hattribute := get?_synthesis (readSheet text).value request
  obtain ⟨htext, htextAlpha, hbackground, hbackgroundAlpha⟩ :=
    finalAttribute_paints (readSheet text).value request.classes
  obtain ⟨hborder, hborderAlpha⟩ := final_border (readSheet text).value request.classes
  refine ⟨⟨?_, ?_⟩, ⟨?_, ?_⟩, ?_, fun p => ⟨?_, ?_⟩⟩
  · rw [hattribute, htext, getLast?_acceptedColors]
  · have hget : result.attributes.get? "TextTransparency" = _ := hattribute .textOpacity
    rw [hget, htextAlpha, getLast?_acceptedOpacities h]
  · have hget : result.attributes.get? "BackgroundColor3" = _ := hattribute .backgroundColor
    rw [hget, hbackground, getLast?_acceptedColors]
  · have hget : result.attributes.get? "BackgroundTransparency" = _ :=
      hattribute .backgroundOpacity
    rw [hget, hbackgroundAlpha, getLast?_acceptedOpacities h]
  · refine ⟨(readSheet text).value.finalBorder request.classes, ?_, ?_, ?_⟩
    · rw [Sheet.finalBorder, hborder, getLast?_acceptedColors]
      show ((color .border).map some).getD none = color .border
      cases color .border <;> rfl
    · rw [Sheet.finalBorder, hborderAlpha, getLast?_acceptedOpacities h]
    · have hstroke := (nodesOf_finish (bounded_draft (readSheet text).value request)
        (((readSheet text).value.applications request.classes).filterMap
          fun a => a.warning? request.isText)).1
      rw [border_draft] at hstroke
      exact hstroke
  · intro before name after body w c a hclasses hbody hlast hafter hc ha
    obtain ⟨hgiven, hgiven'⟩ := give_of_getLast? hlast hc ha
    constructor
    · show lastGiven text request.classes (colorIn? p) = some c
      rw [hclasses]
      exact lastGiven_append hbody hgiven fun later hlater body hblock =>
        (give_of_no_paints (hafter later hlater body hblock)).1
    · show lastGiven text request.classes (alphaIn? p) = some a
      rw [hclasses]
      exact lastGiven_append hbody hgiven' fun later hlater body hblock =>
        (give_of_no_paints (hafter later hlater body hblock)).2
  · intro hnone
    have hgiven := given_eq_nil fun name hname body hblock =>
      alphaIn?_eq_none (hnone name hname body hblock)
    show (request.classes.filterMap fun name =>
      (blockOf text name).bind (alphaIn? p)).getLast? = none
    rw [hgiven]
    rfl

def translucentAgain : List Char :=
  ".a \x7b color: rgb(9 9 9 / 0.1); color: #fff; color: rgb(1 2 3 / 0.5) \x7d".toList

theorem synthesis_paints_translucent :
    DeclaresNoOpacity translucentAgain ["a"] ∧
    let result := (readSheet translucentAgain).value.synthesis ⟨["a"], true⟩
    result.attributes.get? "TextColor3" = some (.color ⟨1, 2, 3⟩) ∧
      result.attributes.get? "TextTransparency" = some (.number 0.5) := by
  have hno : DeclaresNoOpacity translucentAgain ["a"] := by decide +kernel
  have hvalue : ((blockOf translucentAgain "a").bind fun body =>
      (paintsOf .text body).getLast?.map fun w =>
        (Color.read? (trim w.text), w.opacity.bind Length.firstNumber?)) =
      some (some ⟨1, 2, 3⟩, some 0.5) := by decide +kernel
  obtain ⟨body, hbody, hlast⟩ := Option.bind_eq_some_iff.mp hvalue
  obtain ⟨w, hlast, hw⟩ := Option.map_eq_some_iff.mp hlast
  obtain ⟨⟨hcolor, halpha⟩, -, -, hpaint⟩ := synthesis_paints translucentAgain ⟨["a"], true⟩ hno
  obtain ⟨hcolor', halpha'⟩ := (hpaint .text).1 [] "a" [] body w _ _ rfl hbody hlast
    (List.forall_mem_nil _) (congrArg Prod.fst hw) (congrArg Prod.snd hw)
  refine ⟨hno, hcolor.trans ?_, halpha.trans ?_⟩
  · rw [hcolor']
    rfl
  · rw [halpha']
    decide +kernel

def opaqueAgain : List Char := ".a \x7b color: rgb(1 2 3 / 0.5); color: #fff \x7d".toList

/-- A color without alpha keeps the transparency of the color that it replaces: the text is white,
which is declared without alpha, and yet half transparent. -/
theorem synthesis_opaqueAgain :
    DeclaresNoOpacity opaqueAgain ["a"] ∧
    (∃ body w, blockOf opaqueAgain "a" = some body ∧ (paintsOf .text body).getLast? = some w ∧
      Color.read? (trim w.text) = some ⟨255, 255, 255⟩ ∧ w.opacity = none) ∧
    let result := (readSheet opaqueAgain).value.synthesis ⟨["a"], true⟩
    result.attributes.get? "TextColor3" = some (.color ⟨255, 255, 255⟩) ∧
      result.attributes.get? "TextTransparency" = some (.number 0.5) := by
  have hvalue : ((blockOf opaqueAgain "a").bind fun body =>
      (paintsOf .text body).getLast?.map fun w => (Color.read? (trim w.text), w.opacity)) =
      some (some ⟨255, 255, 255⟩, none) := by decide +kernel
  obtain ⟨body, hbody, hlast⟩ := Option.bind_eq_some_iff.mp hvalue
  obtain ⟨w, hlast, hw⟩ := Option.map_eq_some_iff.mp hlast
  exact ⟨by decide +kernel,
    ⟨body, w, hbody, hlast, congrArg Prod.fst hw, congrArg Prod.snd hw⟩, by decide +kernel⟩

end ClassStyle.Css
