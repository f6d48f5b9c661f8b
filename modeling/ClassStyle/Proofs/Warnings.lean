import ClassStyle.Proofs.Emission
import ClassStyle.Proofs.Revisions
import ClassStyle.Proofs.Settled

/-!
# Warnings

The warnings of an element are those of its declarations, each under the name of its class, and one
more for a stroke without a color. They are logged as they are given, and declarations that can
only warn have no part in what is worked out (`Sheet.synthesize_warnings`).
-/

namespace ClassStyle

open Text

/-! ## Warnings of declarations -/

/-- The feature that a declaration asks for, if the target lacks it. -/
def unsupported? (entry : String × String) : Option Feature :=
  let value := String.ofList (trim entry.2.toList)
  if entry.1 = "border-style" then some .borderStyle
  else if entry.1 ∈ ["border-left-width", "border-right-width", "border-top-width",
      "border-bottom-width"] then some .borderSideWidth
  else if entry.1 = "flex-wrap" ∧ value ≠ "nowrap" then some .flexWrap
  else if entry.1 = "flex-direction" ∧ occursIn "reverse".toList value.toList then
    some .flexReverse
  else if entry.1 = "align-items" ∧ value = "baseline" then some .baselineItems
  else none

/-- What the classes ask for and the target lacks, declaration by declaration. A class that is
named again asks again. -/
def Sheet.unsupported (sheet : Sheet) (classes : List String) : List Warning :=
  (sheet.matched classes).flatMap fun entry =>
    entry.2.declarations.entries.filterMap fun declaration =>
      (unsupported? declaration).map fun feature => .unsupported entry.1 feature

/-- Some value of the property makes a warning. -/
def Property.warns : Property → Bool
  | borderStyle | borderSideWidth _ | flexWrap | flexDirection | alignItems => true
  | _ => false

theorem unsupported?_eq_none {name : String}
    (h : ∀ p : Property, p.warns = true → name ≠ p.name) (value : String) :
    unsupported? (name, value) = none := by
  have hstyle : name ≠ "border-style" := h .borderStyle rfl
  have hleft : name ≠ "border-left-width" := h (.borderSideWidth .left) rfl
  have hright : name ≠ "border-right-width" := h (.borderSideWidth .right) rfl
  have htop : name ≠ "border-top-width" := h (.borderSideWidth .top) rfl
  have hbottom : name ≠ "border-bottom-width" := h (.borderSideWidth .bottom) rfl
  have hwrap : name ≠ "flex-wrap" := h .flexWrap rfl
  have hdirection : name ≠ "flex-direction" := h .flexDirection rfl
  have hitems : name ≠ "align-items" := h .alignItems rfl
  simp [unsupported?, hstyle, hleft, hright, htop, hbottom, hwrap, hdirection, hitems]

section

variable (p : Property) (isText : Bool) (em : Float) (className value : String)

theorem warning?_of_not_warns {p : Property} (hp : p.warns = false) :
    (p.read isText em value).remark.bind (Remark.warning? className) = none := by
  have horElse : ∀ (setting : Option Setting) (remark : Remark),
      remark.warning? className = none →
      (Reading.orElse setting remark).remark.bind (Remark.warning? className) = none := by
    intro setting remark h
    cases setting with
    | none => exact h
    | some s => rfl
  cases p with
  | color | backgroundColor | fontWeight | aspectRatio | borderColor => exact horElse _ _ rfl
  | borderStyle | borderSideWidth | flexWrap | flexDirection | alignItems => cases hp
  | _ => rfl

theorem warning?_read :
    (p.read isText em (String.ofList (trim value.toList))).remark.bind
        (Remark.warning? className) =
      (unsupported? (p.name, value)).map fun feature => .unsupported className feature := by
  cases hp : p.warns with
  | false =>
    have hnone : unsupported? (p.name, value) = none := by
      apply unsupported?_eq_none
      rintro q hq hname
      rw [name_eq_iff.mp hname, hq] at hp
      cases hp
    rw [hnone]
    exact warning?_of_not_warns isText em className _ hp
  | true =>
    cases p with
    | borderStyle => rfl
    | borderSideWidth side => cases side <;> rfl
    | flexWrap =>
      by_cases h : String.ofList (trim value.toList) = "nowrap" <;>
        simp [unsupported?, Property.name, Property.read, h, Reading.silent,
          Reading.unsupported, Remark.warning?]
    | flexDirection =>
      generalize hvalue : String.ofList (trim value.toList) = text
      by_cases h : occursIn "reverse".toList text.toList = true <;>
        simp only [unsupported?, Property.name, Property.read, hvalue, h] <;> rfl
    | alignItems =>
      by_cases h : String.ofList (trim value.toList) = "baseline" <;>
        simp [unsupported?, Property.name, Property.read, h, Remark.warning?]
    | _ => cases hp

theorem warning?_entry (entry : String × String) :
    ((Application.ofEntry? className em entry).bind fun a => a.warning? isText) =
      (unsupported? entry).map fun feature => .unsupported className feature := by
  obtain ⟨name, value⟩ := entry
  unfold Application.ofEntry?
  cases hname : Property.ofName? name with
  | none =>
    rw [unsupported?_eq_none]
    · rfl
    · rintro q - rfl
      rw [Property.ofName?_name] at hname
      cases hname
  | some q =>
    rw [← Property.name_of_ofName? hname]
    exact warning?_read q isText em className value

end

theorem unsupported_eq (sheet : Sheet) (classes : List String) :
    sheet.unsupported classes =
      classes.flatMap fun className =>
        (sheet.declarations className).entries.filterMap fun declaration =>
          (unsupported? declaration).map fun feature => .unsupported className feature :=
  flatMap_matched
    (f := fun className declarations => declarations.entries.filterMap fun declaration =>
      (unsupported? declaration).map fun feature => Warning.unsupported className feature)
    (fun _ => rfl) sheet classes

theorem warnings_applications (sheet : Sheet) (classes : List String) (isText : Bool) :
    ((sheet.applications classes).filterMap fun a => a.warning? isText) =
      sheet.unsupported classes := by
  rw [unsupported_eq, filterMap_applications_entries sheet classes
    fun className em entry => warning?_entry isText em className entry]

theorem warnings_synthesis (sheet : Sheet) (request : Request) :
    (sheet.synthesis request).warnings =
      sheet.unsupported request.classes ++ (sheet.draft request).style.warnings :=
  congrArg (· ++ _) (warnings_applications sheet request.classes request.isText)

/-! ## Strokes without a color -/

theorem strokeWithoutColor_iff (b : Border) :
    (Style.strokeNode b).attributes.get? "Color" = some .empty ↔ b.color = none := by
  have hcolor : (Style.strokeNode b).attributes.get? "Color" =
      some ((b.color.map AttributeValue.color).getD .empty) := rfl
  rw [hcolor]
  cases b.color <;> simp

theorem warnings_style (sheet : Sheet) (request : Request) :
    (sheet.draft request).style.warnings =
      if ∃ node ∈ (sheet.synthesis request).nodesOf .stroke,
          node.attributes.get? "Color" = some .empty then [.strokeWithoutColor] else [] := by
  have hnodes := (nodesOf_finish (bounded_draft sheet request)
    ((sheet.applications request.classes).filterMap fun a => a.warning? request.isText)).1
  unfold Style.warnings Sheet.synthesis
  rw [hnodes]
  cases (sheet.draft request).style.border.isStandard with
  | true => simp
  | false =>
    have hiff := strokeWithoutColor_iff (sheet.draft request).style.border
    simp [hiff]

/-! ## Records -/

/-- The record of a warning. The class of an unsupported feature stands beside the message. -/
def Warning.record : Warning → Record
  | unsupported className feature =>
    { level := .warn, area := .synthesis, message := feature.message, className := some className }
  | strokeWithoutColor =>
    { level := .warn, area := .synthesis, message := strokeWithoutColor.message
      className := none }

def Record.isWarning (r : Record) : Bool := r.level = .warn ∧ r.area = .synthesis

theorem filter_record? (a : Application) (isText : Bool) :
    (a.record? isText).filter Record.isWarning = (a.warning? isText).map Warning.record := by
  unfold Application.record? Application.warning?
  cases (a.read isText).remark with
  | none => rfl
  | some remark => cases remark <;> rfl

theorem records_warnings (sheet : Sheet) (request : Request) :
    (sheet.synthesize request).records.filter Record.isWarning =
      (sheet.synthesis request).warnings.map Warning.record := by
  have hstroke : ∀ s : Style, (s.warnings.map Sheet.strokeRecord).filter Record.isWarning =
      s.warnings.map Warning.record := by
    intro s
    unfold Style.warnings
    split <;> rfl
  unfold Sheet.synthesize Sheet.synthesis Draft.finish
  rw [List.filter_append, List.map_append, hstroke, List.filter_filterMap, List.map_filterMap]
  simp only [filter_record?]

/-! ## Declarations left out -/

/-- The map with its values changed. -/
def SortedMap.map {α β : Type} (f : α → β) (m : SortedMap α) : SortedMap β where
  entries := m.entries.map fun entry => (entry.1, f entry.2)
  ascending := by
    rw [List.map_map]
    exact m.ascending

theorem SortedMap.get?_map {α β : Type} (f : α → β) (m : SortedMap α) (key : String) :
    (m.map f).get? key = (m.get? key).map f := by
  obtain ⟨entries, ascending⟩ := m
  simp only [get?, map]
  clear ascending
  induction entries with
  | nil => rfl
  | cons entry entries ih =>
    rw [List.map_cons, lookup, lookup, ih]
    split <;> rfl

/-- The sheet with the declarations of some properties only. -/
def Sheet.keeping (keep : String → Bool) (sheet : Sheet) : Sheet :=
  { sheet with
    classes := sheet.classes.map fun rule =>
      { rule with
        declarations := ⟨rule.declarations.entries.filter fun entry => keep entry.1⟩ } }

theorem declarations_keeping (keep : String → Bool) (sheet : Sheet) (className : String) :
    ((sheet.keeping keep).declarations className).entries =
      (sheet.declarations className).entries.filter fun entry => keep entry.1 := by
  unfold Sheet.declarations Sheet.keeping Sheet.get?
  rw [SortedMap.get?_map]
  cases sheet.classes.get? className <;> rfl

/-- The property can do more than warn. -/
def canShow (name : String) : Bool :=
  name ∉ ["border-style", "border-left-width", "border-right-width", "border-top-width",
    "border-bottom-width", "flex-wrap"]

theorem entrySetting?_of_not_canShow {entry : String × String} (h : canShow entry.1 = false)
    (isText : Bool) (em : Float) : entrySetting? isText em entry = none := by
  obtain ⟨name, value⟩ := entry
  have hmem : name ∈ ([.borderStyle, .borderSideWidth .left, .borderSideWidth .right,
      .borderSideWidth .top, .borderSideWidth .bottom, .flexWrap] : List Property).map
        Property.name := of_not_not (of_decide_eq_false h)
  obtain ⟨p, hp, rfl⟩ := List.mem_map.mp hmem
  rw [entrySetting?_name]
  simp only [List.mem_cons, List.not_mem_nil, or_false] at hp
  rcases hp with rfl | rfl | rfl | rfl | rfl | rfl
  · rfl
  · rfl
  · rfl
  · rfl
  · rfl
  · unfold Property.read
    by_cases hwrap : String.ofList (trim value.toList) = "nowrap" <;>
      simp [hwrap, Reading.silent, Reading.unsupported]

theorem draft_keeping (sheet : Sheet) (request : Request) :
    (sheet.keeping canShow).draft request = sheet.draft request := by
  have hfontSize : ∀ className,
      classFontSize ((sheet.keeping canShow).declarations className) =
        classFontSize (sheet.declarations className) := by
    intro className
    have hshow : canShow Property.fontSize.name = true := by decide
    unfold classFontSize ArrivalMap.get?
    rw [declarations_keeping, lookup_filter canShow hshow]
  unfold Sheet.draft
  rw [filterMap_setting?, filterMap_setting?]
  refine congrArg Draft.empty.setAll (List.flatMap_congr ?_)
  intro className _
  rw [hfontSize, declarations_keeping]
  apply filterMap_filter_names
  intro entry hentry
  exact entrySetting?_of_not_canShow hentry request.isText _

/-! ## Syntheses -/

/-- The warnings of a synthesis come declaration by declaration, each under the name of its class,
and at the end there is one more if a stroke is made without a color. The records that warn are
those of the warnings. What can only warn may be left out. -/
theorem Sheet.synthesize_warnings (sheet : Sheet) (request : Request) :
    let result := (sheet.synthesize request).value
    result.warnings = sheet.unsupported request.classes ++
      (if ∃ node ∈ result.nodesOf .stroke, node.attributes.get? "Color" = some .empty then
        [.strokeWithoutColor] else []) ∧
    ((sheet.synthesize request).records.filter fun r => r.level = .warn ∧ r.area = .synthesis) =
      result.warnings.map Warning.record ∧
    let rest := ((sheet.keeping canShow).synthesize request).value
    rest.attributes = result.attributes ∧ rest.nodes = result.nodes := by
  intro result
  refine ⟨?_, records_warnings sheet request, ?_⟩
  · have hwarnings : result.warnings =
        ((sheet.applications request.classes).filterMap fun a => a.warning? request.isText) ++
          (sheet.draft request).style.warnings := rfl
    rw [hwarnings, warnings_applications, warnings_style]
    rfl
  · have hdraft := draft_keeping sheet request
    simp only [result, Sheet.synthesize, Sheet.synthesis, Draft.finish, hdraft, and_self]

end ClassStyle
