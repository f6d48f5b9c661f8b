import ClassStyle.Proofs.Fields

/-!
# What the fields make

The synthesis of an element holds the final values of its fields: attributes that some declaration
set, and attributes and nodes of those parts of the style that are not as they are when nothing is
said (`Sheet.synthesis_final`).
-/

namespace ClassStyle

/-! ## Final values -/

namespace Sheet

variable (sheet : Sheet) (classes : List String)

def finalFont : FontFace where
  family := FontFace.standard.family
  weight := sheet.final classes .fontWeight
  style := sheet.final classes .fontStyle

def finalBorder : Border where
  width := sheet.final classes .borderWidth
  color := sheet.final classes .borderColor
  transparency := sheet.final classes .borderOpacity

def finalSize : Size where
  minWidth := sheet.final classes .minWidth
  minHeight := sheet.final classes .minHeight
  maxWidth := sheet.final classes .maxWidth
  maxHeight := sheet.final classes .maxHeight
  width := sheet.final classes .width
  height := sheet.final classes .height

def finalPosition : Position where
  left := sheet.final classes .left
  top := sheet.final classes .top

end Sheet

/-! ## Drafts -/

/-- Declarations set no attributes but those of the fields, make no nodes of those parts that a
style makes nodes of, and keep the family of the font. -/
structure Draft.Bounded (isText : Bool) (d : Draft) : Prop where
  named : ∀ name, (d.attributes.get? name).isSome = true →
    ∃ f : AttributeField, name = f.name isText
  made : ∀ node ∈ d.nodes, node.kind = .cornerRadius ∨ node.kind = .aspectRatioConstraint
  family : d.style.font.family = FontFace.standard.family

theorem family_edit (s : Style) (e : StyleEdit) :
    (s.edit e).font.family = s.font.family := by
  cases e <;> rfl

theorem Draft.Bounded.set {isText : Bool} {d : Draft} (h : d.Bounded isText) {s : Setting}
    {r : Role} (hs : s.Writes isText r) : (d.set s).Bounded isText := by
  obtain ⟨hnamed, hmade, hfamily⟩ := h
  cases hs with
  | element f v =>
    refine ⟨?_, hmade, hfamily⟩
    intro name hname
    by_cases hf : f.name isText = name
    · exact ⟨f, hf.symm⟩
    · have hput := ArrivalMap.get?_put_of_ne d.attributes hf v
      exact hnamed name (by rw [← hput]; exact hname)
  | node hkind =>
    refine ⟨hnamed, ?_, hfamily⟩
    intro node hnode
    rcases List.mem_append.mp hnode with hnode | hnode
    · exact hmade node hnode
    · obtain rfl := List.mem_singleton.mp hnode
      exact hkind
  | style he => exact ⟨hnamed, hmade, (family_edit d.style _).trans hfamily⟩
  | edit he => exact ⟨hnamed, hmade, (family_edit d.style _).trans hfamily⟩

theorem Draft.Bounded.apply {isText : Bool} {d : Draft} (h : d.Bounded isText)
    (a : Application) : (d.apply isText a).Bounded isText := by
  unfold Draft.apply
  cases hs : a.setting? isText with
  | none => exact h
  | some s => exact h.set (writes_setting hs)

theorem Draft.Bounded.foldl {isText : Bool} {d : Draft} (h : d.Bounded isText)
    (applications : List Application) :
    (applications.foldl (Draft.apply isText) d).Bounded isText := by
  induction applications generalizing d with
  | nil => exact h
  | cons a applications ih => exact ih (h.apply a)

theorem bounded_draft (sheet : Sheet) (request : Request) :
    (sheet.draft request).Bounded request.isText := by
  rw [draft_eq_foldl]
  refine Draft.Bounded.foldl ⟨?_, ?_, rfl⟩ _
  · intro name hname
    simp [Draft.empty] at hname
  · simp [Draft.empty]

theorem font_draft (sheet : Sheet) (request : Request) :
    (sheet.draft request).style.font = sheet.finalFont request.classes := by
  have hfamily := (bounded_draft sheet request).family
  have hweight := content_draft sheet request .fontWeight
  have hstyle := content_draft sheet request .fontStyle
  unfold Sheet.finalFont
  rw [← hweight, ← hstyle, ← hfamily]
  rfl

theorem border_draft (sheet : Sheet) (request : Request) :
    (sheet.draft request).style.border = sheet.finalBorder request.classes := by
  unfold Sheet.finalBorder
  simp only [← content_draft sheet request]
  rfl

theorem size_draft (sheet : Sheet) (request : Request) :
    (sheet.draft request).style.size = sheet.finalSize request.classes := by
  unfold Sheet.finalSize
  simp only [← content_draft sheet request]
  rfl

theorem position_draft (sheet : Sheet) (request : Request) :
    (sheet.draft request).style.position = sheet.finalPosition request.classes := by
  unfold Sheet.finalPosition
  simp only [← content_draft sheet request]
  rfl

/-! ## Attributes -/

theorem name_not_mem_style (f : AttributeField) (isText : Bool) :
    f.name isText ∉ ["FontFace", "AnchorPoint", "Size", "Position"] := by
  cases isText <;> cases f <;> decide

theorem Draft.Bounded.get?_of_no_field {isText : Bool} {d : Draft} (h : d.Bounded isText)
    {name : String} (hname : ¬∃ f : AttributeField, name = f.name isText) :
    d.attributes.get? name = none :=
  Option.not_isSome_iff_eq_none.mp fun hsome => hname (h.named name hsome)

theorem Draft.Bounded.get?_eq_none {isText : Bool} {d : Draft} (h : d.Bounded isText)
    {name : String} (hname : name ∈ ["FontFace", "AnchorPoint", "Size", "Position"]) :
    d.attributes.get? name = none := by
  cases hget : d.attributes.get? name with
  | none => rfl
  | some v =>
    obtain ⟨f, rfl⟩ := h.named name (by simp [hget])
    exact absurd hname (name_not_mem_style f isText)

theorem putAll_append {α : Type} (m : ArrivalMap α) (a b : List (String × α)) :
    m.putAll (a ++ b) = (m.putAll a).putAll b := List.foldl_append

section

variable {α : Type} (c : Prop) [Decidable c] (m : ArrivalMap α) (name other : String) (value : α)

theorem get?_putAll_if :
    (m.putAll (if c then [(name, value)] else [])).get? other =
      if c ∧ name = other then some value else m.get? other := by
  by_cases hc : c
  · simp [hc, ArrivalMap.putAll, ArrivalMap.get?_put]
  · simp [hc, ArrivalMap.putAll]

theorem get?_putAll_unless :
    (m.putAll (if c then [] else [(name, value)])).get? other =
      if ¬c ∧ name = other then some value else m.get? other := by
  by_cases hc : c
  · simp [hc, ArrivalMap.putAll]
  · simp [hc, ArrivalMap.putAll, ArrivalMap.get?_put]

end

theorem get?_finish {isText : Bool} {d : Draft} (h : d.Bounded isText)
    (warnings : List Warning) :
    (d.finish isText warnings).attributes.get? "FontFace" =
      (if isText = true ∧ d.style.font ≠ .standard then some (.font d.style.font) else none) ∧
    (d.finish isText warnings).attributes.get? "Size" =
      (if d.style.size.hasStandardExtent then none else some (.udim2 d.style.size.extent)) ∧
    (d.finish isText warnings).attributes.get? "Position" =
      (if d.style.position.isZero then none
        else some (.udim2 ⟨d.style.position.left, d.style.position.top⟩)) ∧
    ∀ name, name ∉ ["FontFace", "AnchorPoint", "Size", "Position"] →
      (d.finish isText warnings).attributes.get? name = d.attributes.get? name := by
  have hfont : d.attributes.get? "FontFace" = none := h.get?_eq_none (by simp)
  have hsize : d.attributes.get? "Size" = none := h.get?_eq_none (by simp)
  have hposition : d.attributes.get? "Position" = none := h.get?_eq_none (by simp)
  unfold Draft.finish Style.attributes
  simp only [putAll_append, get?_putAll_if, get?_putAll_unless]
  refine ⟨?_, ?_, ?_, ?_⟩
  · simp [hfont]
  · cases d.style.size.hasStandardExtent <;> simp [hsize]
  · cases d.style.position.isZero <;> simp [hposition]
  · intro name hname
    simp only [List.mem_cons, List.not_mem_nil, or_false, not_or] at hname
    obtain ⟨h₁, h₂, h₃, h₄⟩ := hname
    simp [Ne.symm h₁, Ne.symm h₂, Ne.symm h₃, Ne.symm h₄]

/-! ## Nodes -/

theorem Draft.Bounded.filter_nodes {isText : Bool} {d : Draft} (h : d.Bounded isText)
    (kind : NodeKind) (hcorner : kind ≠ .cornerRadius) (hratio : kind ≠ .aspectRatioConstraint) :
    (d.nodes.filter fun node => node.kind = kind) = [] := by
  rw [List.filter_eq_nil_iff]
  intro node hnode hkind
  rcases h.made node hnode with hmade | hmade <;> simp_all

theorem nodesOf_finish_style {isText : Bool} {d : Draft} (h : d.Bounded isText)
    (warnings : List Warning) {kind : NodeKind}
    (hkind : kind ∈ [.padding, .stroke, .sizeConstraint, .listLayout]) :
    (d.finish isText warnings).nodesOf kind =
      d.style.nodes.filter fun node => node.kind = kind := by
  unfold Synthesis.nodesOf Draft.finish
  rw [List.filter_append, h.filter_nodes kind, List.nil_append]
  · rintro rfl
    simp at hkind
  · rintro rfl
    simp at hkind

theorem filter_nodes_style (s : Style) :
    (s.nodes.filter fun node => node.kind = .padding) =
      (if s.padding.isZero then [] else [Style.paddingNode s.padding]) ∧
    (s.nodes.filter fun node => node.kind = .stroke) =
      (if s.border.isStandard then [] else [Style.strokeNode s.border]) ∧
    (s.nodes.filter fun node => node.kind = .sizeConstraint) =
      (if s.size.isBounded then [Style.sizeNode s.size] else []) ∧
    (s.nodes.filter fun node => node.kind = .listLayout) =
      if s.flex.enabled then [Style.layoutNode s.flex] else [] := by
  have hpadding : (Style.paddingNode s.padding).kind = .padding := rfl
  have hstroke : (Style.strokeNode s.border).kind = .stroke := rfl
  have hsize : (Style.sizeNode s.size).kind = .sizeConstraint := rfl
  have hlayout : (Style.layoutNode s.flex).kind = .listLayout := rfl
  unfold Style.nodes
  simp only [List.filter_append]
  refine ⟨?_, ?_, ?_, ?_⟩ <;> simp [apply_ite, hpadding, hstroke, hsize, hlayout]

theorem nodesOf_finish {isText : Bool} {d : Draft} (h : d.Bounded isText)
    (warnings : List Warning) :
    (d.finish isText warnings).nodesOf .stroke =
      (if d.style.border.isStandard then [] else [Style.strokeNode d.style.border]) ∧
    (d.finish isText warnings).nodesOf .sizeConstraint =
      (if d.style.size.isBounded then [Style.sizeNode d.style.size] else []) ∧
    (d.finish isText warnings).nodesOf .listLayout =
      if d.style.flex.enabled then [Style.layoutNode d.style.flex] else [] := by
  obtain ⟨-, hstroke, hsize, hlayout⟩ := filter_nodes_style d.style
  refine ⟨?_, ?_, ?_⟩
  · rw [nodesOf_finish_style h warnings (by decide), hstroke]
  · rw [nodesOf_finish_style h warnings (by decide), hsize]
  · rw [nodesOf_finish_style h warnings (by decide), hlayout]

theorem get?_layoutNode (f : Flex) :
    (Style.layoutNode f).attributes.get? "FillDirection" = some (.ofItem f.direction) ∧
    (Style.layoutNode f).attributes.get? "Padding" = some (.udim f.gap) := by
  constructor <;> rfl

/-! ## Syntheses -/

/-- Each field of an element ends with the last accepted value of its property, or as it is when
nothing is said, and the synthesis holds what the fields end with and no other attributes but the
anchor. -/
theorem Sheet.synthesis_final (sheet : Sheet) (request : Request) :
    (∀ f : StyleField,
      f.content (sheet.draft request).style = sheet.final request.classes f) ∧
    (∀ f : AttributeField,
      (sheet.synthesis request).attributes.get? (f.name request.isText) =
        sheet.finalAttribute request.classes f) ∧
    (sheet.synthesis request).attributes.get? "FontFace" =
      (if request.isText = true ∧ sheet.finalFont request.classes ≠ .standard then
        some (.font (sheet.finalFont request.classes)) else none) ∧
    (sheet.synthesis request).attributes.get? "Size" =
      (if (sheet.finalSize request.classes).hasStandardExtent then none
        else some (.udim2 (sheet.finalSize request.classes).extent)) ∧
    (sheet.synthesis request).attributes.get? "Position" =
      (if (sheet.finalPosition request.classes).isZero then none
        else some (.udim2 ⟨sheet.final request.classes .left,
          sheet.final request.classes .top⟩)) ∧
    (∀ name, ((sheet.synthesis request).attributes.get? name).isSome = true →
      (∃ f : AttributeField, name = f.name request.isText) ∨
        name ∈ ["FontFace", "AnchorPoint", "Size", "Position"]) ∧
    (sheet.synthesis request).nodesOf .stroke =
      (if (sheet.finalBorder request.classes).isStandard then []
        else [.ofList .stroke
          [("Thickness", .number (sheet.final request.classes .borderWidth)),
            ("Color", ((sheet.final request.classes .borderColor).map .color).getD .empty),
            ("Transparency", .number (sheet.final request.classes .borderOpacity)),
            ("ApplyStrokeMode", .ofItem StrokeMode.border)]]) ∧
    (sheet.synthesis request).nodesOf .sizeConstraint =
      (if (sheet.finalSize request.classes).isBounded then
        [.ofList .sizeConstraint
          [("MinSize", .bounds (sheet.final request.classes .minWidth)
              (sheet.final request.classes .minHeight)),
            ("MaxSize", .bounds (sheet.final request.classes .maxWidth)
              (sheet.final request.classes .maxHeight))]] else []) ∧
    ((sheet.synthesis request).nodesOf .listLayout ≠ [] ↔
      sheet.final request.classes .display = true) ∧
    ∀ node ∈ (sheet.synthesis request).nodesOf .listLayout,
      node.attributes.get? "FillDirection" =
        some (.ofItem (sheet.final request.classes .flexDirection)) ∧
      node.attributes.get? "Padding" = some (.udim (sheet.final request.classes .gap)) := by
  have hbounded := bounded_draft sheet request
  have hcontent := content_draft sheet request
  obtain ⟨hfont, hsize, hposition, hothers⟩ := get?_finish hbounded
    ((sheet.applications request.classes).filterMap fun a => a.warning? request.isText)
  obtain ⟨hstroke, hconstraint, hlayout⟩ := nodesOf_finish hbounded
    ((sheet.applications request.classes).filterMap fun a => a.warning? request.isText)
  rw [font_draft] at hfont
  rw [size_draft] at hsize hconstraint
  rw [position_draft] at hposition
  rw [border_draft] at hstroke
  have henabled : (sheet.draft request).style.flex.enabled =
      sheet.final request.classes .display := hcontent .display
  rw [henabled] at hlayout
  refine ⟨hcontent, ?_, hfont, hsize, hposition, ?_, hstroke, hconstraint, ?_, ?_⟩
  · intro f
    rw [← get?_draft]
    exact hothers _ (name_not_mem_style f request.isText)
  · intro name hname
    by_cases hmem : name ∈ ["FontFace", "AnchorPoint", "Size", "Position"]
    · exact .inr hmem
    · rw [Sheet.synthesis, hothers name hmem] at hname
      exact .inl (hbounded.named name hname)
  · rw [Sheet.synthesis, hlayout]
    cases sheet.final request.classes .display <;> simp
  · intro node hnode
    rw [Sheet.synthesis, hlayout] at hnode
    split at hnode
    · obtain rfl := List.mem_singleton.mp hnode
      obtain ⟨hdirection, hgap⟩ := get?_layoutNode (sheet.draft request).style.flex
      rw [hdirection, hgap]
      exact ⟨congrArg _ (congrArg _ (hcontent .flexDirection)),
        congrArg _ (congrArg _ (hcontent .gap))⟩
    · simp at hnode

end ClassStyle
