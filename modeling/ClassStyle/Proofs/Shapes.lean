import ClassStyle.Proofs.Emission
import ClassStyle.Proofs.Revisions

/-!
# Shapes of syntheses

The nodes of an element are those that its declarations make at once, one for each, and behind
them those that its style makes when all declarations are read. The attributes of the style come
behind all others (`Sheet.synthesis_shape`).
-/

namespace ClassStyle

open Text

/-! ## Nodes made at once -/

/-- The node that a declaration makes by itself: a radius makes one if its value begins with a
length that can be read, a ratio if its value comes to more than zero. -/
def madeNode? (em : Float) (entry : String × String) : Option Node :=
  if entry.1 = "border-radius" then
    (Length.read? (trim entry.2.toList)).map fun length =>
      .ofList .cornerRadius [("CornerRadius", .udim ⟨0, length.toPixels em⟩)]
  else if entry.1 = "aspect-ratio" then
    match Arithmetic.evaluate (trim entry.2.toList) with
    | some ratio =>
      if ratio > 0 then some (.ofList .aspectRatioConstraint [("AspectRatio", .number ratio)])
      else none
    | none => none
  else none

/-- The nodes that the declarations of the classes make by themselves. A class that is named again
makes its nodes again. -/
def Sheet.madeNodes (sheet : Sheet) (classes : List String) : List Node :=
  classes.flatMap fun className =>
    (sheet.declarations className).entries.filterMap
      (madeNode? (classFontSize (sheet.declarations className)))

def Setting.node? : Setting → Option Node
  | .node made => some made
  | _ => none

theorem nodes_set (d : Draft) (s : Setting) : (d.set s).nodes = d.nodes ++ s.node?.toList := by
  cases s <;> simp [Draft.set, Setting.node?]

theorem nodes_setAll (d : Draft) (settings : List Setting) :
    (d.setAll settings).nodes = d.nodes ++ settings.filterMap Setting.node? := by
  unfold Draft.setAll
  induction settings generalizing d with
  | nil => simp
  | cons s settings ih =>
    rw [List.foldl_cons, ih, nodes_set, List.append_assoc]
    cases s <;> rfl

theorem node?_read_of_ne {p : Property} (hradius : p ≠ .borderRadius) (hratio : p ≠ .aspectRatio)
    (isText : Bool) (em : Float) (value : String) :
    (p.read isText em value).setting.bind Setting.node? = none := by
  have hedit : ∀ e : Option StyleEdit, (e.map Setting.style).bind Setting.node? = none := by
    intro e
    cases e <;> rfl
  have hlength : ∀ edit : Length → StyleEdit,
      (readEdit value edit).setting.bind Setting.node? = none := by
    intro edit
    unfold readEdit
    cases Length.read? value.toList <;> rfl
  cases hrole : p.role with
  | element f =>
    rw [role_eq_element_iff.mp hrole, setting_attribute]
    cases f.read? value <;> rfl
  | style f =>
    rw [role_eq_style_iff.mp hrole]
    rcases setting_style f isText em value with ⟨hnone, -⟩ | ⟨e, v, hsome, -, -⟩
    · rw [hnone]
      rfl
    · rw [hsome]
      rfl
  | other =>
    cases p with
    | borderRadius => exact absurd rfl hradius
    | aspectRatio => exact absurd rfl hratio
    | padding => exact hedit (readPadding em value)
    | anchorPoint => exact hedit (readAnchor value)
    | paddingSide | anchorPointX | anchorPointY => exact hlength _
    | flexWrap =>
      unfold Property.read
      by_cases h : value = "nowrap" <;> simp [h, Reading.silent, Reading.unsupported]
    | borderStyle | borderSideWidth | justifyContent | alignItems => rfl
    | _ => cases hrole

theorem node?_read (p : Property) (isText : Bool) (em : Float) (value : String) :
    (p.read isText em (String.ofList (trim value.toList))).setting.bind Setting.node? =
      madeNode? em (p.name, value) := by
  have hradiusName : Property.borderRadius.name = "border-radius" := rfl
  have hratioName : Property.aspectRatio.name = "aspect-ratio" := rfl
  unfold madeNode?
  rw [← hradiusName, ← hratioName]
  simp only [name_eq_iff]
  by_cases hradius : p = .borderRadius
  · rw [if_pos hradius, hradius]
    unfold Property.read readRadius
    rw [String.toList_ofList]
    cases Length.read? (trim value.toList) <;> rfl
  · rw [if_neg hradius]
    by_cases hratio : p = .aspectRatio
    · rw [if_pos hratio, hratio]
      unfold Property.read readRatio
      rw [String.toList_ofList, setting_orElse]
      cases Arithmetic.evaluate (trim value.toList) with
      | none => rfl
      | some ratio => by_cases h : ratio > 0 <;> simp [h, Setting.node?]
    · rw [if_neg hratio]
      exact node?_read_of_ne hradius hratio isText em _

theorem madeNode?_of_unknown {name : String} (h : Property.ofName? name = none) (em : Float)
    (value : String) : madeNode? em (name, value) = none := by
  have hne : ∀ p : Property, name ≠ p.name := by
    rintro p rfl
    rw [Property.ofName?_name] at h
    cases h
  have hradius : name ≠ "border-radius" := hne .borderRadius
  have hratio : name ≠ "aspect-ratio" := hne .aspectRatio
  simp [madeNode?, hradius, hratio]

theorem node?_entry (className : String) (em : Float) (isText : Bool)
    (entry : String × String) :
    (Application.ofEntry? className em entry).bind
      (fun a => (a.setting? isText).bind Setting.node?) = madeNode? em entry := by
  obtain ⟨name, value⟩ := entry
  unfold Application.ofEntry?
  cases hname : Property.ofName? name with
  | none => exact (madeNode?_of_unknown hname em value).symm
  | some p =>
    rw [← Property.name_of_ofName? hname]
    exact node?_read p isText em value

theorem nodes_draft (sheet : Sheet) (request : Request) :
    (sheet.draft request).nodes = sheet.madeNodes request.classes := by
  unfold Sheet.draft Sheet.madeNodes
  rw [nodes_setAll, List.filterMap_filterMap]
  exact filterMap_applications_entries sheet request.classes
    fun className em entry => node?_entry className em request.isText entry

theorem nodes_synthesis (sheet : Sheet) (request : Request) :
    (sheet.synthesis request).nodes =
      sheet.madeNodes request.classes ++ (sheet.draft request).style.nodes :=
  congrArg (· ++ _) (nodes_draft sheet request)

theorem nodup_names_madeNode {em : Float} {entry : String × String} {node : Node}
    (h : madeNode? em entry = some node) : node.attributes.names.Nodup := by
  unfold madeNode? at h
  split at h
  · obtain ⟨length, -, rfl⟩ := Option.map_eq_some_iff.mp h
    exact ArrivalMap.nodup_names_ofList _
  · split at h
    · split at h
      · split at h <;> cases h
        exact ArrivalMap.nodup_names_ofList _
      · cases h
    · cases h

theorem nodup_names_madeNodes {sheet : Sheet} {classes : List String} {node : Node}
    (h : node ∈ sheet.madeNodes classes) : node.attributes.names.Nodup := by
  unfold Sheet.madeNodes at h
  obtain ⟨className, -, hnode⟩ := List.mem_flatMap.mp h
  obtain ⟨entry, -, hmade⟩ := List.mem_filterMap.mp hnode
  exact nodup_names_madeNode hmade

/-! ## Nodes of the style -/

section

variable {α β : Type} (c : Prop) [Decidable c] (f : α → β) (a : α)

theorem map_if_sublist : ((if c then [a] else []).map f).Sublist [f a] := by
  by_cases h : c <;> simp [h]

theorem map_unless_sublist : ((if c then [] else [a]).map f).Sublist [f a] := by
  by_cases h : c <;> simp [h]

end

theorem kinds_nodes (s : Style) :
    (s.nodes.map Node.kind).Sublist [.padding, .stroke, .sizeConstraint, .listLayout] := by
  unfold Style.nodes
  simp only [List.map_append]
  exact (((map_unless_sublist _ _ _).append (map_unless_sublist _ _ _)).append
    (map_if_sublist _ _ _)).append (map_if_sublist _ _ _)

theorem nodup_names_nodes {s : Style} {node : Node} (h : node ∈ s.nodes) :
    node.attributes.names.Nodup := by
  have hmade : ∃ kind attributes, node = Node.ofList kind attributes := by
    unfold Style.nodes at h
    simp only [List.mem_append, List.mem_ite_nil_left, List.mem_ite_nil_right,
      List.mem_singleton] at h
    rcases h with ((⟨-, rfl⟩ | ⟨-, rfl⟩) | ⟨-, rfl⟩) | ⟨-, rfl⟩ <;> exact ⟨_, _, rfl⟩
  obtain ⟨kind, attributes, rfl⟩ := hmade
  exact ArrivalMap.nodup_names_ofList attributes

/-! ## Names of attributes -/

/-- The attributes that a style makes, in their order. -/
def styleNames : List String := ["FontFace", "AnchorPoint", "Size", "Position"]

theorem names_attributes (s : Style) (isText : Bool) :
    ((s.attributes isText).map Prod.fst).Sublist styleNames := by
  unfold Style.attributes
  simp only [List.map_append]
  exact (((map_if_sublist _ _ _).append (map_unless_sublist _ _ _)).append
    (map_unless_sublist _ _ _)).append (map_unless_sublist _ _ _)

theorem isText_of_fontFace {s : Style} {isText : Bool}
    (h : "FontFace" ∈ (s.attributes isText).map Prod.fst) : isText = true := by
  unfold Style.attributes at h
  cases isText with
  | true => rfl
  | false =>
    exfalso
    revert h
    simp [List.mem_ite_nil_left]

section

variable {α : Type} {m : ArrivalMap α}

theorem entries_put_of_not_mem {name : String} (h : name ∉ m.names) (value : α) :
    (m.put name value).entries = m.entries ++ [(name, value)] := by
  obtain ⟨l⟩ := m
  simp only [ArrivalMap.names, ArrivalMap.put] at h ⊢
  induction l with
  | nil => rfl
  | cons entry l ih =>
    obtain ⟨hentry, hl⟩ := not_or.mp (List.mem_cons.not.mp h)
    simp [ArrivalMap.putEntry, Ne.symm hentry, ih hl]

theorem entries_putAll {pairs : List (String × α)} (h : (m.names ++ pairs.map Prod.fst).Nodup) :
    (m.putAll pairs).entries = m.entries ++ pairs := by
  induction pairs generalizing m with
  | nil => exact (List.append_nil _).symm
  | cons pair pairs ih =>
    have hnew : pair.1 ∉ m.names := fun hmem =>
      (List.nodup_append.mp h).2.2 pair.1 hmem pair.1 (by simp) rfl
    have hput := entries_put_of_not_mem hnew pair.2
    have happend : m.names ++ (pair :: pairs).map Prod.fst =
        (m.put pair.1 pair.2).names ++ pairs.map Prod.fst := by
      unfold ArrivalMap.names
      rw [hput]
      simp
    rw [happend] at h
    refine (ih h).trans ?_
    rw [hput, List.append_assoc, List.singleton_append]

theorem names_putAll {pairs : List (String × α)} (h : (m.names ++ pairs.map Prod.fst).Nodup) :
    (m.putAll pairs).names = m.names ++ pairs.map Prod.fst := by
  unfold ArrivalMap.names
  rw [entries_putAll h, List.map_append]

theorem isSome_get?_of_mem_names {name : String} (h : name ∈ m.names) :
    (m.get? name).isSome = true := by
  obtain ⟨l⟩ := m
  unfold ArrivalMap.names at h
  unfold ArrivalMap.get?
  induction l with
  | nil => simp at h
  | cons entry l ih =>
    by_cases hentry : entry.1 = name
    · simp [ArrivalMap.lookup, hentry]
    · simpa [ArrivalMap.lookup, hentry] using ih (by simpa [Ne.symm hentry] using h)

end

theorem nodup_names_setAll {d : Draft} (h : d.attributes.names.Nodup) (settings : List Setting) :
    (d.setAll settings).attributes.names.Nodup := by
  unfold Draft.setAll
  induction settings generalizing d with
  | nil => exact h
  | cons s settings ih =>
    apply ih
    cases s with
    | element name value => exact ArrivalMap.nodup_names_put h name value
    | node | style => exact h

theorem names_finish {isText : Bool} {d : Draft} (h : d.Bounded isText)
    (hnodup : d.attributes.names.Nodup) (warnings : List Warning) :
    (d.finish isText warnings).attributes.names =
      d.attributes.names ++ (d.style.attributes isText).map Prod.fst ∧
    (d.finish isText warnings).attributes.names.Nodup ∧
    ∀ name ∈ d.attributes.names, ∃ f : AttributeField, name = f.name isText := by
  have hfield : ∀ name ∈ d.attributes.names, ∃ f : AttributeField, name = f.name isText :=
    fun name hname => h.named name (isSome_get?_of_mem_names hname)
  have hboth : (d.attributes.names ++ (d.style.attributes isText).map Prod.fst).Nodup := by
    refine List.nodup_append.mpr ⟨hnodup, ?_, ?_⟩
    · exact (names_attributes d.style isText).nodup (by decide)
    · rintro name hname other hother rfl
      obtain ⟨f, rfl⟩ := hfield name hname
      exact name_not_mem_style f isText ((names_attributes d.style isText).subset hother)
  have hnames := names_putAll hboth
  exact ⟨hnames, by rw [← hnames] at hboth; exact hboth, hfield⟩

/-! ## Shapes -/

/-- The nodes of an element are those that its declarations make at once, and then at most one
of each kind that a style makes. No attribute comes twice, the attributes of the style come last,
and some are only for text or only for other elements. -/
theorem Sheet.synthesis_shape (sheet : Sheet) (request : Request) :
    (∃ last : List Node,
      (sheet.synthesis request).nodes = sheet.madeNodes request.classes ++ last ∧
      (last.map Node.kind).Sublist [.padding, .stroke, .sizeConstraint, .listLayout]) ∧
    (sheet.synthesis request).attributes.names.Nodup ∧
    (∀ node ∈ (sheet.synthesis request).nodes, node.attributes.names.Nodup) ∧
    (∃ first last : List String,
      (sheet.synthesis request).attributes.names = first ++ last ∧
      last.Sublist ["FontFace", "AnchorPoint", "Size", "Position"] ∧
      ∀ name ∈ first, name ∉ ["FontFace", "AnchorPoint", "Size", "Position"]) ∧
    ∀ name ∈ (sheet.synthesis request).attributes.names,
      (name ∈ ["FontFace", "TextColor3"] → request.isText = true) ∧
      (name = "ImageColor3" → request.isText = false) := by
  have hmade := nodes_draft sheet request
  have hbounded := bounded_draft sheet request
  have hdraft : (sheet.draft request).attributes.names.Nodup :=
    nodup_names_setAll (d := .empty) List.nodup_nil _
  obtain ⟨hnames, hnodup, hfield⟩ := names_finish hbounded hdraft
    ((sheet.applications request.classes).filterMap fun a => a.warning? request.isText)
  have hnodes : (sheet.synthesis request).nodes =
      sheet.madeNodes request.classes ++ (sheet.draft request).style.nodes := by
    rw [← hmade]
    rfl
  refine ⟨⟨_, hnodes, kinds_nodes _⟩, hnodup, ?_, ⟨_, _, hnames, names_attributes _ _, ?_⟩, ?_⟩
  · intro node hnode
    rw [hnodes] at hnode
    rcases List.mem_append.mp hnode with hnode | hnode
    · exact nodup_names_madeNodes hnode
    · exact nodup_names_nodes hnode
  · intro name hname
    obtain ⟨f, rfl⟩ := hfield name hname
    exact name_not_mem_style f request.isText
  · intro name hname
    rw [Sheet.synthesis, hnames] at hname
    rcases List.mem_append.mp hname with hname | hname
    · obtain ⟨f, rfl⟩ := hfield name hname
      cases request.isText <;> cases f <;> decide
    · have hstyle := (names_attributes _ _).subset hname
      constructor
      · intro htext
        rcases List.mem_pair.mp htext with rfl | rfl
        · exact isText_of_fontFace hname
        · simp [styleNames] at hstyle
      · rintro rfl
        simp [styleNames] at hstyle

example :
    let sheet := Sheet.empty.insert "a"
      ⟨.empty, ⟨[("padding", "1px"), ("border-radius", "2px"), ("aspect-ratio", "1 / 2")]⟩⟩
    (sheet.synthesis ⟨["a", "b", "a"], false⟩).nodes.map Node.kind =
      [.cornerRadius, .aspectRatioConstraint, .cornerRadius, .aspectRatioConstraint,
        .padding] := by
  decide +kernel

end ClassStyle
