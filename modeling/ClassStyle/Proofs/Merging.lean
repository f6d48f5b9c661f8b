import ClassStyle.Proofs.Cascades
import ClassStyle.Proofs.Emission
import ClassStyle.Proofs.FontSizes
import ClassStyle.Proofs.Shapes

/-!
# Classes made into one

An element may name several classes, or one class that holds what they declare together. Where no
declaration looks at the font size of its class, where all values can be read, and where properties
that have a say in the same thing are left to one class, both come to the same
(`Sheet.synthesis_merged`).
-/

namespace ClassStyle

open Text

/-! ## Classes that can be made into one -/

/-- What some properties have a say in, so that it matters in which order they are declared. -/
inductive Group where
  | padding
  | anchor
  | layout
  | display
  | radius
  | ratio
  deriving DecidableEq

def Property.group? : Property → Option Group
  | padding | paddingSide _ => some .padding
  | anchorPoint | anchorPointX | anchorPointY => some .anchor
  | flexDirection | justifyContent | alignItems => some .layout
  | display => some .display
  | borderRadius => some .radius
  | aspectRatio => some .ratio
  | _ => none

def groupOf? (name : String) : Option Group := (Property.ofName? name).bind Property.group?

/-- The property can read the value. Nothing is asked of properties that are no fields, and none of
the values of `display` is rejected. -/
def Property.accepts (value : String) (p : Property) : Bool :=
  match p.role with
  | .element f => (f.read? value).isSome
  | .style f => f == .display || (f.read? baseFontSize value).isSome
  | .other => true

theorem accepts_attribute (f : AttributeField) (value : String) :
    f.property.accepts value = (f.read? value).isSome := by
  unfold Property.accepts
  rw [role_eq_element_iff.mpr rfl]

theorem accepts_style {f : StyleField} (hf : f ≠ .display) (value : String) :
    f.property.accepts value = (f.read? baseFontSize value).isSome := by
  unfold Property.accepts
  rw [role_eq_style_iff.mpr rfl]
  simp [hf]

/-- A value as it is read. -/
def trimmed (value : String) : String := String.ofList (trim value.toList)

namespace Sheet

/-- The classes can be made into one. -/
structure Composable (sheet : Sheet) (classes : List String) : Prop where
  once : sheet.DeclaresOnce
  distinct : classes.Nodup
  noEm : ∀ entry ∈ sheet.declared classes, ∀ p ∈ Property.ofName? entry.1,
    p.measures = true → ¬UsesEm entry
  accepted : ∀ entry ∈ sheet.declared classes, ∀ p ∈ Property.ofName? entry.1,
    p.accepts (trimmed entry.2) = true
  /-- The properties of a group are declared by one class at most. -/
  alone : ∀ a ∈ classes, ∀ b ∈ classes, ∀ name ∈ (sheet.declarations a).names,
    ∀ other ∈ (sheet.declarations b).names,
    groupOf? name = groupOf? other → groupOf? name ≠ none → a = b

variable {sheet merged : Sheet} {classes : List String} {name : String}

theorem mem_declared {entry : String × String} :
    entry ∈ sheet.declared classes ↔
      ∃ className ∈ classes, entry ∈ (sheet.declarations className).entries := by
  rw [declared_eq, List.mem_flatMap]

/-! ## Font sizes do not matter -/

theorem Composable.read_em (h : sheet.Composable classes) {entry : String × String}
    (hentry : entry ∈ sheet.declared classes) {p : Property}
    (hp : Property.ofName? entry.1 = some p) (isText : Bool) (em em' : Float) :
    p.read isText em (trimmed entry.2) = p.read isText em' (trimmed entry.2) := by
  have hname := Property.name_of_ofName? hp
  cases hmeasures : p.measures with
  | false => exact read_of_not_measures hmeasures isText em em' _
  | true =>
    have heta : (p.name, entry.2) = entry := Prod.ext hname rfl
    have huses := h.noEm entry hentry p hp hmeasures
    rw [← heta] at huses
    exact read_of_not_usesEm huses isText em em'

theorem Composable.entrySetting?_em (h : sheet.Composable classes) {entry : String × String}
    (hentry : entry ∈ sheet.declared classes) (isText : Bool) (em : Float) :
    entrySetting? isText em entry = entrySetting? isText baseFontSize entry := by
  unfold entrySetting?
  cases hp : Property.ofName? entry.1 with
  | none => rw [Option.bind_none, Option.bind_none]
  | some p =>
    have hread := h.read_em hentry hp isText em baseFontSize
    unfold trimmed at hread
    rw [Option.bind_some, Option.bind_some, hread]

end Sheet

/-- What entries set, one after another, where no font size matters. -/
def draftOf (isText : Bool) (entries : List (String × String)) : Draft :=
  Draft.empty.setAll (entries.filterMap (entrySetting? isText baseFontSize))

namespace Sheet

variable {sheet merged : Sheet} {classes : List String} {name : String}

theorem Composable.draft (h : sheet.Composable classes) (isText : Bool) :
    sheet.draft ⟨classes, isText⟩ = draftOf isText (sheet.declared classes) := by
  unfold Sheet.draft draftOf
  rw [filterMap_setting?, declared_eq, List.filterMap_flatMap]
  refine congrArg Draft.empty.setAll (List.flatMap_congr fun className hclass => ?_)
  apply List.filterMap_congr
  intro entry hentry
  exact h.entrySetting?_em (mem_declared.mpr ⟨className, hclass, hentry⟩) isText _

theorem entries_resolve (sheet : Sheet) (classes : List String) :
    (sheet.resolve classes).entries = settled (sheet.declared classes) := by
  rw [resolve_eq, entries_ofList]

theorem mem_declared_of_settled {entry : String × String}
    (h : entry ∈ settled (sheet.declared classes)) : entry ∈ sheet.declared classes := by
  rw [← entries_ofList] at h
  exact ArrivalMap.mem_ofList h

theorem Composable.draft_merged (h : sheet.Composable classes)
    (hmerged : merged.declarations name = sheet.resolve classes) (isText : Bool) :
    merged.draft ⟨[name], isText⟩ = draftOf isText (settled (sheet.declared classes)) := by
  unfold Sheet.draft draftOf
  rw [filterMap_setting?, List.flatMap_singleton, hmerged, entries_resolve]
  refine congrArg Draft.empty.setAll (List.filterMap_congr fun entry hentry => ?_)
  exact h.entrySetting?_em (mem_declared_of_settled hentry) isText _

end Sheet

/-! ## Properties of groups -/

/-- What the properties of groups have a say in. -/
def Draft.grouped (d : Draft) : Draft where
  attributes := .empty
  nodes := d.nodes
  style := { Style.standard with
    padding := d.style.padding
    anchor := d.style.anchor
    flex := { d.style.flex with gap := .zero } }

def Setting.isGrouped : Setting → Bool
  | .element _ _ => false
  | .node _ => true
  | .style e => e.property.group?.isSome

theorem grouped_set_of_not_isGrouped {s : Setting} (h : s.isGrouped = false) (d : Draft) :
    (d.set s).grouped = d.grouped := by
  cases s with
  | element name value => rfl
  | node made => cases h
  | style e => cases e <;> first | rfl | cases h

theorem grouped_set {d d' : Draft} (h : d.grouped = d'.grouped) (s : Setting) :
    (d.set s).grouped = (d'.set s).grouped := by
  have hset : ∀ d : Draft, (d.set s).grouped = (d.grouped.set s).grouped := by
    intro d
    obtain ⟨attributes, nodes, font, padding, ⟨enabled, direction⟩⟩ := d
    cases s with
    | element | node => rfl
    | style e => cases e <;> cases direction <;> rfl
  rw [hset d, hset d', h]

theorem isGrouped_of_read {p : Property} {isText : Bool} {em : Float} {value : String}
    {s : Setting} (hs : (p.read isText em value).setting = some s) :
    s.isGrouped = p.group?.isSome := by
  cases s with
  | element name v =>
    have hrole := writes_setting hs
    generalize hr : p.role = r at hrole
    cases hrole with
    | element f v =>
      rw [role_eq_element_iff.mp hr]
      cases f <;> rfl
  | node made =>
    by_cases hradius : p = .borderRadius
    · rw [hradius]
      rfl
    · by_cases hratio : p = .aspectRatio
      · rw [hratio]
        rfl
      · have hnone := node?_read_of_ne hradius hratio isText em value
        rw [hs] at hnone
        cases hnone
  | style e => rw [Setting.isGrouped, property_of_read hs]

def inGroup (name : String) : Bool := (groupOf? name).isSome

theorem filter_isGrouped (isText : Bool) (entries : List (String × String)) :
    (entries.filterMap (entrySetting? isText baseFontSize)).filter Setting.isGrouped =
      (entries.filter fun entry => inGroup entry.1).filterMap
        (entrySetting? isText baseFontSize) := by
  rw [List.filter_filterMap, List.filterMap_filter]
  apply List.filterMap_congr
  intro entry _
  unfold entrySetting? inGroup groupOf?
  cases Property.ofName? entry.1 with
  | none => rfl
  | some p =>
    simp only [Option.bind_some]
    cases hs : (p.read isText baseFontSize (String.ofList (trim entry.2.toList))).setting with
    | none => simp
    | some s =>
      rw [Option.filter_some, isGrouped_of_read hs]

theorem grouped_draftOf (isText : Bool) (entries : List (String × String)) :
    (draftOf isText entries).grouped =
      (draftOf isText (entries.filter fun entry => inGroup entry.1)).grouped := by
  unfold draftOf
  rw [← filter_isGrouped]
  exact view_setAll Draft.grouped Setting.isGrouped
    (fun d _ hs => grouped_set_of_not_isGrouped hs d) (fun _ _ s hd => grouped_set hd s) rfl _

namespace Sheet

variable {sheet : Sheet} {classes : List String}

theorem Composable.nodup_inGroup (h : sheet.Composable classes) :
    (((sheet.declared classes).filter fun entry => inGroup entry.1).map Prod.fst).Nodup := by
  rw [declared_eq, List.filter_flatMap, List.map_flatMap, List.nodup_flatMap]
  have hnames : ∀ className, (((sheet.declarations className).entries.filter fun entry =>
      inGroup entry.1).map Prod.fst).Sublist (sheet.declarations className).names :=
    fun _ => List.filter_sublist.map Prod.fst
  constructor
  · intro className _
    exact (h.once className).sublist (hnames className)
  · -- A name of a group that two of the classes declare makes them the same class.
    refine h.distinct.imp_of_mem fun {a b} ha hb hne name hname hother => hne ?_
    obtain ⟨entry, hentry, rfl⟩ := List.mem_map.mp hname
    have hgroup : inGroup entry.1 = true := (List.mem_filter.mp hentry).2
    exact h.alone a ha b hb _ ((hnames a).subset hname) _ ((hnames b).subset hother) rfl
      (Option.isSome_iff_ne_none.mp hgroup)

theorem Composable.grouped_settled (h : sheet.Composable classes) (isText : Bool) :
    (draftOf isText (settled (sheet.declared classes))).grouped =
      (draftOf isText (sheet.declared classes)).grouped := by
  rw [grouped_draftOf, ← settled_filter, settled_of_nodup h.nodup_inGroup, ← grouped_draftOf]

end Sheet

/-! ## Fields -/

theorem read?_congr {f : StyleField} {isText : Bool} {em em' : Float} {value : String}
    (h : f.property.read isText em value = f.property.read isText em' value) :
    f.read? em value = f.read? em' value := by
  rcases setting_style f isText em value with ⟨hs, hv⟩ | ⟨e, v, hs, he, hv⟩ <;>
    rcases setting_style f isText em' value with ⟨hs', hv'⟩ | ⟨e', v', hs', he', hv'⟩ <;>
    rw [h, hs'] at hs
  · rw [hv, hv']
  · cases hs
  · cases hs
  · cases hs
    rw [he] at he'
    cases he'
    rw [hv, hv']

namespace Sheet

variable {sheet merged : Sheet} {classes : List String} {name : String}

theorem accepted_eq {α : Type} (sheet : Sheet) (classes : List String) (p : Property)
    (read? : Float → String → Option α) :
    sheet.accepted classes p read? =
      classes.flatMap fun className => (sheet.declarations className).entries.filterMap fun entry =>
        if entry.1 = p.name then
          read? (classFontSize (sheet.declarations className)) (trimmed entry.2)
        else none := by
  unfold accepted
  refine List.flatMap_congr fun className _ => ?_
  unfold declarations
  cases sheet.get? className <;> rfl

theorem getLast?_accepted {α : Type} (hmerged : merged.declarations name = sheet.resolve classes)
    {p : Property} {read? : Float → String → Option α}
    (hread : ∀ entry ∈ sheet.declared classes, entry.1 = p.name →
      (∀ em, read? em (trimmed entry.2) = read? baseFontSize (trimmed entry.2)) ∧
      (read? baseFontSize (trimmed entry.2)).isSome = true) :
    (merged.accepted [name] p read?).getLast? = (sheet.accepted classes p read?).getLast? := by
  have hem : ∀ em, ∀ entry ∈ sheet.declared classes,
      (if entry.1 = p.name then read? em (trimmed entry.2) else none) =
        if entry.1 = p.name then read? baseFontSize (trimmed entry.2) else none := by
    intro em entry hentry
    by_cases hname : entry.1 = p.name
    · rw [if_pos hname, if_pos hname, (hread entry hentry hname).1]
    · rw [if_neg hname, if_neg hname]
  have hclasses : sheet.accepted classes p read? =
      (sheet.declared classes).filterMap fun entry =>
        if entry.1 = p.name then read? baseFontSize (trimmed entry.2) else none := by
    rw [accepted_eq, declared_eq, List.filterMap_flatMap]
    refine List.flatMap_congr fun className hclass => List.filterMap_congr fun entry hentry => ?_
    exact hem _ entry (mem_declared.mpr ⟨className, hclass, hentry⟩)
  have hone : merged.accepted [name] p read? =
      (settled (sheet.declared classes)).filterMap fun entry =>
        if entry.1 = p.name then read? baseFontSize (trimmed entry.2) else none := by
    rw [accepted_eq, List.flatMap_singleton, hmerged, entries_resolve]
    exact List.filterMap_congr fun entry hentry => hem _ entry (mem_declared_of_settled hentry)
  rw [hclasses, hone]
  exact getLast?_settled (f := fun value => read? baseFontSize (trimmed value))
    fun entry hentry hname => (hread entry hentry hname).2

theorem Composable.final_merged (h : sheet.Composable classes)
    (hmerged : merged.declarations name = sheet.resolve classes) {f : StyleField}
    (hf : f ≠ .display) : merged.final [name] f = sheet.final classes f := by
  unfold final
  rw [getLast?_accepted hmerged]
  intro entry hentry hname
  have hp : Property.ofName? entry.1 = some f.property := hname ▸ Property.ofName?_name _
  exact ⟨fun em => read?_congr (h.read_em hentry hp true em baseFontSize),
    (accepts_style hf _).symm.trans (h.accepted entry hentry _ hp)⟩

theorem Composable.finalAttribute_merged (h : sheet.Composable classes)
    (hmerged : merged.declarations name = sheet.resolve classes) (f : AttributeField) :
    merged.finalAttribute [name] f = sheet.finalAttribute classes f := by
  unfold finalAttribute
  rw [getLast?_accepted hmerged]
  intro entry hentry hname
  have hp : Property.ofName? entry.1 = some f.property := hname ▸ Property.ofName?_name _
  exact ⟨fun _ => rfl, (accepts_attribute f _).symm.trans (h.accepted entry hentry _ hp)⟩

end Sheet

/-! ## The order of attributes -/

def Setting.attribute? : Setting → Option (String × AttributeValue)
  | .element name value => some (name, value)
  | _ => none

theorem attributes_setAll (d : Draft) (settings : List Setting) :
    (d.setAll settings).attributes =
      d.attributes.putAll (settings.filterMap Setting.attribute?) := by
  unfold Draft.setAll
  induction settings generalizing d with
  | nil => rfl
  | cons s settings ih =>
    rw [List.foldl_cons, ih]
    cases s <;> rfl

/-- The attribute that a property sets. -/
def attributeName? (isText : Bool) (name : String) : Option String :=
  (Property.ofName? name).bind fun p =>
    match p.role with
    | .element f => some (f.name isText)
    | _ => none

theorem attribute?_of_read {p : Property} {value : String} (h : p.accepts value = true)
    (isText : Bool) (em : Float) :
    ((p.read isText em value).setting.bind fun s => s.attribute?.map Prod.fst) =
      match p.role with
      | .element f => some (f.name isText)
      | _ => none := by
  cases hrole : p.role with
  | element f =>
    rw [role_eq_element_iff.mp hrole, accepts_attribute] at h
    obtain ⟨v, hv⟩ := Option.isSome_iff_exists.mp h
    rw [role_eq_element_iff.mp hrole, setting_attribute, hv]
    rfl
  | style | other =>
    cases hs : (p.read isText em value).setting with
    | none => rfl
    | some s =>
      have hwrites := writes_setting hs
      rw [hrole] at hwrites
      cases hwrites <;> rfl

theorem names_draftOf (isText : Bool) {entries : List (String × String)}
    (h : ∀ entry ∈ entries, ∀ p ∈ Property.ofName? entry.1, p.accepts (trimmed entry.2) = true) :
    (draftOf isText entries).attributes.names =
      ((entries.map Prod.fst).filterMap (attributeName? isText)).eraseDups := by
  have hnames := names_ofList
    ((entries.filterMap (entrySetting? isText baseFontSize)).filterMap Setting.attribute?)
  unfold draftOf
  rw [attributes_setAll]
  refine hnames.trans (congrArg List.eraseDups ?_)
  rw [List.filterMap_filterMap, List.map_filterMap, List.filterMap_map]
  apply List.filterMap_congr
  intro entry hentry
  unfold entrySetting? attributeName?
  rw [Function.comp_apply]
  cases hp : Property.ofName? entry.1 with
  | none => rfl
  | some p =>
    rw [Option.bind_some, Option.bind_some,
      ← attribute?_of_read (h entry hentry p hp) isText baseFontSize, Option.map_bind]
    rfl

/-! ## Drafts -/

theorem attributes_ext {isText : Bool} {d d' : Draft} (h : d.Bounded isText)
    (h' : d'.Bounded isText) (hnodup : d.attributes.names.Nodup)
    (hnames : d.attributes.names = d'.attributes.names)
    (hget : ∀ f : AttributeField, d.attributes.get? (f.name isText) =
      d'.attributes.get? (f.name isText)) : d.attributes = d'.attributes := by
  refine ArrivalMap.ext_get? hnodup hnames fun name => ?_
  by_cases hfield : ∃ f : AttributeField, name = f.name isText
  · obtain ⟨f, rfl⟩ := hfield
    exact hget f
  · rw [h.get?_of_no_field hfield, h'.get?_of_no_field hfield]

theorem style_eq (d : Draft) : d.style =
    { font := d.style.font
      padding := d.grouped.style.padding
      flex := { d.grouped.style.flex with gap := d.style.flex.gap }
      anchor := d.grouped.style.anchor
      border := d.style.border
      size := d.style.size
      position := d.style.position } := rfl

namespace Sheet

variable {sheet merged : Sheet} {classes : List String} {name : String}

theorem Composable.grouped_merged (h : sheet.Composable classes)
    (hmerged : merged.declarations name = sheet.resolve classes) (isText : Bool) :
    (merged.draft ⟨[name], isText⟩).grouped = (sheet.draft ⟨classes, isText⟩).grouped := by
  rw [h.draft_merged hmerged, h.draft, h.grouped_settled]

theorem Composable.style_merged (h : sheet.Composable classes)
    (hmerged : merged.declarations name = sheet.resolve classes) (isText : Bool) :
    (merged.draft ⟨[name], isText⟩).style = (sheet.draft ⟨classes, isText⟩).style := by
  have hgap : (merged.draft ⟨[name], isText⟩).style.flex.gap =
      (sheet.draft ⟨classes, isText⟩).style.flex.gap :=
    (content_draft merged ⟨[name], isText⟩ .gap).trans <|
      (h.final_merged hmerged (f := .gap) (by decide)).trans
        (content_draft sheet ⟨classes, isText⟩ .gap).symm
  rw [style_eq (merged.draft _), style_eq (sheet.draft _), h.grouped_merged hmerged, hgap]
  simp only [font_draft, border_draft, size_draft, position_draft, finalFont, finalBorder,
    finalSize, finalPosition, ne_eq, reduceCtorEq, not_false_eq_true, h.final_merged hmerged]

theorem Composable.attributes_merged (h : sheet.Composable classes)
    (hmerged : merged.declarations name = sheet.resolve classes) (isText : Bool) :
    (merged.draft ⟨[name], isText⟩).attributes = (sheet.draft ⟨classes, isText⟩).attributes := by
  refine attributes_ext (bounded_draft merged ⟨[name], isText⟩)
    (bounded_draft sheet ⟨classes, isText⟩) ?_ ?_ fun f => ?_
  · exact nodup_names_setAll (d := Draft.empty) List.nodup_nil _
  · rw [h.draft_merged hmerged, h.draft, names_draftOf isText h.accepted,
      names_draftOf isText fun entry hentry => h.accepted entry (mem_declared_of_settled hentry),
      names_settled, eraseDups_filterMap_eraseDups]
  · exact (get?_draft merged ⟨[name], isText⟩ f).trans <|
      (h.finalAttribute_merged hmerged f).trans (get?_draft sheet ⟨classes, isText⟩ f).symm

/-- Classes that can be made into one come to the same attributes and the same nodes, in the same
order, whether an element names them all or one class that holds what they declare together. -/
theorem synthesis_merged (h : sheet.Composable classes)
    (hmerged : merged.declarations name = sheet.resolve classes) (isText : Bool) :
    (merged.synthesis ⟨[name], isText⟩).attributes =
      (sheet.synthesis ⟨classes, isText⟩).attributes ∧
    (merged.synthesis ⟨[name], isText⟩).nodes = (sheet.synthesis ⟨classes, isText⟩).nodes := by
  have hnodes := congrArg Draft.nodes (h.grouped_merged hmerged isText)
  unfold synthesis Draft.finish
  rw [h.attributes_merged hmerged, h.style_merged hmerged]
  exact ⟨rfl, congrArg (· ++ _) hnodes⟩

def overridden : List Char :=
  ".a \x7b width: 1px; padding: 2px \x7d .b \x7b color: #00f; gap: 4px; width: 3px \x7d".toList

/-- The second class declares the width again, behind its color. -/
theorem synthesis_merged_overridden :
    let sheet := (Css.readSheet overridden).value
    let classes := ["a", "b"]
    let merged := sheet.insert "c" ⟨.empty, sheet.resolve classes⟩
    sheet.Composable classes ∧
    merged.declarations "c" = sheet.resolve classes ∧
    (merged.synthesis ⟨["c"], true⟩).attributes = (sheet.synthesis ⟨classes, true⟩).attributes ∧
    (sheet.synthesis ⟨classes, true⟩).attributes.get? "Size" =
      some (.udim2 ⟨.ofOffset 3, .ofOffset 100⟩) := by
  intro sheet classes merged
  have hcomposable : sheet.Composable classes := by
    refine ⟨declaresOnce_readSheet overridden, ?_, ?_, ?_, ?_⟩
    · decide
    · decide +kernel
    · decide +kernel
    · decide +kernel
  have hmerged : merged.declarations "c" = sheet.resolve classes := by decide +kernel
  refine ⟨hcomposable, hmerged, ?_, ?_⟩
  · exact (synthesis_merged hcomposable hmerged true).1
  · decide +kernel

end Sheet

end ClassStyle
