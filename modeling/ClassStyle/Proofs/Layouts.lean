import ClassStyle.Css.Stylesheet
import ClassStyle.Proofs.Emission
import ClassStyle.Proofs.Revisions

/-!
# Layouts of rows

Without a `flex-direction` the children of an element make a row. Each part of its layout is then
what the last value says that is about this part: a place and a share of the free space along an
axis are two parts although one property sets them, and nothing takes a layout back.
-/

namespace ClassStyle

open Text

/-! ## Parts of a layout -/

/-- A part of the layout of a row. -/
inductive LayoutPart where
  | shown
  | mainPlace
  | mainShare
  | crossPlace
  | crossShare
  deriving DecidableEq

namespace LayoutPart

def property : LayoutPart → Property
  | shown => .display
  | mainPlace | mainShare => .justifyContent
  | crossPlace | crossShare => .alignItems

@[reducible]
def Content : LayoutPart → Type
  | shown => Bool
  | mainPlace => HorizontalAlignment
  | crossPlace => VerticalAlignment
  | mainShare | crossShare => FlexAlignment

def content (f : Flex) : (part : LayoutPart) → part.Content
  | shown => f.enabled
  | mainPlace => f.horizontalAlignment
  | mainShare => f.horizontalFlex
  | crossPlace => f.verticalAlignment
  | crossShare => f.verticalFlex

/-- What a value of the property says of the part, if anything. -/
def read? (value : String) : (part : LayoutPart) → Option part.Content
  | shown => if value = "flex" then some true else none
  | mainPlace => (placement? value).map Placement.horizontal
  | crossPlace => (placement? value).map Placement.vertical
  | mainShare => if placement? value = none then some (mainDistribution value) else none
  | crossShare => if placement? value = none then some (crossDistribution value) else none

/-- What an edit says of the part, if the children run along the horizontal axis. -/
def written? : (part : LayoutPart) → StyleEdit → Option part.Content
  | shown, .flexEnabled => some true
  | mainPlace, .mainPlacement placement => some placement.horizontal
  | mainShare, .mainDistribution alignment => some alignment
  | crossPlace, .crossPlacement placement => some placement.vertical
  | crossShare, .crossDistribution alignment => some alignment
  | _, _ => none

theorem content_edit {f : Flex} (h : f.direction = .horizontal) (e : StyleEdit)
    (part : LayoutPart) :
    part.content (f.edit e) = (part.written? e).getD (part.content f) := by
  have hmain : f.mainAxis = .x := by
    unfold Flex.mainAxis
    rw [h]
  have hcross : f.crossAxis = .y := by
    unfold Flex.crossAxis
    rw [hmain]
    rfl
  cases e <;> cases part <;> simp only [Flex.edit, hmain, hcross] <;> rfl

theorem property_of_written? {e : StyleEdit} {part : LayoutPart} {v : part.Content}
    (h : part.written? e = some v) : e.property = part.property := by
  cases part <;> cases e <;> cases h <;> rfl

theorem written?_edit? (part : LayoutPart) (isText : Bool) (a : Application) :
    (a.edit? isText).bind part.written? =
      if a.property = part.property then part.read? a.value else none := by
  split
  · next hproperty =>
    unfold Application.edit? Application.setting? Application.read
    rw [hproperty]
    cases part with
    | shown =>
      by_cases h : a.value = "flex" <;>
        simp [read?, property, Property.read, Reading.silent, written?, h]
    | mainPlace | mainShare | crossPlace | crossShare =>
      cases h : placement? a.value <;>
        simp [read?, property, Property.read, Reading.edit, written?, h]
  · next hother =>
    exact bind_edit?_eq_none fun e v hv hproperty =>
      hother (hproperty.symm.trans (property_of_written? hv))

end LayoutPart

/-! ## One declaration after another -/

/-- What no declaration but that of a direction takes from a draft. -/
structure Draft.IsRow (d : Draft) : Prop where
  direction : d.style.flex.direction = .horizontal
  wraps : d.style.flex.wraps = false

theorem wraps_edit (f : Flex) (e : StyleEdit) : (f.edit e).wraps = f.wraps := by
  have halign : ∀ axis placement, (f.align axis placement).wraps = f.wraps := by
    intro axis placement
    cases axis <;> rfl
  have hdistribute : ∀ axis alignment, (f.distribute axis alignment).wraps = f.wraps := by
    intro axis alignment
    cases axis <;> rfl
  cases e <;> first
    | rfl
    | exact halign _ _
    | exact hdistribute _ _

section

variable {isText : Bool} {d : Draft} {a : Application}

theorem wraps_apply : (d.apply isText a).style.flex.wraps = d.style.flex.wraps := by
  rw [style_apply]
  cases a.edit? isText with
  | none => rfl
  | some e => exact wraps_edit d.style.flex e

theorem direction_apply (ha : a.property ≠ .flexDirection) :
    (d.apply isText a).style.flex.direction = d.style.flex.direction := by
  have hcontent := content_apply .flexDirection isText d a
  have hother : a.property ≠ StyleField.flexDirection.property := ha
  rw [if_neg hother] at hcontent
  exact hcontent

theorem Draft.IsRow.apply (h : d.IsRow) (ha : a.property ≠ .flexDirection) :
    (d.apply isText a).IsRow :=
  ⟨(direction_apply ha).trans h.direction, wraps_apply.trans h.wraps⟩

theorem part_apply (h : d.IsRow) (part : LayoutPart) :
    part.content (d.apply isText a).style.flex =
      (if a.property = part.property then part.read? a.value else none).getD
        (part.content d.style.flex) := by
  rw [← part.written?_edit? isText]
  exact part_style_apply (fun s => part.content s.flex) fun e => part.content_edit h.direction e

end

/-- As `foldl_last`, for steps that write so only from states of some kind, and stay among
these. -/
theorem foldl_last_of {σ α γ : Type} {step : σ → α → σ} {kind : σ → Prop} (part : σ → γ)
    {write : α → Option γ} {l : List α} (hkind : ∀ a ∈ l, ∀ s, kind s → kind (step s a))
    (h : ∀ s a, kind s → part (step s a) = (write a).getD (part s)) {s : σ} (hs : kind s) :
    part (l.foldl step s) = (l.filterMap write).getLast?.getD (part s) := by
  induction l generalizing s with
  | nil => rfl
  | cons a l ih =>
    obtain ⟨hhead, htail⟩ := List.forall_mem_cons.mp hkind
    rw [List.foldl_cons, ih htail (hhead s hs), h s a hs]
    cases hw : write a with
    | none => rw [List.filterMap_cons_none hw]; rfl
    | some v =>
      rw [List.filterMap_cons_some hw, List.getLast?_cons]
      rfl

/-! ## Rows -/

namespace Sheet

/-- No class that the element names declares a direction. -/
def IsRow (sheet : Sheet) (classes : List String) : Prop :=
  ∀ className ∈ classes, ∀ entry ∈ (sheet.declarations className).entries,
    entry.1 ≠ Property.flexDirection.name

/-- What a class says of a part of the layout, in order. -/
def partValues (sheet : Sheet) (part : LayoutPart) (className : String) : List part.Content :=
  (sheet.declarations className).entries.filterMap fun entry =>
    if entry.1 = part.property.name then
      part.read? (String.ofList (trim entry.2.toList))
    else none

/-- The part is as the last class that speaks of it says. -/
def finalPart (sheet : Sheet) (classes : List String) (part : LayoutPart) : part.Content :=
  (classes.flatMap (sheet.partValues part)).getLast?.getD (part.content .standard)

/-- The layout of a row. -/
def finalRow (sheet : Sheet) (classes : List String) : Flex where
  enabled := sheet.finalPart classes .shown
  direction := .horizontal
  horizontalFlex := sheet.finalPart classes .mainShare
  verticalFlex := sheet.finalPart classes .crossShare
  horizontalAlignment := sheet.finalPart classes .mainPlace
  verticalAlignment := sheet.finalPart classes .crossPlace
  gap := sheet.final classes .gap
  wraps := false

end Sheet

theorem filterMap_applications_part (sheet : Sheet) (classes : List String)
    (part : LayoutPart) :
    ((sheet.applications classes).filterMap fun a =>
      if a.property = part.property then part.read? a.value else none) =
      classes.flatMap (sheet.partValues part) := by
  rw [applications_eq, List.filterMap_flatMap]
  congr 1
  funext className
  exact filterMap_ofRule className (sheet.declarations className) part.property
    fun _ value => part.read? value

theorem property_ne_of_isRow {sheet : Sheet} {classes : List String} (h : sheet.IsRow classes)
    {a : Application} (ha : a ∈ sheet.applications classes) : a.property ≠ .flexDirection := by
  obtain ⟨hclass, rule, hrule, -, value, hvalue, -⟩ := mem_applications ha
  intro hproperty
  have hne := h a.className hclass (a.property.name, value)
    (by rw [declarations_of_get? hrule]; exact hvalue)
  exact hne (congrArg Property.name hproperty)

theorem flex_draft {sheet : Sheet} {request : Request} (h : sheet.IsRow request.classes) :
    (sheet.draft request).style.flex = sheet.finalRow request.classes := by
  have hrow : ∀ a ∈ sheet.applications request.classes, ∀ d : Draft, d.IsRow →
      (d.apply request.isText a).IsRow :=
    fun a ha d hd => hd.apply (property_ne_of_isRow h ha)
  have hempty : Draft.empty.IsRow := ⟨rfl, rfl⟩
  have hpart : ∀ part : LayoutPart, part.content (sheet.draft request).style.flex =
      sheet.finalPart request.classes part := by
    intro part
    have hlast := foldl_last_of (fun d : Draft => part.content d.style.flex) hrow
      (fun d a hd => part_apply hd part) hempty
    rw [filterMap_applications_part] at hlast
    rw [draft_eq_foldl]
    exact hlast
  obtain ⟨hdirection, hwraps⟩ : (sheet.draft request).IsRow := by
    rw [draft_eq_foldl]
    exact List.foldlRecOn _ _ hempty fun d hd a ha => hrow a ha d hd
  have hgap := content_draft sheet request .gap
  unfold Sheet.finalRow
  rw [← hpart .shown, ← hpart .mainPlace, ← hpart .mainShare, ← hpart .crossPlace,
    ← hpart .crossShare, ← hgap, ← hdirection, ← hwraps]
  rfl

/-! ## Declarations left out -/

/-- The sheets agree but for the property in one class, which does not declare it any more. -/
structure Sheet.LeavesOut (sheet sheet' : Sheet) (className : String) (property : Property) :
    Prop extends sheet.Revised sheet' className property where
  gone : ∀ entry ∈ (sheet'.declarations className).entries, entry.1 ≠ property.name

/-- Another class speaks of the part behind all that the class itself says. That a layout is shown
may be said anywhere, since all say the same. -/
def Sheet.Overrides (sheet : Sheet) (classes : List String) (className : String)
    (part : LayoutPart) : Prop :=
  ∃ before other after, classes = before ++ other :: after ∧ other ≠ className ∧
    (className ∉ after ∨ part = .shown) ∧ sheet.partValues part other ≠ []

section

variable {sheet sheet' : Sheet} {className : String} {property : Property}
  {classes : List String}

theorem partValues_others (h : sheet.Revised sheet' className property) (part : LayoutPart)
    {other : String} (hother : other ≠ className) :
    sheet'.partValues part other = sheet.partValues part other := by
  unfold Sheet.partValues
  rw [h.others other hother]

theorem partValues_leavesOut (h : sheet.LeavesOut sheet' className property) {part : LayoutPart}
    (hpart : part.property = property) : sheet'.partValues part className = [] := by
  unfold Sheet.partValues
  rw [List.filterMap_eq_nil_iff]
  intro entry hentry
  rw [hpart, if_neg (h.gone entry hentry)]

theorem flatMap_partValues_others (h : sheet.Revised sheet' className property)
    (part : LayoutPart) (hmem : className ∉ classes) :
    classes.flatMap (sheet'.partValues part) = classes.flatMap (sheet.partValues part) := by
  apply List.flatMap_congr
  intro other hother
  exact partValues_others h part (by rintro rfl; exact hmem hother)

theorem partValues_shown {value : Bool} (h : value ∈ sheet.partValues .shown className) :
    value = true := by
  obtain ⟨entry, -, hvalue⟩ := List.mem_filterMap.mp h
  split at hvalue
  · simp only [LayoutPart.read?] at hvalue
    split at hvalue <;> cases hvalue
    rfl
  · cases hvalue

theorem finalPart_shown_iff :
    sheet.finalPart classes .shown = true ↔
      ∃ className ∈ classes, sheet.partValues .shown className ≠ [] := by
  unfold Sheet.finalPart
  constructor
  · intro h
    cases hlast : (classes.flatMap (sheet.partValues .shown)).getLast? with
    | none =>
      rw [hlast] at h
      cases h
    | some value =>
      obtain ⟨other, hother, hvalue⟩ := List.mem_flatMap.mp (List.mem_of_getLast? hlast)
      exact ⟨other, hother, List.ne_nil_of_mem hvalue⟩
  · rintro ⟨other, hother, hne⟩
    obtain ⟨value, hvalue⟩ := List.exists_mem_of_ne_nil _ hne
    have hmem := List.mem_flatMap.mpr ⟨other, hother, hvalue⟩
    rw [List.getLast?_eq_some_getLast (List.ne_nil_of_mem hmem)]
    obtain ⟨last, -, hlast⟩ := List.mem_flatMap.mp (List.getLast_mem (List.ne_nil_of_mem hmem))
    exact partValues_shown hlast

theorem finalPart_leavesOut (h : sheet.LeavesOut sheet' className property) {part : LayoutPart}
    (hpart : part.property = property)
    (hover : sheet.partValues part className ≠ [] → sheet.Overrides classes className part) :
    sheet'.finalPart classes part = sheet.finalPart classes part := by
  have hothers : ∀ other, other ≠ className →
      sheet'.partValues part other = sheet.partValues part other :=
    fun _ hother => partValues_others h.toRevised part hother
  by_cases hsilent : sheet.partValues part className = []
  · -- The class does not speak of the part.
    have hvalues : sheet'.partValues part = sheet.partValues part := by
      funext other
      by_cases hother : other = className
      · rw [hother, partValues_leavesOut h hpart, hsilent]
      · exact hothers other hother
    unfold Sheet.finalPart
    rw [hvalues]
  · obtain ⟨before, other, after, rfl, hother, hbehind, hspeaks⟩ := hover hsilent
    rcases hbehind with hbehind | rfl
    · have htail : (other :: after).flatMap (sheet'.partValues part) =
          (other :: after).flatMap (sheet.partValues part) :=
        flatMap_partValues_others h.toRevised part (by simp [hother.symm, hbehind])
      have hne : (other :: after).flatMap (sheet.partValues part) ≠ [] := by
        simp [hspeaks]
      unfold Sheet.finalPart
      rw [List.flatMap_append, List.flatMap_append, htail,
        List.getLast?_append_of_ne_nil _ hne, List.getLast?_append_of_ne_nil _ hne]
    · have hmem : other ∈ before ++ other :: after := by simp
      have hspeaks' := hspeaks
      rw [← hothers other hother] at hspeaks'
      rw [finalPart_shown_iff.mpr ⟨other, hmem, hspeaks⟩,
        finalPart_shown_iff.mpr ⟨other, hmem, hspeaks'⟩]

end

/-- A draft without its layout. -/
def Draft.withoutFlex (d : Draft) : Draft :=
  { d with style := { d.style with flex := .standard } }

def Setting.isLayout : Setting → Bool
  | .style .flexEnabled | .style (.mainPlacement _) | .style (.mainDistribution _)
  | .style (.crossPlacement _) | .style (.crossDistribution _) => true
  | _ => false

theorem withoutFlex_set_of_isLayout {s : Setting} (h : s.isLayout = true) (d : Draft) :
    (d.set s).withoutFlex = d.withoutFlex := by
  cases s with
  | element | node => cases h
  | style e => cases e <;> first | rfl | cases h

theorem withoutFlex_set {d d' : Draft} (h : d.withoutFlex = d'.withoutFlex) (s : Setting) :
    (d.set s).withoutFlex = (d'.set s).withoutFlex := by
  have hset : ∀ d : Draft, (d.set s).withoutFlex = (d.withoutFlex.set s).withoutFlex := by
    intro d
    cases s <;> rfl
  rw [hset d, hset d', h]

theorem isLayout_of_property {p : Property}
    (hp : p ∈ [Property.display, .justifyContent, .alignItems]) {isText : Bool} {em : Float}
    {value : String} {s : Setting} (hs : (p.read isText em value).setting = some s) :
    s.isLayout = true := by
  simp only [List.mem_cons, List.not_mem_nil, or_false] at hp
  rcases hp with rfl | rfl | rfl
  · simp only [Property.read, Reading.silent] at hs
    split at hs <;> cases hs
    rfl
  · cases hs
    cases placement? value <;> rfl
  · cases hs
    cases placement? value <;> rfl

theorem withoutFlex_draft {sheet sheet' : Sheet} {className : String} {property : Property}
    (h : sheet.Revised sheet' className property)
    (hp : property ∈ [Property.display, .justifyContent, .alignItems]) (request : Request) :
    (sheet'.draft request).withoutFlex = (sheet.draft request).withoutFlex := by
  have hskip : ∀ (d : Draft) (s : Setting), (!s.isLayout) = false →
      (d.set s).withoutFlex = d.withoutFlex := by
    intro d s hs
    exact withoutFlex_set_of_isLayout (by simpa using hs) d
  have hview : ∀ sheet : Sheet, (sheet.draft request).withoutFlex =
      (Draft.empty.setAll ((sheet.applications request.classes).filterMap fun a =>
        (a.setting? request.isText).filter fun s => !s.isLayout)).withoutFlex := by
    intro sheet
    rw [← List.filter_filterMap]
    exact view_setAll Draft.withoutFlex (fun s => !s.isLayout) hskip
      (fun _ _ s hd => withoutFlex_set hd s) rfl _
  have hfont : property ≠ .fontSize := by
    rintro rfl
    exact absurd hp (by decide)
  rw [hview sheet', hview sheet]
  rw [filterMap_applications_others h hfont]
  intro a ha
  cases hs : a.setting? request.isText with
  | none => rfl
  | some s =>
    subst ha
    simp [Option.filter, isLayout_of_property hp hs]

theorem final_gap {sheet sheet' : Sheet} {className : String} {property : Property}
    (h : sheet.Revised sheet' className property)
    (hp : property ∈ [Property.display, .justifyContent, .alignItems]) (classes : List String) :
    sheet'.final classes .gap = sheet.final classes .gap := by
  have hne : property ≠ .fontSize ∧ Property.gap ≠ property := by
    constructor <;> rintro rfl <;> exact absurd hp (by decide)
  unfold Sheet.final
  rw [← filterMap_applications, ← filterMap_applications, filterMap_applications_others h hne.1]
  intro a ha
  rw [ha]
  exact if_neg hne.2.symm

theorem isRow_revised {sheet sheet' : Sheet} {className : String} {property : Property}
    (h : sheet.Revised sheet' className property)
    (hp : property ∈ [Property.display, .justifyContent, .alignItems]) {classes : List String}
    (hrow : sheet.IsRow classes) : sheet'.IsRow classes := by
  have hne : Property.flexDirection ≠ property := by
    rintro rfl
    exact absurd hp (by decide)
  intro other hother entry hentry
  by_cases hclass : other = className
  · subst hclass
    intro hname
    have hkeep : entry.1 ≠ property.name := by
      rw [hname]
      exact fun heq => hne (name_eq_iff.mp heq)
    have hmem : entry ∈ (sheet'.declarations other).entries.filter fun entry =>
        entry.1 ≠ property.name := List.mem_filter.mpr ⟨hentry, by simpa using hkeep⟩
    rw [h.rest] at hmem
    exact hrow other hother entry (List.mem_filter.mp hmem).1 hname
  · rw [h.others other hclass] at hentry
    exact hrow other hother entry hentry

theorem draft_leavesOut {sheet sheet' : Sheet} {className : String} {property : Property}
    {request : Request} (hrow : sheet.IsRow request.classes)
    (hp : property ∈ [Property.display, .justifyContent, .alignItems])
    (h : sheet.LeavesOut sheet' className property)
    (hover : ∀ part : LayoutPart, part.property = property →
      sheet.partValues part className ≠ [] → sheet.Overrides request.classes className part) :
    sheet'.draft request = sheet.draft request := by
  have hfont : property ≠ .fontSize := by
    rintro rfl
    exact absurd hp (by decide)
  have hpart : ∀ part : LayoutPart, sheet'.finalPart request.classes part =
      sheet.finalPart request.classes part := by
    intro part
    by_cases hproperty : part.property = property
    · exact finalPart_leavesOut h hproperty (hover part hproperty)
    · unfold Sheet.finalPart
      rw [← filterMap_applications_part, ← filterMap_applications_part,
        filterMap_applications_others h.toRevised hfont]
      intro a ha
      rw [ha]
      exact if_neg fun heq => hproperty heq.symm
  have hflex : (sheet'.draft request).style.flex = (sheet.draft request).style.flex := by
    rw [flex_draft hrow, flex_draft (isRow_revised h.toRevised hp hrow)]
    unfold Sheet.finalRow
    rw [hpart, hpart, hpart, hpart, hpart, final_gap h.toRevised hp]
  have hrestore : ∀ d : Draft, d =
      { d.withoutFlex with style := { d.withoutFlex.style with flex := d.style.flex } } :=
    fun d => rfl
  rw [hrestore (sheet'.draft request), hflex, withoutFlex_draft h.toRevised hp]
  exact (hrestore (sheet.draft request)).symm

/-! ## Syntheses of rows -/

/-- The layout of a row is made of the last values about its parts, and is there if some class
displays `flex`. A declaration that is overridden in each part that it is about can be left out. -/
theorem Sheet.synthesis_row (sheet : Sheet) (request : Request)
    (hrow : sheet.IsRow request.classes) :
    (sheet.draft request).style.flex = sheet.finalRow request.classes ∧
    (sheet.synthesis request).nodesOf .listLayout =
      (if sheet.finalPart request.classes .shown then
        [Style.layoutNode (sheet.finalRow request.classes)] else []) ∧
    (sheet.finalPart request.classes .shown = true ↔
      ∃ className ∈ request.classes, sheet.partValues .shown className ≠ []) ∧
    ∀ (sheet' : Sheet) (className : String),
      ∀ property ∈ [Property.display, .justifyContent, .alignItems],
      sheet.LeavesOut sheet' className property →
      (∀ part : LayoutPart, part.property = property → sheet.partValues part className ≠ [] →
        sheet.Overrides request.classes className part) →
      (sheet'.synthesis request).attributes = (sheet.synthesis request).attributes ∧
      (sheet'.synthesis request).nodes = (sheet.synthesis request).nodes := by
  have hflex := flex_draft hrow
  refine ⟨hflex, ?_, finalPart_shown_iff, ?_⟩
  · have hnodes := (nodesOf_finish (bounded_draft sheet request)
      ((sheet.applications request.classes).filterMap fun a =>
        a.warning? request.isText)).2.2
    rw [hflex] at hnodes
    exact hnodes
  · intro sheet' className property hp h hover
    have hdraft := draft_leavesOut hrow hp h hover
    unfold Sheet.synthesis Draft.finish
    rw [hdraft]
    exact ⟨rfl, rfl⟩

theorem Sheet.synthesis_row_placed :
    let others := Sheet.empty.insert "b" ⟨.empty, ⟨[("justify-content", "flex-end")]⟩⟩
    let sheet := others.insert "a"
      ⟨.empty, ⟨[("justify-content", "center"), ("display", "flex")]⟩⟩
    let sheet' := others.insert "a" ⟨.empty, ⟨[("display", "flex")]⟩⟩
    let request : Request := ⟨["a", "b"], false⟩
    sheet.IsRow request.classes ∧ sheet.LeavesOut sheet' "a" .justifyContent ∧
    (∀ part : LayoutPart, part.property = .justifyContent → sheet.partValues part "a" ≠ [] →
      sheet.Overrides request.classes "a" part) ∧
    (sheet'.synthesis request).nodes = (sheet.synthesis request).nodes ∧
    (sheet.synthesis request).nodesOf .listLayout ≠ [] := by
  intro others sheet sheet' request
  have hrow : sheet.IsRow request.classes := by
    unfold Sheet.IsRow
    decide +kernel
  have hleaves : sheet.LeavesOut sheet' "a" .justifyContent := by
    refine ⟨⟨?_, by decide +kernel⟩, by decide +kernel⟩
    intro other hother
    have hget : sheet'.get? other = sheet.get? other :=
      (SortedMap.get?_insert_of_ne _ hother.symm _).trans
        (SortedMap.get?_insert_of_ne _ hother.symm _).symm
    unfold Sheet.declarations
    rw [hget]
  have hover : ∀ part : LayoutPart, part.property = .justifyContent →
      sheet.partValues part "a" ≠ [] → sheet.Overrides request.classes "a" part := by
    intro part hproperty hspeaks
    cases part with
    | mainPlace =>
      exact ⟨["a"], "b", [], rfl, by decide, .inl (by decide), by decide +kernel⟩
    | mainShare => exact absurd (by decide +kernel) hspeaks
    | shown | crossPlace | crossShare => cases hproperty
  have htheorem := Sheet.synthesis_row sheet request hrow
  have hsame := htheorem.2.2.2 sheet' "a" .justifyContent (by decide) hleaves hover
  exact ⟨hrow, hleaves, hover, hsame.2, by decide +kernel⟩

/-- A layout that one class displays stays when the next one says `none`. Left out in the first
class, it is not there. -/
theorem Sheet.synthesis_row_hidden :
    let sheet := (Css.readSheet
      ".a \x7b display: flex \x7d .b \x7b display: none \x7d".toList).value
    let sheet' := (Css.readSheet ".a \x7b \x7d .b \x7b display: none \x7d".toList).value
    let request : Request := ⟨["a", "b"], false⟩
    sheet.IsRow request.classes ∧
    (sheet.get? "a").map (·.declarations.entries) = some [("display", "flex")] ∧
    (sheet.get? "b").map (·.declarations.entries) = some [("display", "none")] ∧
    (sheet'.get? "a").map (·.declarations.entries) = some [] ∧ sheet'.get? "b" = sheet.get? "b" ∧
    (sheet.synthesis request).nodes ≠ (sheet'.synthesis request).nodes := by
  unfold Sheet.IsRow
  decide +kernel

end ClassStyle
