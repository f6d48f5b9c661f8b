import ClassStyle.Proofs.Printed
import ClassStyle.Proofs.Revisions

/-!
# Font sizes and `em`

A class reads its lengths in `em` with its own font size, and nothing else of an element depends
on that font size but `TextSize`.
-/

namespace ClassStyle

open Text

/-! ## Blanks around a value -/

section

variable {cut : Char → Bool} {s t : List Char}

theorem pieces_of_cut_append (hs : ∀ c ∈ s, cut c = true) (t : List Char) :
    pieces cut (s ++ t) = pieces cut t := by
  induction s with
  | nil => rfl
  | cons c s ih =>
    obtain ⟨hc, hs⟩ := List.forall_mem_cons.mp hs
    rw [List.cons_append, pieces.eq_def]
    simp only [hc, if_true]
    exact ih hs

theorem pieces_of_cut (ht : ∀ c ∈ t, cut c = true) : pieces cut t = [] := by
  have hnil := pieces_of_cut_append ht []
  rwa [List.append_nil] at hnil

theorem pieces_append_of_cut (ht : ∀ c ∈ t, cut c = true) :
    pieces cut (s ++ t) = pieces cut s := by
  induction s with
  | nil => exact pieces_of_cut ht
  | cons c s ih =>
    rw [List.cons_append, pieces.eq_def, pieces.eq_def cut (c :: s)]
    simp only [ih]
    split
    · rfl
    · cases s with
      | cons d s => cases pieces cut (d :: s) <;> rfl
      | nil =>
        cases t with
        | nil => rfl
        | cons d t => rfl

end

theorem words_trim (text : List Char) : words (trim text) = words text := by
  obtain ⟨before, after, htext, hbefore, hafter⟩ := exists_trim text
  conv_rhs => rw [htext]
  unfold words
  rw [pieces_of_cut_append hbefore, pieces_append_of_cut hafter]

theorem readAll_trim (text : List Char) : Length.readAll (trim text) = Length.readAll text := by
  unfold Length.readAll
  rw [words_trim]

/-! ## Lengths in `em` -/

/-- A length in `em` in pixels, under some font size. Other lengths stay. -/
def Length.resolve (fontSize : Float) (length : Length) : Length :=
  if length.unit = .em then ⟨length.value * fontSize, .px⟩ else length

section

variable {l l' : Length} {fontSize fontSize' : Float}

theorem resolve_of_unit_ne (h : l.unit ≠ .em) (fontSize : Float) : l.resolve fontSize = l := by
  unfold Length.resolve
  rw [if_neg h]

theorem toPixels_resolve : (l.resolve fontSize).toPixels fontSize' = l.toPixels fontSize := by
  obtain ⟨value, unit⟩ := l
  cases unit <;> rfl

theorem toUDim_resolve : (l.resolve fontSize).toUDim fontSize' = l.toUDim fontSize := by
  obtain ⟨value, unit⟩ := l
  cases unit <;> rfl

theorem toPosition_resolve :
    (l.resolve fontSize).toPosition fontSize' = l.toPosition fontSize := by
  obtain ⟨value, unit⟩ := l
  unfold Length.toPosition
  rw [toPixels_resolve]
  cases unit <;> simp [Length.resolve, LengthUnit.isRelative]

theorem toBound_resolve : (l.resolve fontSize).toBound fontSize' = l.toBound fontSize := by
  obtain ⟨value, unit⟩ := l
  cases unit <;> rfl

theorem eq_of_resolve {β : Type} {f : Length → Float → β}
    (hf : ∀ (l : Length) (em em' : Float), f (l.resolve em) em' = f l em) {l l' : Length}
    {em em' : Float} (h : l.resolve em = l'.resolve em') : f l em = f l' em' :=
  calc f l em = f (l.resolve em) em := (hf l em em).symm
    _ = f (l'.resolve em') em := by rw [h]
    _ = f l' em' := hf l' em' em

end

/-! ## Properties of lengths -/

/-- The property reads lengths that may be in `em`. -/
def Property.measures : Property → Bool
  | padding | paddingSide _ | borderRadius | borderWidth | gap | left | top | width | height
  | minWidth | minHeight | maxWidth | maxHeight => true
  | _ => false

theorem read_of_not_measures {p : Property} (h : p.measures = false) (isText : Bool)
    (em em' : Float) (value : String) : p.read isText em value = p.read isText em' value := by
  cases p <;> first | rfl | cases h

theorem readEdit_congr {value value' : String} {edit edit' : Length → StyleEdit}
    {em em' : Float}
    (hl : (Length.read? value.toList).map (Length.resolve em) =
      (Length.read? value'.toList).map (Length.resolve em'))
    (hedit : ∀ l l' : Length, l.resolve em = l'.resolve em' → edit l = edit' l') :
    readEdit value edit = readEdit value' edit' := by
  unfold readEdit
  cases h : Length.read? value.toList <;> cases h' : Length.read? value'.toList <;>
    simp only [h, h', Option.map_none, Option.map_some, reduceCtorEq, Option.some.injEq] at hl
  · rfl
  · rename_i l l'
    rw [Option.map_some, Option.map_some, hedit l l' hl]

theorem read_resolve_first {p : Property} (h : p.measures = true) (hp : p ≠ .padding)
    {em em' : Float} {value value' : String}
    (hl : (Length.read? value.toList).map (Length.resolve em) =
      (Length.read? value'.toList).map (Length.resolve em')) (isText : Bool) :
    p.read isText em value = p.read isText em' value' := by
  have hpixels : ∀ l l' : Length, l.resolve em = l'.resolve em' →
      l.toPixels em = l'.toPixels em' :=
    fun _ _ => eq_of_resolve fun _ _ _ => toPixels_resolve
  have hudim : ∀ l l' : Length, l.resolve em = l'.resolve em' → l.toUDim em = l'.toUDim em' :=
    fun _ _ => eq_of_resolve fun _ _ _ => toUDim_resolve
  have hposition : ∀ l l' : Length, l.resolve em = l'.resolve em' →
      l.toPosition em = l'.toPosition em' :=
    fun _ _ => eq_of_resolve fun _ _ _ => toPosition_resolve
  have hbound : ∀ l l' : Length, l.resolve em = l'.resolve em' →
      l.toBound em = l'.toBound em' :=
    fun _ _ => eq_of_resolve fun _ _ _ => toBound_resolve
  cases p with
  | padding => exact absurd rfl hp
  | borderRadius =>
    have hradius : readRadius em value = readRadius em' value' := by
      have hmap := congrArg (Option.map fun l : Length => l.toPixels 0) hl
      simp only [Option.map_map, Function.comp_def, toPixels_resolve] at hmap
      have hnode := congrArg (Option.map fun pixels : Float =>
        Node.ofList .cornerRadius [("CornerRadius", .udim (.ofOffset pixels))]) hmap
      unfold readRadius
      simpa only [Option.map_map, Function.comp_def] using hnode
    unfold Property.read
    rw [hradius]
  | borderWidth =>
    apply readEdit_congr hl
    intro l l' heq
    rw [hpixels l l' heq]
  | paddingSide | gap | width | height =>
    apply readEdit_congr hl
    intro l l' heq
    rw [hudim l l' heq]
  | left | top =>
    apply readEdit_congr hl
    intro l l' heq
    rw [hposition l l' heq]
  | minWidth | minHeight | maxWidth | maxHeight =>
    apply readEdit_congr hl
    intro l l' heq
    rw [hbound l l' heq]
  | _ => cases h

theorem readPadding_resolve {em em' : Float} {value value' : String}
    (hl : (Length.readAll value.toList).map (Length.resolve em) =
      (Length.readAll value'.toList).map (Length.resolve em')) :
    readPadding em value = readPadding em' value' := by
  have hpadding : ∀ (em : Float) (value : String), readPadding em value =
      (((Length.readAll value.toList).map (Length.resolve em)).head?.map fun _ =>
        .padding (((Length.readAll value.toList).map (Length.resolve em)).map fun l =>
          l.toUDim 0)) := by
    intro em value
    unfold readPadding
    rw [List.map_map]
    cases Length.readAll value.toList with
    | nil => rfl
    | cons l lengths =>
      simp only [List.map_cons, Function.comp_def, toUDim_resolve, List.head?_cons,
        Option.map_some]
  rw [hpadding em, hpadding em', hl]

theorem read_resolve {p : Property} (h : p.measures = true) {em em' : Float}
    {value value' : String}
    (hl : (Length.readAll value.toList).map (Length.resolve em) =
      (Length.readAll value'.toList).map (Length.resolve em')) (isText : Bool) :
    p.read isText em value = p.read isText em' value' := by
  by_cases hp : p = .padding
  · rw [hp]
    unfold Property.read
    rw [readPadding_resolve hl]
  · apply read_resolve_first h hp
    have hhead := congrArg List.head? hl
    rwa [List.head?_map, List.head?_map] at hhead

/-- The declaration holds a length in `em` that its property looks at: the padding at all
lengths, all others at the first. -/
def UsesEm (entry : String × String) : Prop :=
  if entry.1 = Property.padding.name then ∃ l ∈ Length.readAll entry.2.toList, l.unit = .em
  else ∃ l ∈ Length.read? entry.2.toList, l.unit = .em

instance : DecidablePred UsesEm := fun entry =>
  inferInstanceAs (Decidable (if entry.1 = Property.padding.name then _ else _))

theorem read_of_not_usesEm {p : Property} {value : String} (h : ¬UsesEm (p.name, value))
    (isText : Bool) (em em' : Float) :
    p.read isText em (String.ofList (trim value.toList)) =
      p.read isText em' (String.ofList (trim value.toList)) := by
  have htrim : Length.readAll (String.ofList (trim value.toList)).toList =
      Length.readAll value.toList := by
    rw [String.toList_ofList, readAll_trim]
  unfold UsesEm at h
  cases hmeasures : p.measures with
  | false => exact read_of_not_measures hmeasures isText em em' _
  | true =>
    by_cases hp : p = .padding
    · rw [if_pos (name_eq_iff.mpr hp)] at h
      apply read_resolve hmeasures
      rw [htrim]
      apply List.map_congr_left
      intro l hl
      have hunit : l.unit ≠ .em := fun hunit => h ⟨l, hl, hunit⟩
      rw [resolve_of_unit_ne hunit, resolve_of_unit_ne hunit]
    · rw [if_neg (fun heq => hp (name_eq_iff.mp heq))] at h
      apply read_resolve_first hmeasures hp
      unfold Length.read?
      rw [htrim]
      cases hl : (Length.readAll value.toList).head? with
      | none => rw [Option.map_none, Option.map_none]
      | some l =>
        have hunit : l.unit ≠ .em := fun hunit => h ⟨l, hl, hunit⟩
        rw [Option.map_some, Option.map_some, resolve_of_unit_ne hunit,
          resolve_of_unit_ne hunit]

/-! ## Drafts without an attribute -/

/-- A draft with one attribute left out. The others keep their order. -/
def Draft.without (name : String) (d : Draft) : Draft :=
  { d with attributes := ⟨d.attributes.entries.filter fun entry => entry.1 ≠ name⟩ }

def Setting.sets (name : String) : Setting → Bool
  | .element other _ => other = name
  | _ => false

section

variable {α : Type} {name : String}

theorem filter_putEntry (other : String) (value : α) (l : List (String × α)) :
    ((ArrivalMap.putEntry other value l).filter fun entry => entry.1 ≠ name) =
      if other = name then l.filter fun entry => entry.1 ≠ name
      else ArrivalMap.putEntry other value (l.filter fun entry => entry.1 ≠ name) := by
  induction l with
  | nil => by_cases h : other = name <;> simp [ArrivalMap.putEntry, h]
  | cons entry l ih =>
    obtain ⟨n, v⟩ := entry
    by_cases hn : n = other
    · by_cases h : other = name <;> simp [ArrivalMap.putEntry, hn, h]
    · rw [ArrivalMap.putEntry, if_neg hn, List.filter_cons, List.filter_cons, ih]
      by_cases h : other = name
      · rw [if_pos h, if_pos h]
      · rw [if_neg h, if_neg h]
        by_cases hkeep : n = name <;> simp [ArrivalMap.putEntry, hkeep, hn]

theorem filter_putAll (m : ArrivalMap α) (pairs : List (String × α)) :
    ((m.putAll pairs).entries.filter fun entry => entry.1 ≠ name) =
      ((ArrivalMap.mk (m.entries.filter fun entry => entry.1 ≠ name)).putAll
        (pairs.filter fun pair => pair.1 ≠ name)).entries := by
  induction pairs generalizing m with
  | nil => rfl
  | cons pair pairs ih =>
    have hput : ((m.put pair.1 pair.2).entries.filter fun entry => entry.1 ≠ name) =
        if pair.1 = name then m.entries.filter fun entry => entry.1 ≠ name
        else ArrivalMap.putEntry pair.1 pair.2 (m.entries.filter fun entry => entry.1 ≠ name) :=
      filter_putEntry pair.1 pair.2 m.entries
    refine (ih (m.put pair.1 pair.2)).trans ?_
    rw [hput]
    by_cases h : pair.1 = name
    · rw [if_pos h, List.filter_cons_of_neg (by simp [h])]
    · rw [if_neg h, List.filter_cons_of_pos (by simp [h])]
      rfl

end

theorem without_set_of_sets {name : String} {s : Setting} (h : s.sets name = true) (d : Draft) :
    (d.set s).without name = d.without name := by
  cases s with
  | element other value =>
    unfold Draft.without Draft.set
    congr 2
    exact (filter_putEntry other value d.attributes.entries).trans
      (if_pos (of_decide_eq_true h))
  | node | style => cases h

theorem without_eq_iff {name : String} {d d' : Draft} :
    d.without name = d'.without name ↔
      ((d.attributes.entries.filter fun entry => entry.1 ≠ name) =
        d'.attributes.entries.filter fun entry => entry.1 ≠ name) ∧
      d.nodes = d'.nodes ∧ d.style = d'.style := by
  unfold Draft.without
  rw [Draft.mk.injEq, ArrivalMap.mk.injEq]

theorem without_set (name : String) (s : Setting) {d d' : Draft}
    (h : d.without name = d'.without name) :
    (d.set s).without name = (d'.set s).without name := by
  obtain ⟨hattributes, hnodes, hstyle⟩ := without_eq_iff.mp h
  cases s with
  | element other value =>
    simp only [Draft.without, Draft.set, ArrivalMap.put, filter_putEntry, hattributes, hnodes,
      hstyle]
  | node | style =>
    simp only [Draft.without, Draft.set, hattributes, hnodes, hstyle]

theorem finish_without {name : String} {d d' : Draft} (h : d.without name = d'.without name)
    (isText : Bool) (warnings : List Warning) :
    ((d.finish isText warnings).attributes.entries.filter fun entry => entry.1 ≠ name) =
      ((d'.finish isText warnings).attributes.entries.filter fun entry => entry.1 ≠ name) ∧
    (d.finish isText warnings).nodes = (d'.finish isText warnings).nodes ∧
    (d.finish isText warnings).warnings = (d'.finish isText warnings).warnings := by
  obtain ⟨hattributes, hnodes, hstyle⟩ := without_eq_iff.mp h
  unfold Draft.finish
  refine ⟨?_, ?_, ?_⟩
  · rw [filter_putAll, filter_putAll, hattributes, hstyle]
  · rw [hnodes, hstyle]
  · rw [hstyle]

/-! ## Two runs -/

section

variable {sheet sheet' : Sheet} {className : String}

theorem read_fontSize
    (hem : ∀ entry ∈ (sheet.declarations className).entries,
      entry.1 ≠ Property.fontSize.name → ¬UsesEm entry)
    {a : Application} (ha : a ∈ Application.ofRule className (sheet.declarations className))
    (hproperty : a.property ≠ .fontSize) (isText : Bool) (fontSize : Float) :
    { a with fontSize }.read isText = a.read isText := by
  obtain ⟨entry, hentry, hof⟩ := List.mem_filterMap.mp ha
  obtain ⟨property, hname, rfl⟩ := Option.map_eq_some_iff.mp hof
  have hentryName := Property.name_of_ofName? hname
  have hne : entry.1 ≠ Property.fontSize.name := by
    intro heq
    rw [heq, Property.ofName?_name] at hname
    exact hproperty (Option.some.inj hname).symm
  have huses := hem entry hentry hne
  have heta : entry = (property.name, entry.2) := Prod.ext hentryName.symm rfl
  rw [heta] at huses
  exact read_of_not_usesEm huses isText _ _

theorem draft_fontSize (h : sheet.Revised sheet' className .fontSize)
    (hem : ∀ entry ∈ (sheet.declarations className).entries,
      entry.1 ≠ Property.fontSize.name → ¬UsesEm entry) (request : Request) :
    (sheet'.draft request).without "TextSize" = (sheet.draft request).without "TextSize" := by
  have hskip : ∀ (d : Draft) (s : Setting), (!s.sets "TextSize") = false →
      (d.set s).without "TextSize" = d.without "TextSize" := by
    intro d s hs
    exact without_set_of_sets (by simpa using hs) d
  have hview : ∀ sheet : Sheet, (sheet.draft request).without "TextSize" =
      (Draft.empty.setAll ((sheet.applications request.classes).filterMap fun a =>
        (a.setting? request.isText).filter fun s => !s.sets "TextSize")).without "TextSize" := by
    intro sheet
    rw [← List.filter_filterMap]
    exact view_setAll (Draft.without "TextSize") (fun s => !s.sets "TextSize") hskip
      (fun _ _ s => without_set "TextSize" s) rfl _
  have hsettings :
      ((sheet'.applications request.classes).filterMap fun a =>
        (a.setting? request.isText).filter fun s => !s.sets "TextSize") =
      (sheet.applications request.classes).filterMap fun a =>
        (a.setting? request.isText).filter fun s => !s.sets "TextSize" := by
    apply filterMap_applications_revised h
    · intro a ha
      have hset := setting_attribute .fontSize request.isText a.fontSize a.value
      unfold Application.setting? Application.read
      rw [ha]
      refine (congrArg _ hset).trans ?_
      cases AttributeField.fontSize.read? a.value with
      | none => rfl
      | some v => rfl
    · intro a ha hproperty
      unfold Application.setting?
      rw [read_fontSize hem ha hproperty]
  rw [hview sheet', hview sheet, hsettings]

theorem warnings_fontSize (h : sheet.Revised sheet' className .fontSize)
    (hem : ∀ entry ∈ (sheet.declarations className).entries,
      entry.1 ≠ Property.fontSize.name → ¬UsesEm entry) (request : Request) :
    ((sheet'.applications request.classes).filterMap fun a => a.warning? request.isText) =
      (sheet.applications request.classes).filterMap fun a => a.warning? request.isText := by
  apply filterMap_applications_revised h
  · intro a ha
    unfold Application.warning? Application.read
    rw [ha]
    rfl
  · intro a ha hproperty
    unfold Application.warning?
    rw [read_fontSize hem ha hproperty]

end

/-- The font size of a class reaches no lengths but those of the class itself. If these are not in
`em`, another font size changes `TextSize` alone. If they are, `em` is the font size that the class
declares, in pixels, or 16. -/
theorem Sheet.synthesis_fontSize (sheet : Sheet) (request : Request) :
    (∀ (sheet' : Sheet) (className : String), sheet.Revised sheet' className .fontSize →
      (∀ entry ∈ (sheet.declarations className).entries,
        entry.1 ≠ Property.fontSize.name → ¬UsesEm entry) →
      ((sheet'.synthesis request).attributes.entries.filter fun entry => entry.1 ≠ "TextSize") =
        ((sheet.synthesis request).attributes.entries.filter fun entry => entry.1 ≠ "TextSize") ∧
      (sheet'.synthesis request).nodes = (sheet.synthesis request).nodes ∧
      (sheet'.synthesis request).warnings = (sheet.synthesis request).warnings) ∧
    ∀ a ∈ sheet.applications request.classes, ∃ rule, sheet.get? a.className = some rule ∧
      a.fontSize = (match (rule.declarations.get? "font-size").bind fun value =>
          Length.read? value.toList with
        | some ⟨value, .rem⟩ | some ⟨value, .em⟩ => value * 16
        | some ⟨value, _⟩ => value
        | none => 16) ∧
      (a.property.measures = true → ∀ (em : Float) (value : String),
        (Length.readAll a.value.toList).map (Length.resolve a.fontSize) =
          (Length.readAll value.toList).map (Length.resolve em) →
        a.read request.isText = a.property.read request.isText em value) ∧
      (a.property.measures = false → ∀ em : Float,
        a.read request.isText = a.property.read request.isText em a.value) := by
  constructor
  · intro sheet' className h hem
    have hdraft := draft_fontSize h hem request
    unfold Sheet.synthesis
    rw [warnings_fontSize h hem request]
    exact finish_without hdraft request.isText _
  · intro a ha
    obtain ⟨-, rule, hrule, hsize, -⟩ := mem_applications ha
    refine ⟨rule, hrule, ?_, ?_, ?_⟩
    · rw [hsize]
      have hname : Property.fontSize.name = "font-size" := rfl
      unfold classFontSize
      rw [hname]
      cases (rule.declarations.get? "font-size").bind fun value =>
          Length.read? value.toList with
      | none => rfl
      | some length =>
        obtain ⟨value, unit⟩ := length
        cases unit <;> rfl
    · intro hmeasures em value hlengths
      exact read_resolve hmeasures hlengths request.isText
    · intro hmeasures em
      exact read_of_not_measures hmeasures request.isText a.fontSize em a.value

theorem Sheet.synthesis_fontSize_moved :
    let others := Sheet.empty.insert "b" ⟨.empty, ⟨[("height", "2em"), ("font-size", "10px")]⟩⟩
    let sheet := others.insert "a" ⟨.empty, ⟨[("width", "2px"), ("font-size", "1rem")]⟩⟩
    let sheet' := others.insert "a" ⟨.empty, ⟨[("font-size", "3em"), ("width", "2px")]⟩⟩
    let request : Request := ⟨["a", "b"], true⟩
    sheet.Revised sheet' "a" .fontSize ∧
    (∀ entry ∈ (sheet.declarations "a").entries,
      entry.1 ≠ Property.fontSize.name → ¬UsesEm entry) ∧
    (sheet'.synthesis request).nodes = (sheet.synthesis request).nodes ∧
    (sheet'.synthesis request).attributes.get? "Size" =
      some (.udim2 ⟨.ofOffset 2, .ofOffset 20⟩) := by
  intro others sheet sheet' request
  have hrevised : sheet.Revised sheet' "a" .fontSize := by
    refine ⟨?_, by decide +kernel⟩
    intro other hother
    have hget : sheet'.get? other = sheet.get? other :=
      (SortedMap.get?_insert_of_ne _ hother.symm _).trans
        (SortedMap.get?_insert_of_ne _ hother.symm _).symm
    unfold Sheet.declarations
    rw [hget]
  have hem : ∀ entry ∈ (sheet.declarations "a").entries,
      entry.1 ≠ Property.fontSize.name → ¬UsesEm entry := by decide +kernel
  have hsame := (Sheet.synthesis_fontSize sheet request).1 sheet' "a" hrevised hem
  exact ⟨hrevised, hem, hsame.2.1, by decide +kernel⟩

end ClassStyle
