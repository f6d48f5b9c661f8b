import Mathlib.Data.List.Basic
import ClassStyle.Proofs.Fields

/-!
# Sheets that differ in one property of one class

Two such sheets apply the same declarations but for those of the property, and a draft shows the
same as long as it is looked at through something that the property does not touch.
-/

namespace ClassStyle

open Text

/-! ## What a class declares -/

theorem name_eq_iff {p q : Property} : p.name = q.name ↔ p = q := by
  constructor
  · intro h
    have hp := Property.ofName?_name p
    rw [h, Property.ofName?_name] at hp
    exact (Option.some.inj hp).symm
  · rintro rfl
    rfl

/-- The declarations of a class. A class that the sheet does not know declares nothing. -/
def Sheet.declarations (sheet : Sheet) (className : String) : Declarations :=
  ((sheet.get? className).map Rule.declarations).getD .empty

theorem declarations_of_get? {sheet : Sheet} {className : String} {rule : Rule}
    (h : sheet.get? className = some rule) :
    sheet.declarations className = rule.declarations := by
  unfold Sheet.declarations
  rw [h]
  rfl

theorem flatMap_matched {β : Type} {f : String → Declarations → List β}
    (h : ∀ className, f className .empty = []) (sheet : Sheet) (classes : List String) :
    ((sheet.matched classes).flatMap fun entry => f entry.1 entry.2.declarations) =
      classes.flatMap fun className => f className (sheet.declarations className) := by
  unfold Sheet.matched
  induction classes with
  | nil => rfl
  | cons className classes ih =>
    rw [List.flatMap_cons, ← ih]
    cases hrule : sheet.get? className with
    | none =>
      have hnone : sheet.declarations className = .empty := by
        unfold Sheet.declarations
        rw [hrule]
        rfl
      rw [List.filterMap_cons_none (by rw [hrule]; rfl), hnone, h, List.nil_append]
    | some rule =>
      rw [List.filterMap_cons_some (by rw [hrule]; rfl), List.flatMap_cons,
        declarations_of_get? hrule]

theorem applications_eq (sheet : Sheet) (classes : List String) :
    sheet.applications classes =
      classes.flatMap fun className =>
        Application.ofRule className (sheet.declarations className) :=
  flatMap_matched (fun _ => rfl) sheet classes

theorem mem_applications {sheet : Sheet} {classes : List String} {a : Application}
    (h : a ∈ sheet.applications classes) :
    a.className ∈ classes ∧ ∃ rule, sheet.get? a.className = some rule ∧
      a.fontSize = classFontSize rule.declarations ∧
      ∃ value, (a.property.name, value) ∈ rule.declarations.entries ∧
        a.value = String.ofList (trim value.toList) := by
  unfold Sheet.applications Sheet.matched at h
  obtain ⟨⟨className, rule⟩, hmem, ha⟩ := List.mem_flatMap.mp h
  obtain ⟨other, hclass, hrule⟩ := List.mem_filterMap.mp hmem
  obtain ⟨rule', hget, heq⟩ := Option.map_eq_some_iff.mp hrule
  cases heq
  obtain ⟨entry, hentry, hof⟩ := List.mem_filterMap.mp ha
  obtain ⟨property, hproperty, rfl⟩ := Option.map_eq_some_iff.mp hof
  refine ⟨hclass, rule, hget, rfl, entry.2, ?_, rfl⟩
  rw [Property.name_of_ofName? hproperty]
  exact hentry

/-! ## Revised sheets -/

/-- The sheets agree but for the declarations of one property in one class: these may be changed,
moved, added or left out. -/
structure Sheet.Revised (sheet sheet' : Sheet) (className : String) (property : Property) :
    Prop where
  others : ∀ other, other ≠ className → sheet'.declarations other = sheet.declarations other
  rest : ((sheet'.declarations className).entries.filter fun entry => entry.1 ≠ property.name) =
    (sheet.declarations className).entries.filter fun entry => entry.1 ≠ property.name

section

variable {γ : Type} {sheet sheet' : Sheet} {className : String} {property : Property}

/-- The application that an entry of a class becomes under some font size. -/
def Application.ofEntry? (className : String) (fontSize : Float) (entry : String × String) :
    Option Application :=
  (Property.ofName? entry.1).map fun property =>
    { className, fontSize, property, value := String.ofList (trim entry.2.toList) }

theorem ofEntry?_fontSize (className : String) (fontSize fontSize' : Float)
    (entry : String × String) :
    Application.ofEntry? className fontSize' entry =
      (Application.ofEntry? className fontSize entry).map fun a =>
        { a with fontSize := fontSize' } := by
  unfold Application.ofEntry?
  rw [Option.map_map]
  rfl

theorem ofRule_eq (className : String) (declarations : Declarations) :
    Application.ofRule className declarations =
      declarations.entries.filterMap
        (Application.ofEntry? className (classFontSize declarations)) := rfl

theorem filterMap_applications_entries (sheet : Sheet) (classes : List String)
    {g : Application → Option γ} {f : String → Float → String × String → Option γ}
    (h : ∀ className em entry,
      (Application.ofEntry? className em entry).bind g = f className em entry) :
    (sheet.applications classes).filterMap g =
      classes.flatMap fun className => (sheet.declarations className).entries.filterMap
        (f className (classFontSize (sheet.declarations className))) := by
  rw [applications_eq, List.filterMap_flatMap]
  congr 1
  funext className
  rw [ofRule_eq, List.filterMap_filterMap]
  congr 1
  funext entry
  exact h className _ entry

theorem filterMap_ofRule_rest {g : Application → Option γ}
    (hg : ∀ a : Application, a.property = property → g a = none) (declarations : Declarations) :
    (Application.ofRule className declarations).filterMap g =
      (declarations.entries.filter fun entry => entry.1 ≠ property.name).filterMap fun entry =>
        (Application.ofEntry? className (classFontSize declarations) entry).bind g := by
  rw [ofRule_eq, List.filterMap_filterMap, List.filterMap_filter]
  congr 1
  funext entry
  by_cases hname : entry.1 = property.name
  · have hproperty := Property.ofName?_eq_some_iff.mpr hname.symm
    unfold Application.ofEntry?
    rw [hproperty]
    simp [hname, hg]
  · simp [hname]

theorem filterMap_applications_revised (h : sheet.Revised sheet' className property)
    {g : Application → Option γ} (hg : ∀ a : Application, a.property = property → g a = none)
    (hsize : ∀ a ∈ Application.ofRule className (sheet.declarations className),
      a.property ≠ property →
      g { a with fontSize := classFontSize (sheet'.declarations className) } = g a)
    (classes : List String) :
    (sheet'.applications classes).filterMap g = (sheet.applications classes).filterMap g := by
  have hclass : (Application.ofRule className (sheet'.declarations className)).filterMap g =
      (Application.ofRule className (sheet.declarations className)).filterMap g := by
    rw [filterMap_ofRule_rest hg, filterMap_ofRule_rest hg, h.rest]
    refine List.filterMap_congr ?_
    intro entry hentry
    obtain ⟨hmem, hname⟩ := List.mem_filter.mp hentry
    rw [ofEntry?_fontSize className (classFontSize (sheet.declarations className))]
    cases ha : Application.ofEntry? className (classFontSize (sheet.declarations className))
        entry with
    | none => rfl
    | some a =>
      refine hsize a (List.mem_filterMap.mpr ⟨entry, hmem, ha⟩) ?_
      obtain ⟨p, hp, rfl⟩ := Option.map_eq_some_iff.mp ha
      rintro rfl
      simp [Property.name_of_ofName? hp] at hname
  rw [applications_eq, applications_eq, List.filterMap_flatMap, List.filterMap_flatMap]
  congr 1
  funext other
  by_cases hother : other = className
  · rw [hother, hclass]
  · rw [h.others other hother]

theorem lookup_filter {α : Type} (keep : String → Bool) {name : String} (h : keep name = true)
    (l : List (String × α)) :
    ArrivalMap.lookup name (l.filter fun entry => keep entry.1) = ArrivalMap.lookup name l := by
  induction l with
  | nil => rfl
  | cons entry l ih =>
    by_cases hentry : keep entry.1 = true
    · rw [List.filter_cons_of_pos (by simpa using hentry), ArrivalMap.lookup, ArrivalMap.lookup,
        ih]
    · have hne : entry.1 ≠ name := by
        rintro rfl
        exact hentry h
      rw [List.filter_cons_of_neg (by simpa using hentry), ih, ArrivalMap.lookup, if_neg hne]

theorem filterMap_applications_others (h : sheet.Revised sheet' className property)
    (hproperty : property ≠ .fontSize) {g : Application → Option γ}
    (hg : ∀ a : Application, a.property = property → g a = none) (classes : List String) :
    (sheet'.applications classes).filterMap g = (sheet.applications classes).filterMap g := by
  have hname : decide (Property.fontSize.name ≠ property.name) = true :=
    decide_eq_true fun heq => hproperty (name_eq_iff.mp heq).symm
  have hget : (sheet'.declarations className).get? Property.fontSize.name =
      (sheet.declarations className).get? Property.fontSize.name := by
    unfold ArrivalMap.get?
    have hlookup := fun l : List (String × String) =>
      lookup_filter (fun name => name ≠ property.name) hname l
    rw [← hlookup, h.rest, hlookup]
  refine filterMap_applications_revised h hg ?_ classes
  intro a ha hother
  obtain ⟨entry, hentry, hof⟩ := List.mem_filterMap.mp ha
  obtain ⟨p, hp, rfl⟩ := Option.map_eq_some_iff.mp hof
  unfold classFontSize
  rw [hget]

end

/-! ## What an entry sets -/

/-- What an entry of a class sets under some font size, if it is one of a known property. -/
def entrySetting? (isText : Bool) (em : Float) (entry : String × String) : Option Setting :=
  (Property.ofName? entry.1).bind fun p =>
    (p.read isText em (String.ofList (trim entry.2.toList))).setting

theorem filterMap_setting? (sheet : Sheet) (classes : List String) (isText : Bool) :
    ((sheet.applications classes).filterMap fun a => a.setting? isText) =
      classes.flatMap fun className => (sheet.declarations className).entries.filterMap
        (entrySetting? isText (classFontSize (sheet.declarations className))) := by
  apply filterMap_applications_entries (f := fun _ => entrySetting? isText)
  intro className em entry
  unfold Application.ofEntry? entrySetting?
  rw [Option.bind_map]
  rfl

theorem entrySetting?_name (p : Property) (isText : Bool) (em : Float) (value : String) :
    entrySetting? isText em (p.name, value) =
      (p.read isText em (String.ofList (trim value.toList))).setting := by
  unfold entrySetting?
  rw [Property.ofName?_name]
  rfl

/-! ## Drafts seen in part -/

/-- Of a draft seen through a view, settings that do not touch the view can be left out. -/
theorem view_setAll {β : Type} (view : Draft → β) (touches : Setting → Bool)
    (hskip : ∀ d s, touches s = false → view (d.set s) = view d)
    (hset : ∀ d d' s, view d = view d' → view (d.set s) = view (d'.set s))
    {d d' : Draft} (h : view d = view d') (settings : List Setting) :
    view (d.setAll settings) = view (d'.setAll (settings.filter touches)) := by
  induction settings generalizing d d' with
  | nil => exact h
  | cons s settings ih =>
    cases hs : touches s with
    | false =>
      rw [List.filter_cons_of_neg (by simp [hs])]
      exact ih ((hskip d s hs).trans h)
    | true =>
      rw [List.filter_cons_of_pos hs]
      exact ih (hset d d' s h)

end ClassStyle
