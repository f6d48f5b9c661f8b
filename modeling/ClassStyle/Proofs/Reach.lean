import ClassStyle.Proofs.Pieces
import ClassStyle.Proofs.Substitution

/-!
# Where references lead

What is written for a text depends on the properties that are open only as far as the text leads to
them (`writeText_congr`). So a property whose text does not lead back to it is written as its text
would be by itself (`writeText_opened`).
-/

namespace ClassStyle.Css

open Component

/-! ## References that are written -/

/-- The references that are looked into when a component is written: a reference itself, and those
among the arguments of a color. -/
def Component.references : Component → List (List Component)
  | .block { token := .function name, .. } body _ =>
    if isNamed "rgb" name || isNamed "rgba" name then body.filterMap Component.reference?
    else if isNamed "var" name then [body]
    else []
  | _ => []

def referencesIn (cs : List Component) : List (List Component) := cs.flatMap Component.references

section

variable {reference reference' : List Component → Written}

theorem addArgument_congr {c : Component}
    (h : ∀ arguments ∈ c.reference?, reference arguments = reference' arguments)
    (channels : Channels) :
    addArgument reference channels c = addArgument reference' channels c := by
  unfold addArgument
  split
  · rfl
  · rfl
  · next name source body closer =>
    split
    · next hvar => rw [h body (by simp [Component.reference?, hvar])]
    · rfl
  · rfl

theorem writeColor_congr {arguments : List Component}
    (h : ∀ inner ∈ arguments.filterMap Component.reference?, reference inner = reference' inner) :
    writeColor reference arguments = writeColor reference' arguments := by
  unfold writeColor
  generalize (⟨[], []⟩ : Channels) = channels
  induction arguments generalizing channels with
  | nil => rfl
  | cons c arguments ih =>
    have hc : ∀ inner ∈ c.reference?, reference inner = reference' inner := fun inner hinner =>
      h inner (List.mem_filterMap.mpr ⟨c, List.mem_cons_self, hinner⟩)
    rw [List.foldl_cons, List.foldl_cons, addArgument_congr hc]
    refine ih (fun inner hinner => h inner ?_) _
    obtain ⟨d, hd, hd'⟩ := List.mem_filterMap.mp hinner
    exact List.mem_filterMap.mpr ⟨d, List.mem_cons_of_mem _ hd, hd'⟩

theorem writeComponent_congr {c : Component}
    (h : ∀ arguments ∈ c.references, reference arguments = reference' arguments) :
    writeComponent reference c = writeComponent reference' c := by
  unfold writeComponent
  split
  · rfl
  · next name source body closer =>
    simp only [Component.references] at h
    split
    · next hrgb => exact writeColor_congr (by rwa [if_pos hrgb] at h)
    · next hrgb =>
      rw [if_neg hrgb] at h
      split
      · next hvar =>
        rw [if_pos hvar] at h
        exact h body List.mem_cons_self
      · rfl
  · rfl

theorem writeComponents_congr {cs : List Component}
    (h : ∀ arguments ∈ referencesIn cs, reference arguments = reference' arguments) :
    writeComponents reference cs = writeComponents reference' cs := by
  induction cs with
  | nil => rfl
  | cons c cs ih =>
    unfold referencesIn at h
    rw [List.flatMap_cons] at h
    obtain ⟨hc, hcs⟩ := List.forall_mem_append.mp h
    rw [writeComponents, writeComponents, writeComponent_congr hc, ih hcs]

end

/-! ## What a text leads to -/

def referencesOf (text : List Char) : List (List Component) :=
  referencesIn (beforeBang (components text))

/-- Writing a text comes to a reference to a property: in the text, in the text of another property
that it refers to, or in a fallback where there is no such property. -/
inductive LeadsTo (custom : SortedMap String) : List Char → String → Prop
  | reference {text : List Char} {arguments : List Component} {name : String} :
      arguments ∈ referencesOf text → referenceName? arguments = some name →
      LeadsTo custom text name
  | definition {text value : List Char} {arguments : List Component} {name other : String} :
      arguments ∈ referencesOf text → referenceName? arguments = some name →
      definition? custom name = some value → LeadsTo custom value other →
      LeadsTo custom text other
  | fallback {text fallback : List Char} {arguments : List Component} {name other : String} :
      arguments ∈ referencesOf text → referenceName? arguments = some name →
      definition? custom name = none → fallback? arguments = some fallback →
      LeadsTo custom fallback other → LeadsTo custom text other

variable {custom : SortedMap String}

theorem not_leadsTo {text : List Char} (h : referencesOf text = []) (name : String) :
    ¬LeadsTo custom text name := by
  rintro (⟨hmem, _⟩ | ⟨hmem, _, _, _⟩ | ⟨hmem, _, _, _, _⟩) <;> simp [h] at hmem

theorem leadsTo_iff {text value : List Char} {arguments : List Component} {name other : String}
    (h : referencesOf text = [arguments]) (hname : referenceName? arguments = some name)
    (hdefined : definition? custom name = some value) :
    LeadsTo custom text other ↔ other = name ∨ LeadsTo custom value other := by
  have hmem : arguments ∈ referencesOf text := by rw [h]; exact List.mem_singleton_self _
  constructor
  · intro hleads
    cases hleads with
    | reference hmem' hother =>
      obtain rfl := List.mem_singleton.mp (h ▸ hmem')
      rw [hname] at hother
      exact .inl (Option.some.inj hother).symm
    | definition hmem' hname' hdefined' hvalue =>
      obtain rfl := List.mem_singleton.mp (h ▸ hmem')
      rw [hname] at hname'
      obtain rfl := Option.some.inj hname'
      rw [hdefined] at hdefined'
      obtain rfl := Option.some.inj hdefined'
      exact .inr hvalue
    | fallback hmem' hname' hundefined =>
      obtain rfl := List.mem_singleton.mp (h ▸ hmem')
      rw [hname] at hname'
      obtain rfl := Option.some.inj hname'
      rw [hdefined] at hundefined
      cases hundefined
  · rintro (rfl | hvalue)
    · exact .reference hmem hname
    · exact .definition hmem hname hdefined hvalue

theorem writeText_congr (depth : Nat) {text : List Char} {opened opened' : List String}
    (h : ∀ name, LeadsTo custom text name → (name ∈ opened ↔ name ∈ opened')) :
    writeText custom depth opened text = writeText custom depth opened' text := by
  induction depth generalizing text opened opened' with
  | zero => rfl
  | succ depth ih =>
    refine writeComponents_congr fun arguments harguments => ?_
    unfold writeReference
    cases hname : referenceName? arguments with
    | none => rfl
    | some name =>
      have hopen := h name (.reference harguments hname)
      have hcontains : opened.contains name = opened'.contains name := by
        rw [Bool.eq_iff_iff, List.contains_iff_mem, List.contains_iff_mem, hopen]
      simp only [hcontains]
      split
      · rfl
      · cases hdefined : definition? custom name with
        | some value =>
          refine ih fun other hother => ?_
          have hbefore := h other (.definition harguments hname hdefined hother)
          rw [List.mem_cons, List.mem_cons, hbefore]
        | none =>
          cases hfallback : fallback? arguments with
          | none => rfl
          | some fallback =>
            cases fallback with
            | nil => rfl
            | cons c fallback =>
              exact ih fun other hother =>
                h other (.fallback harguments hname hdefined hfallback hother)

/-- The text of a property that does not lead back to it is written as it is by itself. -/
theorem writeText_opened {name : String} {value : List Char} (h : ¬LeadsTo custom value name)
    {depth : Nat} (hdepth : room custom [name] value ≤ depth) :
    writeText custom depth [name] value = writeValue custom value := by
  have hcongr : ∀ depth, writeText custom depth [name] value = writeText custom depth [] value := by
    intro depth
    refine writeText_congr depth fun other hother => ?_
    have hne : other ≠ name := by rintro rfl; exact h hother
    simp [hne]
  have hroom := room_le_depthBound custom [name] value
  calc writeText custom depth [name] value
      = writeText custom (depthBound custom value) [name] value := writeText_eq hdepth hroom
    _ = writeText custom (depthBound custom value) [] value := hcongr _

end ClassStyle.Css
