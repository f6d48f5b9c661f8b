import ClassStyle.Css.Value
import ClassStyle.Proofs.Nesting

/-!
# Room for substitutions

How deep texts can lie in each other when a value is written. A fallback is shorter than the text
around it, and a property takes its own text out of the room when it is opened (`room_open`).
-/

namespace ClassStyle.Css

open Component Text

-- Sums start with the zero of the core library, also where an algebra library is in scope.
attribute [local instance (high)] Zero.ofOfNat0

/-! ## What components take of a text -/

/-- Each token of the component stands for some text. -/
abbrev Component.Solid (c : Component) : Prop := c.Each fun l => l.source ≠ []

theorem solid_components (text : List Char) : ∀ c ∈ components text, c.Solid :=
  each_components fun c rest _ => source_lexemeAt_ne_nil c rest

theorem sourceAll_sublist {a b : List Component} (h : a.Sublist b) :
    (sourceAll a).Sublist (sourceAll b) := by
  induction h with
  | slnil => exact List.Sublist.refl _
  | cons c _ ih =>
    rw [sourceAll_cons]
    exact ih.trans (List.sublist_append_right _ _)
  | cons_cons c _ ih =>
    rw [sourceAll_cons, sourceAll_cons]
    exact (List.append_sublist_append_left _).mpr ih

theorem source_sublist_of_mem {c : Component} {cs : List Component} (h : c ∈ cs) :
    c.source.Sublist (sourceAll cs) := by
  have hsource := sourceAll_sublist (List.singleton_sublist.mpr h)
  rwa [sourceAll_cons, sourceAll_nil, List.append_nil] at hsource

theorem length_body_lt {opener : Lexeme} {body : List Component} {closer : Option Lexeme}
    (h : Solid (.block opener body closer)) :
    (sourceAll body).length < (Component.block opener body closer).source.length := by
  cases h with
  | block hopener hbody =>
    have hpos := List.length_pos_iff.mpr hopener
    rw [source_block, List.length_append, List.length_append]
    omega

theorem trim_sublist (s : List Char) : (trim s).Sublist s := by
  have hend := (List.dropWhile_sublist isBlank (l := (trimStart s).reverse)).reverse
  rw [List.reverse_reverse] at hend
  exact hend.trans (List.dropWhile_sublist isBlank)

/-- What follows the first argument of a reference. -/
def behindFirst (arguments : List Component) : List Component :=
  (arguments.dropWhile isSeparator).tail.dropWhile isSeparator

theorem fallback?_eq (arguments : List Component) :
    fallback? arguments =
      if (behindFirst arguments).head?.any (isLeaf .comma) then
        some (trim (sourceAll (behindFirst arguments).tail))
      else none := by
  unfold fallback? behindFirst
  split
  · next hnil => rw [hnil]; rfl
  · next first rest hfirst =>
    rw [hfirst, List.tail_cons]
    split
    · next hnil => rw [hnil]; rfl
    · next hrest => rw [hrest]; rfl

theorem behindFirst_suffix (arguments : List Component) : behindFirst arguments <:+ arguments :=
  (List.dropWhile_suffix _).trans ((List.tail_suffix _).trans (List.dropWhile_suffix _))

theorem fallback?_sublist {arguments : List Component} {text : List Char}
    (h : fallback? arguments = some text) : text.Sublist (sourceAll arguments) := by
  rw [fallback?_eq] at h
  split at h
  · obtain rfl := Option.some.inj h
    have hsuffix := (List.tail_suffix (behindFirst arguments)).trans (behindFirst_suffix arguments)
    exact (trim_sublist _).trans (sourceAll_sublist hsuffix.sublist)
  · cases h

/-- A color or a reference fits into a text of some length. -/
def Fits (length : Nat) (cs : List Component) : Prop :=
  ∀ c ∈ cs, c.Solid ∧ c.source.length ≤ length

theorem fits_components (text : List Char) : Fits text.length (components text) := by
  intro c hc
  have hle := (source_sublist_of_mem hc).length_le
  rw [source_components] at hle
  exact ⟨solid_components text c hc, hle⟩

theorem Fits.body {length : Nat} {opener : Lexeme} {body : List Component} {closer : Option Lexeme}
    {cs : List Component} (h : Fits length (.block opener body closer :: cs)) :
    (sourceAll body).length < length ∧ Fits length body := by
  obtain ⟨⟨hsolid, hle⟩, -⟩ := List.forall_mem_cons.mp h
  have hlt := length_body_lt hsolid
  refine ⟨by omega, fun c hc => ?_⟩
  have := (source_sublist_of_mem hc).length_le
  cases hsolid with
  | block _ hbody => exact ⟨hbody c hc, by omega⟩

theorem Fits.tail {length : Nat} {c : Component} {cs : List Component} (h : Fits length (c :: cs)) :
    Fits length cs := (List.forall_mem_cons.mp h).2

/-! ## Room for substitutions -/

/-- A property that is not open has room for its text. -/
def weight (opened : List String) (entry : String × String) : Nat :=
  if opened.contains entry.1 then 0 else entry.2.toList.length + 1

/-- How deep texts can lie in each other if some properties are open. -/
def room (custom : SortedMap String) (opened : List String) (text : List Char) : Nat :=
  text.length + 1 + (custom.entries.map (weight opened)).sum

theorem sum_map_le {α : Type} {f g : α → Nat} (l : List α) (h : ∀ a, f a ≤ g a) :
    (l.map f).sum ≤ (l.map g).sum := by
  induction l with
  | nil => simp
  | cons a l ih =>
    have := h a
    simp only [List.map_cons, List.sum_cons]
    omega

theorem exists_depthBound (custom : SortedMap String) (text : List Char) :
    ∃ depth, depthBound custom text = depth + 1 := by
  refine ⟨text.length + (custom.entries.map fun entry => entry.2.toList.length + 1).sum, ?_⟩
  unfold depthBound
  omega

theorem room_le_depthBound (custom : SortedMap String) (opened : List String)
    (text : List Char) : room custom opened text ≤ depthBound custom text := by
  have hweight : ∀ entry, weight opened entry ≤ entry.2.toList.length + 1 := by
    intro entry
    unfold weight
    split <;> omega
  have hsum := sum_map_le custom.entries hweight
  unfold room depthBound
  omega

theorem weight_open_le (name : String) (opened : List String) (entry : String × String) :
    weight (name :: opened) entry ≤ weight opened entry := by
  unfold weight
  rw [List.contains_cons]
  cases opened.contains entry.1 with
  | true => simp
  | false => split <;> simp

theorem sum_weight_open {name text : String} {opened : List String}
    {entries : List (String × String)} (hmem : (name, text) ∈ entries) (hnot : name ∉ opened) :
    (entries.map (weight (name :: opened))).sum + (text.toList.length + 1) ≤
      (entries.map (weight opened)).sum := by
  induction entries with
  | nil => simp at hmem
  | cons entry entries ih =>
    simp only [List.map_cons, List.sum_cons]
    rcases List.mem_cons.mp hmem with rfl | hmem
    · have hopen : weight (name :: opened) (name, text) = 0 := by simp [weight]
      have hclosed : weight opened (name, text) = text.toList.length + 1 := by
        simp [weight, hnot]
      have := sum_map_le entries (weight_open_le name opened)
      omega
    · have := ih hmem
      have := weight_open_le name opened entry
      omega

theorem definition?_sublist {custom : SortedMap String} {name : String} {value : List Char}
    (h : definition? custom name = some value) :
    ∃ text : String, (name, text) ∈ custom.entries ∧ value.Sublist text.toList := by
  unfold definition? at h
  obtain ⟨text, hget, htext⟩ := Option.bind_eq_some_iff.mp h
  refine ⟨text, SortedMap.mem_of_lookup hget, ?_⟩
  simp only at htext
  split at htext
  · simp at htext
  · obtain rfl := Option.some.inj htext
    exact trim_sublist _

/-- Opening a property takes more room than its text needs. -/
theorem room_open {custom : SortedMap String} {opened : List String} {name : String}
    {value : List Char} (hvalue : definition? custom name = some value) (hnot : name ∉ opened)
    (text : List Char) : room custom (name :: opened) value < room custom opened text := by
  obtain ⟨whole, hmem, hpart⟩ := definition?_sublist hvalue
  have hlength := hpart.length_le
  have hsum := sum_weight_open hmem hnot
  unfold room
  omega

end ClassStyle.Css
