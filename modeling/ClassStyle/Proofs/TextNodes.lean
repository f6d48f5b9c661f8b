import ClassStyle.Proofs.Shapes

/-!
# Elements with and without text

Whether an element shows text decides under which name its color is set, and whether it has a font.
Its nodes, its warnings and all its other attributes are the same (`Sheet.synthesis_plain`).
-/

namespace ClassStyle

/-! ## Without text -/

/-- The name that an attribute of text has at an element without text. -/
def plainName (name : String) : String := if name = "TextColor3" then "ImageColor3" else name

/-- Attributes under the names that they have at an element without text. -/
def plainEntries (entries : List (String × AttributeValue)) : List (String × AttributeValue) :=
  entries.map fun entry => (plainName entry.1, entry.2)

def Setting.plain : Setting → Setting
  | .element name value => .element (plainName name) value
  | s => s

def Draft.plain (d : Draft) : Draft :=
  { d with attributes := ⟨plainEntries d.attributes.entries⟩ }

theorem plainName_name (f : AttributeField) : plainName (f.name true) = f.name false := by
  cases f <;> decide

/-! ## Declarations -/

section

variable {p : Property} (em : Float) (value className : String)

theorem read_of_ne_color (h : p ≠ .color) :
    p.read false em value = p.read true em value := by
  cases p with
  | color => exact absurd rfl h
  | _ => rfl

theorem setting_read_plain (p : Property) :
    (p.read false em value).setting = (p.read true em value).setting.map Setting.plain := by
  have hother : p ≠ .color →
      (∀ s, (p.read true em value).setting = some s → s.plain = s) →
      (p.read false em value).setting = (p.read true em value).setting.map Setting.plain := by
    intro hp hplain
    rw [read_of_ne_color em value hp]
    cases hs : (p.read true em value).setting with
    | none => rfl
    | some s => rw [Option.map_some, hplain s hs]
  cases hrole : p.role with
  | element f =>
    obtain rfl := role_eq_element_iff.mp hrole
    rw [setting_attribute, setting_attribute, Option.map_map]
    refine congrArg (Option.map · (f.read? value)) (funext fun v => ?_)
    simp only [Function.comp_apply, Setting.plain, plainName_name]
  | style | other =>
    -- Nothing but an attribute has another name.
    refine hother (by rintro rfl; cases hrole) fun s hs => ?_
    have hwrites := writes_setting hs
    rw [hrole] at hwrites
    cases hwrites <;> rfl

theorem warning?_read_plain (p : Property) :
    (p.read false em value).remark.bind (Remark.warning? className) =
      (p.read true em value).remark.bind (Remark.warning? className) := by
  by_cases hp : p = .color
  · subst hp
    have hread : ∀ name, (readColorAttribute name value).remark.bind
        (Remark.warning? className) = none := by
      intro name
      unfold readColorAttribute
      cases Color.read? value.toList <;> rfl
    exact (hread _).trans (hread _).symm
  · rw [read_of_ne_color em value hp]

end

/-! ## Drafts -/

section

variable {d : Draft}

theorem Draft.Bounded.eq_of_plainName_eq (h : d.Bounded true) {name : String}
    (hname : name ∈ d.attributes.names) {f : AttributeField}
    (hplain : plainName name = plainName (f.name true)) : name = f.name true := by
  obtain ⟨g, rfl⟩ := h.named name (isSome_get?_of_mem_names hname)
  rw [plainName_name, plainName_name] at hplain
  rw [name_injective false hplain]

theorem plainEntries_putEntry {name : String} (value : AttributeValue)
    {l : List (String × AttributeValue)}
    (h : ∀ other ∈ l.map Prod.fst, plainName other = plainName name → other = name) :
    plainEntries (ArrivalMap.putEntry name value l) =
      ArrivalMap.putEntry (plainName name) value (plainEntries l) := by
  induction l with
  | nil => rfl
  | cons entry l ih =>
    obtain ⟨hentry, hl⟩ := List.forall_mem_cons.mp h
    have hput := ih hl
    unfold plainEntries at hput ⊢
    by_cases hn : entry.1 = name
    · simp [ArrivalMap.putEntry, hn]
    · have hplain : plainName entry.1 ≠ plainName name := fun heq => hn (hentry heq)
      simp [ArrivalMap.putEntry, hn, hplain, hput]

theorem Draft.Bounded.plain_apply (h : d.Bounded true) (a : Application) :
    d.plain.apply false a = (d.apply true a).plain := by
  have hsetting : a.setting? false = (a.setting? true).map Setting.plain :=
    setting_read_plain a.fontSize a.value a.property
  unfold Draft.apply
  rw [hsetting]
  cases hs : a.setting? true with
  | none => rfl
  | some s =>
    have hwrites : s.Writes true a.property.role := writes_setting hs
    generalize a.property.role = role at hwrites
    cases hwrites with
    | element f v =>
      have hput : plainEntries (ArrivalMap.putEntry (f.name true) v d.attributes.entries) =
          ArrivalMap.putEntry (plainName (f.name true)) v (plainEntries d.attributes.entries) :=
        plainEntries_putEntry v fun name hname hplain => h.eq_of_plainName_eq hname hplain
      simp only [Option.map_some, Option.getD_some, Draft.plain, Setting.plain, Draft.set,
        ArrivalMap.put, hput]
    | _ => rfl

theorem Draft.Bounded.plain_foldl (h : d.Bounded true) (applications : List Application) :
    applications.foldl (Draft.apply false) d.plain =
      (applications.foldl (Draft.apply true) d).plain := by
  induction applications generalizing d with
  | nil => rfl
  | cons a applications ih => rw [List.foldl_cons, List.foldl_cons, h.plain_apply, ih (h.apply a)]

theorem draft_plain (sheet : Sheet) (classes : List String) :
    sheet.draft ⟨classes, false⟩ = (sheet.draft ⟨classes, true⟩).plain := by
  have hempty : Draft.empty.Bounded true := bounded_draft .empty ⟨[], true⟩
  rw [draft_eq_foldl, draft_eq_foldl]
  exact hempty.plain_foldl _

end

/-! ## Attributes of the style -/

theorem filter_attributes (s : Style) :
    ((s.attributes true).filter fun entry => entry.1 ≠ "FontFace") = s.attributes false := by
  unfold Style.attributes
  simp only [List.filter_append, apply_ite (List.filter _)]
  simp

theorem plainEntries_of_names {entries : List (String × AttributeValue)}
    (h : (entries.map Prod.fst).Sublist styleNames) : plainEntries entries = entries := by
  have hsame : ∀ name ∈ styleNames, plainName name = name := by decide
  refine (List.map_congr_left fun entry hentry => ?_).trans (List.map_id entries)
  rw [hsame entry.1 (h.subset (List.mem_map_of_mem hentry))]
  rfl

/-! ## Syntheses -/

theorem entries_synthesis (sheet : Sheet) (request : Request) :
    (sheet.synthesis request).attributes.entries =
      (sheet.draft request).attributes.entries ++
        (sheet.draft request).style.attributes request.isText := by
  have hdraft : (sheet.draft request).attributes.names.Nodup :=
    nodup_names_setAll (d := .empty) List.nodup_nil _
  obtain ⟨hnames, hnodup, -⟩ := names_finish (bounded_draft sheet request) hdraft
    ((sheet.applications request.classes).filterMap fun a => a.warning? request.isText)
  rw [hnames] at hnodup
  exact entries_putAll hnodup

theorem filter_entries_draft (sheet : Sheet) (request : Request) :
    ((sheet.draft request).attributes.entries.filter fun entry => entry.1 ≠ "FontFace") =
      (sheet.draft request).attributes.entries := by
  rw [List.filter_eq_self]
  intro entry hentry
  have hmem : entry.1 ∈ (sheet.draft request).attributes.names := List.mem_map_of_mem hentry
  obtain ⟨f, hf⟩ := (bounded_draft sheet request).named _ (isSome_get?_of_mem_names hmem)
  have hstyle := name_not_mem_style f request.isText
  rw [← hf] at hstyle
  simpa using fun h => hstyle (by simp [h])

/-- An element without text has the nodes and the warnings of the same element with text, and its
attributes in the same order, but for the font. Only the color has another name. -/
theorem Sheet.synthesis_plain (sheet : Sheet) (classes : List String) :
    (sheet.synthesis ⟨classes, false⟩).nodes = (sheet.synthesis ⟨classes, true⟩).nodes ∧
    (sheet.synthesis ⟨classes, false⟩).warnings = (sheet.synthesis ⟨classes, true⟩).warnings ∧
    (sheet.synthesis ⟨classes, false⟩).attributes.entries =
      plainEntries ((sheet.synthesis ⟨classes, true⟩).attributes.entries.filter
        fun entry => entry.1 ≠ "FontFace") := by
  have hdraft := draft_plain sheet classes
  refine ⟨?_, ?_, ?_⟩
  · unfold Sheet.synthesis Draft.finish
    rw [hdraft]
    rfl
  · have hwarning : (fun a : Application => a.warning? false) = fun a => a.warning? true :=
      funext fun a => warning?_read_plain a.fontSize a.value a.className a.property
    unfold Sheet.synthesis Draft.finish
    rw [hdraft]
    exact congrArg (fun warning? => (sheet.applications classes).filterMap warning? ++ _) hwarning
  · have hstyle := plainEntries_of_names
      (names_attributes (sheet.draft ⟨classes, true⟩).style false)
    rw [entries_synthesis, entries_synthesis, List.filter_append, filter_entries_draft,
      filter_attributes, hdraft]
    exact (congrArg (_ ++ ·) hstyle.symm).trans List.map_append.symm

example :
    let sheet := Sheet.empty.insert "a"
      ⟨.empty, ⟨[("font-weight", "700"), ("color", "#fff"), ("width", "2px")]⟩⟩
    (sheet.synthesis ⟨["a"], true⟩).attributes.names = ["TextColor3", "FontFace", "Size"] ∧
      (sheet.synthesis ⟨["a"], false⟩).attributes.names = ["ImageColor3", "Size"] := by
  decide +kernel

end ClassStyle
