import ClassStyle.Proofs.Recovery
import ClassStyle.Proofs.Revisions
import ClassStyle.Proofs.Settled
import Mathlib

/-!
# Unknown properties

A declaration of a property that has no name among the known ones can be left out of a stylesheet
without a change in any synthesis, unless its value has an alpha channel. Then it is a declaration
of the opacity (`synthesis_unknown`).
-/

namespace ClassStyle

open Text

/-! ## Known names -/

def isKnown (name : String) : Bool := (Property.ofName? name).isSome

/-- The declarations say the same of all known properties, and in the same order. -/
def Declarations.Agree (d d' : Declarations) : Prop :=
  (d.entries.filter fun entry => isKnown entry.1) = d'.entries.filter fun entry => isKnown entry.1

section

variable {d d' : Declarations}

theorem classFontSize_congr (h : d.Agree d') : classFontSize d = classFontSize d' := by
  have hknown : isKnown Property.fontSize.name = true := by
    unfold isKnown
    rw [Property.ofName?_name]
    rfl
  have hget : d.get? Property.fontSize.name = d'.get? Property.fontSize.name := by
    unfold ArrivalMap.get?
    rw [← lookup_filter isKnown hknown, ← lookup_filter isKnown hknown d'.entries]
    exact congrArg _ h
  unfold classFontSize
  rw [hget]

theorem ofRule_congr (h : d.Agree d') (className : String) :
    Application.ofRule className d = Application.ofRule className d' := by
  have hunknown : ∀ entry : String × String, isKnown entry.1 = false →
      Application.ofEntry? className (classFontSize d) entry = none := by
    intro entry hentry
    unfold isKnown at hentry
    unfold Application.ofEntry?
    rw [Option.isNone_iff_eq_none.mp (Option.isSome_eq_false_iff.mp hentry)]
    rfl
  rw [ofRule_eq, ofRule_eq, ← classFontSize_congr h, ← filterMap_filter_names hunknown,
    ← filterMap_filter_names hunknown d'.entries, h]

end

theorem Sheet.synthesis_congr {sheet sheet' : Sheet}
    (h : ∀ className, (sheet.declarations className).Agree (sheet'.declarations className))
    (request : Request) : sheet.synthesis request = sheet'.synthesis request := by
  have happlications :
      sheet.applications request.classes = sheet'.applications request.classes := by
    rw [applications_eq, applications_eq]
    congr 1
    funext className
    exact ofRule_congr (h className) className
  unfold Sheet.synthesis Sheet.draft
  rw [happlications]

namespace Css

open Component

/-! ## Blocks -/

/-- The entries of known properties that a chunk makes. -/
def knownEntries (custom : SortedMap String) (c : Chunk) : List (String × String) :=
  (c.declaration?.toList.flatMap fun d => entriesOf d.1 (writeValue custom d.2)).filter
    fun entry => isKnown entry.1

theorem filter_known_ruleOf (cs : List Chunk) :
    ((ruleOf cs).declarations.entries.filter fun entry => isKnown entry.1) =
      settled (cs.flatMap (knownEntries (customOf cs))) := by
  have hentries : (ruleOf cs).declarations.entries =
      settled ((writtenDeclarations cs).flatMap fun d => entriesOf d.1 d.2) := entries_ofList _
  rw [hentries, ← settled_filter]
  congr 1
  unfold writtenDeclarations knownEntries
  rw [List.filter_flatMap, List.flatMap_map]
  clear hentries
  generalize customOf cs = custom
  induction cs with
  | nil => rfl
  | cons c cs ih =>
    rw [List.flatMap_cons, ← ih, List.filterMap_cons]
    cases c.declaration? <;> simp

theorem agree_ruleOf {before after middle middle' : List Chunk}
    (hcustom : middle.filterMap Chunk.custom? = [])
    (hcustom' : middle'.filterMap Chunk.custom? = [])
    (hknown : middle.flatMap (knownEntries (customOf (before ++ after))) =
      middle'.flatMap (knownEntries (customOf (before ++ after)))) :
    (ruleOf (before ++ middle ++ after)).declarations.Agree
      (ruleOf (before ++ middle' ++ after)).declarations := by
  have hsame : ∀ cs : List Chunk, cs.filterMap Chunk.custom? = [] →
      customOf (before ++ cs ++ after) = customOf (before ++ after) := by
    intro cs hcs
    simp [customOf, hcs]
  unfold Declarations.Agree
  rw [filter_known_ruleOf, filter_known_ruleOf, hsame _ hcustom, hsame _ hcustom']
  simp only [List.flatMap_append, hknown]

theorem declaredIn_joined_append {ts us : List (List Char)} (hts : ∀ t ∈ ts, IsChunk t)
    (hus : ∀ t ∈ us, IsChunk t) (hnames : ∀ t ∈ ts, isLoneName t = false) :
    declaredIn (joined (ts ++ us)) = ts.flatMap declaredIn ++ declaredIn (joined us) := by
  rw [declaredIn_joined (List.forall_mem_append.mpr ⟨hts, hus⟩), declaredIn_joined hus]
  unfold kept
  induction ts with
  | nil => rfl
  | cons t ts ih =>
    obtain ⟨ht, hts⟩ := List.forall_mem_cons.mp hts
    obtain ⟨hname, hnames⟩ := List.forall_mem_cons.mp hnames
    rw [List.cons_append, keptFrom, hname, List.flatMap_cons, List.append_assoc,
      ← ih hts hnames]
    cases hd : isDeclaration t with
    | true => simp
    | false => simp [declaredIn_of_not ht hd]

theorem closed_joined {ts : List (List Char)} (h : ∀ t ∈ ts, IsChunk t) :
    Closed (joined ts) ∧ hasClosingCurly (joined ts) = false := by
  induction ts with
  | nil => decide
  | cons t ts ih =>
    obtain ⟨ht, h⟩ := List.forall_mem_cons.mp h
    cases ts with
    | nil => simpa [joined] using ⟨ht.closed, ht.no_closing⟩
    | cons u ts =>
      obtain ⟨hclosed, hcurly⟩ := ih h
      have hclosing := ht.no_closing
      unfold Closed hasClosingCurly at *
      rw [components_joined ht, joined_cons_cons, List.append_assoc, List.cons_append,
        components_append ht.closed (by decide) (by decide), components_semicolon, hclosed]
      refine ⟨by simp, ?_⟩
      rw [List.any_append, List.any_cons, hclosing, hcurly]
      rfl

/-! ## Sheets -/

/-- A rule with chunks for its block. -/
def ruleWith (prelude : List Char) (ts : List (List Char)) : Statement :=
  ⟨prelude, some (joined ts)⟩

theorem complete_ruleWith {prelude : List Char} {ts us : List (List Char)}
    (h : (ruleWith prelude ts).Complete) (hus : ∀ t ∈ us, IsChunk t) :
    (ruleWith prelude us).Complete := by
  obtain ⟨hprelude, hblock, hsemicolon, -, -⟩ := h
  refine ⟨hprelude, hblock, hsemicolon, fun _ => rfl, ?_⟩
  intro block hmem
  obtain rfl := Option.some.inj hmem
  exact closed_joined hus

theorem agree_readSheet {before : List Statement} {prelude rest : List Char}
    {ts us : List (List Char)} (hbefore : ∀ s ∈ before, s.Complete)
    (hts : (ruleWith prelude ts).Complete) (hus : (ruleWith prelude us).Complete)
    (h : (blockRule (joined ts)).declarations.Agree (blockRule (joined us)).declarations)
    (name : String) :
    ((readSheet (sourceOf (before ++ [ruleWith prelude ts]) ++ rest)).value.declarations
        name).Agree
      ((readSheet (sourceOf (before ++ [ruleWith prelude us]) ++ rest)).value.declarations
        name) := by
  have hget : ∀ vs, (ruleWith prelude vs).Complete →
      (readSheet (sourceOf (before ++ [ruleWith prelude vs]) ++ rest)).value.get? name =
        ((addRules .empty (rulesFrom (components rest))).get? name).or
          (((ruleWith prelude vs).apply (before.foldl Statement.apply .empty)).get? name) := by
    intro vs hvs
    have hall : ∀ s ∈ before ++ [ruleWith prelude vs], s.Complete :=
      List.forall_mem_append.mpr ⟨hbefore, by simpa using hvs⟩
    rw [value_readSheet, addRules_sourceOf hall, get?_addRules, List.foldl_append]
    rfl
  unfold Sheet.declarations
  rw [hget ts hts, hget us hus]
  cases (addRules .empty (rulesFrom (components rest))).get? name with
  | some rule => rfl
  | none =>
    have hat : (ruleWith prelude ts).isAtRule = (ruleWith prelude us).isAtRule := rfl
    have hclasses : (ruleWith prelude ts).classes = (ruleWith prelude us).classes := rfl
    unfold Statement.apply
    rw [hat, hclasses]
    cases (ruleWith prelude us).isAtRule with
    | true => rfl
    | false =>
      simp only [ruleWith, Statement.get?_foldl_insert]
      by_cases hname : name ∈ Statement.classes ⟨prelude, some (joined us)⟩
      · rw [if_pos hname, if_pos hname]
        exact h
      · rw [if_neg hname, if_neg hname]
        rfl

section

variable {before : List Statement} {prelude rest : List Char} {ts us : List (List Char)}

/-- Chunks of a block can be exchanged for others that say the same of known properties. -/
theorem synthesis_exchange (vs ws : List (List Char)) (hbefore : ∀ s ∈ before, s.Complete)
    (hrule : (ruleWith prelude (ts ++ (vs ++ us))).Complete)
    (hchunks : ∀ u ∈ ts ++ (vs ++ us), IsChunk u) (hws : ∀ u ∈ ws, IsChunk u)
    (hnames : ∀ u ∈ ts ++ (vs ++ ws), isLoneName u = false)
    (hcustom : ∀ u ∈ vs ++ ws, (declaredIn u).filterMap Chunk.custom? = [])
    (hknown : (vs.flatMap declaredIn).flatMap
        (knownEntries (customOf (declaredIn (joined (ts ++ (vs ++ us)))))) =
      (ws.flatMap declaredIn).flatMap
        (knownEntries (customOf (declaredIn (joined (ts ++ (vs ++ us)))))))
    (request : Request) :
    (readSheet (sourceOf (before ++ [ruleWith prelude (ts ++ (vs ++ us))]) ++
        rest)).value.synthesis request =
      (readSheet (sourceOf (before ++ [ruleWith prelude (ts ++ (ws ++ us))]) ++
        rest)).value.synthesis request := by
  have hts : ∀ u ∈ ts, IsChunk u := fun u hu => hchunks u (by simp [hu])
  have hvs : ∀ u ∈ vs, IsChunk u := fun u hu => hchunks u (by simp [hu])
  have hus : ∀ u ∈ us, IsChunk u := fun u hu => hchunks u (by simp [hu])
  have hdeclared : ∀ xs : List (List Char), (∀ u ∈ xs, IsChunk u) →
      (∀ u ∈ xs, isLoneName u = false) → declaredIn (joined (ts ++ (xs ++ us))) =
        ts.flatMap declaredIn ++ xs.flatMap declaredIn ++ declaredIn (joined us) := by
    intro xs hxs hlone
    have hfront : ∀ u ∈ ts ++ xs, isLoneName u = false := by
      intro u hu
      rcases List.mem_append.mp hu with hu | hu
      · exact hnames u (by simp [hu])
      · exact hlone u hu
    rw [← List.append_assoc, declaredIn_joined_append (List.forall_mem_append.mpr ⟨hts, hxs⟩) hus
      hfront, List.flatMap_append]
  have hnone : ∀ xs : List (List Char), (∀ u ∈ xs, u ∈ vs ++ ws) →
      (xs.flatMap declaredIn).filterMap Chunk.custom? = [] := by
    intro xs hxs
    rw [List.filterMap_flatMap, List.flatMap_eq_nil_iff]
    exact fun u hu => hcustom u (hxs u hu)
  have hvsNone := hnone vs fun u hu => by simp [hu]
  have hwsNone := hnone ws fun u hu => by simp [hu]
  have hdeclaredVs := hdeclared vs hvs fun u hu => hnames u (by simp [hu])
  have hdeclaredWs := hdeclared ws hws fun u hu => hnames u (by simp [hu])
  have hcustomOf : customOf (declaredIn (joined (ts ++ (vs ++ us)))) =
      customOf (ts.flatMap declaredIn ++ declaredIn (joined us)) := by
    rw [hdeclaredVs]
    simp [customOf, hvsNone]
  rw [hcustomOf] at hknown
  apply Sheet.synthesis_congr
  intro name
  have hwsRule : (ruleWith prelude (ts ++ (ws ++ us))).Complete := by
    refine complete_ruleWith hrule (List.forall_mem_append.mpr ⟨hts, ?_⟩)
    exact List.forall_mem_append.mpr ⟨hws, hus⟩
  apply agree_readSheet hbefore hrule hwsRule
  rw [blockRule_eq, blockRule_eq, hdeclaredVs, hdeclaredWs]
  exact agree_ruleOf hvsNone hwsNone hknown

end

/-! ## Declarations of unknown properties -/

theorem isKnown_eq_false {name : String} (h : ∀ p : Property, p.name ≠ name) :
    isKnown name = false := by
  unfold isKnown
  cases hp : Property.ofName? name with
  | none => rfl
  | some p => exact absurd (Property.name_of_ofName? hp) (h p)

theorem isKnown_name (p : Property) : isKnown p.name = true := by
  unfold isKnown
  rw [Property.ofName?_name]
  rfl

theorem isCustom_opacity : isCustom "opacity" = false := by decide

/-- All that can be known of an unknown property is its alpha channel. -/
theorem knownEntries_unknown {name : String} (hcustom : isCustom name = false)
    (h : ∀ p : Property, p.name ≠ lowerString name) (custom : SortedMap String)
    (value : List Char) :
    knownEntries custom (.declared name value) =
      if (writeValue custom value).text = [] then []
      else ((writeValue custom value).opacity.map fun alpha =>
        ("opacity", String.ofList alpha)).toList := by
  have hopacity : opacityProperty (lowerString name) = "opacity" := by
    rcases Paint.opacityProperty_cases (lowerString name) with ⟨p, hp, -⟩ | hother
    · exact absurd hp.symm (h p.color)
    · exact hother
  have hknown : isKnown "opacity" = true := isKnown_name .opacity
  have hdeclaration :
      Chunk.declaration? (.declared name value) = some (lowerString name, value) := by
    simp [Chunk.declaration?, hcustom]
  unfold knownEntries entriesOf
  rw [hdeclaration]
  by_cases htext : (writeValue custom value).text = []
  · simp [htext]
  · cases halpha : (writeValue custom value).opacity <;>
      simp [htext, hopacity, hknown, isKnown_eq_false h, halpha]

theorem knownEntries_opacity {custom : SortedMap String} {value : List Char}
    (htext : (writeValue custom value).text ≠ [])
    (hopacity : (writeValue custom value).opacity = none) :
    knownEntries custom (.declared "opacity" value) =
      [("opacity", String.ofList (writeValue custom value).text)] := by
  have hlower : lowerString "opacity" = "opacity" := by decide
  have hknown : isKnown "opacity" = true := isKnown_name .opacity
  unfold knownEntries Chunk.declaration? entriesOf
  simp [isCustom_opacity, hlower, hknown, htext, hopacity]

/-- A declaration of a property that is neither custom nor known can be left out of a stylesheet,
or something put in its place that is no declaration, if its value is written without an alpha
channel. With one it is as good as a declaration of this opacity in its place. -/
theorem synthesis_unknown {before : List Statement} {prelude t value : List Char}
    {ts us : List (List Char)} {name : String} (hbefore : ∀ s ∈ before, s.Complete)
    (hrule : (ruleWith prelude (ts ++ t :: us)).Complete)
    (hchunks : ∀ u ∈ ts ++ t :: us, IsChunk u) (hnames : ∀ u ∈ ts, isLoneName u = false)
    (hdeclares : declaredIn t = [.declared name value]) (hcustom : isCustom name = false)
    (hunknown : ∀ p : Property, p.name ≠ lowerString name) (rest : List Char)
    (request : Request) :
    let result := fun chunks => (readSheet
      (sourceOf (before ++ [ruleWith prelude chunks]) ++ rest)).value.synthesis request
    let custom := (blockRule (joined (ts ++ t :: us))).custom
    ((writeValue custom value).opacity = none →
      result (ts ++ us) = result (ts ++ t :: us) ∧
      ∀ u, IsChunk u → isDeclaration u = false → isLoneName u = false →
        result (ts ++ u :: us) = result (ts ++ t :: us)) ∧
    ∀ alpha u opacity, (writeValue custom value).opacity = some alpha →
      (writeValue custom value).text ≠ [] → IsChunk u →
      declaredIn u = [.declared "opacity" opacity] →
      (writeValue custom opacity).text = alpha → (writeValue custom opacity).opacity = none →
      result (ts ++ u :: us) = result (ts ++ t :: us) := by
  intro result custom
  have hsame : customOf (declaredIn (joined (ts ++ ([t] ++ us)))) = custom := by
    show _ = (blockRule _).custom
    rw [blockRule_eq]
    rfl
  have hlone : ∀ {u : List Char} {c : Chunk}, IsChunk u → declaredIn u = [c] →
      isLoneName u = false := by
    intro u c hu hc
    apply not_isLoneName
    have hlength := length_declaredIn hu
    rw [hc] at hlength
    by_contra hd
    simp [hd] at hlength
  have ht := hlone (hchunks t (by simp)) hdeclares
  have hnone : (declaredIn t).filterMap Chunk.custom? = [] := by
    simp [hdeclares, Chunk.custom?, hcustom]
  have hentries := knownEntries_unknown hcustom hunknown custom value
  constructor
  · intro hopacity
    rw [hopacity, Option.map_none, Option.toList_none, ite_self] at hentries
    constructor
    · refine (synthesis_exchange [t] [] hbefore hrule hchunks (by simp) ?_ ?_ ?_ request).symm
      · exact List.forall_mem_append.mpr ⟨hnames, by simpa using ht⟩
      · simpa using hnone
      · rw [List.flatMap_singleton, hdeclares, List.flatMap_singleton, hsame, hentries]
        rfl
    · intro u hu hdeclaration hloneU
      have hempty := declaredIn_of_not hu hdeclaration
      refine (synthesis_exchange [t] [u] hbefore hrule hchunks (by simpa using hu) ?_ ?_ ?_
        request).symm
      · refine List.forall_mem_append.mpr ⟨hnames, ?_⟩
        simpa using ⟨ht, hloneU⟩
      · exact List.forall_mem_cons.mpr ⟨hnone, by simp [hempty]⟩
      · rw [List.flatMap_singleton, List.flatMap_singleton, hdeclares, hempty,
          List.flatMap_singleton, hsame, hentries]
        rfl
  · intro alpha u opacity halpha htext hu hdeclaresU hwritten hopacity
    have hnoneU : (declaredIn u).filterMap Chunk.custom? = [] := by
      simp [hdeclaresU, Chunk.custom?, isCustom_opacity]
    have hne : alpha ≠ [] := by
      obtain ⟨x, rfl⟩ := (wellFormed_writeValue custom value).opacity alpha halpha
      exact (printed_writeSingle x).ne_nil
    refine (synthesis_exchange [t] [u] hbefore hrule hchunks (by simpa using hu) ?_ ?_ ?_
      request).symm
    · refine List.forall_mem_append.mpr ⟨hnames, ?_⟩
      simpa using ⟨ht, hlone hu hdeclaresU⟩
    · exact List.forall_mem_cons.mpr ⟨hnone, List.forall_mem_singleton.mpr hnoneU⟩
    · rw [List.flatMap_singleton, List.flatMap_singleton, hdeclares, hdeclaresU,
        List.flatMap_singleton, List.flatMap_singleton, hsame, hentries,
        knownEntries_opacity (hwritten ▸ hne) hopacity, hwritten, halpha, if_neg htext]
      rfl

def opaqueShadow : List Char := "Box-shadow: rgb(1 2 3)".toList

def translucentShadow : List Char := "Box-shadow: rgb(1 2 3 / .5)".toList

theorem ne_boxShadow (p : Property) : p.name ≠ "box-shadow" := by
  intro hname
  have hknown := isKnown_name p
  have hunknown : isKnown "box-shadow" = false := by cbv
  rw [hname, hunknown] at hknown
  cases hknown

theorem isChunk_shadow : IsChunk opaqueShadow ∧ IsChunk translucentShadow ∧ IsChunk ['t', 'o'] :=
  ⟨⟨by cbv, forall_mem_of_all (by cbv), by cbv⟩, ⟨by cbv, forall_mem_of_all (by cbv), by cbv⟩,
    ⟨by cbv, forall_mem_of_all (by cbv), by cbv⟩⟩

theorem complete_shadow {ts : List (List Char)} (h : ∀ t ∈ ts, IsChunk t) :
    (ruleWith ['.', 'a'] ts).Complete := by
  have hempty : (ruleWith ['.', 'a'] []).Complete :=
    ⟨by cbv, forall_mem_of_all (by cbv), nofun, fun _ => rfl, by decide +kernel⟩
  exact complete_ruleWith hempty h

theorem synthesis_unknown_opaque :
    (ruleWith ['.', 'a'] [opaqueShadow, ['t', 'o']]).Complete ∧
    declaredIn opaqueShadow = [.declared "Box-shadow" " rgb(1 2 3)".toList] ∧
    (readSheet (sourceOf [ruleWith ['.', 'a'] [['t', 'o']]] ++ [])).value.synthesis ⟨["a"], true⟩ =
      (readSheet (sourceOf [ruleWith ['.', 'a'] [opaqueShadow, ['t', 'o']]] ++
        [])).value.synthesis ⟨["a"], true⟩ := by
  obtain ⟨hshadow, -, hlone⟩ := isChunk_shadow
  have hchunks : ∀ t ∈ [] ++ opaqueShadow :: [['t', 'o']], IsChunk t := by
    simp [hshadow, hlone]
  have hdeclares : declaredIn opaqueShadow = [.declared "Box-shadow" " rgb(1 2 3)".toList] := by
    decide +kernel
  have hlower : lowerString "Box-shadow" = "box-shadow" := by decide
  have hrule := complete_shadow hchunks
  have hunknown := synthesis_unknown (List.forall_mem_nil _) hrule hchunks (List.forall_mem_nil _)
    hdeclares (by decide +kernel) (hlower ▸ ne_boxShadow) [] ⟨["a"], true⟩
  exact ⟨hrule, hdeclares, (hunknown.1 (by decide +kernel)).1⟩

/-- The shadow of a box has no part in any synthesis, but its transparency is taken for that of the
element. -/
theorem synthesis_unknown_translucent :
    (ruleWith ['.', 'a'] [translucentShadow]).Complete ∧ IsChunk translucentShadow ∧
    declaredIn translucentShadow = [.declared "Box-shadow" " rgb(1 2 3 / .5)".toList] ∧
    isCustom "Box-shadow" = false ∧ (∀ p : Property, p.name ≠ lowerString "Box-shadow") ∧
    (readSheet (sourceOf [ruleWith ['.', 'a'] []])).value.synthesis ⟨["a"], true⟩ =
      ⟨.empty, [], []⟩ ∧
    (readSheet (sourceOf [ruleWith ['.', 'a'] [translucentShadow]])).value.synthesis ⟨["a"], true⟩ =
      ⟨⟨[("Transparency", .number 0.5)]⟩, [], []⟩ := by
  obtain ⟨-, htranslucent, -⟩ := isChunk_shadow
  have hlower : lowerString "Box-shadow" = "box-shadow" := by decide
  exact ⟨complete_shadow (by simpa using htranslucent), htranslucent, by decide +kernel,
    by decide +kernel, hlower ▸ ne_boxShadow, by decide +kernel, by decide +kernel⟩

end Css

end ClassStyle
