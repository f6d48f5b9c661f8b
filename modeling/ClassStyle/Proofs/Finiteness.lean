import ClassStyle.Proofs.Emission
import ClassStyle.Proofs.Paints
import ClassStyle.Proofs.PlainNames
import ClassStyle.Proofs.Values

/-!
# Finite numbers

A synthesis holds finite numbers, and its values are written without `inf` and `NaN`, if the lengths
that its declarations read are at most `2 ^ 500`. Numbers of a stylesheet are far smaller, so this
holds of all blocks without escapes and without blanks beyond ASCII (`Css.synthesis_finite`).
-/

namespace ClassStyle

open Text

/-! ## Drafts -/

def Node.IsFinite (node : Node) : Prop := ∀ entry ∈ node.attributes.entries, entry.2.IsFinite

theorem isFinite_ofList {kind : NodeKind} {attributes : List (String × AttributeValue)}
    (h : ∀ entry ∈ attributes, entry.2.IsFinite) : (Node.ofList kind attributes).IsFinite :=
  fun entry hentry => h entry (ArrivalMap.mem_ofList hentry)

/-- All numbers that a setting brings in are finite. -/
def Setting.IsFinite : Setting → Prop
  | element _ value => value.IsFinite
  | node made => made.IsFinite
  | style e => ∀ x ∈ e.numbers, x.isFinite = true

structure Draft.IsFinite (d : Draft) : Prop where
  attributes : ∀ entry ∈ d.attributes.entries, entry.2.IsFinite
  nodes : ∀ node ∈ d.nodes, node.IsFinite
  style : ∀ x ∈ d.style.numbers, x.isFinite = true

theorem Draft.IsFinite.set {d : Draft} (h : d.IsFinite) {s : Setting} (hs : s.IsFinite) :
    (d.set s).IsFinite := by
  obtain ⟨hattributes, hnodes, hstyle⟩ := h
  cases s with
  | element name value =>
    refine ⟨?_, hnodes, hstyle⟩
    intro entry hentry
    rcases ArrivalMap.mem_putEntry hentry with rfl | hentry
    · exact hs
    · exact hattributes entry hentry
  | node made =>
    refine ⟨hattributes, ?_, hstyle⟩
    exact List.forall_mem_append.mpr ⟨hnodes, List.forall_mem_singleton.mpr hs⟩
  | style e => exact ⟨hattributes, hnodes, forall_numbers_edit hstyle hs⟩

theorem Draft.IsFinite.setAll {d : Draft} (h : d.IsFinite) {settings : List Setting}
    (hs : ∀ s ∈ settings, s.IsFinite) : (d.setAll settings).IsFinite := by
  unfold Draft.setAll
  induction settings generalizing d with
  | nil => exact h
  | cons s settings ih =>
    obtain ⟨hfirst, hrest⟩ := List.forall_mem_cons.mp hs
    exact ih (h.set hfirst) hrest

theorem isFinite_empty_draft : Draft.empty.IsFinite :=
  ⟨List.forall_mem_nil _, List.forall_mem_nil _, by decide +kernel⟩

/-! ## Styles -/

section

variable {s : Style}

theorem isFinite_attributes (h : ∀ x ∈ s.numbers, x.isFinite = true)
    (hfamily : s.font.family = FontFace.standard.family) (isText : Bool) :
    ∀ entry ∈ s.attributes isText, entry.2.IsFinite := by
  simp only [Style.numbers, Size.numbers, Position.numbers, List.forall_mem_append] at h
  obtain ⟨⟨⟨⟨-, hanchor⟩, -⟩, ⟨-, hwidth⟩, hheight⟩, hleft, htop⟩ := h
  intro entry hentry
  have hmem : entry ∈ [("FontFace", AttributeValue.font s.font),
      ("AnchorPoint", .vector2 s.anchor), ("Size", .udim2 s.size.extent),
      ("Position", .udim2 ⟨s.position.left, s.position.top⟩)] := by
    unfold Style.attributes at hentry
    simp only [List.mem_append, List.mem_ite_nil_left, List.mem_ite_nil_right] at hentry
    simp only [List.mem_cons] at hentry ⊢
    tauto
  fin_cases hmem
  · exact isFinite_font hfamily
  · exact isFinite_vector2 hanchor
  · exact isFinite_udim2 hwidth hheight
  · exact isFinite_udim2 hleft htop

theorem isFinite_paddingNode {p : Padding} (h : ∀ x ∈ p.numbers, x.isFinite = true) :
    (Style.paddingNode p).IsFinite := by
  simp only [Padding.numbers, List.forall_mem_append] at h
  obtain ⟨⟨⟨hleft, hright⟩, htop⟩, hbottom⟩ := h
  apply isFinite_ofList
  simp only [List.forall_mem_cons]
  exact ⟨isFinite_udim hleft, isFinite_udim hright, isFinite_udim htop, isFinite_udim hbottom,
    List.forall_mem_nil _⟩

theorem isFinite_strokeNode {b : Border}
    (h : ∀ x ∈ [b.width, b.transparency], x.isFinite = true) :
    (Style.strokeNode b).IsFinite := by
  have hcolor : ((b.color.map AttributeValue.color).getD .empty).IsFinite := by
    cases b.color with
    | none => exact isFinite_empty
    | some color => exact isFinite_color color
  have hmode : (AttributeValue.ofItem StrokeMode.border).IsFinite :=
    isFinite_item (by decide) (by intro mode; cases mode <;> decide)
  simp only [List.forall_mem_cons] at h
  apply isFinite_ofList
  simp only [List.forall_mem_cons]
  exact ⟨isFinite_number h.1, hcolor, isFinite_number h.2.1, hmode, List.forall_mem_nil _⟩

theorem isFinite_sizeNode {size : Size} (h : ∀ x ∈ size.numbers, x.isFinite = true) :
    (Style.sizeNode size).IsFinite := by
  simp only [Size.numbers, List.forall_mem_append] at h
  obtain ⟨⟨⟨⟨⟨hminWidth, hminHeight⟩, hmaxWidth⟩, hmaxHeight⟩, -⟩, -⟩ := h
  apply isFinite_ofList
  simp only [List.forall_mem_cons]
  exact ⟨isFinite_bounds hminWidth hminHeight, isFinite_bounds hmaxWidth hmaxHeight,
    List.forall_mem_nil _⟩

theorem isFinite_layoutNode {f : Flex} (h : ∀ x ∈ f.gap.numbers, x.isFinite = true) :
    (Style.layoutNode f).IsFinite := by
  apply isFinite_ofList
  simp only [List.forall_mem_cons]
  refine ⟨?_, ?_, ?_, ?_, ?_, isFinite_udim h, isFinite_bool f.wraps, List.forall_mem_nil _⟩
  · exact isFinite_item (by decide) (by intro a; cases a <;> decide)
  · exact isFinite_item (by decide) (by intro a; cases a <;> decide)
  · exact isFinite_item (by decide) (by intro a; cases a <;> decide)
  · exact isFinite_item (by decide) (by intro a; cases a <;> decide)
  · exact isFinite_item (by decide) (by intro a; cases a <;> decide)

theorem isFinite_nodes (h : ∀ x ∈ s.numbers, x.isFinite = true) :
    ∀ node ∈ s.nodes, node.IsFinite := by
  simp only [Style.numbers, List.forall_mem_append] at h
  obtain ⟨⟨⟨⟨⟨hpadding, hgap⟩, -⟩, hborder⟩, hsize⟩, -⟩ := h
  intro node hnode
  unfold Style.nodes at hnode
  simp only [List.mem_append, List.mem_ite_nil_left, List.mem_ite_nil_right,
    List.mem_singleton] at hnode
  rcases hnode with ((⟨-, rfl⟩ | ⟨-, rfl⟩) | ⟨-, rfl⟩) | ⟨-, rfl⟩
  · exact isFinite_paddingNode hpadding
  · exact isFinite_strokeNode hborder
  · exact isFinite_sizeNode hsize
  · exact isFinite_layoutNode hgap

end

/-- All values of a synthesis, those of its nodes included. -/
def Synthesis.values (s : Synthesis) : List AttributeValue :=
  s.attributes.entries.map Prod.snd ++
    s.nodes.flatMap fun node => node.attributes.entries.map Prod.snd

theorem Draft.IsFinite.finish {d : Draft} (h : d.IsFinite)
    (hfamily : d.style.font.family = FontFace.standard.family) (isText : Bool)
    (warnings : List Warning) : ∀ value ∈ (d.finish isText warnings).values, value.IsFinite := by
  obtain ⟨hattributes, hnodes, hstyle⟩ := h
  refine List.forall_mem_append.mpr ⟨?_, ?_⟩
  · refine List.forall_mem_map.mpr fun entry hentry => ?_
    rcases ArrivalMap.mem_putAll hentry with hentry | hentry
    · exact isFinite_attributes hstyle hfamily isText entry hentry
    · exact hattributes entry hentry
  · refine List.forall_mem_flatMap.mpr fun node hnode => List.forall_mem_map.mpr ?_
    rcases List.mem_append.mp hnode with hnode | hnode
    · exact hnodes node hnode
    · exact isFinite_nodes hstyle node hnode

/-!
## Lengths

Lengths up to `2 ^ 500` make font sizes up to `2 ^ 504`, since one in `rem` is taken times sixteen,
and pixels up to `2 ^ 1004`, since one in `em` is taken times the font size.
-/

theorem atMost_baseFontSize : AtMost 4 baseFontSize := by
  have hdenotes : Denotes .binary64 .positive baseFontSize.toModel.unpack
      (((2 ^ 52 : Nat) : ℚ) * 2 ^ (-48 : Int)) :=
    .finite (by decide) (by decide) (by decide) (.inl (by decide))
  exact atMost_of_denotes hdenotes (by norm_num)

theorem atMost_one : AtMost 500 1 := by
  have hdenotes : Denotes .binary64 .positive (1 : Float).toModel.unpack (1 : Nat) :=
    denotes_ofNat (k := 1) (by decide)
  exact (atMost_of_denotes (k := 0) hdenotes (by norm_num)).mono (by decide)

theorem atMost_three : AtMost 500 3 := by
  have hdenotes : Denotes .binary64 .positive (3 : Float).toModel.unpack (3 : Nat) :=
    denotes_ofNat (k := 3) (by decide)
  exact (atMost_of_denotes (k := 2) hdenotes (by norm_num)).mono (by decide)

section

variable {length : Length} {em : Float} (h : AtMost 500 length.value)

include h

theorem atMost_toPixels {k : Nat} (hem : AtMost k em) (hleast : 4 ≤ k) (hk : 500 + k < 1024) :
    AtMost (500 + k) (length.toPixels em) := by
  unfold Length.toPixels
  split
  · exact (h.mul atMost_baseFontSize (by decide)).mono (by omega)
  · exact h.mul hem hk
  · exact h.mono (by omega)

theorem isFinite_toPixels (hem : AtMost 504 em) : (length.toPixels em).isFinite = true :=
  (atMost_toPixels h hem (by decide) (by decide)).isFinite

theorem isFinite_hundredth : (length.value / 100).isFinite = true :=
  (h.hundredth (by decide)).isFinite

theorem isFinite_toOpacity : (1 - length.toOpacity).isFinite = true := by
  have hopacity : AtMost 500 length.toOpacity := by
    unfold Length.toOpacity
    split
    · exact h.hundredth (by decide)
    · exact h
  exact (hopacity.one_sub (by decide)).isFinite

end

theorem isFinite_zero : (0 : Float).isFinite = true := by
  have hdenotes : Denotes .binary64 .positive (0 : Float).toModel.unpack (0 : Nat) :=
    denotes_ofNat (k := 0) (by decide)
  exact isFinite_of_denotes hdenotes

theorem isFinite_single {x : Float} (h : x.isFinite = true) : ∀ z ∈ [x], z.isFinite = true :=
  List.forall_mem_singleton.mpr h

theorem isFinite_ofOffset {x : Float} (h : x.isFinite = true) :
    ∀ z ∈ (UDim.ofOffset x).numbers, z.isFinite = true :=
  List.forall_mem_cons.mpr ⟨isFinite_zero, isFinite_single h⟩

theorem isFinite_ofScale {x : Float} (h : x.isFinite = true) :
    ∀ z ∈ (UDim.ofScale x).numbers, z.isFinite = true :=
  List.forall_mem_cons.mpr ⟨h, isFinite_single isFinite_zero⟩

section

variable {length : Length} {em : Float} (h : AtMost 500 length.value) (hem : AtMost 504 em)

include h hem

theorem isFinite_toUDim : ∀ x ∈ (length.toUDim em).numbers, x.isFinite = true := by
  unfold Length.toUDim
  split
  · exact isFinite_ofScale (isFinite_hundredth h)
  · exact isFinite_ofScale (isFinite_hundredth h)
  · exact isFinite_ofOffset (isFinite_toPixels h hem)

theorem isFinite_toPosition : ∀ x ∈ (length.toPosition em).numbers, x.isFinite = true := by
  unfold Length.toPosition
  split
  · exact isFinite_ofScale (isFinite_hundredth h)
  · exact isFinite_ofOffset (isFinite_toPixels h hem)

theorem isFinite_toBound : ∀ x ∈ (length.toBound em).numbers, x.isFinite = true := by
  unfold Length.toBound
  split
  · exact isFinite_single (isFinite_hundredth h)
  · exact isFinite_single (isFinite_hundredth h)
  · exact isFinite_single (isFinite_toPixels h hem)

end

/-! ## Readings -/

section

variable {value : String} (h : ∀ length ∈ Length.readAll value.toList, AtMost 500 length.value)

include h

theorem atMost_read? {length : Length} (hread : Length.read? value.toList = some length) :
    AtMost 500 length.value := h length (List.mem_of_mem_head? hread)

theorem isFinite_readEdit {edit : Length → StyleEdit} {s : Setting}
    (hs : (readEdit value edit).setting = some s)
    (hedit : ∀ length : Length, AtMost 500 length.value →
      ∀ x ∈ (edit length).numbers, x.isFinite = true) : s.IsFinite := by
  obtain ⟨length, hread, rfl⟩ := Option.map_eq_some_iff.mp hs
  exact hedit length (atMost_read? h hread)

theorem isFinite_readTransparency {name : String} {s : Setting}
    (hs : (readTransparency name value).setting = some s) : s.IsFinite := by
  obtain ⟨length, hread, rfl⟩ := Option.map_eq_some_iff.mp hs
  exact isFinite_number (isFinite_toOpacity (atMost_read? h hread))

theorem isFinite_readPadding {em : Float} (hem : AtMost 504 em) {e : StyleEdit}
    (he : readPadding em value = some e) : ∀ x ∈ e.numbers, x.isFinite = true := by
  unfold readPadding at he
  split at he
  · cases he
  · cases he
    refine List.forall_mem_flatMap.mpr (List.forall_mem_map.mpr fun length hlength => ?_)
    exact isFinite_toUDim (h length hlength) hem

theorem isFinite_readAnchor {e : StyleEdit} (he : readAnchor value = some e) :
    ∀ x ∈ e.numbers, x.isFinite = true := by
  unfold readAnchor at he
  split at he
  · cases he
  · next both hread =>
    cases he
    have hboth := (h both (by simp [hread])).isFinite
    exact List.forall_mem_cons.mpr ⟨hboth, isFinite_single hboth⟩
  · next x y rest hread =>
    cases he
    have hx := (h x (by simp [hread])).isFinite
    have hy := (h y (by simp [hread])).isFinite
    exact List.forall_mem_cons.mpr ⟨hx, isFinite_single hy⟩

theorem isFinite_readRadius {em : Float} (hem : AtMost 504 em) {made : Node}
    (hmade : readRadius em value = some made) : made.IsFinite := by
  obtain ⟨length, hread, rfl⟩ := Option.map_eq_some_iff.mp hmade
  apply isFinite_ofList
  refine List.forall_mem_singleton.mpr (isFinite_udim (isFinite_ofOffset ?_))
  exact isFinite_toPixels (atMost_read? h hread) hem

omit h in
theorem isFinite_readColorAttribute {name : String} {s : Setting}
    (hs : (readColorAttribute name value).setting = some s) : s.IsFinite := by
  unfold readColorAttribute at hs
  rw [setting_orElse] at hs
  obtain ⟨color, -, rfl⟩ := Option.map_eq_some_iff.mp hs
  exact isFinite_color color

omit h in
theorem isFinite_readRatio {made : Node} (hmade : readRatio value = some made) :
    made.IsFinite := by
  obtain ⟨ratio, hratio, hsome⟩ := Option.bind_eq_some_iff.mp hmade
  split at hsome
  · cases hsome
    apply isFinite_ofList
    refine List.forall_mem_singleton.mpr (isFinite_number ?_)
    -- Whatever numbers it is made of, arithmetic has no value but a finite one.
    obtain ⟨e, -, hvalue⟩ := Option.bind_eq_some_iff.mp hratio
    split at hvalue
    · next hfinite =>
      cases hvalue
      exact hfinite
    · cases hvalue
  · cases hsome

theorem isFinite_read (p : Property) (isText : Bool) {em : Float} (hem : AtMost 504 em)
    {s : Setting} (hs : (p.read isText em value).setting = some s) : s.IsFinite := by
  cases p with
  | color | backgroundColor => exact isFinite_readColorAttribute hs
  | backgroundOpacity | textOpacity | opacity => exact isFinite_readTransparency h hs
  | fontSize =>
    obtain ⟨length, hread, rfl⟩ := Option.map_eq_some_iff.mp hs
    exact isFinite_number (atMost_toPixels (atMost_read? h hread) atMost_baseFontSize (by decide)
      (by decide)).isFinite
  | lineHeight =>
    obtain ⟨height, hread, rfl⟩ := Option.map_eq_some_iff.mp hs
    obtain ⟨length, hlength, rfl⟩ := Option.map_eq_some_iff.mp hread
    exact isFinite_number (atMost_one.limit atMost_three (atMost_read? h hlength)).isFinite
  | textAlign | verticalAlign =>
    cases hs
    exact isFinite_item (by decide) (by intro a; cases a <;> decide)
  | padding =>
    obtain ⟨e, he, rfl⟩ := Option.map_eq_some_iff.mp hs
    exact isFinite_readPadding h hem he
  | borderRadius =>
    obtain ⟨made, hmade, rfl⟩ := Option.map_eq_some_iff.mp hs
    exact isFinite_readRadius h hem hmade
  | aspectRatio =>
    simp only [Property.read, setting_orElse] at hs
    obtain ⟨made, hmade, rfl⟩ := Option.map_eq_some_iff.mp hs
    exact isFinite_readRatio hmade
  | anchorPoint =>
    obtain ⟨e, he, rfl⟩ := Option.map_eq_some_iff.mp hs
    exact isFinite_readAnchor h he
  -- Each of these sets one part of the style to a length.
  | paddingSide | gap | width | height =>
    exact isFinite_readEdit h hs fun _ hl => isFinite_toUDim hl hem
  | left | top => exact isFinite_readEdit h hs fun _ hl => isFinite_toPosition hl hem
  | minWidth | minHeight | maxWidth | maxHeight =>
    exact isFinite_readEdit h hs fun _ hl => isFinite_toBound hl hem
  | anchorPointX | anchorPointY =>
    exact isFinite_readEdit h hs fun _ hl => isFinite_single hl.isFinite
  | borderWidth =>
    exact isFinite_readEdit h hs fun _ hl => isFinite_single (isFinite_toPixels hl hem)
  | borderOpacity =>
    exact isFinite_readEdit h hs fun _ hl => isFinite_single (isFinite_toOpacity hl)
  -- The edits of these hold no numbers.
  | fontWeight | borderColor =>
    simp only [Property.read, setting_orElse] at hs
    obtain ⟨_, -, rfl⟩ := Option.map_eq_some_iff.mp hs
    exact List.forall_mem_nil _
  | display =>
    simp only [Property.read, Reading.silent] at hs
    split at hs
    · cases hs
      exact List.forall_mem_nil _
    · cases hs
  | justifyContent | alignItems =>
    cases hs
    show ∀ x ∈ StyleEdit.numbers _, _
    split <;> exact List.forall_mem_nil _
  | fontStyle | flexDirection =>
    cases hs
    exact List.forall_mem_nil _
  | flexWrap =>
    simp only [Property.read] at hs
    split at hs <;> cases hs
  | borderStyle | borderSideWidth => cases hs

end

/-! ## Sheets -/

/-- No length that is read of the declarations is beyond `2 ^ 500`. -/
def Declarations.AreModest (declarations : Declarations) : Prop :=
  ∀ entry ∈ declarations.entries, ∀ length ∈ Length.readAll entry.2.toList, AtMost 500 length.value

theorem atMost_classFontSize {declarations : Declarations} (h : declarations.AreModest) :
    AtMost 504 (classFontSize declarations) := by
  have hbase : AtMost 504 baseFontSize := atMost_baseFontSize.mono (by decide)
  unfold classFontSize
  split
  · next length hlength =>
    obtain ⟨value, hvalue, hread⟩ := Option.bind_eq_some_iff.mp hlength
    have hentry := h _ (ArrivalMap.mem_of_get? hvalue)
    have hlength : AtMost (500 + 4) (length.toPixels baseFontSize) :=
      atMost_toPixels (atMost_read? hentry hread) atMost_baseFontSize (by decide) (by decide)
    exact hlength
  · exact hbase

theorem isFinite_synthesis {sheet : Sheet} {request : Request}
    (h : ∀ name ∈ request.classes, ∀ rule ∈ sheet.get? name, rule.declarations.AreModest) :
    ∀ value ∈ (sheet.synthesis request).values, value.IsFinite := by
  have hsettings : ∀ s ∈ (sheet.applications request.classes).filterMap
      fun a => a.setting? request.isText, s.IsFinite := by
    intro s hs
    obtain ⟨a, ha, hsetting⟩ := List.mem_filterMap.mp hs
    obtain ⟨hclass, rule, hrule, hsize, value, hentry, hvalue⟩ := mem_applications ha
    have hmodest := h _ hclass rule hrule
    refine isFinite_read ?_ a.property request.isText ?_ hsetting
    · rw [hvalue, String.toList_ofList, readAll_trim]
      exact hmodest (a.property.name, value) hentry
    · rw [hsize]
      exact atMost_classFontSize hmodest
  exact (isFinite_empty_draft.setAll hsettings).finish (bounded_draft sheet request).family _ _

namespace Css

open Component

theorem areModest_readBlock {body : List Component} (h : ∀ c ∈ sourceAll body, isPlain c = true) :
    (readBlock body).1.declarations.AreModest := by
  intro entry hentry
  apply forall_mem_readAll (p := AtMost 500)
  intro word hword x hx
  exact (isTameText_readBlock h hentry word hword x hx).mono (by decide)

/-- All numbers of an element are finite, and so they are written, if in the blocks of its classes
no name can hold a number: if there are no escapes and no blanks beyond ASCII in the block, or
no lengths beyond `2 ^ 500` in what it declares. -/
theorem synthesis_finite (text : List Char) (request : Request)
    (h : ∀ name ∈ request.classes, ∀ body ∈ blockOf text name,
      (∀ c ∈ sourceAll body, isPlain c = true) ∨
        (readBlock body).1.declarations.AreModest) :
    ∀ value ∈ ((readSheet text).value.synthesis request).values,
      (∀ x ∈ value.numbers, x.isFinite = true) ∧
      ∀ word ∈ ["inf", "NaN"], ¬word.toList <:+: value.text.toList := by
  have hmodest : ∀ name ∈ request.classes, ∀ rule ∈ (readSheet text).value.get? name,
      rule.declarations.AreModest := by
    intro name hname rule hrule
    rw [get?_readSheet] at hrule
    obtain ⟨body, hbody, rfl⟩ := Option.map_eq_some_iff.mp hrule
    exact (h name hname body hbody).elim areModest_readBlock id
  intro value hvalue
  obtain ⟨hnumbers, htext⟩ := isFinite_synthesis hmodest value hvalue
  refine ⟨hnumbers, ?_⟩
  intro word hword
  exact htext _ (List.mem_map_of_mem (f := String.toList) hword)

def plainAndEscaped : List Char :=
  ".a \x7b font-size: 2em; width: 50% \x7d .b \x7b \\77idth: 3em \x7d".toList

theorem synthesis_finite_escapedName :
    (∀ name ∈ ["a", "b"], ∀ body ∈ blockOf plainAndEscaped name,
      (∀ c ∈ sourceAll body, isPlain c = true) ∨
        (readBlock body).1.declarations.AreModest) ∧
    ((readSheet plainAndEscaped).value.synthesis ⟨["a", "b"], false⟩).values =
      [.number 32, .udim2 ⟨⟨0, 48⟩, ⟨0, 100⟩⟩] ∧
    ∀ value ∈ ((readSheet plainAndEscaped).value.synthesis ⟨["a", "b"], false⟩).values,
      (∀ x ∈ value.numbers, x.isFinite = true) ∧
      ∀ word ∈ ["inf", "NaN"], ¬word.toList <:+: value.text.toList := by
  have hplain : ((blockOf plainAndEscaped "a").all fun body =>
      (sourceAll body).all isPlain) = true := by decide +kernel
  have hescaped : ((blockOf plainAndEscaped "b").all fun body =>
      (readBlock body).1.declarations.entries = [("width", "3 em")]) = true := by decide +kernel
  have hlengths : Length.readAll "3 em".toList = [⟨3, .em⟩] := by decide +kernel
  have hblocks : ∀ name ∈ ["a", "b"], ∀ body ∈ blockOf plainAndEscaped name,
      (∀ c ∈ sourceAll body, isPlain c = true) ∨
        (readBlock body).1.declarations.AreModest := by
    refine List.forall_mem_cons.mpr ⟨fun body hbody => .inl ?_,
      List.forall_mem_singleton.mpr fun body hbody => .inr ?_⟩
    · rw [Option.mem_def.mp hbody] at hplain
      simpa using hplain
    · rw [Option.mem_def.mp hbody] at hescaped
      have hentries : (readBlock body).1.declarations.entries = [("width", "3 em")] := by
        simpa using hescaped
      unfold Declarations.AreModest
      rw [hentries]
      refine List.forall_mem_singleton.mpr ?_
      rw [hlengths]
      exact List.forall_mem_singleton.mpr atMost_three
  exact ⟨hblocks, by decide +kernel, synthesis_finite plainAndEscaped ⟨["a", "b"], false⟩ hblocks⟩

def escapedNumber : List Char := ".a \x7b width: \\31 e999 \x7d".toList

/-- The escaped name `1e999` is a word of the value, where it is read as a number. -/
theorem synthesis_escapedNumber :
    ∃ value ∈ ((readSheet escapedNumber).value.synthesis ⟨["a"], false⟩).values,
      (∃ x ∈ value.numbers, x.isFinite = false) ∧
      "inf".toList <:+: value.text.toList := by
  have hvalues : ((readSheet escapedNumber).value.synthesis ⟨["a"], false⟩).values =
      [.udim2 ⟨⟨0, 1 / 0⟩, ⟨0, 100⟩⟩] := by decide +kernel
  rw [hvalues]
  refine ⟨_, List.mem_singleton_self _,
    ⟨1 / 0, by simp [AttributeValue.numbers, UDim.numbers], ?_⟩, ?_⟩
  · decide +kernel
  · decide +kernel

end Css

end ClassStyle
