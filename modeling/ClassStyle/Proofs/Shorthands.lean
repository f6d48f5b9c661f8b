import ClassStyle.Proofs.FontSizes
import ClassStyle.Proofs.Settled

/-!
# Shorthands

A side of the padding and a component of the anchor have a property of their own and share another
one with the rest. In a block each property counts once, at the place of its first declaration and
with the value of its last one, and of the two properties the one behind decides, if its value can
be read (`synthesis_shorthands`). This is the last declaration of either if none is repeated.
-/

namespace ClassStyle

open Text

/-! ## Shared parts -/

/-- A part of the style that two properties set: one of its own and one for several parts. -/
inductive SharedPart where
  | padding (side : Side)
  | anchor (axis : Axis)
  deriving DecidableEq

namespace SharedPart

@[reducible]
def Content : SharedPart → Type
  | padding _ => UDim
  | anchor _ => Float

def shorthand : SharedPart → Property
  | padding _ => .padding
  | anchor _ => .anchorPoint

def longhand : SharedPart → Property
  | padding side => .paddingSide side
  | anchor .x => .anchorPointX
  | anchor .y => .anchorPointY

def content (s : Style) : (part : SharedPart) → part.Content
  | padding .left => s.padding.left
  | padding .right => s.padding.right
  | padding .top => s.padding.top
  | padding .bottom => s.padding.bottom
  | anchor .x => s.anchor.x
  | anchor .y => s.anchor.y

/-- What the part is when nothing is said. -/
def initial : (part : SharedPart) → part.Content
  | padding _ => UDim.zero
  | anchor _ => (0 : Float)

/-- The value of the part among those of the shorthand. These run clockwise from the top for a
padding. A side that is left out is as the one across, and the right one as the top. -/
def share? {α : Type} (values : List α) : SharedPart → Option α
  | padding .top | anchor .x => values[0]?
  | padding .right | anchor .y => values[1]? <|> values[0]?
  | padding .bottom => values[2]? <|> values[0]?
  | padding .left => values[3]? <|> values[1]? <|> values[0]?

def ofLength (em : Float) (length : Length) : (part : SharedPart) → part.Content
  | padding _ => length.toUDim em
  | anchor _ => length.value

/-- What a declaration gives the part, if it can be read. -/
def given? (em : Float) (declaration : String × String) (part : SharedPart) :
    Option part.Content :=
  if declaration.1 = part.shorthand.name then
    part.share? ((Length.readAll declaration.2.toList).map fun length => part.ofLength em length)
  else if declaration.1 = part.longhand.name then
    (Length.read? declaration.2.toList).map fun length => part.ofLength em length
  else none

/-- The name is that of one of the two properties. -/
def owns (part : SharedPart) (name : String) : Bool :=
  name = part.shorthand.name ∨ name = part.longhand.name

theorem given?_of_not_owns {part : SharedPart} {entry : String × String}
    (h : part.owns entry.1 = false) (em : Float) : part.given? em entry = none := by
  simp only [owns, decide_eq_false_iff_not, not_or] at h
  simp [given?, h]

/-- What an edit makes of the part, if anything. -/
def written? : (part : SharedPart) → StyleEdit → Option part.Content
  | padding side, .padding values => (padding side).share? values
  | padding side, .paddingSide other value => if other = side then some value else none
  | anchor .x, .anchor x _ => some x
  | anchor .y, .anchor _ y => some y
  | anchor .x, .anchorX x => some x
  | anchor .y, .anchorY y => some y
  | _, _ => none

theorem content_edit (s : Style) (e : StyleEdit) (part : SharedPart) :
    part.content (s.edit e) = (part.written? e).getD (part.content s) := by
  cases e with
  | padding values =>
    cases part with
    | anchor axis => cases axis <;> rfl
    | padding side =>
      rcases values with _ | ⟨a, _ | ⟨b, _ | ⟨c, _ | ⟨d, values⟩⟩⟩⟩ <;> cases side <;> rfl
  | paddingSide other value =>
    cases part with
    | anchor axis => cases axis <;> rfl
    | padding side => cases other <;> cases side <;> rfl
  | _ =>
    cases part with
    | anchor axis => cases axis <;> rfl
    | padding side => cases side <;> rfl

theorem property_of_written? {e : StyleEdit} {part : SharedPart} {v : part.Content}
    (h : part.written? e = some v) : e.property = part.shorthand ∨ e.property = part.longhand := by
  cases part with
  | padding side =>
    cases e with
    | padding values => exact .inl rfl
    | paddingSide other value =>
      obtain ⟨rfl, -⟩ := Option.ite_none_right_eq_some.mp h
      exact .inr rfl
    | _ => cases h
  | anchor axis =>
    cases axis <;> cases e <;> first | exact .inl rfl | exact .inr rfl | cases h

theorem given?_shorthand (part : SharedPart) (isText : Bool) {a : Application}
    (ha : a.property = part.shorthand) :
    part.given? a.fontSize (a.property.name, a.value) =
      (a.edit? isText).bind part.written? := by
  unfold given? Application.edit? Application.setting? Application.read
  rw [ha, if_pos rfl]
  cases part with
  | padding side =>
    simp only [shorthand, Property.read, Reading.silent]
    unfold readPadding
    cases Length.readAll a.value.toList with
    | nil => cases side <;> rfl
    | cons length lengths => rfl
  | anchor axis =>
    simp only [shorthand, Property.read, Reading.silent]
    unfold readAnchor
    rcases Length.readAll a.value.toList with _ | ⟨x, _ | ⟨y, lengths⟩⟩ <;> cases axis <;> rfl

theorem given?_longhand (part : SharedPart) (isText : Bool) {a : Application}
    (ha : a.property = part.longhand) :
    part.given? a.fontSize (a.property.name, a.value) =
      (a.edit? isText).bind part.written? := by
  have hne : part.longhand.name ≠ part.shorthand.name := by
    rw [Ne, name_eq_iff]
    cases part with
    | padding => exact Property.noConfusion
    | anchor axis => cases axis <;> exact Property.noConfusion
  unfold given? Application.edit? Application.setting? Application.read
  rw [ha, if_neg hne, if_pos rfl]
  cases part with
  | padding side =>
    simp only [longhand, Property.read, readEdit, Reading.silent]
    cases Length.read? a.value.toList with
    | none => rfl
    | some length => simp [written?, ofLength]
  | anchor axis =>
    cases axis <;> simp only [longhand, Property.read, readEdit, Reading.silent] <;>
      cases Length.read? a.value.toList <;> rfl

theorem content_apply (part : SharedPart) (isText : Bool) (d : Draft) (a : Application) :
    part.content (d.apply isText a).style =
      (part.given? a.fontSize (a.property.name, a.value)).getD (part.content d.style) := by
  rw [part_style_apply part.content fun e => part.content_edit d.style e]
  congr 1
  by_cases hshort : a.property = part.shorthand
  · rw [part.given?_shorthand isText hshort]
  · by_cases hlong : a.property = part.longhand
    · rw [part.given?_longhand isText hlong]
    · unfold given?
      rw [if_neg (mt name_eq_iff.mp hshort), if_neg (mt name_eq_iff.mp hlong)]
      refine bind_edit?_eq_none fun e v hv hproperty => ?_
      rcases property_of_written? hv with h | h
      · exact hshort (hproperty.symm.trans h)
      · exact hlong (hproperty.symm.trans h)

theorem given?_entry (part : SharedPart) (className : String) (em : Float)
    (entry : String × String) :
    ((Application.ofEntry? className em entry).bind fun a =>
      part.given? a.fontSize (a.property.name, a.value)) = part.given? em entry := by
  obtain ⟨name, value⟩ := entry
  unfold Application.ofEntry?
  cases hname : Property.ofName? name with
  | none =>
    have hne : ∀ p : Property, name ≠ p.name := by
      rintro p rfl
      rw [Property.ofName?_name] at hname
      cases hname
    simp [given?, hne]
  | some p =>
    simp only [Option.map_some, Option.bind_some, given?, Length.read?, String.toList_ofList,
      readAll_trim, Property.name_of_ofName? hname]

theorem content_draft (part : SharedPart) (sheet : Sheet) (request : Request) :
    part.content (sheet.draft request).style =
      (request.classes.flatMap fun className =>
        (sheet.declarations className).entries.filterMap fun entry =>
          part.given? (classFontSize (sheet.declarations className)) entry).getLast?.getD
        part.initial := by
  have hlast := foldl_last (fun d : Draft => part.content d.style)
    (fun d a => part.content_apply request.isText d a) .empty
    (sheet.applications request.classes)
  have hinitial : part.content Draft.empty.style = part.initial := by
    cases part with
    | padding side => cases side <;> rfl
    | anchor axis => cases axis <;> rfl
  have hentries := filterMap_applications_entries sheet request.classes
    fun className em entry => part.given?_entry className em entry
  rw [draft_eq_foldl, hlast, hinitial, hentries]

end SharedPart

/-! ## What the synthesis holds -/

theorem get?_finish_anchor {isText : Bool} {d : Draft} (h : d.Bounded isText)
    (warnings : List Warning) :
    (d.finish isText warnings).attributes.get? "AnchorPoint" =
      if d.style.anchor.same .zero then none else some (.vector2 d.style.anchor) := by
  have hnone : d.attributes.get? "AnchorPoint" = none := h.get?_eq_none (by simp)
  unfold Draft.finish Style.attributes
  simp only [putAll_append, get?_putAll_if, get?_putAll_unless]
  cases d.style.anchor.same .zero <;> simp [hnone]

theorem nodesOf_finish_padding {isText : Bool} {d : Draft} (h : d.Bounded isText)
    (warnings : List Warning) :
    (d.finish isText warnings).nodesOf .padding =
      if d.style.padding.isZero then [] else [Style.paddingNode d.style.padding] := by
  rw [nodesOf_finish_style h warnings (by decide), (filter_nodes_style d.style).1]

/-! ## Blocks -/

namespace Css

open Component

/-- The ordinary declarations of a block as they stand, with the values that are written for them.
Empty values do not count. -/
def valuesIn (body : List Component) : List (String × String) :=
  (writtenDeclarations (chunks body)).filterMap fun d =>
    if d.2.text = [] then none else some (d.1, String.ofList d.2.text)

theorem opacityProperty_mem (property : String) :
    opacityProperty property ∈
      ["background-opacity", "border-opacity", "text-opacity", "opacity"] := by
  unfold opacityProperty
  split_ifs <;> simp

theorem filter_entries {keep : String → Bool}
    (h : ∀ name ∈ ["background-opacity", "border-opacity", "text-opacity", "opacity"],
      keep name = false) (declarations : List (String × Written)) :
    ((declarations.flatMap fun d => entriesOf d.1 d.2).filter fun entry => keep entry.1) =
      (declarations.filterMap fun d =>
        if d.2.text = [] then none else some (d.1, String.ofList d.2.text)).filter
          fun entry => keep entry.1 := by
  rw [List.filter_flatMap, List.filter_filterMap]
  induction declarations with
  | nil => rfl
  | cons d declarations ih =>
    have halpha := h _ (opacityProperty_mem d.1)
    rw [List.flatMap_cons, ih, List.filterMap_cons]
    unfold entriesOf
    by_cases htext : d.2.text = []
    · simp [htext]
    · cases d.2.opacity <;> by_cases hkeep : keep d.1 = true <;>
        simp [htext, halpha, hkeep, Option.filter]

theorem filterMap_readBlock (part : SharedPart) (em : Float) (body : List Component) :
    ((readBlock body).1.declarations.entries.filterMap fun entry => part.given? em entry) =
      (settled (valuesIn body)).filterMap fun entry => part.given? em entry := by
  have hopacity : ∀ name ∈ ["background-opacity", "border-opacity", "text-opacity", "opacity"],
      part.owns name = false := by
    cases part with
    | padding side => cases side <;> decide
    | anchor axis => cases axis <;> decide
  have hgiven : ∀ entry : String × String, part.owns entry.1 = false →
      part.given? em entry = none := fun _ h => part.given?_of_not_owns h em
  have hentries : (readBlock body).1.declarations.entries =
      settled ((writtenDeclarations (chunks body)).flatMap fun d => entriesOf d.1 d.2) :=
    entries_ofList _
  rw [hentries, ← filterMap_filter_names hgiven, ← settled_filter, filter_entries hopacity,
    settled_filter, filterMap_filter_names hgiven]
  rfl

/-- Neither property of the part is declared twice. -/
def DeclaredOnce (part : SharedPart) (values : List (String × String)) : Prop :=
  ((values.map Prod.fst).filter part.owns).Nodup

instance (part : SharedPart) (values : List (String × String)) :
    Decidable (DeclaredOnce part values) := inferInstanceAs (Decidable (List.Nodup _))

theorem filterMap_settled {part : SharedPart} {values : List (String × String)}
    (h : DeclaredOnce part values) (em : Float) :
    ((settled values).filterMap fun entry => part.given? em entry) =
      values.filterMap fun entry => part.given? em entry := by
  have hgiven : ∀ entry : String × String, part.owns entry.1 = false →
      part.given? em entry = none := fun _ h => part.given?_of_not_owns h em
  have hnodup : ((values.filter fun entry => part.owns entry.1).map Prod.fst).Nodup := by
    unfold DeclaredOnce at h
    rw [List.filter_map] at h
    exact h
  rw [← filterMap_filter_names hgiven, ← filterMap_filter_names hgiven values, ← settled_filter,
    settled_of_nodup hnodup]

/-- A side of the padding and a component of the anchor are as the last declaration says that can
be read, of its own property and of the shorthand. A property that is declared again stays where it
was declared first, and has the value that it has last. -/
theorem synthesis_shorthands {text : List Char} {name : String} {body : List Component}
    (h : blockOf text name = some body) (isText : Bool) :
    let result := (readSheet text).value.synthesis ⟨[name], isText⟩
    let given := fun (part : SharedPart) entry =>
      part.given? (classFontSize (readBlock body).1.declarations) entry
    ∃ style : Style,
      result.nodesOf .padding =
        (if style.padding.isZero then [] else [Style.paddingNode style.padding]) ∧
      result.attributes.get? "AnchorPoint" =
        (if style.anchor.same .zero then none else some (.vector2 style.anchor)) ∧
      ∀ part : SharedPart,
        part.content style =
          ((settled (valuesIn body)).filterMap (given part)).getLast?.getD part.initial ∧
        (DeclaredOnce part (valuesIn body) →
          part.content style = ((valuesIn body).filterMap (given part)).getLast?.getD
            part.initial) := by
  intro result given
  have hbounded := bounded_draft (readSheet text).value ⟨[name], isText⟩
  have hdeclarations :
      (readSheet text).value.declarations name = (readBlock body).1.declarations := by
    apply declarations_of_get?
    rw [get?_readSheet, h]
    rfl
  have hcontent : ∀ part : SharedPart,
      part.content ((readSheet text).value.draft ⟨[name], isText⟩).style =
        ((settled (valuesIn body)).filterMap (given part)).getLast?.getD part.initial := by
    intro part
    rw [part.content_draft, List.flatMap_singleton, hdeclarations, filterMap_readBlock]
  refine ⟨((readSheet text).value.draft ⟨[name], isText⟩).style,
    nodesOf_finish_padding hbounded _, get?_finish_anchor hbounded _, ?_⟩
  intro part
  refine ⟨hcontent part, ?_⟩
  intro honce
  rw [hcontent, filterMap_settled honce]

def mixedAnchor : List Char :=
  ".a \x7b anchor-point: 1; anchor-point-y: none; anchor-point-x: .5 \x7d".toList

theorem synthesis_shorthands_mixed :
    (∃ body, blockOf mixedAnchor "a" = some body ∧
      ∀ axis, DeclaredOnce (.anchor axis) (valuesIn body)) ∧
    ((readSheet mixedAnchor).value.synthesis ⟨["a"], false⟩).attributes.get? "AnchorPoint" =
      some (.vector2 ⟨0.5, 1⟩) := by
  have hvalue : (blockOf mixedAnchor "a").map (fun body =>
      let given := fun axis => ((valuesIn body).filterMap fun entry =>
        (SharedPart.anchor axis).given? (classFontSize (readBlock body).1.declarations)
          entry).getLast?
      (decide (DeclaredOnce (.anchor .x) (valuesIn body)),
        decide (DeclaredOnce (.anchor .y) (valuesIn body)), given .x, given .y)) =
      some (true, true, some 0.5, some 1) := by decide +kernel
  obtain ⟨body, hbody, hall⟩ := Option.map_eq_some_iff.mp hvalue
  simp only [Prod.mk.injEq, decide_eq_true_eq] at hall
  obtain ⟨hx, hy, hgivenX, hgivenY⟩ := hall
  obtain ⟨style, -, hanchor, hpart⟩ := synthesis_shorthands hbody false
  have hstyleX : style.anchor.x = 0.5 := by
    have hcontent := (hpart (.anchor .x)).2 hx
    rw [hgivenX] at hcontent
    exact hcontent
  have hstyleY : style.anchor.y = 1 := by
    have hcontent := (hpart (.anchor .y)).2 hy
    rw [hgivenY] at hcontent
    exact hcontent
  have hstyle : style.anchor = ⟨0.5, 1⟩ := by
    rw [← hstyleX, ← hstyleY]
  refine ⟨⟨body, hbody, ?_⟩, ?_⟩
  · intro axis
    cases axis
    · exact hx
    · exact hy
  · rw [hanchor, hstyle]
    decide +kernel

def paddingAgain : List Char :=
  ".a \x7b padding: 1px; padding-left: 2px; padding: 3px \x7d".toList

/-- The last declaration is a padding that is declared again, so it stands before that of the left
side, which is not overridden. -/
theorem synthesis_paddingAgain :
    (∃ body, blockOf paddingAgain "a" = some body ∧
      (valuesIn body).getLast? = some ("padding", "3 px") ∧
      ((valuesIn body).filterMap fun entry => (SharedPart.padding .left).given?
        (classFontSize (readBlock body).1.declarations) entry).getLast? = some (.ofOffset 3)) ∧
    ((readSheet paddingAgain).value.synthesis ⟨["a"], false⟩).nodesOf .padding =
      [Style.paddingNode ⟨.ofOffset 2, .ofOffset 3, .ofOffset 3, .ofOffset 3⟩] := by
  have hvalue : (blockOf paddingAgain "a").map (fun body => ((valuesIn body).getLast?,
      ((valuesIn body).filterMap fun entry => (SharedPart.padding .left).given?
        (classFontSize (readBlock body).1.declarations) entry).getLast?)) =
      some (some ("padding", "3 px"), some (.ofOffset 3)) := by decide +kernel
  obtain ⟨body, hbody, hlast⟩ := Option.map_eq_some_iff.mp hvalue
  exact ⟨⟨body, hbody, congrArg Prod.fst hlast, congrArg Prod.snd hlast⟩, by decide +kernel⟩

end Css

end ClassStyle
