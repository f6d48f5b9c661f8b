import Mathlib.Data.List.Perm.Basic
import ClassStyle.Proofs.Merging
import ClassStyle.Proofs.StyleParts
import ClassStyle.Proofs.Warnings

/-!
# Declarations in another order

Two declarations of a class can change places unless both are about the padding, the anchor, the
layout of the children or the nodes that are made at once. Everything else is written by one
property alone, and the font size of a class does not depend on where it is declared
(`Sheet.synthesis_reordered`).
-/

namespace ClassStyle

/-! ## Orders of declarations -/

/-- What several properties are about, so that it matters in which order they are declared. -/
inductive Concern where
  | padding
  | anchor
  | layout
  | node
  deriving DecidableEq

def Concern.names : Concern → List String
  | padding => ["padding", "padding-left", "padding-right", "padding-top", "padding-bottom"]
  | anchor => ["anchor-point", "anchor-point-x", "anchor-point-y"]
  | layout => ["flex-direction", "justify-content", "align-items"]
  | node => ["border-radius", "aspect-ratio"]

def Concern.owns (concern : Concern) (name : String) : Bool := name ∈ concern.names

namespace Declarations

/-- The same declarations in another order, in which those of each concern follow each other as
they did. -/
structure Reordered (d d' : Declarations) : Prop where
  perm : d'.entries.Perm d.entries
  inOrder : ∀ concern : Concern,
    (d'.entries.filter fun entry => concern.owns entry.1) =
      d.entries.filter fun entry => concern.owns entry.1

/-- Reordered declarations among which those of one name keep their order, too. -/
structure Alike (d d' : Declarations) : Prop extends d.Reordered d' where
  alone : ∀ name : String,
    (d'.entries.filter fun entry => decide (entry.1 = name)) =
      d.entries.filter fun entry => decide (entry.1 = name)

theorem Alike.refl (d : Declarations) : d.Alike d :=
  { perm := .refl _, inOrder := fun _ => rfl, alone := fun _ => rfl }

variable {d d' : Declarations}

/-- One declaration has no order. -/
theorem Reordered.alike (h : d.Reordered d') (honce : d.names.Nodup) : d.Alike d' := by
  refine { h with alone := fun name => ?_ }
  have honce' : d'.names.Nodup := (h.perm.map Prod.fst).nodup_iff.mpr honce
  have hpairwise : ∀ d : Declarations, d.names.Nodup →
      (d.entries.filter fun entry => decide (entry.1 = name)).Pairwise fun a b => a.1 ≠ b.1 :=
    fun d hd => (List.pairwise_map.mp hd).filter _
  refine List.Perm.eq_of_pairwise (fun a b ha hb hne _ => ?_) (hpairwise d' honce')
    (hpairwise d honce) (h.perm.filter _)
  have haname : a.1 = name := of_decide_eq_true (List.mem_filter.mp ha).2
  have hbname : b.1 = name := of_decide_eq_true (List.mem_filter.mp hb).2
  exact absurd (haname.trans hbname.symm) hne

theorem Alike.classFontSize (h : d.Alike d') : classFontSize d' = classFontSize d := by
  have hget : d'.get? Property.fontSize.name = d.get? Property.fontSize.name := by
    have hlookup := fun l : List (String × String) =>
      lookup_filter (fun name => decide (name = Property.fontSize.name)) (decide_eq_true rfl) l
    unfold ArrivalMap.get?
    rw [← hlookup, h.alone, hlookup]
  unfold ClassStyle.classFontSize
  rw [hget]

section

variable {β : Type} {f : String × String → Option β}

theorem Alike.filterMap_concern (h : d.Alike d') {concern : Concern}
    (hf : ∀ entry, concern.owns entry.1 = false → f entry = none) :
    d'.entries.filterMap f = d.entries.filterMap f := by
  rw [← filterMap_filter_names hf, h.inOrder, filterMap_filter_names hf]

theorem Alike.filterMap_name (h : d.Alike d') {name : String}
    (hf : ∀ entry : String × String, entry.1 ≠ name → f entry = none) :
    d'.entries.filterMap f = d.entries.filterMap f := by
  have hkeep : ∀ entry : String × String, decide (entry.1 = name) = false → f entry = none :=
    fun entry hentry => hf entry (of_decide_eq_false hentry)
  have hfilter := @filterMap_filter_names _ _ (fun other => decide (other = name)) _ hkeep
  rw [← hfilter, h.alone, hfilter]

end

end Declarations

/-! ## The layout apart from what one property writes -/

/-- The layout of a draft without what `display` and `gap` say. -/
def Draft.arrangement (d : Draft) : Flex := { d.style.flex with enabled := false, gap := .zero }

def Setting.arranges : Setting → Bool
  | .style e => Concern.layout.owns e.property.name
  | _ => false

theorem arrangement_set_of_not_arranges {s : Setting} (h : s.arranges = false) (d : Draft) :
    (d.set s).arrangement = d.arrangement := by
  cases s with
  | element | node => rfl
  | style e => cases e <;> first | rfl | exact absurd h (by simp [Setting.arranges,
      StyleEdit.property, Concern.owns, Concern.names, Property.name])

theorem arrangement_set {d d' : Draft} (h : d.arrangement = d'.arrangement) (s : Setting) :
    (d.set s).arrangement = (d'.set s).arrangement := by
  have hset : ∀ d : Draft, (d.set s).arrangement =
      (Draft.set { Draft.empty with style.flex := d.arrangement } s).arrangement := by
    rintro ⟨attributes, nodes, font, padding, ⟨enabled, direction⟩⟩
    cases s with
    | element | node => rfl
    | style e => cases e <;> cases direction <;> rfl
  rw [hset d, hset d', h]

theorem filter_arranges_entry {entry : String × String}
    (h : Concern.layout.owns entry.1 = false) (isText : Bool) (em : Float) :
    (entrySetting? isText em entry).filter Setting.arranges = none := by
  rw [Option.filter_eq_none_iff]
  intro s hs
  obtain ⟨p, hp, hread⟩ := Option.bind_eq_some_iff.mp hs
  cases s with
  | element | node => exact Bool.false_ne_true
  | style e =>
    rw [Setting.arranges, property_of_read hread, Property.name_of_ofName? hp, h]
    exact Bool.false_ne_true

theorem get?_putAll_congr {α : Type} {m m' : ArrivalMap α}
    (h : ∀ name, m.get? name = m'.get? name) (pairs : List (String × α)) (name : String) :
    (m.putAll pairs).get? name = (m'.putAll pairs).get? name := by
  induction pairs generalizing m m' with
  | nil => exact h name
  | cons pair pairs ih =>
    apply ih
    intro other
    rw [ArrivalMap.get?_put, ArrivalMap.get?_put, h]

/-! ## Sheets -/

namespace SharedPart

def concern : SharedPart → Concern
  | padding _ => .padding
  | anchor _ => .anchor

theorem owns_concern {part : SharedPart} {name : String} (h : part.concern.owns name = false) :
    part.owns name = false := by
  have hnames : part.shorthand.name ∈ part.concern.names ∧
      part.longhand.name ∈ part.concern.names := by
    cases part with
    | padding side => cases side <;> decide
    | anchor axis => cases axis <;> decide
  have hname : name ∉ part.concern.names := of_decide_eq_false h
  refine decide_eq_false ?_
  rintro (rfl | rfl)
  · exact hname hnames.1
  · exact hname hnames.2

end SharedPart

theorem madeNode?_of_not_owns {entry : String × String} (h : Concern.node.owns entry.1 = false)
    (em : Float) : madeNode? em entry = none := by
  have hname : entry.1 ∉ Concern.node.names := of_decide_eq_false h
  simp only [Concern.names, List.mem_cons, List.not_mem_nil, or_false, not_or] at hname
  rw [madeNode?, if_neg hname.1, if_neg hname.2]

namespace Sheet

/-- The sheets declare the same in every class, but for the order. -/
def Alike (sheet sheet' : Sheet) : Prop :=
  ∀ className, (sheet.declarations className).Alike (sheet'.declarations className)

variable {sheet sheet' : Sheet}

theorem Alike.accepted (h : sheet.Alike sheet') {α : Type} (classes : List String) (p : Property)
    (read? : Float → String → Option α) :
    sheet'.accepted classes p read? = sheet.accepted classes p read? := by
  rw [accepted_eq, accepted_eq]
  refine List.flatMap_congr fun className _ => ?_
  rw [(h className).classFontSize]
  exact (h className).filterMap_name fun entry hentry => if_neg hentry

theorem Alike.final (h : sheet.Alike sheet') (classes : List String) (f : StyleField) :
    sheet'.final classes f = sheet.final classes f := by
  unfold Sheet.final
  rw [h.accepted]

theorem Alike.shared (h : sheet.Alike sheet') (request : Request) (part : SharedPart) :
    part.content (sheet'.draft request).style = part.content (sheet.draft request).style := by
  rw [part.content_draft, part.content_draft]
  refine congrArg (fun given => (List.getLast? given).getD part.initial) ?_
  refine List.flatMap_congr fun className _ => ?_
  rw [(h className).classFontSize]
  exact (h className).filterMap_concern fun entry hentry =>
    part.given?_of_not_owns (SharedPart.owns_concern hentry) _

theorem Alike.arrangement (h : sheet.Alike sheet') (request : Request) :
    (sheet'.draft request).arrangement = (sheet.draft request).arrangement := by
  have hview := fun settings => view_setAll Draft.arrangement Setting.arranges
    (fun d _ hs => arrangement_set_of_not_arranges hs d) (fun _ _ s hd => arrangement_set hd s)
    (rfl : Draft.empty.arrangement = Draft.empty.arrangement) settings
  refine (hview _).trans (Eq.trans ?_ (hview _).symm)
  rw [filterMap_setting?, filterMap_setting?, List.filter_flatMap, List.filter_flatMap]
  refine congrArg (fun settings => (Draft.empty.setAll settings).arrangement) ?_
  refine List.flatMap_congr fun className _ => ?_
  rw [(h className).classFontSize, List.filter_filterMap, List.filter_filterMap]
  exact (h className).filterMap_concern fun entry hentry => filter_arranges_entry hentry _ _

theorem Alike.style (h : sheet.Alike sheet') (request : Request) :
    (sheet'.draft request).style = (sheet.draft request).style := by
  refine style_draft_ext (h.final request.classes) (h.shared request) fun slot => ?_
  have hslot : ∀ d : Draft, slot.content d.style.flex = slot.content d.arrangement := by
    intro d
    rcases slot with (_ | _) | (_ | _) <;> rfl
  rw [hslot, hslot, h.arrangement]

theorem Alike.madeNodes (h : sheet.Alike sheet') (classes : List String) :
    sheet'.madeNodes classes = sheet.madeNodes classes := by
  refine List.flatMap_congr fun className _ => ?_
  rw [(h className).classFontSize]
  exact (h className).filterMap_concern fun entry hentry => madeNode?_of_not_owns hentry _

theorem Alike.unsupported (h : sheet.Alike sheet') (classes : List String) :
    (sheet'.unsupported classes).Perm (sheet.unsupported classes) := by
  rw [unsupported_eq, unsupported_eq]
  exact List.Perm.flatMap_left classes fun className _ => (h className).perm.filterMap _

theorem Alike.get?_draft (h : sheet.Alike sheet') (request : Request) (name : String) :
    (sheet'.draft request).attributes.get? name = (sheet.draft request).attributes.get? name := by
  by_cases hfield : ∃ f : AttributeField, name = f.name request.isText
  · obtain ⟨f, rfl⟩ := hfield
    rw [ClassStyle.get?_draft, ClassStyle.get?_draft]
    unfold finalAttribute
    rw [h.accepted]
  · rw [(bounded_draft sheet' request).get?_of_no_field hfield,
      (bounded_draft sheet request).get?_of_no_field hfield]

theorem Alike.attributes (h : sheet.Alike sheet') (request : Request) (name : String) :
    (sheet'.synthesis request).attributes.get? name =
      (sheet.synthesis request).attributes.get? name := by
  unfold Sheet.synthesis Draft.finish
  rw [h.style]
  exact get?_putAll_congr (h.get?_draft request) _ name

theorem Alike.nodes (h : sheet.Alike sheet') (request : Request) :
    (sheet'.synthesis request).nodes = (sheet.synthesis request).nodes := by
  rw [nodes_synthesis, nodes_synthesis, h.madeNodes, h.style]

theorem Alike.warnings (h : sheet.Alike sheet') (request : Request) :
    (sheet'.synthesis request).warnings.Perm (sheet.synthesis request).warnings := by
  rw [warnings_synthesis, warnings_synthesis, h.style]
  exact (h.unsupported request.classes).append_right _

theorem alike_insert {className : String} {rule : Rule} {declarations : Declarations}
    (h : (sheet.declarations className).Alike declarations) :
    sheet.Alike (sheet.insert className { rule with declarations }) := by
  intro other
  have hother : (sheet.insert className { rule with declarations }).declarations other =
      if className = other then declarations else sheet.declarations other := by
    unfold Sheet.declarations
    rw [get?_insert]
    split <;> rfl
  rw [hother]
  split
  · next heq => exact heq ▸ h
  · exact .refl _

/-- If the declarations of a class come in another order, and those of each concern follow each
other as they did, every element has the same attributes, the same nodes in the same order, and the
same warnings. -/
theorem synthesis_reordered (sheet : Sheet) {className : String} {rule : Rule}
    {declarations : Declarations} (hrule : sheet.get? className = some rule)
    (honce : rule.declarations.names.Nodup) (h : rule.declarations.Reordered declarations)
    (request : Request) :
    let result := sheet.synthesis request
    let reordered := (sheet.insert className { rule with declarations }).synthesis request
    (∀ name, reordered.attributes.get? name = result.attributes.get? name) ∧
    reordered.nodes = result.nodes ∧
    reordered.warnings.Perm result.warnings := by
  have halike : sheet.Alike (sheet.insert className { rule with declarations }) := by
    apply alike_insert
    rw [declarations_of_get? hrule]
    exact h.alike honce
  exact ⟨halike.attributes request, halike.nodes request, halike.warnings request⟩

def scattered : Declarations :=
  ⟨[("padding", "1em"), ("border-style", "solid"), ("width", "2em"), ("padding-left", "3px"),
    ("flex-wrap", "wrap"), ("font-size", "20px")]⟩

def gathered : Declarations :=
  ⟨[("font-size", "20px"), ("flex-wrap", "wrap"), ("padding", "1em"), ("padding-left", "3px"),
    ("width", "2em"), ("border-style", "solid")]⟩

/-- The lengths are relative to a font size that is declared last or first. -/
theorem synthesis_reordered_gathered :
    let sheet := Sheet.empty.insert "a" ⟨.empty, scattered⟩
    let result := (sheet.insert "a" ⟨.empty, gathered⟩).synthesis ⟨["a"], false⟩
    scattered.Reordered gathered ∧
    result.attributes.get? "Size" = some (.udim2 ⟨.ofOffset 40, .ofOffset 100⟩) ∧
    result.nodes = [Style.paddingNode ⟨.ofOffset 3, .ofOffset 20, .ofOffset 20, .ofOffset 20⟩] ∧
    result.warnings.Perm [.unsupported "a" .borderStyle, .unsupported "a" .flexWrap] := by
  intro sheet result
  have hreordered : scattered.Reordered gathered :=
    ⟨by decide +kernel, fun concern => by cases concern <;> decide +kernel⟩
  have hrule : sheet.get? "a" = some ⟨.empty, scattered⟩ := by decide +kernel
  obtain ⟨hattributes, hnodes, hwarnings⟩ :=
    synthesis_reordered sheet hrule (by decide +kernel) hreordered ⟨["a"], false⟩
  refine ⟨hreordered, ?_, ?_, ?_⟩
  · exact (hattributes "Size").trans (by decide +kernel)
  · exact hnodes.trans (by decide +kernel)
  · exact hwarnings.trans (.of_eq (by decide +kernel))

-- Among declarations of one concern the last one counts.
example :
    let nodes := fun entries =>
      ((Sheet.empty.insert "a" ⟨.empty, ⟨entries⟩⟩).synthesis ⟨["a"], false⟩).nodes
    nodes [("padding", "1px"), ("padding-left", "2px")] ≠
      nodes [("padding-left", "2px"), ("padding", "1px")] := by
  decide +kernel

end Sheet

end ClassStyle
