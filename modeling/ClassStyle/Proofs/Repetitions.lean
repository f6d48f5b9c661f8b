import ClassStyle.Proofs.Merging
import ClassStyle.Proofs.StyleParts
import ClassStyle.Proofs.Warnings

/-!
# Classes named twice in a row

A class that is named twice in a row sets again what it has just set, so that all is as it was.
Only its warnings and the nodes that it makes at once come again (`Sheet.synthesis_repeated`). A
direction that it declares behind a placement would be an exception, since the second time the
placement is along the axis of this direction.
-/

namespace ClassStyle

/-! ## Lists with a part that comes twice -/

theorem eraseDups_repeated (before again after : List String) :
    (before ++ again ++ (again ++ after)).eraseDups = (before ++ again ++ after).eraseDups := by
  have hremove : ∀ l : List String, l.removeAll (before ++ again) =
      l.filter fun name => !(before ++ again).elem name := fun _ => rfl
  have hgone : (again.filter fun name => !(before ++ again).elem name) = [] :=
    List.filter_eq_nil_iff.mpr fun name hname => by simp [hname]
  rw [List.eraseDups_append, hremove, List.filter_append, hgone, List.nil_append, ← hremove,
    ← List.eraseDups_append]

section

variable {α β : Type} (xs ys : List α) (c : α)

theorem getLast?_flatMap_repeated (f : α → List β) :
    ((xs ++ [c, c] ++ ys).flatMap f).getLast? = ((xs ++ [c] ++ ys).flatMap f).getLast? := by
  simp only [List.flatMap_append, List.flatMap_cons, List.flatMap_nil, List.append_nil,
    List.getLast?_append]
  cases (f c).getLast? <;> simp

theorem ofList_flatMap_repeated (f : α → List (String × β)) :
    ArrivalMap.ofList ((xs ++ [c, c] ++ ys).flatMap f) =
      ArrivalMap.ofList ((xs ++ [c] ++ ys).flatMap f) := by
  apply ArrivalMap.ext_get? (ArrivalMap.nodup_names_ofList _)
  · rw [names_ofList, names_ofList, List.map_flatMap, List.map_flatMap]
    simpa using eraseDups_repeated (xs.flatMap fun a => (f a).map Prod.fst)
      ((f c).map Prod.fst) (ys.flatMap fun a => (f a).map Prod.fst)
  · intro name
    rw [Css.get?_ofList, Css.get?_ofList, List.filterMap_flatMap, List.filterMap_flatMap,
      getLast?_flatMap_repeated]

end

/-! ## Slots -/

/-- No direction is declared behind a placement. -/
def Declarations.DirectsFirst (d : Declarations) : Prop :=
  d.entries.Pairwise fun entry later =>
    entry.1 ∈ ["justify-content", "align-items"] → later.1 ≠ "flex-direction"

instance (d : Declarations) : Decidable d.DirectsFirst :=
  inferInstanceAs (Decidable (List.Pairwise _ _))

def Application.places (a : Application) : Prop :=
  a.property = .justifyContent ∨ a.property = .alignItems

theorem Declarations.DirectsFirst.ofRule {d : Declarations} (h : d.DirectsFirst)
    (className : String) :
    (Application.ofRule className d).Pairwise fun a b =>
      a.places → b.property ≠ .flexDirection := by
  rw [ofRule_eq, List.pairwise_filterMap]
  refine h.imp fun {entry later} hfirst a ha b hb hplaces hdirection => ?_
  obtain ⟨p, hp, rfl⟩ := Option.map_eq_some_iff.mp ha
  obtain ⟨q, hq, rfl⟩ := Option.map_eq_some_iff.mp hb
  refine hfirst ?_ ?_
  · rw [← Property.name_of_ofName? hp]
    rcases hplaces with rfl | rfl <;> decide
  · exact (Property.name_of_ofName? hq).symm.trans (congrArg Property.name hdirection)

namespace LayoutSlot

variable (slot : LayoutSlot) (isText : Bool)

/-- What a declaration writes into the slot, if anything. -/
def given? (f : Flex) (a : Application) : Option slot.Content :=
  match a.setting? isText with
  | some (.style e) => slot.written? f e
  | _ => none

theorem given?_congr {f f' : Flex} (h : f.direction = f'.direction) :
    slot.given? isText f = slot.given? isText f' := by
  unfold given?
  rw [slot.written?_congr h]

theorem given?_eq (f : Flex) (a : Application) :
    slot.given? isText f a = (a.edit? isText).bind (slot.written? f) := by
  unfold given? Application.edit?
  cases a.setting? isText with
  | none => rfl
  | some s => cases s <;> rfl

theorem given?_of_not_places {a : Application} (h : ¬a.places) (f : Flex) :
    slot.given? isText f a = none := by
  rw [given?_eq]
  refine bind_edit?_eq_none fun e v hv hproperty => h ?_
  exact (property_of_written? hv).imp hproperty.symm.trans hproperty.symm.trans

theorem content_apply (d : Draft) (a : Application) :
    slot.content (d.apply isText a).style.flex =
      (slot.given? isText d.style.flex a).getD (slot.content d.style.flex) := by
  rw [given?_eq]
  exact part_style_apply (fun s => slot.content s.flex) fun e => slot.content_edit d.style.flex e

/-- Where directions come first, each slot holds what the last placement along its axis says, as
the axes are at the end. -/
theorem content_foldl {applications : List Application}
    (h : applications.Pairwise fun a b => a.places → b.property ≠ .flexDirection) (d : Draft) :
    slot.content (applications.foldl (Draft.apply isText) d).style.flex =
      (applications.filterMap (slot.given? isText
        (applications.foldl (Draft.apply isText) d).style.flex)).getLast?.getD
        (slot.content d.style.flex) := by
  induction applications using List.reverseRecOn with
  | nil => rfl
  | append_singleton applications a ih =>
    obtain ⟨hfirst, -, hlast⟩ := List.pairwise_append.mp h
    rw [List.foldl_append, List.foldl_cons, List.foldl_nil, content_apply]
    by_cases ha : a.property = .flexDirection
    · -- Nothing is placed before a direction, so the slot was not written at all.
      have hself : ¬a.places := by
        rintro (hplaces | hplaces) <;> rw [ha] at hplaces <;> cases hplaces
      have hnil : ∀ f, applications.filterMap (slot.given? isText f) = [] := fun f =>
        List.filterMap_eq_nil_iff.mpr fun b hb => slot.given?_of_not_places isText
          (fun hplaces => hlast b hb a (List.mem_singleton.mpr rfl) hplaces ha) f
      rw [ih hfirst, hnil, List.filterMap_append, hnil, slot.given?_of_not_places isText hself,
        List.filterMap_cons_none (slot.given?_of_not_places isText hself _)]
      rfl
    · rw [slot.given?_congr isText (direction_apply ha), List.filterMap_append,
        List.getLast?_append, ih hfirst]
      cases hgiven : slot.given? isText (applications.foldl (Draft.apply isText) d).style.flex
          a with
      | none => rw [List.filterMap_cons_none hgiven]; rfl
      | some v => rw [List.filterMap_cons_some hgiven]; rfl

end LayoutSlot

/-! ## Drafts -/

theorem style_foldl_congr {d d' : Draft} (h : d.style = d'.style) (isText : Bool)
    (applications : List Application) :
    (applications.foldl (Draft.apply isText) d).style =
      (applications.foldl (Draft.apply isText) d').style := by
  induction applications generalizing d d' with
  | nil => exact h
  | cons a applications ih =>
    apply ih
    rw [style_apply, style_apply, h]

namespace Sheet

variable (sheet : Sheet)

theorem draft_append (xs ys : List String) (isText : Bool) :
    sheet.draft ⟨xs ++ ys, isText⟩ =
      (sheet.applications ys).foldl (Draft.apply isText) (sheet.draft ⟨xs, isText⟩) := by
  rw [draft_eq_foldl, draft_eq_foldl, applications_eq, List.flatMap_append, List.foldl_append,
    ← applications_eq, ← applications_eq]

theorem madeNodes_append (xs ys : List String) :
    sheet.madeNodes (xs ++ ys) = sheet.madeNodes xs ++ sheet.madeNodes ys := List.flatMap_append

theorem unsupported_append (xs ys : List String) :
    sheet.unsupported (xs ++ ys) = sheet.unsupported xs ++ sheet.unsupported ys := by
  simp only [unsupported_eq, List.flatMap_append]

theorem final_repeated (xs ys : List String) (c : String) (f : StyleField) :
    sheet.final (xs ++ [c, c] ++ ys) f = sheet.final (xs ++ [c] ++ ys) f := by
  unfold final accepted
  rw [getLast?_flatMap_repeated]

theorem shared_repeated (xs ys : List String) (c : String) (isText : Bool) (part : SharedPart) :
    part.content (sheet.draft ⟨xs ++ [c, c] ++ ys, isText⟩).style =
      part.content (sheet.draft ⟨xs ++ [c] ++ ys, isText⟩).style := by
  rw [part.content_draft, part.content_draft, getLast?_flatMap_repeated]

theorem attributes_draft_repeated (xs ys : List String) (c : String) (isText : Bool) :
    (sheet.draft ⟨xs ++ [c, c] ++ ys, isText⟩).attributes =
      (sheet.draft ⟨xs ++ [c] ++ ys, isText⟩).attributes := by
  unfold Sheet.draft
  rw [attributes_setAll, attributes_setAll, filterMap_setting?, filterMap_setting?,
    List.filterMap_flatMap, List.filterMap_flatMap]
  exact ofList_flatMap_repeated xs ys c _

variable {sheet}

theorem slot_repeated {c : String} (h : (sheet.declarations c).DirectsFirst) (xs : List String)
    (isText : Bool) (slot : LayoutSlot) :
    slot.content (sheet.draft ⟨xs ++ [c, c], isText⟩).style.flex =
      slot.content (sheet.draft ⟨xs ++ [c], isText⟩).style.flex := by
  have hdirection : (sheet.draft ⟨xs ++ [c, c], isText⟩).style.flex.direction =
      (sheet.draft ⟨xs ++ [c], isText⟩).style.flex.direction := by
    have hfinal := sheet.final_repeated xs [] c .flexDirection
    rw [List.append_nil, List.append_nil] at hfinal
    exact (content_draft sheet ⟨xs ++ [c, c], isText⟩ .flexDirection).trans
      (hfinal.trans (content_draft sheet ⟨xs ++ [c], isText⟩ .flexDirection).symm)
  have hfirst : (sheet.applications [c]).Pairwise fun a b =>
      a.places → b.property ≠ .flexDirection := by
    rw [applications_eq, List.flatMap_singleton]
    exact h.ofRule c
  have htwice : sheet.draft ⟨xs ++ [c, c], isText⟩ =
      (sheet.applications [c]).foldl (Draft.apply isText) (sheet.draft ⟨xs ++ [c], isText⟩) := by
    rw [← draft_append, List.append_assoc]
    rfl
  have honce := draft_append sheet xs [c] isText
  rw [htwice, slot.content_foldl isText hfirst, ← htwice, slot.given?_congr isText hdirection,
    honce, slot.content_foldl isText hfirst]
  -- What the first mention gave, the second gives again.
  cases ((sheet.applications [c]).filterMap _).getLast? <;> rfl

theorem style_repeated {c : String} (h : (sheet.declarations c).DirectsFirst)
    (xs ys : List String) (isText : Bool) :
    (sheet.draft ⟨xs ++ [c, c] ++ ys, isText⟩).style =
      (sheet.draft ⟨xs ++ [c] ++ ys, isText⟩).style := by
  have hprefix : (sheet.draft ⟨xs ++ [c, c], isText⟩).style =
      (sheet.draft ⟨xs ++ [c], isText⟩).style := by
    refine style_draft_ext (fun f => ?_) (fun part => ?_) (slot_repeated h xs isText)
    · simpa using sheet.final_repeated xs [] c f
    · simpa using sheet.shared_repeated xs [] c isText part
  rw [draft_append sheet (xs ++ [c, c]), draft_append sheet (xs ++ [c])]
  exact style_foldl_congr hprefix isText (sheet.applications ys)

/-- A class that declares no direction behind a placement can be named twice in a row: the
attributes stay as they are, in their order, and so do the nodes of the style. The nodes that the
class makes at once come once more, and so do its warnings. -/
theorem synthesis_repeated {c : String} (h : (sheet.declarations c).DirectsFirst)
    (xs ys : List String) (isText : Bool) :
    let once := sheet.synthesis ⟨xs ++ [c] ++ ys, isText⟩
    let twice := sheet.synthesis ⟨xs ++ [c, c] ++ ys, isText⟩
    twice.attributes = once.attributes ∧
    (∀ kind ∈ [.padding, .stroke, .sizeConstraint, .listLayout],
      twice.nodesOf kind = once.nodesOf kind) ∧
    (∃ last : List Node,
      (last.map Node.kind).Sublist [.padding, .stroke, .sizeConstraint, .listLayout] ∧
      once.nodes = sheet.madeNodes xs ++ sheet.madeNodes [c] ++ sheet.madeNodes ys ++ last ∧
      twice.nodes = sheet.madeNodes xs ++ (sheet.madeNodes [c] ++ sheet.madeNodes [c]) ++
        sheet.madeNodes ys ++ last) ∧
    (∀ node ∈ sheet.madeNodes [c], node.kind = .cornerRadius ∨
      node.kind = .aspectRatioConstraint) ∧
    ∃ last : List Warning,
      last.Sublist [.strokeWithoutColor] ∧
      once.warnings =
        sheet.unsupported xs ++ sheet.unsupported [c] ++ sheet.unsupported ys ++ last ∧
      twice.warnings = sheet.unsupported xs ++ (sheet.unsupported [c] ++ sheet.unsupported [c]) ++
        sheet.unsupported ys ++ last := by
  intro once twice
  have hstyle := style_repeated h xs ys isText
  refine ⟨?_, ?_, ⟨_, kinds_nodes (sheet.draft ⟨xs ++ [c] ++ ys, isText⟩).style, ?_, ?_⟩, ?_,
    ⟨(sheet.draft ⟨xs ++ [c] ++ ys, isText⟩).style.warnings, ?_, ?_, ?_⟩⟩
  · show ArrivalMap.putAll _ _ = ArrivalMap.putAll _ _
    rw [attributes_draft_repeated, hstyle]
  · intro kind hkind
    have hnodes := fun classes => nodesOf_finish_style (bounded_draft sheet ⟨classes, isText⟩)
      ((sheet.applications classes).filterMap fun a => a.warning? isText) hkind
    exact (hnodes _).trans ((congrArg (fun s : Style => s.nodes.filter _) hstyle).trans
      (hnodes _).symm)
  · rw [← madeNodes_append, ← madeNodes_append, nodes_synthesis]
  · rw [← madeNodes_append, ← madeNodes_append, ← madeNodes_append, ← hstyle, nodes_synthesis]
    rfl
  · intro node hnode
    rw [← nodes_draft sheet ⟨[c], isText⟩] at hnode
    exact (bounded_draft sheet ⟨[c], isText⟩).made node hnode
  · unfold Style.warnings
    split <;> simp
  · rw [← unsupported_append, ← unsupported_append, warnings_synthesis]
  · rw [← unsupported_append, ← unsupported_append, ← unsupported_append, ← hstyle,
      warnings_synthesis]
    rfl

def columns : Sheet :=
  (Sheet.empty.insert "a" ⟨.empty, ⟨[("flex-direction", "column-reverse"), ("display", "flex"),
    ("align-items", "end"), ("border-radius", "4px"), ("padding", "1px")]⟩⟩).insert "b"
    ⟨.empty, ⟨[("padding-left", "2px"), ("justify-content", "center")]⟩⟩

/-- The padding of the left side and the place along the vertical axis are those of the class that
surrounds the repetition. -/
theorem synthesis_repeated_columns :
    let twice := columns.synthesis ⟨["b"] ++ ["a", "a"] ++ ["b"], false⟩
    (columns.declarations "a").DirectsFirst ∧
    twice.nodesOf .padding =
      [Style.paddingNode ⟨.ofOffset 2, .ofOffset 1, .ofOffset 1, .ofOffset 1⟩] ∧
    twice.nodesOf .listLayout =
      [Style.layoutNode { Flex.standard with
        direction := .vertical, horizontalAlignment := .right, verticalAlignment := .center }] := by
  have hfirst : (columns.declarations "a").DirectsFirst := by decide +kernel
  obtain ⟨-, hkinds, -⟩ := synthesis_repeated hfirst ["b"] ["b"] false
  refine ⟨hfirst, ?_, ?_⟩
  · exact (hkinds .padding (by decide)).trans (by decide +kernel)
  · exact (hkinds .listLayout (by decide)).trans (by decide +kernel)

-- A direction behind a placement turns the placement the second time.
example :
    let sheet := Sheet.empty.insert "a" ⟨.empty,
      ⟨[("align-items", "center"), ("flex-direction", "column"), ("display", "flex")]⟩⟩
    (sheet.synthesis ⟨["a", "a"], false⟩).nodes ≠ (sheet.synthesis ⟨["a"], false⟩).nodes := by
  decide +kernel

end Sheet

end ClassStyle
