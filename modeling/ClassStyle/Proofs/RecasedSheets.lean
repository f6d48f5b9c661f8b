import ClassStyle.Proofs.CustomProperties
import ClassStyle.Proofs.Paints
import ClassStyle.Proofs.Recasing
import ClassStyle.Proofs.Rules

/-!
# Stylesheets in another letter case

How a stylesheet falls into rules and declarations does not depend on the case of its letters
(`constructs_cased`, `chunks_cased`). So where the letters of ordinary property names, of units and
of the names of functions such as `rgb`, `rgba` and `var` change their case, the declarations of
each class stay the same (`declarations_recased`).
-/

namespace ClassStyle.Css

open Component Text

/-! ## Chunks -/

theorem lower_sourceAll {cs cs' : List Component} (h : RelatedAll Lexeme.Cased cs cs') :
    lower (sourceAll cs) = lower (sourceAll cs') := by
  rw [← source_flattenAll, ← source_flattenAll]
  exact lower_source (related_flattenAll h)

/-- Chunks are the same but for letter case. Where they are malformed, their names do not count. -/
inductive Chunk.Cased : Chunk → Chunk → Prop
  | declared {name name' : String} {value value' : List Char} :
      lowerString name = lowerString name' → lower value = lower value' →
      Cased (.declared name value) (.declared name' value')
  | nameless : Cased .nameless .nameless
  | colonless (name name' : String) : Cased (.colonless name) (.colonless name')

inductive ChunkState.Cased : ChunkState → ChunkState → Prop
  | between : Cased .between .between
  | behindName {name name' : String} : lowerString name = lowerString name' →
      Cased (.behindName name) (.behindName name')
  | inValue {name name' : String} {read read' : List Component} :
      lowerString name = lowerString name' → RelatedAll Lexeme.Cased read read' →
      Cased (.inValue name read) (.inValue name' read')
  | skipping : Cased .skipping .skipping

theorem Chunk.Cased.value {name name' : String} {read read' : List Component}
    (hname : lowerString name = lowerString name') (hread : RelatedAll Lexeme.Cased read read') :
    Cased (.declared name (sourceAll read.reverse)) (.declared name' (sourceAll read'.reverse)) :=
  .declared hname (lower_sourceAll (List.rel_reverse hread))

theorem chunksFrom_cased {cs cs' : List Component} (h : RelatedAll Lexeme.Cased cs cs')
    {state state' : ChunkState} (hstate : state.Cased state') :
    List.Forall₂ Chunk.Cased (chunksFrom state cs) (chunksFrom state' cs') := by
  induction h generalizing state state' with
  | nil =>
    cases hstate with
    | between => exact .nil
    | behindName => exact .cons (.colonless _ _) .nil
    | inValue hname hread => exact .cons (.value hname hread) .nil
    | skipping => exact .nil
  | @cons c c' cs cs' hc _ ih =>
    have hsemicolon : c.isLeaf .semicolon = c'.isLeaf .semicolon := isLeaf_cased hc (by decide)
    cases hstate with
    | between =>
      have hident := ident?_cased hc
      rw [chunksFrom, chunksFrom, isSeparator_cased hc, hsemicolon]
      split
      · exact ih .between
      · revert hident
        cases c.ident? <;> cases c'.ident? <;> intro hident
        · exact .cons .nameless (ih .skipping)
        · cases hident
        · cases hident
        · exact ih (.behindName (Option.some.inj hident))
    | behindName hname =>
      rw [chunksFrom, chunksFrom, isSeparator_cased hc, isLeaf_cased hc (t := .colon) (by decide)]
      split
      · exact ih (.behindName hname)
      · split
        · exact ih (.inValue hname .nil)
        · exact .cons (.colonless _ _) (ih .skipping)
    | inValue hname hread =>
      rw [chunksFrom, chunksFrom, hsemicolon]
      split
      · exact .cons (.value hname hread) (ih .between)
      · exact ih (.inValue hname (.cons hc hread))
    | skipping =>
      rw [chunksFrom, chunksFrom, hsemicolon]
      split
      · exact ih .between
      · exact ih .skipping

theorem chunks_cased {body body' : List Component} (h : RelatedAll Lexeme.Cased body body') :
    List.Forall₂ Chunk.Cased (chunks body) (chunks body') := chunksFrom_cased h .between

/-! ## Constructs -/

/-- Constructs are the same but for letter case. Only rules count. -/
inductive Construct.Cased : Construct → Construct → Prop
  | atRule (name name' : String) : Cased (.atRule name) (.atRule name')
  | rule {selectors selectors' body body' : List Component} :
      RelatedAll Lexeme.Cased selectors selectors' → RelatedAll Lexeme.Cased body body' →
      Cased (.rule selectors body) (.rule selectors' body')
  | unfinished (selectors selectors' : List Component) :
      Cased (.unfinished selectors) (.unfinished selectors')

inductive ConstructState.Cased : ConstructState → ConstructState → Prop
  | between : Cased .between .between
  | inAtRule : Cased .inAtRule .inAtRule
  | inSelectors {read read' : List Component} : RelatedAll Lexeme.Cased read read' →
      Cased (.inSelectors read) (.inSelectors read')

theorem constructsFrom_cased {cs cs' : List Component} (h : RelatedAll Lexeme.Cased cs cs')
    {state state' : ConstructState} (hstate : state.Cased state') :
    List.Forall₂ Construct.Cased (constructsFrom state cs) (constructsFrom state' cs') := by
  induction h generalizing state state' with
  | nil =>
    cases hstate with
    | between => exact .nil
    | inAtRule => exact .nil
    | inSelectors => exact .cons (.unfinished _ _) .nil
  | @cons c c' cs cs' hc _ ih =>
    have hcurly := curlyBody?_cased hc
    cases hstate with
    | between =>
      have hkeyword := atKeyword?_cased hc
      rw [constructsFrom, constructsFrom, isSeparator_cased hc]
      split
      · exact ih .between
      · revert hkeyword
        cases c.atKeyword? <;> cases c'.atKeyword? <;> intro hkeyword
        · refine rel_elim hcurly ?_ fun body body' hbody => ?_
          · exact ih (.inSelectors (.cons hc .nil))
          · exact .cons (.rule .nil hbody) (ih .between)
        · cases hkeyword
        · cases hkeyword
        · exact .cons (.atRule _ _) (ih .inAtRule)
    | inAtRule =>
      have hsome : c.curlyBody?.isSome = c'.curlyBody?.isSome :=
        rel_elim hcurly rfl fun _ _ _ => rfl
      rw [constructsFrom, constructsFrom, isLeaf_cased hc (t := .semicolon) (by decide), hsome]
      split
      · exact ih .between
      · exact ih .inAtRule
    | inSelectors hread =>
      rw [constructsFrom, constructsFrom]
      refine rel_elim hcurly ?_ fun body body' hbody => ?_
      · exact ih (.inSelectors (.cons hc hread))
      · exact .cons (.rule (List.rel_reverse hread) hbody) (ih .between)

theorem constructs_cased {s t : List Char} (h : lower s = lower t) :
    List.Forall₂ Construct.Cased (constructs (components s)) (constructs (components t)) :=
  constructsFrom_cased (related_group (keepsBrackets_of_lowered fun _ _ hl => hl.lowered)
    (cased_lexemes h)) .between

/-! ## Sheets in another letter case -/

/-- The letters of an ordinary name may change their case, and in its value those that may. The
name of a custom property stays as it is. -/
def Chunk.Recased : Chunk → Chunk → Prop
  | .declared name value, .declared name' value' =>
    if isCustom name then name = name' ∧ TrimRecased value value' else ValueRecased value value'
  | _, _ => True

/-- What a rule is read from: the names in its selectors and the chunks of its block. -/
structure RuleParts where
  names : List (Option String)
  chunks : List Chunk
  deriving DecidableEq

def Construct.parts? : Construct → Option RuleParts
  | .rule selectors body => some ⟨selectors.map Component.ident?, Css.chunks body⟩
  | _ => none

/-- The rules of a stylesheet, in order. -/
def ruleParts (text : List Char) : List RuleParts :=
  (constructs (components text)).filterMap Construct.parts?

/-- The names in the selectors stay as they are. -/
structure RuleParts.Recased (r r' : RuleParts) : Prop where
  names : r.names = r'.names
  chunks : ∀ p ∈ r.chunks.zip r'.chunks, p.1.Recased p.2

/-- Two stylesheets are the same but for the case of letters in ordinary property names, in units
and in the names of functions. The lexemes of a value, by which its letters are judged, are those
of the stylesheet (`lexemes_value_infix`). What stands outside of rules may change its case. -/
structure SheetRecased (s t : List Char) : Prop where
  letters : lower s = lower t
  rules : ∀ p ∈ (ruleParts s).zip (ruleParts t), p.1.Recased p.2

/-! ## Selectors -/

abbrev SelectorsAlike : List Component → List Component → Prop :=
  List.Forall₂ fun c c' => c.Related Lexeme.Cased c' ∧ c.ident? = c'.ident?

theorem selectorsAlike {cs cs' : List Component} (h : RelatedAll Lexeme.Cased cs cs')
    (hnames : cs.map Component.ident? = cs'.map Component.ident?) : SelectorsAlike cs cs' := by
  induction h with
  | nil => exact .nil
  | cons hc _ ih =>
    obtain ⟨hfirst, hrest⟩ := List.cons.inj hnames
    exact .cons ⟨hc, hfirst⟩ (ih hrest)

theorem listItems_alike {cs cs' : List Component} (h : SelectorsAlike cs cs') :
    List.Forall₂ SelectorsAlike (listItems cs) (listItems cs') := by
  induction h with
  | nil => exact .cons .nil .nil
  | cons hc _ ih =>
    rw [listItems, listItems, isLeaf_cased hc.1 (by decide)]
    split
    · exact .cons .nil ih
    · revert ih
      generalize listItems _ = items
      generalize listItems _ = items'
      rintro (_ | ⟨hfirst, hothers⟩)
      · exact .cons (.cons hc .nil) .nil
      · exact .cons (.cons hc hfirst) hothers

theorem all_isSeparator_alike {cs cs' : List Component} (h : SelectorsAlike cs cs') :
    cs.all isSeparator = cs'.all isSeparator := by
  induction h with
  | nil => rfl
  | cons hc _ ih => rw [List.all_cons, List.all_cons, isSeparator_cased hc.1, ih]

theorem classSelector?_alike {item item' : List Component} (h : SelectorsAlike item item') :
    classSelector? item = classSelector? item' := by
  have hitem := (forall₂_takeWhile_dropWhile (fun _ _ hc => isSeparator_cased hc.1) h).2
  unfold classSelector?
  revert hitem
  generalize item.dropWhile isSeparator = cs
  generalize item'.dropWhile isSeparator = cs'
  rintro (_ | @⟨dot, dot', rest, rest', hdot, hrest⟩)
  · rfl
  · have hname := (forall₂_takeWhile_dropWhile
      (fun _ _ hc => isLeaf_cased hc.1 (t := .comment) (by decide)) hrest).2
    dsimp only
    rw [isLeaf_cased hdot.1 (by decide)]
    revert hname
    generalize rest.dropWhile (fun c => c.isLeaf .comment) = cs
    generalize rest'.dropWhile (fun c => c.isLeaf .comment) = cs'
    rintro (_ | ⟨hname, hafter⟩)
    · rfl
    · dsimp only
      rw [all_isSeparator_alike hafter, hname.2]

theorem selectedClasses_alike {cs cs' : List Component} (h : SelectorsAlike cs cs') :
    selectedClasses cs = selectedClasses cs' := by
  have hitems := listItems_alike h
  unfold selectedClasses
  revert hitems
  generalize listItems cs = items
  generalize listItems cs' = items'
  intro hitems
  induction hitems with
  | nil => rfl
  | cons hitem _ ih =>
    rw [filterMap_cons_toList, filterMap_cons_toList, classSelector?_alike hitem, ih]

/-! ## Custom properties -/

theorem trim_trim (s : List Char) : trim (trim s) = trim s := by
  have hdrop : ∀ {t : List Char}, (∀ c ∈ t.head?, isBlank c = false) → t.dropWhile isBlank = t := by
    intro t ht
    cases t with
    | nil => rfl
    | cons c t => rw [List.dropWhile_cons_of_neg (by simp [ht c rfl])]
  have hend : ∀ c ∈ (trim s).reverse.head?, isBlank c = false := by
    rw [List.head?_reverse]
    exact not_isBlank_getLast?_trim s
  conv_lhs => rw [trim, trimStart, hdrop (not_isBlank_head?_trim s), trimEnd, hdrop hend,
    List.reverse_reverse]

theorem isCustom_congr {name name' : String} (h : lowerString name = lowerString name') :
    isCustom name = isCustom name' := by
  rw [Bool.eq_iff_iff, ← isCustom_lowerString, h, isCustom_lowerString]

/-- Two chunks are the same but for the case of letters that may change it. -/
def Chunk.Alike (chunk chunk' : Chunk) : Prop := chunk.Cased chunk' ∧ chunk.Recased chunk'

theorem Chunk.Alike.custom? {chunk chunk' : Chunk} (h : chunk.Alike chunk') :
    Option.Rel (fun p p' => p.1 = p'.1 ∧ ValueRecased (trim p.2.toList) (trim p'.2.toList))
      chunk.custom? chunk'.custom? := by
  obtain ⟨hcased, hrecased⟩ := h
  cases hcased with
  | @declared name name' value value' hname =>
    rw [Chunk.Recased] at hrecased
    rw [Chunk.custom?, Chunk.custom?, ← isCustom_congr hname]
    split
    · next hcustom =>
      rw [if_pos hcustom] at hrecased
      refine .some ⟨hrecased.1, ?_⟩
      rw [String.toList_ofList, String.toList_ofList, trim_trim, trim_trim]
      exact hrecased.2.trim
    · exact .none
  | nameless => exact .none
  | colonless => exact .none

theorem ValueRecased.eq_nil_iff {s t : List Char} (h : ValueRecased s t) : s = [] ↔ t = [] := by
  rw [← lower_eq_nil, h.recased.letters, lower_eq_nil]

theorem customOf_recased {chunks chunks' : List Chunk}
    (h : List.Forall₂ Chunk.Alike chunks chunks') :
    CustomRecased (customOf chunks) (customOf chunks') := by
  intro name
  have hpairs := List.rel_filterMap (fun _ _ hchunk => Chunk.Alike.custom? hchunk) h
  have hfound : Option.Rel (fun a b => ValueRecased (trim a.toList) (trim b.toList))
      ((customOf chunks).get? name) ((customOf chunks').get? name) := by
    rw [customOf, customOf, SortedMap.get?_ofList, SortedMap.get?_ofList]
    refine forall₂_getLast? (List.rel_filterMap (fun p p' hp => ?_) hpairs)
    rw [hp.1]
    split
    · exact .some hp.2
    · exact .none
  unfold definition?
  refine rel_elim hfound .none fun value value' hvalue => ?_
  rw [Option.bind_some, Option.bind_some]
  dsimp only
  rw [ite_cond_congr (propext hvalue.eq_nil_iff)]
  split
  · exact .none
  · exact .some hvalue

/-! ## Declarations -/

theorem writtenDeclarations_recased {chunks chunks' : List Chunk}
    (h : List.Forall₂ Chunk.Alike chunks chunks') :
    writtenDeclarations chunks = writtenDeclarations chunks' := by
  have hcustom := customOf_recased h
  have hchunk : ∀ chunk chunk' : Chunk, chunk.Alike chunk' →
      Option.Rel (fun d d' => d.1 = d'.1 ∧ ValueRecased d.2 d'.2)
        chunk.declaration? chunk'.declaration? := by
    rintro _ _ ⟨hcased, hrecased⟩
    cases hcased with
    | declared hname =>
      rw [Chunk.Recased] at hrecased
      rw [Chunk.declaration?, Chunk.declaration?, ← isCustom_congr hname]
      split
      · exact .none
      · next hordinary =>
        rw [if_neg hordinary] at hrecased
        exact .some ⟨hname, hrecased⟩
    | nameless => exact .none
    | colonless => exact .none
  have hdeclarations := List.rel_filterMap hchunk h
  unfold writtenDeclarations
  revert hdeclarations hcustom
  generalize customOf chunks = custom
  generalize customOf chunks' = custom'
  generalize chunks.filterMap Chunk.declaration? = declarations
  generalize chunks'.filterMap Chunk.declaration? = declarations'
  intro hcustom hdeclarations
  induction hdeclarations with
  | nil => rfl
  | cons hd _ ih =>
    rw [List.map_cons, List.map_cons, hd.1, writeValue_recased hcustom hd.2, ih]

theorem declarations_readBlock {body body' : List Component}
    (h : List.Forall₂ Chunk.Alike (chunks body) (chunks body')) :
    (readBlock body).1.declarations = (readBlock body').1.declarations := by
  show ArrivalMap.ofList ((writtenDeclarations (chunks body)).flatMap _) =
    .ofList ((writtenDeclarations (chunks body')).flatMap _)
  rw [writtenDeclarations_recased h]

/-- Two constructs are the same but for the case of letters that may change it. -/
def Construct.Alike (construct construct' : Construct) : Prop :=
  construct.Cased construct' ∧
    ∀ p ∈ construct.parts?.toList.zip construct'.parts?.toList, p.1.Recased p.2

theorem SheetRecased.constructs {s t : List Char} (h : SheetRecased s t) :
    List.Forall₂ Construct.Alike (constructs (components s)) (constructs (components t)) := by
  obtain ⟨hletters, hrules⟩ := h
  have hcased := constructs_cased hletters
  unfold ruleParts at hrules
  revert hrules hcased
  generalize Css.constructs (components s) = cs
  generalize Css.constructs (components t) = cs'
  intro hrules hcased
  induction hcased with
  | nil => exact .nil
  | @cons construct construct' _ _ hfirst _ ih =>
    have hlength : construct.parts?.toList.length = construct'.parts?.toList.length := by
      cases hfirst <;> rfl
    rw [filterMap_cons_toList, filterMap_cons_toList, forall_zip_append hlength] at hrules
    exact .cons ⟨hfirst, hrules.1⟩ (ih hrules.2)

theorem Construct.Alike.blockFor? {construct construct' : Construct}
    (h : construct.Alike construct') (name : String) :
    Option.Rel (fun body body' => List.Forall₂ Chunk.Alike (chunks body) (chunks body'))
      (construct.blockFor? name) (construct'.blockFor? name) := by
  obtain ⟨hcased, hrecased⟩ := h
  cases hcased with
  | atRule => exact .none
  | unfinished => exact .none
  | rule hselectors hbody =>
    obtain ⟨hnames, hchunks⟩ := hrecased _ List.mem_cons_self
    rw [Construct.blockFor?, Construct.blockFor?,
      selectedClasses_alike (selectorsAlike hselectors hnames)]
    split
    · exact .some (forall₂_of_zip (chunks_cased hbody) hchunks)
    · exact .none

/-- The letters of ordinary property names, of units and of the names of functions (`rgb`, `rgba`
and `var` with the others) may change their case anywhere in a stylesheet, also in custom
properties and in fallbacks: each class keeps its declarations. -/
theorem declarations_recased {s t : List Char} (h : SheetRecased s t) (name : String) :
    ((readSheet t).value.get? name).map Rule.declarations =
      ((readSheet s).value.get? name).map Rule.declarations := by
  have hblock : Option.Rel (fun body body' => List.Forall₂ Chunk.Alike (chunks body) (chunks body'))
      (blockOf s name) (blockOf t name) :=
    forall₂_getLast? (List.rel_filterMap (fun _ _ hc => hc.blockFor? name) h.constructs)
  rw [get?_readSheet, get?_readSheet]
  refine rel_elim hblock rfl fun body body' hbody => ?_
  simp only [Option.map_some, declarations_readBlock hbody]

def quietSheet : List Char :=
  ".a \x7b color: rgb(1, var(--x, 2px), 3); width: var(--w, 4em); --x: var(--y, 5px) \x7d".toList

def loudSheet : List Char :=
  ".a \x7b Color: RGB(1, Var(--x, 2PX), 3); WIDTH: VAR(--w, 4Em); --x: vaR(--y, 5pX) \x7d".toList

theorem declarations_recased_loud : SheetRecased quietSheet loudSheet ∧
    ((readSheet loudSheet).value.get? "a").map Rule.declarations =
      ((readSheet quietSheet).value.get? "a").map Rule.declarations := by
  have hquiet : ruleParts quietSheet = [⟨[none, some "a", none],
      [.declared "color" " rgb(1, var(--x, 2px), 3)".toList,
        .declared "width" " var(--w, 4em)".toList,
        .declared "--x" " var(--y, 5px) ".toList]⟩] := by decide +kernel
  have hloud : ruleParts loudSheet = [⟨[none, some "a", none],
      [.declared "Color" " RGB(1, Var(--x, 2PX), 3)".toList,
        .declared "WIDTH" " VAR(--w, 4Em)".toList,
        .declared "--x" " vaR(--y, 5pX) ".toList]⟩] := by decide +kernel
  have hcolor : ValueRecased " rgb(1, var(--x, 2px), 3)".toList
      " RGB(1, Var(--x, 2PX), 3)".toList := .whole (by decide +kernel) (by decide +kernel)
  have hwidth : ValueRecased " var(--w, 4em)".toList " VAR(--w, 4Em)".toList :=
    .whole (by decide +kernel) (by decide +kernel)
  have hx : TrimRecased " var(--y, 5px) ".toList " vaR(--y, 5pX) ".toList :=
    .inl ⟨by decide +kernel, by decide +kernel⟩
  have hrecased : SheetRecased quietSheet loudSheet := by
    refine ⟨by decide +kernel, ?_⟩
    rw [hquiet, hloud]
    simp only [List.zip_cons_cons, List.zip_nil_left, List.forall_mem_singleton]
    refine ⟨rfl, ?_⟩
    simp only [List.zip_cons_cons, List.zip_nil_left, List.forall_mem_cons]
    exact ⟨hcolor, hwidth, ⟨rfl, hx⟩, List.forall_mem_nil _⟩
  exact ⟨hrecased, declarations_recased hrecased "a"⟩

end ClassStyle.Css
