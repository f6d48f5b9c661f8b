import ClassStyle.Proofs.Colors
import ClassStyle.Proofs.ReadBack
import ClassStyle.Proofs.Recovery
import ClassStyle.Proofs.Substitution

/-!
# References inside colors

The channels of a color may be spread over custom properties: a reference among the arguments
stands for the numbers of its property (`blockRule_spelled`). The property is written as a text
first, and the channels are read from that again, as the same numbers.
-/

namespace ClassStyle.Css

open Component Text

/-! ## Numbers behind references -/

/-- What may stand between numbers: blanks, comments, commas and slashes. -/
def Component.isMark (c : Component) : Bool :=
  c.isSeparator || c.isLeaf .comma || c.isLeaf (.delimiter '/')

/-- Components that spell out numbers: the numbers themselves, marks between them, and references
to properties that are not open and whose texts spell out numbers in turn. -/
inductive Spells (custom : SortedMap String) :
    List String → List Component → List Numeral → Prop
  | nil {opened : List String} : Spells custom opened [] []
  | mark {opened : List String} {c : Component} {cs : List Component} {ns : List Numeral} :
      c.isMark = true → Spells custom opened cs ns → Spells custom opened (c :: cs) ns
  | number {opened : List String} {n : Numeral} {source : List Char} {cs : List Component}
      {ns : List Numeral} :
      Spells custom opened cs ns →
      Spells custom opened (.leaf ⟨.number n, source⟩ :: cs) (n :: ns)
  | reference {opened : List String} {keyword name : String} {source value : List Char}
      {body cs : List Component} {closer : Option Lexeme} {ms ns : List Numeral} :
      isNamed "var" keyword = true → referenceName? body = some name → name ∉ opened →
      definition? custom name = some value →
      Spells custom (name :: opened) (components value) ms → Spells custom opened cs ns →
      Spells custom opened (.block ⟨.function keyword, source⟩ body closer :: cs) (ms ++ ns)

theorem isMark_cases {c : Component} (h : c.isMark = true) :
    c.isSeparator = true ∨ ∃ token source, c = .leaf ⟨token, source⟩ ∧
      (token = .comma ∨ token = .delimiter '/') := by
  unfold Component.isMark at h
  cases c with
  | block opener body closer => exact .inl (by simpa [Component.isLeaf] using h)
  | leaf l =>
    simp only [Component.isLeaf, Bool.or_eq_true, beq_iff_eq] at h
    rcases h with (h | h) | h
    · exact .inl h
    · exact .inr ⟨l.token, l.source, rfl, .inl h⟩
    · exact .inr ⟨l.token, l.source, rfl, .inr h⟩

/-! ## What is written for them -/

/-- What is written consists of these pieces with marks between them, and is nothing else. -/
structure Written.Lists (w : Written) (texts : List (List Char)) : Prop where
  pieces : w.pieces.flatMap (Text.pieces isListSeparator) = texts
  opacity : w.opacity = none
  notices : w.notices = []

namespace Written.Lists

variable {a b : Written} {s t : List (List Char)}

theorem append (ha : a.Lists s) (hb : b.Lists t) : (a ++ b).Lists (s ++ t) := by
  refine ⟨?_, ?_, ?_⟩
  · show (a.pieces ++ b.pieces).flatMap _ = _
    rw [List.flatMap_append, ha.pieces, hb.pieces]
  · show (b.opacity <|> a.opacity) = none
    rw [ha.opacity, hb.opacity]
    rfl
  · show a.notices ++ b.notices = []
    rw [ha.notices, hb.notices]
    rfl

end Written.Lists

theorem lists_mark (reference : List Component → Written) {c : Component} (h : c.isMark = true) :
    (writeComponent reference c).Lists [] := by
  rcases isMark_cases h with hseparator | ⟨token, source, rfl, htoken⟩
  · rw [writeComponent_separator reference hseparator]
    exact ⟨rfl, rfl, rfl⟩
  · rcases htoken with rfl | rfl
    · exact ⟨rfl, rfl, rfl⟩
    · exact ⟨rfl, rfl, rfl⟩

theorem lists_number (n : Numeral) : (Written.piece (numberText n)).Lists [numberText n] := by
  have hprinted : Printed (numberText n) := printed_writeSingle _
  refine ⟨?_, rfl, rfl⟩
  rw [Written.piece, List.flatMap_singleton]
  exact pieces_of_no_cut hprinted.ne_nil hprinted.no_separator

theorem pieces_intercalate {cut : Char → Bool} (h : cut ' ' = true) (ts : List (List Char)) :
    pieces cut ([' '].intercalate ts) = ts.flatMap (pieces cut) := by
  induction ts with
  | nil => rfl
  | cons t ts ih =>
    cases ts with
    | nil => rw [List.intercalate_singleton, List.flatMap_singleton]
    | cons u ts =>
      rw [List.intercalate_cons_cons, List.append_assoc, List.singleton_append,
        pieces_append_cons h, ih, ← List.flatMap_cons]

section

variable {custom : SortedMap String} {opened : List String} {cs : List Component}
  {ns : List Numeral}

theorem Spells.beforeBang_eq (h : Spells custom opened cs ns) : beforeBang cs = cs := by
  refine beforeBang_eq_self ?_
  induction h with
  | nil => simp
  | @mark _ c _ _ hmark _ ih =>
    refine List.forall_mem_cons.mpr ⟨?_, ih⟩
    rcases isMark_cases hmark with hseparator | ⟨token, source, rfl, htoken⟩
    · cases hbang : c.isLeaf (.delimiter '!') with
      | false => rfl
      | true =>
        rw [isSeparator_of_isLeaf hbang] at hseparator
        cases hseparator
    · rcases htoken with rfl | rfl <;> rfl
  | number _ ih => exact List.forall_mem_cons.mpr ⟨rfl, ih⟩
  | reference _ _ _ _ _ _ _ ih => exact List.forall_mem_cons.mpr ⟨rfl, ih⟩

theorem writeReference_of_definition {name : String} {value : List Char} {body : List Component}
    (hname : referenceName? body = some name) (hnot : name ∉ opened)
    (hdefined : definition? custom name = some value)
    (write : List String → List Char → Written) :
    writeReference custom write opened body = write (name :: opened) value := by
  have hcontains : opened.contains name = false := by simpa using hnot
  simp only [writeReference, hname, hcontains, Bool.false_eq_true, if_false, hdefined]

theorem writeComponent_reference {keyword : String} (h : isNamed "var" keyword = true)
    (reference : List Component → Written) (source : List Char) (body : List Component)
    (closer : Option Lexeme) :
    writeComponent reference (.block ⟨.function keyword, source⟩ body closer) =
      reference body := by
  have hlower : lowerString keyword = "var" := by simpa [isNamed] using h
  have hrgb : (isNamed "rgb" keyword || isNamed "rgba" keyword) = false := by
    simp [isNamed, hlower]
  simp only [writeComponent, hrgb, h, Bool.false_eq_true, if_false, if_true]

theorem Spells.lists (h : Spells custom opened cs ns) :
    ∃ least, ∀ depth, least ≤ depth →
      (writeComponents (writeReference custom (writeText custom depth) opened) cs).Lists
        (ns.map numberText) := by
  induction h with
  | nil => exact ⟨0, fun _ _ => ⟨rfl, rfl, rfl⟩⟩
  | mark hmark _ ih =>
    obtain ⟨least, hleast⟩ := ih
    exact ⟨least, fun depth hdepth => (lists_mark _ hmark).append (hleast depth hdepth)⟩
  | @number _ n _ _ _ _ ih =>
    obtain ⟨least, hleast⟩ := ih
    exact ⟨least, fun depth hdepth => (lists_number n).append (hleast depth hdepth)⟩
  | @reference opened _ name _ value _ _ _ ms ns hvar hname hnot hdefined hvalue _ ihvalue ih =>
    -- The text of the property is written one level deeper than what stands beside it.
    obtain ⟨inner, hinner⟩ := ihvalue
    obtain ⟨least, hleast⟩ := ih
    refine ⟨max (inner + 1) least, fun depth hdepth => ?_⟩
    obtain ⟨depth, rfl⟩ : ∃ d, depth = d + 1 := ⟨depth - 1, by omega⟩
    rw [writeComponents, writeComponent_reference hvar,
      writeReference_of_definition hname hnot hdefined, writeText, hvalue.beforeBang_eq,
      List.map_append]
    exact (hinner depth (by omega)).append (hleast (depth + 1) (by omega))

end

/-! ## Channels -/

theorem addPieces_numberTexts (ns : List Numeral) (channels : Channels) :
    channels.addPieces (ns.map numberText) =
      { channels with texts := channels.texts ++ ns.map numberText } := by
  induction ns generalizing channels with
  | nil => simp [Channels.addPieces]
  | cons n ns ih =>
    have hread : readSingle? (numberText n) = some (singleValue n) := readSingle?_writeSingle _
    have hrest : (channels.add (numberText n)).addPieces (ns.map numberText) =
        { channels with texts := channels.texts ++ (n :: ns).map numberText } := by
      rw [ih]
      simp [Channels.add]
    rw [← hrest, List.map_cons]
    cases ns with
    | nil =>
      simp only [List.map_nil, Channels.addPieces, hread]
      rfl
    | cons m ns =>
      have hpercent : numberText m ≠ ['%'] := by
        have hprinted : Printed (numberText m) := printed_writeSingle _
        have hnot : '%' ∉ numberText m := hprinted.not_mem (by decide) (by decide)
        exact fun heq => hnot (by simp [heq])
      simp only [List.map_cons, Channels.addPieces, hread]
      exact if_neg hpercent

section

variable {custom : SortedMap String} {opened : List String} {cs : List Component}
  {ns : List Numeral} {channels : Channels}

theorem addArgument_mark (reference : List Component → Written) {c : Component}
    (h : c.isMark = true) : addArgument reference channels c = channels := by
  cases c with
  | leaf l =>
    obtain ⟨token, source⟩ := l
    cases token <;> first | rfl | cases h
  | block opener body closer =>
    obtain ⟨token, source⟩ := opener
    cases token <;> first | rfl | cases h

theorem addArgument_reference {keyword : String} (h : isNamed "var" keyword = true)
    {reference : List Component → Written} (source : List Char) {body : List Component}
    (closer : Option Lexeme) (hlists : (reference body).Lists (ns.map numberText)) :
    addArgument reference channels (.block ⟨.function keyword, source⟩ body closer) =
      { channels with texts := channels.texts ++ ns.map numberText } := by
  have hpieces : pieces isListSeparator (reference body).text = ns.map numberText := by
    rw [Written.text, pieces_intercalate (by decide), hlists.pieces]
  simp only [addArgument, h, if_true, Channels.addWritten, hpieces,
    addPieces_numberTexts, hlists.notices, List.append_nil]

theorem Spells.foldl_addArgument (h : Spells custom opened cs ns) :
    ∃ least, ∀ depth, least ≤ depth → ∀ channels : Channels,
      cs.foldl (addArgument (writeReference custom (writeText custom depth) opened)) channels =
        { channels with texts := channels.texts ++ ns.map numberText } := by
  induction h with
  | nil => exact ⟨0, fun _ _ channels => by simp⟩
  | mark hmark _ ih =>
    obtain ⟨least, hleast⟩ := ih
    refine ⟨least, fun depth hdepth channels => ?_⟩
    rw [List.foldl_cons, addArgument_mark _ hmark, hleast depth hdepth]
  | number _ ih =>
    obtain ⟨least, hleast⟩ := ih
    refine ⟨least, fun depth hdepth channels => ?_⟩
    rw [List.foldl_cons, hleast depth hdepth]
    simp [addArgument, Channels.add]
  | reference hvar hname hnot hdefined hvalue _ _ ih =>
    obtain ⟨inner, hinner⟩ := hvalue.lists
    obtain ⟨least, hleast⟩ := ih
    refine ⟨max (inner + 1) least, fun depth hdepth channels => ?_⟩
    obtain ⟨depth, rfl⟩ : ∃ d, depth = d + 1 := ⟨depth - 1, by omega⟩
    have hbody := writeReference_of_definition hname hnot hdefined (writeText custom (depth + 1))
    have hlists := hinner depth (by omega)
    rw [← hvalue.beforeBang_eq, ← writeText, ← hbody] at hlists
    rw [List.foldl_cons, addArgument_reference hvar _ _ hlists,
      hleast (depth + 1) (by omega)]
    simp

theorem writeValue_spelled {value : List Char} {arguments : List Component}
    (hcolor : IsColor value arguments) (h : Spells custom [] arguments ns) :
    writeValue custom value = (Channels.mk (ns.map numberText) []).written := by
  obtain ⟨name, source, closer, hname, hvalue⟩ := hcolor
  obtain ⟨least, hleast⟩ := h.foldl_addArgument
  have hroom := room_le_depthBound custom [] value
  have hdeep : writeValue custom value =
      writeText custom (max (depthBound custom value) least + 1) [] value :=
    writeText_eq hroom (by omega)
  rw [hdeep, writeText, ← writeComponents_significant, hvalue]
  simp only [writeComponents, writeComponent, hname, if_true, Written.append_empty, writeColor]
  rw [hleast _ (Nat.le_max_right _ _)]
  rfl

end

/-! ## Blocks -/

theorem customOf_declared {property : String} (h : isCustom property = false)
    (before after : List Chunk) (value : List Char) :
    customOf (before ++ .declared property value :: after) = customOf (before ++ after) := by
  have hnone : (Chunk.declared property value).custom? = none := by simp [Chunk.custom?, h]
  rw [customOf, customOf, List.filterMap_append, List.filterMap_append,
    List.filterMap_cons_none hnone]

theorem ruleOf_declared {property : String} (h : isCustom property = false)
    {before after : List Chunk} {value value' : List Char}
    (hwritten : writeValue (customOf (before ++ after)) value =
      writeValue (customOf (before ++ after)) value') :
    ruleOf (before ++ .declared property value :: after) =
      ruleOf (before ++ .declared property value' :: after) := by
  have hdeclaration : ∀ value, (Chunk.declared property value).declaration? =
      some (lowerString property, value) := fun value => by simp [Chunk.declaration?, h]
  simp only [ruleOf, writtenDeclarations, customOf_declared h, List.filterMap_append,
    List.filterMap_cons_some (hdeclaration _), List.map_append, List.map_cons, hwritten]

theorem written_numbers (r g b : Numeral) (ns : List Numeral) :
    (Channels.mk ((r :: g :: b :: ns).map numberText) []).written =
      ⟨[[','].intercalate [numberText r, numberText g, numberText b]], ns.head?.map numberText,
        []⟩ := by
  rw [← List.head?_map]
  rfl

theorem entriesOf_numbers (property : String) (r g b : Numeral) (ns : List Numeral) :
    entriesOf property (Channels.mk ((r :: g :: b :: ns).map numberText) []).written =
      (property, String.ofList ([','].intercalate [numberText r, numberText g, numberText b])) ::
        (ns.head?.map fun alpha =>
          (opacityProperty property, String.ofList (numberText alpha))).toList := by
  have hprinted : Printed (numberText r) := printed_writeSingle _
  have hne : [','].intercalate [numberText r, numberText g, numberText b] ≠ [] := by
    simp [List.intercalate, hprinted.ne_nil]
  rw [written_numbers, entriesOf, Written.text_singleton, if_neg hne, Option.map_map]
  rfl

/-- A color whose numbers are partly behind references is stored as if all of them were literals:
the entry of its property holds the first three, and that of its opacity the fourth. -/
theorem blockRule_spelled {block block' value value' : List Char} {property : String}
    {before after : List Chunk} {arguments arguments' : List Component} {r g b : Numeral}
    {ns : List Numeral}
    (hblock : declaredIn block = before ++ .declared property value :: after)
    (hblock' : declaredIn block' = before ++ .declared property value' :: after)
    (hordinary : isCustom property = false)
    (hvalue : IsColor value arguments) (hvalue' : IsColor value' arguments')
    (hspells : Spells (customOf (before ++ after)) [] arguments (r :: g :: b :: ns))
    (hbare : ∀ c ∈ arguments', c.reference? = none)
    (hliteral : literals arguments' = (r :: g :: b :: ns).map .number) :
    let custom := customOf (before ++ after)
    let color := [','].intercalate [numberText r, numberText g, numberText b]
    blockRule block = blockRule block' ∧
      entriesOf (lowerString property) (writeValue custom value) =
        entriesOf (lowerString property) (writeValue custom value') ∧
      entriesOf (lowerString property) (writeValue custom value) =
        (lowerString property, String.ofList color) ::
          (ns.head?.map fun alpha =>
            (opacityProperty (lowerString property), String.ofList (numberText alpha))).toList := by
  intro custom color
  have hspelled : writeValue custom value =
      (Channels.mk ((r :: g :: b :: ns).map numberText) []).written :=
    writeValue_spelled hvalue hspells
  have hwritten : writeValue custom value' =
      (Channels.mk ((r :: g :: b :: ns).map numberText) []).written := by
    obtain ⟨reference, hreference⟩ := writeValue_color hvalue' custom
    rw [hreference, writeColor_literals reference hbare, hliteral, written_numbers]
    simp only [List.map_cons, List.head?_map, Option.map_map]
    rfl
  have hsame : writeValue custom value = writeValue custom value' := hspelled.trans hwritten.symm
  refine ⟨?_, congrArg _ hsame, ?_⟩
  · rw [blockRule_eq, blockRule_eq, hblock, hblock', ruleOf_declared hordinary hsame]
  · rw [hspelled, entriesOf_numbers]

/-- A color whose numbers stand in two properties: `--y` holds the first three, two of them through
`--x`. -/
def spreadBlock : List Char := "--x:1, 2;--y:var(--x)/300;color:rgb(var(--y) .5)".toList

def literalBlock : List Char := "--x:1, 2;--y:var(--x)/300;color:rgb(1 2 300 .5)".toList

theorem blockRule_spelled_spread :
    blockRule spreadBlock = blockRule literalBlock ∧
      (blockRule spreadBlock).declarations.get? "color" = some "1,2,300" ∧
      (blockRule spreadBlock).declarations.get? "text-opacity" = some "0.5" := by
  let before : List Chunk :=
    [.declared "--x" "1, 2".toList, .declared "--y" "var(--x)/300".toList]
  let custom := customOf (before ++ [])
  let var (name : List Char) : Component := .block ⟨.function "var", ['v', 'a', 'r', '(']⟩
    [.leaf ⟨.ident (String.ofList name), name⟩] (some ⟨.closing .round, [')']⟩)
  let space : Component := .leaf ⟨.whitespace, [' ']⟩
  let number (n : Numeral) : Component := .leaf ⟨.number n, n.source⟩
  let one : Numeral := ⟨none, ['1'], none, none⟩
  let two : Numeral := ⟨none, ['2'], none, none⟩
  let large : Numeral := ⟨none, ['3', '0', '0'], none, none⟩
  let half : Numeral := ⟨none, [], some ['5'], none⟩
  have hcolor : IsColor "rgb(var(--y) .5)".toList [var ['-', '-', 'y'], space, number half] :=
    ⟨"rgb", ['r', 'g', 'b', '('], some ⟨.closing .round, [')']⟩, by decide, by decide +kernel⟩
  have hcolor' : IsColor "rgb(1 2 300 .5)".toList
      [number one, space, number two, space, number large, space, number half] :=
    ⟨"rgb", ['r', 'g', 'b', '('], some ⟨.closing .round, [')']⟩, by decide, by decide +kernel⟩
  have hx : Spells custom ["--x", "--y"] (components "1, 2".toList) [one, two] := by
    have hcomponents : components "1, 2".toList =
        [number one, .leaf ⟨.comma, [',']⟩, space, number two] := by decide +kernel
    rw [hcomponents]
    exact .number (.mark rfl (.mark rfl (.number .nil)))
  have hy : Spells custom ["--y"] (components "var(--x)/300".toList) [one, two, large] := by
    have hcomponents : components "var(--x)/300".toList =
        [var ['-', '-', 'x'], .leaf ⟨.delimiter '/', ['/']⟩, number large] := by decide +kernel
    rw [hcomponents]
    exact .reference (by decide) (by decide +kernel) (by decide) (by decide +kernel) hx
      (.mark rfl (.number .nil))
  have hspells : Spells custom [] [var ['-', '-', 'y'], space, number half]
      [one, two, large, half] :=
    .reference (by decide) (by decide +kernel) (by decide) (by decide +kernel) hy
      (.mark rfl (.number .nil))
  have hblock : declaredIn spreadBlock =
      before ++ .declared "color" "rgb(var(--y) .5)".toList :: [] := by decide +kernel
  have hblock' : declaredIn literalBlock =
      before ++ .declared "color" "rgb(1 2 300 .5)".toList :: [] := by decide +kernel
  obtain ⟨hsame, -⟩ := blockRule_spelled hblock hblock' (by decide) hcolor hcolor' hspells
    (by decide +kernel) (by decide +kernel)
  exact ⟨hsame, by decide +kernel, by decide +kernel⟩

end ClassStyle.Css
