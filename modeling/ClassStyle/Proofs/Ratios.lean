import ClassStyle.Proofs.ArithmeticTokens
import ClassStyle.Proofs.Colors
import ClassStyle.Proofs.Recovery
import ClassStyle.Proofs.Revisions

/-!
# Ratios

A ratio is arithmetic that a stylesheet writes anew before it is evaluated. Without parentheses it
keeps its value, but if a plus sign behind a number has a digit right behind it, there is no ratio
(`synthesis_ratio`). What stands in parentheses is lost.
-/

namespace ClassStyle.Css

open Text Arithmetic Component

/-! ## Arithmetic as components -/

theorem nesting_leaves {ls : List Lexeme} (h : ∀ l ∈ ls, l.token.opens? = none) :
    nesting ls = ([], (ls.map Component.leaf).reverse) := by
  have hfold : ∀ done, ls.foldl nestStep ([], done) =
      ([], (ls.map Component.leaf).reverse ++ done) := by
    induction ls with
    | nil => exact fun _ => rfl
    | cons l ls ih =>
      obtain ⟨hl, h⟩ := List.forall_mem_cons.mp h
      intro done
      have hstep : nestStep ([], done) l = ([], .leaf l :: done) := by simp [nestStep, hl]
      rw [List.foldl_cons, hstep, ih h]
      simp
  rw [nesting, hfold, List.append_nil]

theorem components_leaves {text : List Char} {ls : List Lexeme} (hls : lexemes text = ls)
    (h : ∀ l ∈ ls, l.token.opens? = none) : components text = ls.map Component.leaf := by
  rw [components_eq, hls, nesting_leaves h, closeAll, List.reverse_reverse]

/-- Arithmetic without parentheses consists of tokens that stand for themselves, and nothing is
open at its end. -/
theorem exists_leaves {text : List Char} (h : IsFlat text) :
    ∃ ls : List Lexeme, components text = ls.map Component.leaf ∧ Closed text ∧
      (∀ l ∈ ls, IsPlainToken l.token) ∧
      ∀ behind, Rewritten behind (gluesPlus behind text) (symbols text)
        (ls.flatMap fun l => tokenSymbols l.token) := by
  obtain ⟨ls, hlexemes, hplain, hrewritten⟩ := exists_lexemes h
  have hstop : Replaces ';' ';' text := .of_stop (by decide) (by decide) rfl
  have hsplit := lexemes_append (v := []) hstop ⟨ls, semicolon, hlexemes, rfl⟩
  rw [hlexemes, lexemes_semicolon] at hsplit
  have hsame : lexemes text = ls := (List.append_cancel_right hsplit).symm
  have hopens : ∀ l ∈ ls, l.token.opens? = none := fun l hl => (hplain l hl).opens_nothing
  have hcomponents := components_leaves hsame hopens
  refine ⟨ls, hcomponents, ?_, hplain, hrewritten⟩
  have hopens' : ∀ l ∈ ls ++ [semicolon], l.token.opens? = none :=
    List.forall_mem_append.mpr ⟨hopens, by simp [semicolon, Token.opens?]⟩
  rw [Closed, components_leaves hlexemes hopens', hcomponents, components_semicolon,
    List.map_append]
  rfl

theorem not_isLeaf_of_plain {ls : List Lexeme} (h : ∀ l ∈ ls, IsPlainToken l.token)
    (token : Token) (htoken : token ∈ [.delimiter '!', .semicolon, .closing .curly]) :
    ∀ c ∈ ls.map Component.leaf, c.isLeaf token = false := by
  intro c hc
  obtain ⟨l, hl, rfl⟩ := List.mem_map.mp hc
  have hne : l.token ≠ token := fun heq => (h l hl).ends_nothing (heq ▸ htoken)
  simpa [isLeaf] using hne

/-! ## Arithmetic written anew -/

theorem opacity_writeToken (token : Token) : (writeToken token).opacity = none := by
  unfold writeToken
  split <;> try rfl
  split <;> rfl

theorem writeComponents_leaves (reference : List Component → Written) (ls : List Lexeme) :
    (writeComponents reference (ls.map Component.leaf)).pieces =
        (ls.flatMap fun l => (writeToken l.token).pieces) ∧
      (writeComponents reference (ls.map Component.leaf)).opacity = none := by
  induction ls with
  | nil => exact ⟨rfl, rfl⟩
  | cons l ls ih =>
    obtain ⟨hpieces, hopacity⟩ := ih
    rw [List.map_cons, writeComponents, writeComponent]
    constructor
    · show (writeToken l.token).pieces ++ _ = _
      rw [hpieces, List.flatMap_cons]
    · show (_ <|> (writeToken l.token).opacity) = none
      rw [hopacity, opacity_writeToken]
      rfl

theorem symbols_intercalate (pieces : List (List Char)) :
    symbols ([' '].intercalate pieces) = pieces.flatMap symbols := by
  induction pieces with
  | nil => rfl
  | cons piece pieces ih =>
    cases pieces with
    | nil => simp
    | cons next pieces =>
      have hspace : ∀ c ∈ (' ' :: [' '].intercalate (next :: pieces)).head?,
          isNumeralChar c = false := forall_head?_cons (by rfl) _
      rw [List.intercalate_cons_cons, List.append_assoc, List.singleton_append,
        symbols_append hspace, symbols_space rfl, ih]
      rfl

theorem isArithmetic_intercalate {pieces : List (List Char)}
    (h : ∀ piece ∈ pieces, ∀ c ∈ piece, isArithmetic c = true) :
    ∀ c ∈ [' '].intercalate pieces, isArithmetic c = true := by
  induction pieces with
  | nil => simp
  | cons piece pieces ih =>
    obtain ⟨hpiece, h⟩ := List.forall_mem_cons.mp h
    cases pieces with
    | nil => simpa using hpiece
    | cons next pieces =>
      rw [List.intercalate_cons_cons]
      exact List.forall_mem_append.mpr
        ⟨List.forall_mem_append.mpr ⟨hpiece, forall_mem_of_all rfl⟩, ih h⟩

theorem symbols_trim {text : List Char} (h : ∀ c ∈ text, isArithmetic c = true) :
    symbols (trim text) = symbols text := by
  obtain ⟨before, after, heq, hbefore, hafter⟩ := exists_trim text
  have hspace : ∀ c ∈ text, isBlank c = true → Css.isSpace c = true :=
    fun c hc => (isArithmetic_spec (h c hc)).2.2
  rw [heq] at hspace
  have hfront : ∀ c ∈ before, Css.isSpace c = true :=
    fun c hc => hspace c (by simp [hc]) (hbefore c hc)
  have hback : ∀ c ∈ after, Css.isSpace c = true :=
    fun c hc => hspace c (by simp [hc]) (hafter c hc)
  have hnumeral : ∀ c ∈ after.head?, isNumeralChar c = false := by
    intro c hc
    cases hnumeral : isNumeralChar c with
    | false => rfl
    | true =>
      have hcontra := not_isSpace_of_isNumeralChar hnumeral
      rw [isSpace_eq, hback c (List.mem_of_mem_head? hc)] at hcontra
      cases hcontra
  have hnone : symbols after = [] := by
    have hspaces := symbols_spaces hback []
    rwa [List.append_nil] at hspaces
  conv_rhs => rw [heq]
  rw [symbols_spaces hfront, symbols_append hnumeral, hnone, List.append_nil]

theorem writeValue_flat {value : List Char} (h : IsFlat value) (custom : SortedMap String) :
    (writeValue custom value).opacity = none ∧
      Rewritten false (gluesPlus false value) (symbols value)
        (symbols (trim (writeValue custom value).text)) := by
  obtain ⟨ls, hcomponents, -, hplain, hrewritten⟩ := exists_leaves h
  obtain ⟨depth, hdepth⟩ := exists_depthBound custom value
  have hbang : beforeBang (components value) = ls.map Component.leaf := by
    rw [hcomponents]
    exact beforeBang_eq_self (not_isLeaf_of_plain hplain (.delimiter '!') (by simp))
  rw [writeValue, hdepth, writeText, hbang]
  obtain ⟨hpieces, hopacity⟩ := writeComponents_leaves
    (writeReference custom (writeText custom depth) []) ls
  refine ⟨hopacity, ?_⟩
  have harithmetic : ∀ piece ∈ ls.flatMap fun l => (writeToken l.token).pieces,
      ∀ c ∈ piece, isArithmetic c = true := by
    intro piece hpiece
    obtain ⟨l, hl, hpiece⟩ := List.mem_flatMap.mp hpiece
    exact (hplain l hl).arithmetic piece hpiece
  rw [Written.text, hpieces, symbols_trim (isArithmetic_intercalate harithmetic),
    symbols_intercalate, List.flatMap_assoc]
  exact hrewritten false

/-! ## Ratios of a class -/

theorem isFlat_of_evaluate {text : List Char} {v : Float}
    (harithmetic : ∀ c ∈ text, isArithmetic c = true)
    (hsmall : ∀ t, .numeral t ∈ symbols text → decimalValue t < 2 ^ 24)
    (hvalue : evaluate text = some v) : IsFlat text := by
  refine ⟨harithmetic, ?_, hsmall⟩
  rintro ⟨before, after, rfl⟩
  have hclash : HasClash (symbols (before ++ ['/', '*'] ++ after)) := by
    refine ⟨symbols before, symbols after, ?_⟩
    have hslash : ∀ c ∈ (['/', '*'] ++ after).head?, isNumeralChar c = false :=
      forall_head?_cons (by rfl) _
    rw [List.append_assoc before, symbols_append hslash, List.append_assoc]
    rfl
  rw [evaluate, read?_of_hasClash hclash] at hvalue
  cases hvalue

theorem readRatio_written {text : List Char} {v : Float} (hflat : IsFlat text)
    (hvalue : evaluate text = some v) (custom : SortedMap String) :
    readRatio (String.ofList (trim (writeValue custom text).text)) =
      if gluesPlus false text = false ∧ v > 0 then
        some (.ofList .aspectRatioConstraint [("AspectRatio", .number v)])
      else none := by
  have hrewritten := (writeValue_flat hflat custom).2
  have hevaluate := evaluate_rewritten hrewritten hvalue
  unfold readRatio
  rw [String.toList_ofList, hevaluate]
  cases gluesPlus false text <;> simp

/-! ## The stylesheet -/

theorem lexemes_colon (s : List Char) : lexemes (':' :: s) = ⟨.colon, [':']⟩ :: lexemes s := by
  rw [lexemes_cons]; rfl

/-- What stands before the colon of a ratio. -/
def ratioFront : List Char := " aspect-ratio".toList

theorem components_ratioFront : components ratioFront =
    [.leaf ⟨.whitespace, [' ']⟩, .leaf ⟨.ident "aspect-ratio", ratioFront.tail⟩] := rfl

theorem closed_ratioFront : Closed ratioFront := by
  unfold Closed
  rfl

/-- The text between the curly brackets around the declaration of a ratio. -/
def ratioBlock (value : List Char) : List Char := ratioFront ++ ':' :: (value ++ [';', ' '])

theorem components_declared {value : List Char} (h : Closed value) (t : List Char) :
    components (ratioFront ++ ':' :: (value ++ ';' :: ' ' :: t)) =
      components ratioFront ++ .leaf ⟨.colon, [':']⟩ ::
        (components value ++ .leaf semicolon :: components (' ' :: t)) := by
  rw [components_append closed_ratioFront (by decide) (by decide),
    components_cons (lexemes_colon _) rfl, components_append h (by decide) (by decide),
    components_semicolon]

theorem components_blank : components [' '] = [.leaf ⟨.whitespace, [' ']⟩] := rfl

section

variable {value : List Char}

theorem closed_ratioBlock (h : Closed value) : Closed (ratioBlock value) := by
  have hbehind : components [' ', ';'] = components [' '] ++ components [';'] := rfl
  have hsource : ratioBlock value ++ [';'] =
      ratioFront ++ ':' :: (value ++ ';' :: ' ' :: [';']) := by simp [ratioBlock]
  rw [Closed, hsource, components_declared h, ratioBlock, components_declared h, hbehind]
  simp

theorem not_hasClosingCurly_ratioBlock (h : Closed value)
    (hcurly : ∀ c ∈ components value, c.isLeaf (.closing .curly) = false) :
    hasClosingCurly (ratioBlock value) = false := by
  have hvalue : (components value).any (isLeaf (.closing .curly)) = false := by
    simpa using hcurly
  rw [hasClosingCurly, ratioBlock, components_declared h, List.any_append, List.any_cons,
    List.any_append, List.any_cons, hvalue, components_ratioFront, components_blank]
  rfl

theorem chunks_ratioBlock (h : Closed value)
    (hsemicolon : ∀ c ∈ components value, c.isLeaf .semicolon = false) :
    chunks (components (ratioBlock value)) = [.declared "aspect-ratio" value] := by
  have hfront : ∀ rest, chunks (components ratioFront ++ .leaf ⟨.colon, [':']⟩ :: rest) =
      chunksFrom (.inValue "aspect-ratio" []) rest := by
    intro rest
    rw [components_ratioFront]
    rfl
  have hbehind : chunksFrom .between (components [' ']) = [] := by
    rw [components_blank]
    rfl
  obtain ⟨-, hread⟩ :=
    chunksFrom_inValue (components [' ']) hsemicolon "aspect-ratio" []
  rw [ratioBlock, components_declared h, hfront, hread, hbehind, List.reverse_nil,
    List.nil_append, source_components]

/-- The rule that gives the class `a` a ratio. -/
def ratioStatement (value : List Char) : Statement := ⟨['.', 'a', ' '], some (ratioBlock value)⟩

theorem components_prelude : components ['.', 'a', ' '] =
    [.leaf ⟨.delimiter '.', ['.']⟩, .leaf ⟨.ident "a", ['a']⟩, .leaf ⟨.whitespace, [' ']⟩] := rfl

theorem complete_ratioStatement (h : Closed value)
    (hcurly : ∀ c ∈ components value, c.isLeaf (.closing .curly) = false) :
    (ratioStatement value).Complete := by
  have hprelude : Closed ['.', 'a', ' '] := by
    unfold Closed
    rfl
  have hblock : ∀ c ∈ components ['.', 'a', ' '], c.curlyBody? = none := by
    simp [components_prelude, curlyBody?]
  have hsemicolon : ∀ c ∈ components ['.', 'a', ' '], c.isLeaf .semicolon = false := by
    simp [components_prelude, isLeaf]
  refine ⟨hprelude, hblock, fun _ => hsemicolon, fun _ => rfl, ?_⟩
  rintro block ⟨⟩
  exact ⟨closed_ratioBlock h, not_hasClosingCurly_ratioBlock h hcurly⟩

end

/-- The stylesheet that gives the class `a` a ratio. -/
def ratioSheet (ratio : String) : String := ".a \x7b aspect-ratio: " ++ ratio ++ "; \x7d"

theorem get?_ratioSheet {ratio : String} (h : IsFlat (' ' :: ratio.toList)) :
    (Sheet.ofCss (ratioSheet ratio)).value.get? "a" =
      some (blockRule (ratioBlock (' ' :: ratio.toList))) := by
  obtain ⟨ls, hleaves, hclosed, hplain, -⟩ := exists_leaves h
  have hcurly := not_isLeaf_of_plain hplain (.closing .curly) (by simp)
  rw [← hleaves] at hcurly
  have hcomplete := complete_ratioStatement hclosed hcurly
  have hsource : (ratioSheet ratio).toList =
      sourceOf [ratioStatement (' ' :: ratio.toList)] ++ [] := by
    have hfront : ".a \x7b aspect-ratio: ".toList =
        ['.', 'a', ' '] ++ '{' :: (ratioFront ++ [':', ' ']) := rfl
    have hback : "; \x7d".toList = [';', ' ', '}'] := rfl
    unfold ratioSheet
    simp [String.toList_append, hfront, hback, sourceOf, Statement.source, ratioStatement,
      ratioBlock]
  have hat : (ratioStatement (' ' :: ratio.toList)).isAtRule = false := rfl
  have hclass : "a" ∈ (ratioStatement (' ' :: ratio.toList)).classes := by
    show "a" ∈ selectedClasses (components ['.', 'a', ' '])
    rw [components_prelude]
    exact List.mem_cons_self
  have hread : (Sheet.ofCss (ratioSheet ratio)).value =
      (ratioStatement (' ' :: ratio.toList)).apply .empty := by
    show (readSheet _).value = _
    rw [value_readSheet, hsource, addRules_sourceOf (List.forall_mem_singleton.mpr hcomplete)]
    rfl
  rw [hread]
  exact ((Statement.get?_apply _ .empty "a").2 _ hat rfl).1 (Statement.mem_classes_iff.mp hclass)

/-! ## The ratio of an element -/

theorem nodes_standard : Style.standard.nodes = [] := rfl

theorem entries_of_written (property : String) {written : Written} (h : written.opacity = none) :
    (ArrivalMap.ofList (entriesOf property written)).entries =
      if written.text = [] then [] else [(property, String.ofList written.text)] := by
  unfold entriesOf
  rw [h]
  split <;> rfl

theorem setAll_nodes (d : Draft) (nodes : List Node) :
    d.setAll (nodes.map .node) = { d with nodes := d.nodes ++ nodes } := by
  induction nodes generalizing d with
  | nil => simp [Draft.setAll]
  | cons node nodes ih =>
    show (d.set (.node node)).setAll (nodes.map .node) = _
    rw [ih]
    simp [Draft.set]

theorem setting?_aspectRatio (className : String) (fontSize : Float) (value : String)
    (isText : Bool) :
    (Application.mk className fontSize .aspectRatio value).setting? isText =
      (readRatio value).map .node :=
  setting_orElse _ _

theorem nodes_of_ratio {sheet : Sheet} {className : String} {written : Written}
    (h : sheet.declarations className = .ofList (entriesOf "aspect-ratio" written))
    (hopacity : written.opacity = none) (isText : Bool) :
    (sheet.synthesis ⟨[className], isText⟩).nodes =
      (readRatio (String.ofList (trim written.text))).toList := by
  have hproperty : Property.ofName? "aspect-ratio" = some .aspectRatio := by decide
  have hsettings : ((sheet.applications [className]).filterMap fun a => a.setting? isText) =
      (readRatio (String.ofList (trim written.text))).toList.map .node := by
    have hentries := entries_of_written "aspect-ratio" hopacity
    rw [← h] at hentries
    rw [applications_eq, List.flatMap_singleton, Application.ofRule, hentries]
    by_cases hempty : written.text = []
    · have hnone : readRatio (String.ofList (trim [])) = none := rfl
      simp [hempty, hnone]
    · simp only [hempty, if_false, List.filterMap_cons, List.filterMap_nil, hproperty,
        Option.map_some, String.toList_ofList, setting?_aspectRatio]
      cases readRatio (String.ofList (trim written.text)) <;> rfl
  have hdraft : sheet.draft ⟨[className], isText⟩ = { Draft.empty with
      nodes := Draft.empty.nodes ++ (readRatio (String.ofList (trim written.text))).toList } := by
    unfold Sheet.draft
    rw [hsettings, setAll_nodes]
  unfold Sheet.synthesis Draft.finish
  rw [hdraft]
  simp [Draft.empty, nodes_standard]

/-- The ratio that an element gets is the value of the arithmetic in its stylesheet, if that is
above zero. There is none if a plus sign behind a number has a digit right behind it. -/
theorem synthesis_ratio {ratio : String} {v : Float}
    (harithmetic : ∀ c ∈ ratio.toList, isArithmetic c = true)
    (hsmall : ∀ t, .numeral t ∈ symbols ratio.toList → decimalValue t < 2 ^ 24)
    (hvalue : evaluate ratio.toList = some v) (isText : Bool) :
    ((Sheet.ofCss (ratioSheet ratio)).value.synthesis ⟨["a"], isText⟩).nodes =
      if gluesPlus false ratio.toList = false ∧ v > 0 then
        [.ofList .aspectRatioConstraint [("AspectRatio", .number v)]]
      else [] := by
  have hsymbols : symbols (' ' :: ratio.toList) = symbols ratio.toList := symbols_space rfl _
  have hvalue' : evaluate (' ' :: ratio.toList) = some v := by rwa [evaluate, read?, hsymbols]
  have hflat : IsFlat (' ' :: ratio.toList) := by
    refine isFlat_of_evaluate (List.forall_mem_cons.mpr ⟨rfl, harithmetic⟩) ?_ hvalue'
    rwa [hsymbols]
  have hglues : gluesPlus false (' ' :: ratio.toList) = gluesPlus false ratio.toList := rfl
  have hdeclared : (chunks (components (ratioBlock (' ' :: ratio.toList)))).filterMap
      Chunk.declaration? = [("aspect-ratio", ' ' :: ratio.toList)] := by
    obtain ⟨ls, hleaves, hclosed, hplain, -⟩ := exists_leaves hflat
    have hsemicolon := not_isLeaf_of_plain hplain .semicolon (by simp)
    rw [← hleaves] at hsemicolon
    have hcustom : isCustom "aspect-ratio" = false := by decide
    have hlower : lowerString "aspect-ratio" = "aspect-ratio" := by decide
    simp [chunks_ratioBlock hclosed hsemicolon, Chunk.declaration?, hcustom, hlower]
  have hdeclarations := declarations_of_get? (get?_ratioSheet hflat)
  rw [blockRule_declarations hdeclared] at hdeclarations
  have hnodes := nodes_of_ratio hdeclarations (writeValue_flat hflat _).1 isText
  rw [hnodes, readRatio_written hflat hvalue', hglues]
  split <;> rfl

/-- The dashes behind `6` make the unit `--4`, and the ratio is 14 all the same. -/
theorem synthesis_ratio_dashes :
    (∀ c ∈ "6--4*2".toList, isArithmetic c = true) ∧
    (∀ t, .numeral t ∈ symbols "6--4*2".toList → decimalValue t < 2 ^ 24) ∧
    evaluate "6--4*2".toList = some 14 ∧ gluesPlus false "6--4*2".toList = false ∧
    ((Sheet.ofCss (ratioSheet "6--4*2")).value.synthesis ⟨["a"], false⟩).nodes =
      [.ofList .aspectRatioConstraint [("AspectRatio", .number 14)]] := by
  have harithmetic : ∀ c ∈ "6--4*2".toList, isArithmetic c = true :=
    forall_mem_of_all (by decide +kernel)
  have hsmall : ∀ t, .numeral t ∈ symbols "6--4*2".toList → decimalValue t < 2 ^ 24 := by
    have hsymbols : symbols "6--4*2".toList =
        [.numeral ['6'], .minus, .minus, .numeral ['4'], .times, .numeral ['2']] := by
      decide +kernel
    intro t ht
    rw [hsymbols] at ht
    simp only [List.mem_cons, Symbol.numeral.injEq, List.not_mem_nil, or_false, reduceCtorEq,
      false_or] at ht
    rcases ht with rfl | rfl | rfl <;> decide
  have hvalue : evaluate "6--4*2".toList = some 14 := by decide +kernel
  have hglues : gluesPlus false "6--4*2".toList = false := by decide +kernel
  have hnodes := synthesis_ratio harithmetic hsmall hvalue false
  rw [if_pos ⟨hglues, by decide +kernel⟩] at hnodes
  exact ⟨harithmetic, hsmall, hvalue, hglues, hnodes⟩

/-- What stands in parentheses is lost, and with it the ratio. -/
theorem synthesis_ratio_parentheses :
    evaluate "(1 + 2) * 2".toList = some 6 ∧ (6 : Float) > 0 ∧
    ((Sheet.ofCss (ratioSheet "(1 + 2) * 2")).value.synthesis ⟨["a"], false⟩).nodes = [] := by
  decide +kernel

end ClassStyle.Css
