import ClassStyle.Css.Stylesheet
import ClassStyle.Proofs.Nesting

/-!
# Statement after statement

A statement is an at-rule or a rule that is written to its end. A stylesheet made of statements is
read one statement after another (`value_readSheet_statements`): an at-rule says nothing, and a
rule takes the place of what its classes had before.
-/

namespace ClassStyle.Css

open Component

/-! ## Selectors -/

/-- A list with commas between its items. Commas inside blocks do not count. -/
inductive CommaSeparated : List Component → List (List Component) → Prop
  | single {item : List Component} : (∀ c ∈ item, c.isLeaf .comma = false) →
      CommaSeparated item [item]
  | more {item rest : List Component} {comma : Component} {items : List (List Component)} :
      (∀ c ∈ item, c.isLeaf .comma = false) → comma.isLeaf .comma = true →
      CommaSeparated rest items → CommaSeparated (item ++ comma :: rest) (item :: items)

theorem commaSeparated_listItems (list : List Component) :
    CommaSeparated list (listItems list) := by
  induction list with
  | nil => exact .single (by simp)
  | cons c rest ih =>
    rw [listItems]
    split
    · next hc => exact .more (List.forall_mem_nil _) hc ih
    · next hc =>
      have hc : c.isLeaf .comma = false := by simpa using hc
      revert ih
      generalize listItems rest = items
      intro ih
      cases ih with
      | single h => exact .single (List.forall_mem_cons.mpr ⟨hc, h⟩)
      | more h hcomma hrest => exact .more (List.forall_mem_cons.mpr ⟨hc, h⟩) hcomma hrest

/-- An item is one class: a dot and a name, with nothing but comments between the two and nothing
but whitespace and comments around them. -/
def IsClass (name : String) (item : List Component) : Prop :=
  ∃ before dot comments ident after, item = before ++ dot :: (comments ++ ident :: after) ∧
    (∀ c ∈ before, c.isSeparator = true) ∧ dot.isLeaf (.delimiter '.') = true ∧
    (∀ c ∈ comments, c.isLeaf .comment = true) ∧ ident.ident? = some name ∧
    ∀ c ∈ after, c.isSeparator = true

theorem isSeparator_of_isLeaf {c : Component} {t : Token} (h : c.isLeaf t = true) :
    c.isSeparator = t.isSeparator := by
  cases c with
  | leaf l =>
    have : l.token = t := by simpa [isLeaf] using h
    rw [isSeparator, token, this]
  | block => simp [isLeaf] at h

theorem eq_ident_of_ident? {c : Component} {name : String} (h : c.ident? = some name) :
    ∃ source, c = .leaf ⟨.ident name, source⟩ := by
  unfold ident? at h
  split at h
  · next source => exact ⟨source, by rw [Option.some.inj h]⟩
  · simp at h

theorem dropWhile_run {p : Component → Bool} {run rest : List Component} {c : Component}
    (hrun : ∀ d ∈ run, p d = true) (hc : p c = false) :
    (run ++ c :: rest).dropWhile p = c :: rest := by
  rw [List.dropWhile_append_of_pos hrun, List.dropWhile_cons_of_neg (by simp [hc])]

theorem classSelector?_eq_some_iff {item : List Component} {name : String} :
    classSelector? item = some name ↔ IsClass name item := by
  constructor
  · intro h
    unfold classSelector? at h
    split at h
    · simp at h
    · next dot rest hdot =>
      split at h
      · next hdotLeaf =>
        split at h
        · simp at h
        · next ident after hident =>
          split at h
          · next hafter =>
            refine ⟨item.takeWhile isSeparator, dot, rest.takeWhile fun c => c.isLeaf .comment,
              ident, after, ?_, ?_, hdotLeaf, ?_, h, by simpa using hafter⟩
            · rw [← hident, List.takeWhile_append_dropWhile, ← hdot,
                List.takeWhile_append_dropWhile]
            · exact List.all_eq_true.mp List.all_takeWhile
            · exact List.all_eq_true.mp List.all_takeWhile
          · simp at h
      · simp at h
  · rintro ⟨before, dot, comments, ident, after, rfl, hbefore, hdot, hcomments, hident, hafter⟩
    obtain ⟨source, rfl⟩ := eq_ident_of_ident? hident
    have hdotSep : dot.isSeparator = false := isSeparator_of_isLeaf hdot
    rw [classSelector?, dropWhile_run hbefore hdotSep]
    simp only [hdot, if_true]
    rw [dropWhile_run hcomments (by simp [isLeaf])]
    simp only
    rw [if_pos (by simpa using hafter)]
    rfl

theorem selectedClasses_cons {c : Component} (hc : c.isSeparator = true)
    (selectors : List Component) :
    selectedClasses (c :: selectors) = selectedClasses selectors := by
  have hcomma : c.isLeaf .comma = false := by
    cases h : c.isLeaf .comma with
    | false => rfl
    | true => simp [isSeparator_of_isLeaf h, Token.isSeparator] at hc
  rw [selectedClasses, selectedClasses, listItems, if_neg (by simp [hcomma])]
  cases hitems : listItems selectors with
  | nil => have := commaSeparated_listItems selectors; rw [hitems] at this; cases this
  | cons first others => simp [List.filterMap_cons, classSelector?, hc]

/-! ## Statements -/

/-- A statement as it is written: what stands before its end, and the text in curly brackets, or
nothing if a semicolon ends it. -/
structure Statement where
  prelude : List Char
  block : Option (List Char)

namespace Statement

def source (s : Statement) : List Char :=
  s.prelude ++ match s.block with
    | none => [';']
    | some block => '{' :: (block ++ ['}'])

/-- The first word of the prelude is an at-keyword. -/
def isAtRule (s : Statement) : Bool :=
  ((significant (components s.prelude)).head?.bind Component.atKeyword?).isSome

/-- The statement is written to its end, and no earlier place could be its end. -/
structure Complete (s : Statement) : Prop where
  prelude_closed : Closed s.prelude
  no_block : ∀ c ∈ components s.prelude, c.curlyBody? = none
  no_semicolon : s.isAtRule = true → ∀ c ∈ components s.prelude, c.isLeaf .semicolon = false
  block_of_rule : s.isAtRule = false → s.block.isSome
  block_closed : ∀ block ∈ s.block, Closed block ∧ hasClosingCurly block = false

def classes (s : Statement) : List String := selectedClasses (components s.prelude)

end Statement

/-- The rule of the text between two curly brackets. -/
def blockRule (block : List Char) : Rule := (readBlock (components block)).1

namespace Statement

/-- A sheet behind a statement. A rule takes the place of the earlier rules of its classes. -/
def apply (sheet : Sheet) (s : Statement) : Sheet :=
  match s.isAtRule, s.block with
  | false, some block =>
    s.classes.foldl (fun sheet name => sheet.insert name (blockRule block)) sheet
  | _, _ => sheet

def ending (s : Statement) : Component :=
  match s.block with
  | none => .leaf semicolon
  | some block => .block openingCurly (components block) (some closingCurly)

theorem components_source {s : Statement} (h : s.Complete) (rest : List Char) :
    components (s.source ++ rest) =
      components s.prelude ++ s.ending :: components rest := by
  obtain ⟨hprelude, -, -, -, hblock⟩ := h
  obtain ⟨prelude, block⟩ := s
  cases block with
  | none =>
    simp only [source, ending, List.append_assoc, List.cons_append, List.nil_append]
    rw [components_append hprelude (by decide) (by decide), components_semicolon]
  | some block =>
    obtain ⟨hclosed, hcurly⟩ := hblock block rfl
    simp only [source, ending, List.append_assoc, List.cons_append, List.nil_append]
    rw [components_block hprelude hclosed hcurly]

end Statement

/-! ## Constructs of statements -/

theorem constructsFrom_inSelectors {read : List Component} {prelude rest body : List Component}
    {ending : Component} (h : ∀ c ∈ prelude, c.curlyBody? = none)
    (hend : ending.curlyBody? = some body) :
    constructsFrom (.inSelectors read) (prelude ++ ending :: rest) =
      .rule (read.reverse ++ prelude) body :: constructsFrom .between rest := by
  induction prelude generalizing read with
  | nil => simp [constructsFrom, hend]
  | cons c prelude ih =>
    obtain ⟨hc, hprelude⟩ := List.forall_mem_cons.mp h
    rw [List.cons_append, constructsFrom, hc]
    simp [ih hprelude]

theorem constructsFrom_inAtRule {middle rest : List Component} {ending : Component}
    (hblock : ∀ c ∈ middle, c.curlyBody? = none)
    (hsemicolon : ∀ c ∈ middle, c.isLeaf .semicolon = false)
    (hend : (ending.isLeaf .semicolon || ending.curlyBody?.isSome) = true) :
    constructsFrom .inAtRule (middle ++ ending :: rest) = constructsFrom .between rest := by
  induction middle with
  | nil => simp only [List.nil_append, constructsFrom, hend, if_true]
  | cons c middle ih =>
    obtain ⟨hc, hblock⟩ := List.forall_mem_cons.mp hblock
    obtain ⟨hc', hsemicolon⟩ := List.forall_mem_cons.mp hsemicolon
    rw [List.cons_append, constructsFrom, if_neg (by simp [hc, hc'])]
    exact ih hblock hsemicolon

theorem constructsFrom_atRule {prelude : List Component} {ending : Component}
    (rest : List Component)
    (hat : ((significant prelude).head?.bind Component.atKeyword?).isSome)
    (hblock : ∀ c ∈ prelude, c.curlyBody? = none)
    (hsemicolon : ∀ c ∈ prelude, c.isLeaf .semicolon = false)
    (hend : (ending.isLeaf .semicolon || ending.curlyBody?.isSome) = true) :
    ∃ name, constructsFrom .between (prelude ++ ending :: rest) =
      .atRule name :: constructsFrom .between rest := by
  induction prelude with
  | nil => simp [significant] at hat
  | cons c prelude ih =>
    obtain ⟨-, hblock⟩ := List.forall_mem_cons.mp hblock
    obtain ⟨-, hsemicolon⟩ := List.forall_mem_cons.mp hsemicolon
    cases hc : c.isSeparator with
    | true =>
      rw [significant_cons_of_isSeparator hc] at hat
      rw [List.cons_append, constructsFrom, if_pos hc]
      exact ih hat hblock hsemicolon
    | false =>
      rw [significant_cons_of_not_isSeparator hc] at hat
      obtain ⟨name, hname⟩ := Option.isSome_iff_exists.mp hat
      simp only [List.head?_cons, Option.bind_some] at hname
      refine ⟨name, ?_⟩
      rw [List.cons_append, constructsFrom, if_neg (by simp [hc]), hname]
      simp only
      rw [constructsFrom_inAtRule hblock hsemicolon hend]

theorem constructsFrom_rule {prelude body : List Component} {ending : Component}
    (rest : List Component)
    (hat : ((significant prelude).head?.bind Component.atKeyword?).isSome = false)
    (hblock : ∀ c ∈ prelude, c.curlyBody? = none) (hend : ending.curlyBody? = some body) :
    ∃ selectors, selectedClasses selectors = selectedClasses prelude ∧
      constructsFrom .between (prelude ++ ending :: rest) =
        .rule selectors body :: constructsFrom .between rest := by
  induction prelude with
  | nil =>
    have hsep : ending.isSeparator = false := by
      cases ending with
      | leaf l => simp [curlyBody?] at hend
      | block opener _ _ =>
        simp only [curlyBody?] at hend
        split at hend
        · next h => simp [isSeparator, token, h, Token.isSeparator]
        · simp at hend
    have hkeyword : ending.atKeyword? = none := by
      cases ending with
      | leaf l => simp [curlyBody?] at hend
      | block => rfl
    refine ⟨[], rfl, ?_⟩
    rw [List.nil_append, constructsFrom, if_neg (by simp [hsep]), hkeyword]
    simp only [hend]
  | cons c prelude ih =>
    obtain ⟨hc', hblock⟩ := List.forall_mem_cons.mp hblock
    cases hc : c.isSeparator with
    | true =>
      rw [significant_cons_of_isSeparator hc] at hat
      obtain ⟨selectors, hclasses, hcs⟩ := ih hat hblock
      refine ⟨selectors, by rw [hclasses, selectedClasses_cons hc], ?_⟩
      rw [List.cons_append, constructsFrom, if_pos hc, hcs]
    | false =>
      rw [significant_cons_of_not_isSeparator hc] at hat
      have hname : c.atKeyword? = none := by simpa using hat
      refine ⟨c :: prelude, rfl, ?_⟩
      rw [List.cons_append, constructsFrom, if_neg (by simp [hc]), hname]
      simp only [hc']
      rw [constructsFrom_inSelectors hblock hend]
      rfl

/-! ## Rules of statements -/

/-- The rules that components give to classes, in order. -/
def rulesFrom (cs : List Component) : List (String × Rule) :=
  (constructs cs).flatMap fun construct => construct.read.1

theorem value_readSheet (text : List Char) :
    (readSheet text).value = addRules .empty (rulesFrom (components text)) := by
  rw [readSheet, rulesFrom, List.flatMap_map]

theorem addRules_append (sheet : Sheet) (first second : List (String × Rule)) :
    addRules sheet (first ++ second) = addRules (addRules sheet first) second :=
  List.foldl_append

theorem addRules_read_rule (sheet : Sheet) (selectors body : List Component) :
    addRules sheet (Construct.rule selectors body).read.1 =
      (selectedClasses selectors).foldl
        (fun sheet name => sheet.insert name (readBlock body).1) sheet := by
  simp only [Construct.read]
  split
  · next h => rw [h]; rfl
  · rw [addRules, List.foldl_map]

theorem addRules_statement {s : Statement} (h : s.Complete) (sheet : Sheet)
    (rest : List Component) :
    addRules sheet (rulesFrom (components s.prelude ++ s.ending :: rest)) =
      addRules (s.apply sheet) (rulesFrom rest) := by
  cases hat : s.isAtRule with
  | true =>
    have hend : (s.ending.isLeaf .semicolon || s.ending.curlyBody?.isSome) = true := by
      unfold Statement.ending
      split <;> rfl
    obtain ⟨name, hcs⟩ := constructsFrom_atRule rest hat h.no_block
      (h.no_semicolon hat) hend
    rw [rulesFrom, constructs, hcs, Statement.apply, hat]
    rfl
  | false =>
    obtain ⟨block, hblock⟩ := Option.isSome_iff_exists.mp (h.block_of_rule hat)
    have hend : s.ending.curlyBody? = some (components block) := by
      rw [Statement.ending, hblock]; rfl
    obtain ⟨selectors, hclasses, hcs⟩ := constructsFrom_rule rest hat h.no_block hend
    rw [rulesFrom, constructs, hcs, List.flatMap_cons, addRules_append, addRules_read_rule,
      hclasses, Statement.apply, hat, hblock]
    rfl

/-- The text of statements, one behind the other. -/
def sourceOf (statements : List Statement) : List Char := statements.flatMap Statement.source

theorem addRules_sourceOf {statements : List Statement} (h : ∀ s ∈ statements, s.Complete)
    (sheet : Sheet) (rest : List Char) :
    addRules sheet (rulesFrom (components (sourceOf statements ++ rest))) =
      addRules (statements.foldl Statement.apply sheet) (rulesFrom (components rest)) := by
  induction statements generalizing sheet with
  | nil => rfl
  | cons s statements ih =>
    obtain ⟨hs, h⟩ := List.forall_mem_cons.mp h
    rw [sourceOf, List.flatMap_cons, List.append_assoc, Statement.components_source hs,
      addRules_statement hs, List.foldl_cons]
    exact ih h _

theorem get?_addRules (sheet : Sheet) (rules : List (String × Rule)) (name : String) :
    (addRules sheet rules).get? name =
      ((addRules .empty rules).get? name).or (sheet.get? name) := by
  induction rules generalizing sheet with
  | nil => rfl
  | cons rule rules ih =>
    simp only [addRules, List.foldl_cons] at ih ⊢
    rw [ih, ih (Sheet.empty.insert rule.1 rule.2), Sheet.get?_insert, Sheet.get?_insert,
      Option.or_assoc]
    split <;> rfl

/-! ## What statements say -/

theorem listItems_of_no_comma {item : List Component} (h : ∀ c ∈ item, c.isLeaf .comma = false) :
    listItems item = [item] := by
  induction item with
  | nil => rfl
  | cons c item ih =>
    obtain ⟨hc, h⟩ := List.forall_mem_cons.mp h
    rw [listItems, if_neg (by simp [hc]), ih h]

theorem listItems_append_comma {item rest : List Component} {comma : Component}
    (h : ∀ c ∈ item, c.isLeaf .comma = false) (hcomma : comma.isLeaf .comma = true) :
    listItems (item ++ comma :: rest) = item :: listItems rest := by
  induction item with
  | nil => rw [List.nil_append, listItems, if_pos hcomma]
  | cons c item ih =>
    obtain ⟨hc, h⟩ := List.forall_mem_cons.mp h
    rw [List.cons_append, listItems, if_neg (by simp [hc]), ih h]

theorem commaSeparated_iff {list : List Component} {items : List (List Component)} :
    CommaSeparated list items ↔ items = listItems list := by
  constructor
  · intro h
    induction h with
    | single h => rw [listItems_of_no_comma h]
    | more h hcomma _ ih => rw [listItems_append_comma h hcomma, ih]
  · rintro rfl
    exact commaSeparated_listItems list

namespace Statement

/-- An item of the prelude is the class. -/
def Names (s : Statement) (name : String) : Prop :=
  ∃ items, CommaSeparated (components s.prelude) items ∧ ∃ item ∈ items, IsClass name item

theorem mem_classes_iff {s : Statement} {name : String} : name ∈ s.classes ↔ s.Names name := by
  simp only [classes, selectedClasses, List.mem_filterMap, classSelector?_eq_some_iff, Names,
    commaSeparated_iff, exists_eq_left]

theorem get?_foldl_insert (sheet : Sheet) (names : List String) (rule : Rule) (name : String) :
    (names.foldl (fun sheet name => sheet.insert name rule) sheet).get? name =
      if name ∈ names then some rule else sheet.get? name := by
  induction names generalizing sheet with
  | nil => rfl
  | cons first names ih =>
    rw [List.foldl_cons, ih, Sheet.get?_insert]
    by_cases hn : name ∈ names
    · simp [hn]
    · by_cases hf : first = name
      · simp [hf]
      · simp [hn, hf, Ne.symm hf]

theorem get?_apply (s : Statement) (sheet : Sheet) (name : String) :
    (s.isAtRule = true → s.apply sheet = sheet) ∧
    ∀ block, s.isAtRule = false → s.block = some block →
      (s.Names name → (s.apply sheet).get? name = some (blockRule block)) ∧
      (¬s.Names name → (s.apply sheet).get? name = sheet.get? name) := by
  refine ⟨fun hat => by rw [apply, hat], fun block hat hblock => ?_⟩
  rw [← mem_classes_iff, apply, hat, hblock]
  simp only [get?_foldl_insert]
  exact ⟨fun h => if_pos h, fun h => if_neg h⟩

end Statement

/-- A stylesheet made of statements is the fold of its statements over the empty sheet: an at-rule
says nothing, and a rule gives its own block to the items of its prelude that are one class. What
is written behind statements lies over them, class by class. -/
theorem value_readSheet_statements (statements : List Statement)
    (h : ∀ s ∈ statements, s.Complete) :
    (readSheet (sourceOf statements)).value = statements.foldl Statement.apply .empty ∧
    (∀ s ∈ statements, ∀ sheet name,
      (s.isAtRule = true → s.apply sheet = sheet) ∧
      ∀ block, s.isAtRule = false → s.block = some block →
        (s.Names name → (s.apply sheet).get? name = some (blockRule block)) ∧
        (¬s.Names name → (s.apply sheet).get? name = sheet.get? name)) ∧
    ∀ rest name, (readSheet (sourceOf statements ++ rest)).value.get? name =
      ((readSheet rest).value.get? name).or
        ((readSheet (sourceOf statements)).value.get? name) := by
  have hfold : (readSheet (sourceOf statements)).value =
      statements.foldl Statement.apply .empty := by
    have hread := addRules_sourceOf h .empty []
    rw [List.append_nil] at hread
    rw [value_readSheet, hread]
    rfl
  refine ⟨hfold, fun s _ sheet name => s.get?_apply sheet name, fun rest name => ?_⟩
  rw [hfold, value_readSheet, addRules_sourceOf h, get?_addRules, ← value_readSheet]

/-- `@m {.x{}}` -/
def mediaStatement : Statement := ⟨['@', 'm', ' '], some ['.', 'x', '{', '}']⟩

/-- `.a, b(,),./**/c{top:1}` -/
def sharedStatement : Statement :=
  ⟨['.', 'a', ',', ' ', 'b', '(', ',', ')', ',', '.', '/', '*', '*', '/', 'c'],
    some ['t', 'o', 'p', ':', '1']⟩

theorem value_readSheet_media_shared :
    (∀ s ∈ [mediaStatement, sharedStatement], s.Complete) ∧
    (readSheet (sourceOf [mediaStatement, sharedStatement])).value =
      (Sheet.empty.insert "a" (blockRule ['t', 'o', 'p', ':', '1'])).insert "c"
        (blockRule ['t', 'o', 'p', ':', '1']) := by
  have hmedia : mediaStatement.Complete :=
    ⟨by decide +kernel, by decide +kernel, by decide +kernel, by decide,
      fun _ h => Option.some.inj h ▸ ⟨by decide +kernel, rfl⟩⟩
  have hshared : sharedStatement.Complete :=
    ⟨by decide +kernel, by decide +kernel, by decide +kernel, by decide,
      fun _ h => Option.some.inj h ▸ ⟨by decide +kernel, rfl⟩⟩
  have h : ∀ s ∈ [mediaStatement, sharedStatement], s.Complete := by simp [hmedia, hshared]
  have hclasses : sharedStatement.classes = ["a", "c"] := by decide +kernel
  have hfold := (value_readSheet_statements _ h).1
  refine ⟨h, ?_⟩
  rw [hfold]
  simp only [List.foldl_cons, List.foldl_nil, Statement.apply,
    show mediaStatement.isAtRule = true from rfl, show sharedStatement.isAtRule = false from rfl,
    hclasses]
  rfl

end ClassStyle.Css
