import ClassStyle.Proofs.Blanks
import ClassStyle.Proofs.Reach

/-!
# References in place

Between two other texts, a reference to a custom property is written as the text of the property
would be in its place, and a reference to a property that is not there as its fallback would be
(`writeValue_reference`). Both texts are trimmed before they are read. So a text whose last blank
is escaped is written otherwise by itself than behind a reference (`writeValue_escaped_blank`).
-/

namespace ClassStyle.Css

open Component Text

-- Sums start with the zero of the core library, also where an algebra library is in scope.
attribute [local instance (high)] Zero.ofOfNat0

/-! ## Parts of a value, read by themselves -/

/-- An exclamation mark outside the blocks of a text. Nothing behind it is written. -/
def hasBang (text : List Char) : Bool := (components text).any (isLeaf (.delimiter '!'))

/-- A closing parenthesis outside the blocks of a text. -/
def hasClosingRound (text : List Char) : Bool :=
  (components text).any (isLeaf (.closing .round))

theorem isIdle_of_isLeaf {token : Token} {c : Component} (h : c.isLeaf token = true) :
    c.isIdle = (token.isSeparator || token == .delimiter '\x0b') := by
  cases c with
  | leaf l =>
    obtain rfl := eq_of_beq h
    rfl
  | block opener body closer => cases h

theorem isLeaf_bare (token : Token) (c : Component) : c.bare.isLeaf token = c.isLeaf token := by
  cases c <;> rfl

theorem any_content {token : Token}
    (h : (token.isSeparator || token == .delimiter '\x0b') = false) (cs : List Component) :
    (content cs).any (isLeaf token) = cs.any (isLeaf token) := by
  unfold content
  rw [List.any_map, List.any_filter]
  congr 1
  funext c
  rw [Function.comp_apply, isLeaf_bare]
  cases hc : c.isLeaf token with
  | false => rw [Bool.and_false]
  | true => rw [isIdle_of_isLeaf hc, h]; rfl

theorem beforeBang_append {a : List Component} (h : a.any (isLeaf (.delimiter '!')) = false)
    (b : List Component) : beforeBang (a ++ b) = a ++ beforeBang b := by
  refine List.takeWhile_append_of_pos fun c hc => ?_
  have hbang := List.any_eq_false.mp h c hc
  simpa using hbang

theorem beforeBang_content (cs : List Component) :
    beforeBang (content cs) = content (beforeBang cs) := by
  induction cs with
  | nil => rfl
  | cons c cs ih =>
    unfold beforeBang content at ih ⊢
    cases hbang : c.isLeaf (.delimiter '!') with
    | true =>
      have hidle : c.isIdle = false := isIdle_of_isLeaf hbang
      simp [hidle, hbang, isLeaf_bare]
    | false =>
      cases hidle : c.isIdle with
      | true => simp [hidle, hbang, ih]
      | false => simp [hidle, hbang, isLeaf_bare, ih]

/-- What is written for a text if `reference` writes its references. -/
def writeParts (reference : List Component → Written) (text : List Char) : Written :=
  writeComponents reference (beforeBang (components text))

section

variable (reference : List Component → Written)

theorem writeComponent_of_isIdle {c : Component} (h : c.isIdle = true) :
    writeComponent reference c = .empty := by
  rcases Bool.or_eq_true_iff.mp h with hseparator | htab
  · exact writeComponent_separator reference hseparator
  · cases c with
    | leaf l =>
      have htoken : l.token = .delimiter '\x0b' := eq_of_beq htab
      rw [writeComponent, htoken]
      rfl
    | block opener body closer => cases htab

theorem writeComponents_content (cs : List Component) :
    writeComponents reference (content cs) = writeComponents reference cs := by
  have hbare : ∀ cs : List Component,
      writeComponents reference (cs.map Component.bare) = writeComponents reference cs := by
    intro cs
    induction cs with
    | nil => rfl
    | cons c cs ih =>
      have hc : writeComponent reference c.bare = writeComponent reference c := by cases c <;> rfl
      rw [List.map_cons, writeComponents, writeComponents, hc, ih]
  have hidle : ∀ c, (!c.isIdle) = false → writeComponent reference c = .empty :=
    fun c hc => writeComponent_of_isIdle reference (by simpa using hc)
  rw [content, hbare, writeComponents_filter reference hidle]

theorem writeParts_eq_content (text : List Char) :
    writeParts reference text = writeComponents reference (beforeBang (contentOf text)) := by
  rw [writeParts, contentOf, beforeBang_content, writeComponents_content]

theorem writeParts_append_space {text core : List Char} (h : Framed text core)
    (hbang : hasBang text = false) (s : List Char) :
    writeParts reference (text ++ ' ' :: s) =
      writeParts reference text ++ writeParts reference s := by
  have hcontent : (contentOf text).any (isLeaf (.delimiter '!')) = false := by
    rw [contentOf, any_content (by decide)]
    exact hbang
  have hwhole : beforeBang (contentOf text) = contentOf text := by
    have happend := beforeBang_append hcontent []
    have hnil : beforeBang [] = [] := rfl
    rwa [hnil, List.append_nil] at happend
  rw [writeParts_eq_content, contentOf_append_space h, ← contentOf_framed h,
    beforeBang_append hcontent, writeComponents_append, writeParts_eq_content reference text,
    hwhole, writeParts_eq_content reference s]

end

/-! ## The text of a reference -/

/-- A text that is a name and nothing else. -/
structure IsName (text : List Char) (name : String) : Prop where
  components : components text = [.leaf ⟨.ident name, text⟩]
  closed : Closed text

def argumentsText (property : List Char) : Option (List Char) → List Char
  | none => property
  | some fallback => property ++ ',' :: ' ' :: fallback

def referenceText (property : List Char) (fallback : Option (List Char)) : List Char :=
  ['v', 'a', 'r', '('] ++ (argumentsText property fallback ++ [')'])

variable {property : List Char} {name : String} {fallback : Option (List Char)}

theorem components_comma (s : List Char) :
    components (',' :: s) = .leaf ⟨.comma, [',']⟩ :: components s :=
  components_cons (by rw [lexemes_cons]; rfl) rfl

theorem components_property (hname : IsName property name) (s : List Char) :
    components (property ++ ',' :: s) =
      .leaf ⟨.ident name, property⟩ :: .leaf ⟨.comma, [',']⟩ :: components s := by
  rw [components_append hname.closed (by decide) (by decide), hname.components, components_comma]
  rfl

theorem closed_argumentsText (hname : IsName property name)
    (hfallback : ∀ text ∈ fallback, Complete text) : Closed (argumentsText property fallback) := by
  cases fallback with
  | none => exact hname.closed
  | some text =>
    obtain ⟨core, hcore⟩ := hfallback text rfl
    have hspace : Closed (' ' :: text) := closed_cons_blank (by decide) (closed_of_framed hcore)
    unfold Closed argumentsText at *
    rw [List.append_assoc, List.cons_append, components_property hname, components_property hname,
      hspace]
    rfl

theorem hasClosingRound_argumentsText (hname : IsName property name)
    (hfallback : ∀ text ∈ fallback, hasClosingRound text = false) :
    hasClosingRound (argumentsText property fallback) = false := by
  unfold hasClosingRound argumentsText at *
  cases fallback with
  | none => rw [hname.components]; rfl
  | some text =>
    have htext := hfallback text rfl
    rw [← any_content (by decide)] at htext ⊢
    simp only [components_property hname]
    rw [← contentOf] at htext
    have hblank := contentOf_cons_blank (c := ' ') (by decide) text
    have hcons : content (.leaf ⟨.ident name, property⟩ :: .leaf ⟨.comma, [',']⟩ ::
        components (' ' :: text)) =
          .leaf ⟨.ident name, []⟩ :: .leaf ⟨.comma, []⟩ :: contentOf (' ' :: text) := rfl
    rw [hcons, hblank, List.any_cons, List.any_cons, htext]
    rfl

theorem referenceName?_argumentsText (hname : IsName property name) :
    referenceName? (components (argumentsText property fallback)) = some name := by
  unfold argumentsText
  cases fallback with
  | none => rw [hname.components]; rfl
  | some text => simp only [components_property hname]; rfl

theorem trim_space (text : List Char) : trim (' ' :: text) = trim text := by
  have hblank : isBlank ' ' = true := by decide
  unfold trim trimStart
  rw [List.dropWhile_cons_of_pos hblank]

theorem fallback?_argumentsText (hname : IsName property name) (text : List Char) :
    fallback? (components (argumentsText property (some text))) = some (trim text) := by
  have hsource := source_components (' ' :: text)
  simp only [argumentsText, components_property hname]
  show some (trim (sourceAll (components (' ' :: text)))) = some (trim text)
  rw [hsource, trim_space]

def varOpener : Lexeme := ⟨.function "var", ['v', 'a', 'r', '(']⟩

theorem readName_var (s : List Char) : readName ('v' :: 'a' :: 'r' :: '(' :: s) = ("var", 3) := by
  have hchars : nameChars 0 ('v' :: 'a' :: 'r' :: '(' :: s) = [('v', 1), ('a', 1), ('r', 1)] := rfl
  rw [readName, hchars]
  rfl

theorem nameToken_var (s : List Char) :
    nameToken ('v' :: 'a' :: 'r' :: '(' :: s) = (.function "var", 4) := by
  have hurl : ¬lowerString "var" = "url" := by decide
  simp [nameToken, readName_var, hurl]

theorem tokenAt_var (s : List Char) :
    tokenAt 'v' ('a' :: 'r' :: '(' :: s) = (.function "var", 4) := by
  have hspace : isSpace 'v' = false := by decide
  have hdigit : isDigit 'v' = false := by decide
  have hnumber : startsMagnitude ('v' :: 'a' :: 'r' :: '(' :: s) = false := rfl
  have hname : startsName ('v' :: 'a' :: 'r' :: '(' :: s) = true := rfl
  simp [tokenAt, hspace, hdigit, hnumber, hname, nameToken_var]

theorem lexemes_varOpener (s : List Char) :
    lexemes (varOpener.source ++ s) = varOpener :: lexemes s := by
  have hlexeme : lexemeAt 'v' ('a' :: 'r' :: '(' :: s) = varOpener := by
    simp [lexemeAt, tokenAt_var, varOpener]
  show lexemes ('v' :: 'a' :: 'r' :: '(' :: s) = _
  rw [lexemes_cons, hlexeme]
  rfl

theorem lexemes_closingRound (s : List Char) :
    lexemes (')' :: s) = ⟨.closing .round, [')']⟩ :: lexemes s := by
  rw [lexemes_cons]; rfl

theorem writeParts_referenceText (hname : IsName property name)
    (hfallback : ∀ text ∈ fallback, Complete text ∧ hasClosingRound text = false)
    (reference : List Component → Written) (s : List Char) :
    writeParts reference (referenceText property fallback ++ s) =
      reference (components (argumentsText property fallback)) ++ writeParts reference s := by
  have hclosed := closed_argumentsText hname fun text htext => (hfallback text htext).1
  have hround := hasClosingRound_argumentsText hname fun text htext => (hfallback text htext).2
  have hcomponents := components_enclosed varOpener ')' rfl lexemes_varOpener
    (by decide) (by decide) lexemes_closingRound hclosed hround s
  have hwhole : referenceText property fallback ++ s =
      varOpener.source ++ (argumentsText property fallback ++ ')' :: s) := by
    simp [referenceText, varOpener]
  rw [writeParts, hwhole, hcomponents]
  rfl

/-! ## Whole values -/

variable {custom : SortedMap String}

theorem depthBound_le (custom : SortedMap String) {a b : List Char} (h : a.length ≤ b.length) :
    depthBound custom a ≤ depthBound custom b := by
  unfold depthBound
  omega

theorem writeParts_writeReference {depth : Nat} {text : List Char}
    (h : depthBound custom text ≤ depth + 1) :
    writeParts (writeReference custom (writeText custom depth) []) text =
      writeValue custom text := by
  have hroom := room_le_depthBound custom [] text
  have hdepth : room custom [] text ≤ depth + 1 := by omega
  exact writeText_eq hdepth hroom

theorem writeValue_congr {a b : List Char} (h : contentOf a = contentOf b) :
    writeValue custom a = writeValue custom b := by
  have ha : depthBound custom a ≤ depthBound custom (a ++ b) + 1 :=
    Nat.le_succ_of_le (depthBound_le custom (by simp))
  have hb : depthBound custom b ≤ depthBound custom (a ++ b) + 1 :=
    Nat.le_succ_of_le (depthBound_le custom (by simp))
  rw [← writeParts_writeReference ha, ← writeParts_writeReference hb, writeParts_eq_content, h,
    ← writeParts_eq_content]

theorem writeValue_nil : writeValue custom [] = .empty := by
  have h : depthBound custom [] ≤ depthBound custom [] + 1 := by omega
  rw [← writeParts_writeReference h]
  rfl

/-- A text between two others, with a space on either side. -/
def between (before text after : List Char) : List Char :=
  before ++ ' ' :: (text ++ ' ' :: after)

theorem length_between (before text after : List Char) :
    (between before text after).length = before.length + text.length + after.length + 2 := by
  unfold between
  simp only [List.length_append, List.length_cons]
  omega

section

variable {before text : List Char}

theorem writeValue_between (hbefore : Complete before) (hbang : hasBang before = false)
    (htext : Complete text) (hbang' : hasBang text = false) (after : List Char) :
    writeValue custom (between before text after) =
      writeValue custom before ++ (writeValue custom text ++ writeValue custom after) := by
  obtain ⟨core, hcore⟩ := hbefore
  obtain ⟨core', hcore'⟩ := htext
  have hlength := length_between before text after
  have hdepth : ∀ s : List Char, s.length ≤ (between before text after).length →
      depthBound custom s ≤ depthBound custom (between before text after) + 1 := by
    intro s hs
    have := depthBound_le custom hs
    omega
  rw [← writeParts_writeReference (hdepth _ (Nat.le_refl _)), between,
    writeParts_append_space _ hcore hbang, writeParts_append_space _ hcore' hbang', ← between,
    writeParts_writeReference (hdepth before (by omega)),
    writeParts_writeReference (hdepth text (by omega)),
    writeParts_writeReference (hdepth after (by omega))]

theorem writeValue_between_reference (hbefore : Complete before) (hbang : hasBang before = false)
    (hname : IsName property name)
    (hfallback : ∀ text ∈ fallback, Complete text ∧ hasClosingRound text = false)
    (after : List Char) {middle : Written}
    (hmiddle : ∀ depth, room custom [] (between before (referenceText property fallback) after) ≤
        depth + 1 →
      writeReference custom (writeText custom depth) []
        (components (argumentsText property fallback)) = middle) :
    writeValue custom (between before (referenceText property fallback) after) =
      writeValue custom before ++ (middle ++ writeValue custom after) := by
  obtain ⟨core, hcore⟩ := hbefore
  generalize hwhole : between before (referenceText property fallback) after = whole at hmiddle
  have hlength := length_between before (referenceText property fallback) after
  rw [hwhole] at hlength
  obtain ⟨depth, hdepth⟩ := exists_depthBound custom whole
  have hshorter : ∀ s : List Char, s.length ≤ whole.length → depthBound custom s ≤ depth + 1 := by
    intro s hs
    have := depthBound_le custom hs
    omega
  have hroom := room_le_depthBound custom [] whole
  have hblank := contentOf_cons_blank (c := ' ') (by decide) after
  rw [← writeParts_writeReference (hshorter whole (Nat.le_refl _)), ← hwhole, between,
    writeParts_append_space _ hcore hbang, writeParts_referenceText hname hfallback,
    hmiddle depth (by omega), writeParts_eq_content _ (' ' :: after), hblank,
    ← writeParts_eq_content, writeParts_writeReference (hshorter before (by omega)),
    writeParts_writeReference (hshorter after (by omega))]

end

/-! ## What a reference stands for -/

/-- Between two other texts, a part of a value is written as some text is: with a space to what is
written before and after it, and as if the text stood in its place. -/
structure StandsFor (custom : SortedMap String) (before part value after : List Char) : Prop where
  joined : (writeValue custom (between before part after)).text =
    spaced [(writeValue custom before).text, (writeValue custom value).text,
      (writeValue custom after).text]
  opacity : (writeValue custom (between before part after)).opacity =
    ((writeValue custom after).opacity <|> (writeValue custom value).opacity <|>
      (writeValue custom before).opacity)
  inPlace : hasBang value = false →
    (writeValue custom (between before part after)).text =
        (writeValue custom (between before value after)).text ∧
      (writeValue custom (between before part after)).opacity =
        (writeValue custom (between before value after)).opacity

theorem spaced_spaced (a b c : List Char) : spaced [a, spaced [b, c]] = spaced [a, b, c] := by
  cases a <;> cases b <;> cases c <;> simp [spaced]

section

variable {before part value after : List Char}

theorem StandsFor.of_written {middle : Written}
    (hwritten : writeValue custom (between before part after) =
      writeValue custom before ++ (middle ++ writeValue custom after))
    (hpieces : middle.pieces = (writeValue custom value).pieces)
    (hopacity : middle.opacity = (writeValue custom value).opacity)
    (hbefore : Complete before) (hbang : hasBang before = false) (hvalue : Complete value) :
    StandsFor custom before part value after := by
  have hparts := fun text => wellFormed_writeValue custom text
  generalize hend : writeValue custom after = last at hwritten
  have hpieces' : (middle ++ last).pieces = (writeValue custom value ++ last).pieces :=
    congrArg (· ++ last.pieces) hpieces
  have hopacity' : (middle ++ last).opacity = (writeValue custom value ++ last).opacity :=
    congrArg (last.opacity <|> ·) hopacity
  have htext : (writeValue custom (between before part after)).text =
      (writeValue custom before ++ (writeValue custom value ++ last)).text := by
    rw [hwritten]
    exact congrArg (fun pieces => [' '].intercalate ((writeValue custom before).pieces ++ pieces))
      hpieces'
  have halpha : (writeValue custom (between before part after)).opacity =
      (writeValue custom before ++ (writeValue custom value ++ last)).opacity := by
    rw [hwritten]
    exact congrArg (· <|> (writeValue custom before).opacity) hopacity'
  refine ⟨?_, ?_, fun hbang' => ?_⟩
  · rw [htext, ← hend, Written.text_append (hparts _) ((hparts _).append (hparts _)),
      Written.text_append (hparts _) (hparts _), spaced_spaced]
  · rw [halpha, hend]
    show ((_ <|> _) <|> _) = _
    cases last.opacity <;> rfl
  · rw [writeValue_between hbefore hbang hvalue hbang', hend]
    exact ⟨htext, halpha⟩

end

section

variable {whole value text : List Char} {depth : Nat}

theorem writeReference_defined (hname : IsName property name)
    (hdefined : definition? custom name = some (trim value))
    (hacyclic : ¬LeadsTo custom (trim value) name)
    (htrimmed : contentOf (trim value) = contentOf value)
    (hroom : room custom [] whole ≤ depth + 1) :
    writeReference custom (writeText custom depth) []
      (components (argumentsText property fallback)) = writeValue custom value := by
  have hopen := room_open hdefined List.not_mem_nil whole
  unfold writeReference
  rw [referenceName?_argumentsText hname]
  simp only [List.contains_nil, Bool.false_eq_true, if_false, hdefined]
  rw [writeText_opened hacyclic (by omega), writeValue_congr htrimmed]

theorem writeReference_fallback (hname : IsName property name)
    (hundefined : definition? custom name = none) (hblank : trim text ≠ [])
    (htrimmed : contentOf (trim text) = contentOf text)
    (hroom : room custom [] whole ≤ depth + 1) (hshorter : text.length < whole.length) :
    writeReference custom (writeText custom depth) []
      (components (argumentsText property (some text))) = writeValue custom text := by
  have htrim := (trim_sublist text).length_le
  have hdepth : room custom [] (trim text) ≤ depth := by
    unfold room at hroom ⊢
    omega
  have hroom' := room_le_depthBound custom [] (trim text)
  obtain ⟨c, rest, hcons⟩ := List.exists_cons_of_ne_nil hblank
  unfold writeReference
  rw [referenceName?_argumentsText hname, fallback?_argumentsText hname, hcons]
  simp only [List.contains_nil, Bool.false_eq_true, if_false, hundefined]
  rw [← hcons, writeText_eq hdepth hroom', ← writeValue, writeValue_congr htrimmed]

theorem writeReference_blank (hname : IsName property name)
    (hundefined : definition? custom name = none) (hblank : trim text = []) :
    writeReference custom (writeText custom depth) []
      (components (argumentsText property (some text))) =
        .notice (.unresolvedReference name) := by
  unfold writeReference
  rw [referenceName?_argumentsText hname, fallback?_argumentsText hname, hblank]
  simp [hundefined]

end

/-- Between two other texts, a reference stands for the text of its property, if that does not lead
back to it, and for its fallback if there is no text of the property. Trimming may not change what
the text means, as it does not if what it leaves has nothing open at its end. -/
theorem writeValue_reference {before after : List Char} (hbefore : Complete before)
    (hbang : hasBang before = false) (hname : IsName property name)
    (hfallback : ∀ text ∈ fallback, Complete text ∧ hasClosingRound text = false) :
    (∀ value, definition? custom name = some (trim value) → ¬LeadsTo custom (trim value) name →
      Complete value → contentOf (trim value) = contentOf value →
      StandsFor custom before (referenceText property fallback) value after) ∧
    (∀ text, fallback = some text → definition? custom name = none →
      contentOf (trim text) = contentOf text →
      StandsFor custom before (referenceText property fallback) text after) ∧
    ∀ text, Framed text (trim text) → contentOf (trim text) = contentOf text := by
  refine ⟨fun value hdefined hacyclic hvalue htrimmed => ?_, ?_, fun text h => ?_⟩
  · have hwritten := writeValue_between_reference hbefore hbang hname hfallback after
      fun _ hroom => writeReference_defined hname hdefined hacyclic htrimmed hroom
    exact .of_written hwritten rfl rfl hbefore hbang hvalue
  · rintro text rfl hundefined htrimmed
    have htext : Complete text := (hfallback text rfl).1
    by_cases hblank : trim text = []
    · -- A blank fallback is none: there is a notice, but nothing is written.
      have hempty : writeValue custom text = .empty := by
        rw [← writeValue_congr htrimmed, hblank, writeValue_nil]
      have hwritten := writeValue_between_reference hbefore hbang hname hfallback after
        fun _ _ => writeReference_blank hname hundefined hblank
      exact .of_written hwritten (by rw [hempty]; rfl) (by rw [hempty]; rfl) hbefore hbang htext
    · have hwhole := length_between before (referenceText property (some text)) after
      have hshorter : text.length < (referenceText property (some text)).length := by
        simp only [referenceText, argumentsText, List.length_append, List.length_cons]
        omega
      have hwritten := writeValue_between_reference hbefore hbang hname hfallback after
        fun _ hroom => writeReference_fallback hname hundefined hblank htrimmed hroom (by omega)
      exact .of_written hwritten rfl rfl hbefore hbang htext
  · exact (contentOf_framed h).symm

/-- A property that refers to another one. -/
def linkedProperties : SortedMap String :=
  .ofList [("--x", "var(--z) rgba(1, 2, 3, 0.5)"), ("--z", "b")]

def linkedValue : List Char := "var(--z) rgba(1, 2, 3, 0.5)\t".toList

theorem writeValue_reference_linked :
    (definition? linkedProperties "--x" = some (trim linkedValue) ∧
      ¬LeadsTo linkedProperties (trim linkedValue) "--x" ∧
      contentOf (trim linkedValue) = contentOf linkedValue ∧
      StandsFor linkedProperties ['a'] (referenceText ['-', '-', 'x'] (some ['c'])) linkedValue
        ['d']) ∧
      definition? .empty "--x" = none ∧
      StandsFor .empty ['a'] (referenceText ['-', '-', 'x'] (some [' ', 'c', ' '])) [' ', 'c', ' ']
        ['d'] := by
  have hname : IsName ['-', '-', 'x'] "--x" := ⟨by decide +kernel, by decide +kernel⟩
  have hspace : ∀ text, lexemes (text ++ [' ']) = lexemes text ++ [⟨.whitespace, [' ']⟩] →
      EndsBefore ' ' text := fun text h => ⟨lexemes text, _, h, rfl⟩
  have ha : Complete ['a'] :=
    ⟨_, framed_self (by decide +kernel) (hspace _ (by decide +kernel))⟩
  have hc : Framed ['c'] ['c'] :=
    framed_self (by decide +kernel) (hspace _ (by decide +kernel))
  have hc' : Framed [' ', 'c', ' '] ['c'] :=
    ⟨hc.closed, hc.ends, [' '], [' '], rfl, forall_mem_of_all (by decide),
      forall_mem_of_all (by decide), by simp⟩
  have hvalue : Framed linkedValue (trim linkedValue) :=
    ⟨by decide +kernel, hspace _ (by decide +kernel), [], ['\t'], by decide +kernel, by simp,
      forall_mem_of_all (by decide), by simp⟩
  have hdefined : definition? linkedProperties "--x" = some (trim linkedValue) := by decide +kernel
  have hother : definition? linkedProperties "--z" = some ['b'] := by decide +kernel
  have hreferences : referencesOf (trim linkedValue) = [components ['-', '-', 'z']] := by
    decide +kernel
  have hacyclic : ¬LeadsTo linkedProperties (trim linkedValue) "--x" := by
    rw [leadsTo_iff hreferences (by decide +kernel) hother]
    rintro (h | h)
    · exact absurd h (by decide)
    · exact not_leadsTo (by decide +kernel) "--x" h
  have htrimmed : contentOf (trim linkedValue) = contentOf linkedValue := by decide +kernel
  refine ⟨⟨hdefined, hacyclic, htrimmed, ?_⟩, rfl, ?_⟩
  · refine (writeValue_reference ha (by decide +kernel) hname ?_).1 linkedValue hdefined hacyclic
      ⟨_, hvalue⟩ htrimmed
    rintro text ⟨⟩
    exact ⟨⟨_, hc⟩, by decide +kernel⟩
  · refine (writeValue_reference ha (by decide +kernel) hname ?_).2.1 _ rfl rfl (by decide +kernel)
    rintro text ⟨⟩
    exact ⟨⟨_, hc'⟩, by decide +kernel⟩

/-- The blank that trimming takes from this fallback is escaped, and is a part of its name. -/
theorem writeValue_escaped_blank :
    Complete ['a', '\\', ' '] ∧ hasBang ['a', '\\', ' '] = false ∧
      hasClosingRound ['a', '\\', ' '] = false ∧ IsName ['-', '-', 'y'] "--y" ∧
      (writeValue .empty ['a', '\\', ' ']).text = ['a', ' '] ∧
      (writeValue .empty (referenceText ['-', '-', 'y'] (some ['a', '\\', ' ']))).text =
        ['a', '\ufffd'] ∧
      ¬StandsFor .empty [] (referenceText ['-', '-', 'y'] (some ['a', '\\', ' ']))
        ['a', '\\', ' '] [] := by
  have hcomplete : Complete ['a', '\\', ' '] :=
    ⟨_, framed_self (by decide +kernel) ⟨[⟨.ident "a ", ['a', '\\', ' ']⟩], ⟨.whitespace, [' ']⟩,
      by decide +kernel, rfl⟩⟩
  refine ⟨hcomplete, by decide +kernel, by decide +kernel, ⟨by decide +kernel, by decide +kernel⟩,
    by decide +kernel, by decide +kernel, fun h => ?_⟩
  exact absurd h.joined (by decide +kernel)

end ClassStyle.Css
