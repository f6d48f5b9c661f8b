import ClassStyle.Proofs.Expressions
import ClassStyle.Proofs.Integers
import ClassStyle.Proofs.Tokens

/-!
# Arithmetic as tokens

Arithmetic without parentheses is cut into tokens that stand for themselves, and what is written
for them has the symbols of the arithmetic but for some plus signs (`exists_lexemes`). Numbers lose
their plus signs, and dashes in front of a digit or of each other are a part of names and units.
-/

namespace ClassStyle.Css

open Text Arithmetic

/-! ## Characters of arithmetic -/

/-- Digits, blanks and operators. -/
def isArithmetic (c : Char) : Bool :=
  isDigit c || Css.isSpace c || c = '+' || c = '-' || c = '*' || c = '/'

theorem isSpace_eq (c : Char) : Arithmetic.isSpace c = Css.isSpace c := by
  simp only [Arithmetic.isSpace, Css.isSpace, isNewline]
  grind

theorem isArithmetic_cases {c : Char} (h : isArithmetic c = true) :
    isDigit c = true ∨ Css.isSpace c = true ∨ c ∈ ['+', '-', '*', '/'] := by
  simp only [isArithmetic, Bool.or_eq_true, decide_eq_true_eq] at h
  simp only [List.mem_cons, List.not_mem_nil, or_false]
  grind

theorem toNat_lt_of_isArithmetic {c : Char} (h : isArithmetic c = true) : c.toNat < 128 := by
  rcases isArithmetic_cases h with hdigit | hspace | hsign
  · have := toNat_of_isDigit hdigit
    omega
  · simp only [Css.isSpace, isNewline, Bool.or_eq_true, decide_eq_true_eq] at hspace
    rcases hspace with (rfl | rfl) | ((rfl | rfl) | rfl) <;> decide
  · have hsigns : ∀ d ∈ ['+', '-', '*', '/'], d.toNat < 128 := forall_mem_of_all (by decide)
    exact hsigns c hsign

theorem isArithmetic_spec {c : Char} (h : isArithmetic c = true) :
    isNameStart c = false ∧ c ∉ ['\\', '.', '%', '=', '>', '(', '!', 'e', 'E', ';'] ∧
      (isBlank c = true → Css.isSpace c = true) := by
  refine forall_ascii (p := fun c => isArithmetic c = true → isNameStart c = false ∧
    c ∉ ['\\', '.', '%', '=', '>', '(', '!', 'e', 'E', ';'] ∧
      (isBlank c = true → Css.isSpace c = true)) ?_ (toNat_lt_of_isArithmetic h) h
  decide

/-- A plus sign with a digit right behind it stands behind a digit. Blanks before the sign do not
count. The first argument tells whether the text itself stands behind a digit. -/
def gluesPlus : Bool → List Char → Bool
  | _, [] => false
  | behind, c :: s =>
    if Css.isSpace c then gluesPlus behind s
    else (behind && c = '+' && startsWithDigit s) || gluesPlus (isDigit c) s

/-! ## What stands behind a token -/

/-- The rest of arithmetic with a semicolon behind it. -/
def Goes (rest : List Char) : Prop := ∀ c ∈ rest, isArithmetic c = true

theorem head_spec {rest : List Char} (h : Goes rest) : ∀ c ∈ (rest ++ [';']).head?,
    isNameStart c = false ∧ c ∉ ['\\', '.', '%', '=', '>', '(', '!', 'e', 'E'] := by
  refine forall_head?_append (fun d hd => ?_) (forall_head?_cons (by decide) [])
  obtain ⟨hstart, hmarks, -⟩ := isArithmetic_spec (h d (List.mem_of_mem_head? hd))
  refine ⟨hstart, fun hmem => hmarks ?_⟩
  simp only [List.mem_cons, List.not_mem_nil, or_false] at hmem ⊢
  grind

theorem lexemes_operator {c : Char} {s : List Char} (hc : c ∈ ['+', '-', '*', '/'])
    (hs : ∀ d ∈ s.head?, isNameStart d = false ∧
      d ∉ ['\\', '.', '%', '=', '>', '(', '!', 'e', 'E'])
    (hsign : c = '+' ∨ c = '-' → startsWithDigit s = false)
    (hdash : c = '-' → s.head? ≠ some '-') (hslash : c = '/' → s.head? ≠ some '*') :
    lexemes (c :: s) = ⟨.delimiter c, [c]⟩ :: lexemes s := by
  refine lexemes_of_tokenAt (s := []) ?_
  have hmagnitude : ∀ {t : List Char}, startsWithDigit t = false → t.head? ≠ some '.' →
      startsMagnitude t = false := by
    intro t hdigit hdot
    simp [startsMagnitude, hdigit, hdot]
  have hhead : ∀ d ∈ ['\\', '.', '%', '=', '>', '(', '!', 'e', 'E'], s.head? ≠ some d := by
    intro d hd hhead
    exact (hs d hhead).2 hd
  have hequals := hhead '=' (by decide)
  have hdot := hhead '.' (by decide)
  simp only [List.mem_cons, List.not_mem_nil, or_false] at hc
  rcases hc with rfl | rfl | rfl | rfl
  · have hnumber := hmagnitude (hsign (.inl rfl)) hdot
    simp [tokenAt, Css.isSpace, isNewline, isDigit, hnumber, startsName, isNameStart, isLetter]
  · have hnumber := hmagnitude (hsign (.inr rfl)) hdot
    have hname : startsName ('-' :: s) = false := by
      cases s with
      | nil => rfl
      | cons d s =>
        have hd : d ≠ '-' := fun heq => hdash rfl (by rw [heq]; rfl)
        have hescape : d ≠ '\\' := fun heq => hhead '\\' (by decide) (by rw [heq]; rfl)
        simp [startsName, (hs d rfl).1, hd, hescape]
    have hmark : s.take 2 ≠ ['-', '>'] := by
      intro htake
      have hfirst := congrArg List.head? htake
      rw [List.head?_take, if_neg (by decide)] at hfirst
      exact hdash rfl hfirst
    simp [tokenAt, Css.isSpace, isNewline, isDigit, hnumber, hname, hmark]
  · simp [tokenAt, Css.isSpace, isNewline, matchToken, hequals]
  · have hnumber : startsMagnitude ('/' :: s) = false := hmagnitude rfl (by simp)
    have hcomment := hslash rfl
    simp [tokenAt, Css.isSpace, isNewline, isDigit, hnumber, startsName, isNameStart, isLetter,
      hcomment]

/-! ## Rewritten symbols -/

theorem head_not_numeral {y : List Char} (h : Goes y) (hdigit : startsWithDigit y = false) :
    ∀ c ∈ y.head?, isNumeralChar c = false := by
  intro c hc
  cases y with
  | nil => cases hc
  | cons d y =>
    obtain rfl := Option.mem_some_iff.mp hc
    have hmarks := (isArithmetic_spec (h d List.mem_cons_self)).2.1
    have hd : isDigit d = false := by simpa [startsWithDigit] using hdigit
    simp only [List.mem_cons, not_or] at hmarks
    simp [isNumeralChar, hd, hmarks.2.1]

theorem startsWithDigit_of_head {y : List Char} (h : ∀ c ∈ y.head?, isDigit c = false) :
    startsWithDigit y = false := by
  cases y with
  | nil => rfl
  | cons c y => simpa [startsWithDigit] using h c rfl

theorem isNumeralChar_of_isDigit {c : Char} (h : isDigit c = true) : isNumeralChar c = true := by
  simp [isNumeralChar, h]

theorem not_isSpace_of_isDigit {c : Char} (h : isDigit c = true) : Css.isSpace c = false := by
  rw [← isSpace_eq]
  exact not_isSpace_of_isNumeralChar (isNumeralChar_of_isDigit h)

theorem gluesPlus_spaces {spaces : List Char} (h : ∀ c ∈ spaces, Css.isSpace c = true)
    (y : List Char) (behind : Bool) : gluesPlus behind (spaces ++ y) = gluesPlus behind y := by
  induction spaces with
  | nil => rfl
  | cons c spaces ih =>
    obtain ⟨hc, h⟩ := List.forall_mem_cons.mp h
    rw [List.cons_append, gluesPlus, if_pos hc, ih h]

theorem gluesPlus_digits {digits : List Char} (hne : digits ≠ [])
    (hdigits : ∀ c ∈ digits, isDigit c = true) (behind : Bool) (y : List Char) :
    gluesPlus behind (digits ++ y) = gluesPlus true y := by
  induction digits generalizing behind with
  | nil => exact absurd rfl hne
  | cons c digits ih =>
    obtain ⟨hc, hdigits⟩ := List.forall_mem_cons.mp hdigits
    have hplus : c ≠ '+' := (Numeral.ne_sign_of_isDigit hc).1
    have hstep : gluesPlus behind (c :: (digits ++ y)) = gluesPlus true (digits ++ y) := by
      simp [gluesPlus, not_isSpace_of_isDigit hc, hplus, hc]
    rw [List.cons_append, hstep]
    cases digits with
    | nil => rfl
    | cons d digits => exact ih (by simp) hdigits true

theorem gluesPlus_operator {c : Char} (hc : c ∈ ['-', '*', '/']) (behind : Bool)
    (y : List Char) : gluesPlus behind (c :: y) = gluesPlus false y := by
  simp only [List.mem_cons, List.not_mem_nil, or_false] at hc
  rcases hc with rfl | rfl | rfl <;> simp [gluesPlus, Css.isSpace, isNewline, isDigit]

theorem gluesPlus_plus (behind : Bool) (y : List Char) :
    gluesPlus behind ('+' :: y) = (behind && startsWithDigit y || gluesPlus false y) := by
  simp [gluesPlus, Css.isSpace, isNewline, isDigit]

theorem symbols_spaces {spaces : List Char} (h : ∀ c ∈ spaces, Css.isSpace c = true)
    (y : List Char) : symbols (spaces ++ y) = symbols y := by
  induction spaces with
  | nil => rfl
  | cons c spaces ih =>
    obtain ⟨hc, h⟩ := List.forall_mem_cons.mp h
    rw [List.cons_append, symbols_space (by rw [isSpace_eq, hc]), ih h]

theorem symbols_digits {digits y : List Char} (hne : digits ≠ [])
    (hdigits : ∀ c ∈ digits, isDigit c = true)
    (hy : ∀ c ∈ y.head?, isNumeralChar c = false) :
    symbols (digits ++ y) = .numeral digits :: symbols y :=
  symbols_run hne (fun c hc => isNumeralChar_of_isDigit (hdigits c hc)) hy

theorem rewritten_verbatim {y : List Char} {b : List Symbol}
    (hy : ∀ c ∈ y.head?, isNumeralChar c = false)
    (h : ∀ behind, Rewritten behind (gluesPlus behind y) (symbols y) b) (u : List Char)
    (hu : ∀ c ∈ u, isDigit c = true ∨ c = '-') (behind : Bool) :
    Rewritten behind (gluesPlus behind (u ++ y)) (symbols (u ++ y)) (symbols u ++ b) := by
  match u with
  | [] => exact h behind
  | c :: s =>
    have hs : ∀ d ∈ s, isDigit d = true ∨ d = '-' := fun d hd => hu d (List.mem_cons_of_mem c hd)
    by_cases hc : isDigit c = true
    · obtain ⟨digits, rest, heq, hne, hdigits, hrest, hshort⟩ := exists_run hc s
      have hsuffix : ∀ d ∈ rest, isDigit d = true ∨ d = '-' :=
        fun d hd => hu d (by rw [heq]; exact List.mem_append_right _ hd)
      have hstop : ∀ d ∈ rest.head?, isNumeralChar d = false := by
        intro d hd
        have hdash := (hsuffix d (List.mem_of_mem_head? hd)).resolve_left
          (Bool.eq_false_iff.mp (hrest d hd))
        rw [hdash]
        rfl
      rw [heq, List.append_assoc, gluesPlus_digits hne hdigits,
        symbols_digits hne hdigits (forall_head?_append hstop hy),
        symbols_digits hne hdigits hstop]
      exact .numeral rfl (rewritten_verbatim hy h rest hsuffix true)
    · obtain rfl := (hu c List.mem_cons_self).resolve_left hc
      rw [List.cons_append, gluesPlus_operator (by decide), symbols_char rfl rfl,
        symbols_char rfl rfl, List.cons_append]
      exact .operator (by decide) (rewritten_verbatim hy h s hs false)
termination_by u.length

theorem rewritten_source {n : Numeral} (hinteger : n.isInteger = true) (hne : n.whole ≠ [])
    (hdigits : ∀ c ∈ n.whole, isDigit c = true) (hlt : decimalValue n.whole < 2 ^ 24)
    {y : List Char} {b : List Symbol} (hy : ∀ c ∈ y.head?, isNumeralChar c = false)
    (h : Rewritten true (gluesPlus true y) (symbols y) b) (behind : Bool) :
    Rewritten behind (gluesPlus behind (n.source ++ y)) (symbols (n.source ++ y))
      (symbols (numberText n) ++ b) := by
  obtain ⟨digits, hsome, hall, hvalue, htext⟩ := numberText_integer hinteger hdigits hlt
  have hsame : readFloat? n.whole = readFloat? digits := by
    rw [readFloat?_digits hne hdigits, readFloat?_digits hsome hall, hvalue]
  have hprinted : symbols digits = [.numeral digits] := by
    have hrun := symbols_digits (y := []) hsome hall (by simp)
    rwa [List.append_nil] at hrun
  obtain ⟨sign, whole, fraction, exponent⟩ := n
  simp only [Numeral.isInteger, Bool.and_eq_true, Option.isNone_iff_eq_none] at hinteger
  obtain ⟨rfl, rfl⟩ := hinteger
  have hsource : Numeral.source ⟨sign, whole, none, none⟩ ++ y =
      Sign.source sign ++ (whole ++ y) := by
    simp [Numeral.source, Numeral.fractionSource, Exponent.source]
  have hnumeral := symbols_digits hne hdigits hy
  rw [hsource, htext]
  cases sign with
  | none =>
    show Rewritten behind (gluesPlus behind (whole ++ y)) (symbols (whole ++ y))
      (symbols digits ++ b)
    rw [gluesPlus_digits hne hdigits, hnumeral, hprinted]
    exact .numeral hsame h
  | some sign =>
    cases sign with
    | minus =>
      show Rewritten behind (gluesPlus behind ('-' :: (whole ++ y)))
        (symbols ('-' :: (whole ++ y))) (symbols ('-' :: digits) ++ b)
      rw [gluesPlus_operator (by decide), gluesPlus_digits hne hdigits, symbols_char rfl rfl,
        symbols_char rfl rfl, hnumeral, hprinted]
      exact .operator (by decide) (.numeral hsame h)
    | plus =>
      show Rewritten behind (gluesPlus behind ('+' :: (whole ++ y)))
        (symbols ('+' :: (whole ++ y))) (symbols digits ++ b)
      have hglued : gluesPlus behind ('+' :: (whole ++ y)) =
          (behind || gluesPlus true y) := by
        have hdigit : startsWithDigit (whole ++ y) = true := by
          obtain ⟨d, whole, rfl⟩ := List.exists_cons_of_ne_nil hne
          have hd : isDigit d = true := hdigits d List.mem_cons_self
          simpa [startsWithDigit] using hd
        rw [gluesPlus_plus, gluesPlus_digits hne hdigits, hdigit, Bool.and_true]
      rw [hglued, symbols_char rfl rfl, hnumeral, hprinted]
      exact .dropped hsame h

/-! ## Tokens of arithmetic -/

/-- The symbols of what is written for a token. -/
def tokenSymbols (token : Token) : List Symbol := (writeToken token).pieces.flatMap symbols

/-- A token that stands for itself and is written with characters of arithmetic. -/
structure IsPlainToken (token : Token) : Prop where
  opens_nothing : token.opens? = none
  ends_nothing : token ∉ [.delimiter '!', .semicolon, .closing .curly]
  arithmetic : ∀ piece ∈ (writeToken token).pieces, ∀ c ∈ piece, isArithmetic c = true

/-- The first token of arithmetic, with its source and what it leaves. What is written for it is as
in the source but for signs that are left out. -/
structure Front (source : List Char) (token : Token) (rest : List Char) : Prop where
  lexemes_eq : lexemes (source ++ (rest ++ [';'])) = ⟨token, source⟩ :: lexemes (rest ++ [';'])
  plain : IsPlainToken token
  symbols_rest : ∀ symbol ∈ symbols rest, symbol ∈ symbols (source ++ rest)
  rewritten : ∀ b, (∀ behind, Rewritten behind (gluesPlus behind rest) (symbols rest) b) →
    ∀ behind, Rewritten behind (gluesPlus behind (source ++ rest)) (symbols (source ++ rest))
      (tokenSymbols token ++ b)

section

variable {rest u : List Char} {n : Numeral}

theorem endsNumeral_arithmetic (hgoes : Goes rest)
    (hrest : ∀ c ∈ rest.head?, isDigit c = false) :
    EndsNumeral (rest ++ [';']) ∧ (rest ++ [';']).head? ≠ some '%' := by
  have hhead := head_spec hgoes
  have hdigit : ∀ c ∈ (rest ++ [';']).head?, isDigit c = false :=
    forall_head?_append hrest (forall_head?_cons (by rfl) [])
  constructor
  · refine endsNumeral_of_head fun c hc => ⟨hdigit c hc, fun hmem => (hhead c hc).2 ?_⟩
    simp only [List.mem_cons, List.not_mem_nil, or_false] at hmem ⊢
    grind
  · intro hpercent
    exact (hhead '%' hpercent).2 (by decide)

theorem endsName_arithmetic (hgoes : Goes rest)
    (hrest : ∀ c ∈ rest.head?, isDigit c = false ∧ c ≠ '-') : EndsName (rest ++ [';']) := by
  have hhead := head_spec hgoes
  have hname : ∀ c ∈ (rest ++ [';']).head?, isDigit c = false ∧ c ≠ '-' :=
    forall_head?_append hrest (forall_head?_cons (by decide) [])
  constructor
  · cases hfirst : (rest ++ [';']).head? with
    | none => rfl
    | some c =>
      obtain ⟨hdigit, hdash⟩ := hname c hfirst
      simp [isNameChar, (hhead c hfirst).1, hdigit, hdash]
  · intro hescape
    exact (hhead '\\' hescape).2 (by decide)

theorem isPlainName_verbatim (hu : ∀ c ∈ u, isDigit c = true ∨ c = '-') : IsPlainName u := by
  intro c hc
  rcases hu c hc with hdigit | rfl
  · refine ⟨by simp [isNameChar, hdigit], ?_⟩
    rintro rfl
    exact absurd hdigit (by decide)
  · decide

theorem isArithmetic_verbatim (hu : ∀ c ∈ u, isDigit c = true ∨ c = '-') :
    ∀ c ∈ u, isArithmetic c = true := by
  intro c hc
  rcases hu c hc with hdigit | rfl
  · simp [isArithmetic, hdigit]
  · rfl

theorem lower_verbatim (hu : ∀ c ∈ u, isDigit c = true ∨ c = '-') : lower u = u := by
  unfold lower
  refine (List.map_congr_left fun c hc => ?_).trans (List.map_id u)
  rcases hu c hc with hdigit | rfl
  · have hrange := toNat_of_isDigit hdigit
    refine if_neg fun hletter => ?_
    have hA : (65 : Nat) ≤ c.toNat := hletter.1
    omega
  · rfl

theorem isCss_integer (hinteger : n.isInteger = true) (hne : n.whole ≠ [])
    (hdigits : ∀ c ∈ n.whole, isDigit c = true) : n.IsCss := by
  simp only [Numeral.isInteger, Bool.and_eq_true, Option.isNone_iff_eq_none] at hinteger
  exact ⟨hdigits, by simp [hinteger.1], by simp [hinteger.2], .inl hne⟩

theorem isArithmetic_numberText (hinteger : n.isInteger = true)
    (hdigits : ∀ c ∈ n.whole, isDigit c = true) (hlt : decimalValue n.whole < 2 ^ 24) :
    ∀ c ∈ numberText n, isArithmetic c = true := by
  obtain ⟨digits, -, hall, -, htext⟩ := numberText_integer hinteger hdigits hlt
  rw [htext]
  refine isArithmetic_verbatim fun c hc => ?_
  rcases List.mem_append.mp hc with hc | hc
  · split at hc
    · exact .inr (List.mem_singleton.mp hc)
    · cases hc
  · exact .inl (hall c hc)

theorem mem_symbols_append (hrest : ∀ c ∈ rest.head?, isNumeralChar c = false)
    (source : List Char) : ∀ symbol ∈ symbols rest, symbol ∈ symbols (source ++ rest) := by
  intro symbol hsymbol
  rw [symbols_append hrest]
  exact List.mem_append_right _ hsymbol

/-! ### Each kind of token -/

theorem front_space {source : List Char} (hne : source ≠ [])
    (hsource : ∀ c ∈ source, Css.isSpace c = true)
    (hrest : ∀ c ∈ rest.head?, Css.isSpace c = false) :
    Front source .whitespace rest := by
  have hsame := symbols_spaces hsource rest
  have hglues := gluesPlus_spaces hsource rest
  refine ⟨?_, ⟨rfl, by simp, by simp [writeToken, Written.empty]⟩, fun symbol hsymbol => ?_, ?_⟩
  · obtain ⟨c, s, rfl⟩ := List.exists_cons_of_ne_nil hne
    obtain ⟨hc, hs⟩ := List.forall_mem_cons.mp hsource
    have hstop : ∀ d ∈ (rest ++ [';']).head?, Css.isSpace d = false :=
      forall_head?_append hrest (forall_head?_cons (by rfl) [])
    obtain ⟨htake, hdrop⟩ := takeWhile_run hs hstop
    rw [List.cons_append, lexemes_space hc, htake, hdrop]
  · rwa [hsame]
  · intro b hb behind
    rw [hglues, hsame]
    exact hb behind

theorem front_operator {c : Char} (hc : c ∈ ['+', '-', '*', '/'])
    (hgoes : Goes rest) (hsign : c = '+' ∨ c = '-' → startsWithDigit rest = false)
    (hdash : c = '-' → rest.head? ≠ some '-') (hslash : c = '/' → rest.head? ≠ some '*') :
    Front [c] (.delimiter c) rest := by
  have hsemicolon : ';' ∈ marks := by decide
  have hspace : Arithmetic.isSpace c = false ∧ isNumeralChar c = false ∧ c ≠ '!' ∧
      isArithmetic c = true ∧ Symbol.ofChar c ∈ [.plus, .minus, .times, .slash] := by
    have hall : ∀ d ∈ ['+', '-', '*', '/'], Arithmetic.isSpace d = false ∧
        isNumeralChar d = false ∧ d ≠ '!' ∧ isArithmetic d = true ∧
          Symbol.ofChar d ∈ [.plus, .minus, .times, .slash] := forall_mem_of_all (by decide)
    exact hall c hc
  obtain ⟨hblank, hnumeral, hbang, harithmetic, hsymbol⟩ := hspace
  have hwrite : writeToken (.delimiter c) = .piece [c] := by
    have hall : ∀ d ∈ ['+', '-', '*', '/'], writeToken (.delimiter d) = .piece [d] :=
      forall_mem_of_all (by decide)
    exact hall c hc
  have hsymbols := symbols_char hblank hnumeral
  refine ⟨?_, ⟨rfl, by simpa using hbang, ?_⟩, ?_, ?_⟩
  · exact lexemes_operator hc (head_spec hgoes)
      (fun h => (startsWithDigit_stop hsemicolon).trans (hsign h))
      (fun h => mt (head?_stop_eq hsemicolon (by decide)).mp (hdash h))
      (fun h => mt (head?_stop_eq hsemicolon (by decide)).mp (hslash h))
  · rw [hwrite]
    simpa [Written.piece] using harithmetic
  · intro symbol hmem
    rw [List.singleton_append, hsymbols]
    exact List.mem_cons_of_mem _ hmem
  · intro b hb behind
    have hglues : gluesPlus behind (c :: rest) = gluesPlus false rest := by
      by_cases hplus : c = '+'
      · rw [hplus, gluesPlus_plus, hsign (.inl hplus), Bool.and_false, Bool.false_or]
      · refine gluesPlus_operator ?_ behind rest
        exact (List.mem_cons.mp hc).resolve_left hplus
    have htoken : tokenSymbols (.delimiter c) = [Symbol.ofChar c] := by
      unfold tokenSymbols
      rw [hwrite]
      show symbols [c] ++ [] = _
      rw [List.append_nil, hsymbols]
      rfl
    rw [List.singleton_append, hglues, hsymbols, htoken]
    exact .operator hsymbol (hb false)

theorem lexemes_dashes {s z : List Char} (hname : IsPlainName ('-' :: '-' :: s))
    (hz : EndsName z) (hparen : z.head? ≠ some '(') (hmark : (s ++ z).head? ≠ some '>') :
    lexemes ('-' :: '-' :: s ++ z) =
      ⟨.ident (String.ofList ('-' :: '-' :: s)), '-' :: '-' :: s⟩ :: lexemes z := by
  have hread := readName_append hname hz
  have htoken : nameToken ('-' :: '-' :: (s ++ z)) =
      (.ident (String.ofList ('-' :: '-' :: s)), s.length + 2) := by
    rw [List.cons_append, List.cons_append] at hread
    simp [nameToken, hread, hparen]
  have harrow : (s ++ z).take 1 ≠ ['>'] := by
    intro htake
    have hhead := congrArg List.head? htake
    rw [List.head?_take, if_neg (by decide)] at hhead
    exact hmark hhead
  refine lexemes_of_tokenAt (c := '-') (s := '-' :: s) ?_
  simp [tokenAt, Css.isSpace, isNewline, isDigit, startsMagnitude, startsWithDigit, startsName,
    harrow, htoken]

theorem front_name {source : List Char} (hstart : ∃ s, source = '-' :: '-' :: s)
    (hsource : ∀ c ∈ source, isDigit c = true ∨ c = '-') (hgoes : Goes rest)
    (hrest : ∀ c ∈ rest.head?, isDigit c = false ∧ c ≠ '-') :
    Front source (.ident (String.ofList source)) rest := by
  have hdigit := startsWithDigit_of_head fun c hc => (hrest c hc).1
  have hnumeral := head_not_numeral hgoes hdigit
  have hpieces : (writeToken (.ident (String.ofList source))).pieces = [source] := by
    simp [writeToken, Written.piece]
  refine ⟨?_, ⟨rfl, by simp, ?_⟩, mem_symbols_append hnumeral source, ?_⟩
  · obtain ⟨s, rfl⟩ := hstart
    refine lexemes_dashes (isPlainName_verbatim hsource) (endsName_arithmetic hgoes hrest) ?_ ?_
    · intro hparen
      exact (head_spec hgoes '(' hparen).2 (by decide)
    · have hs : ∀ c ∈ s.head?, c ≠ '>' := by
        rintro c hc rfl
        have hmem := List.mem_of_mem_head? hc
        rcases hsource '>' (List.mem_cons_of_mem _ (List.mem_cons_of_mem _ hmem)) with h | h <;>
          exact absurd h (by decide)
      have hstop : ∀ c ∈ (rest ++ [';']).head?, c ≠ '>' := by
        rintro c hc rfl
        exact (head_spec hgoes '>' hc).2 (by decide)
      intro hmark
      exact forall_head?_append hs hstop '>' hmark rfl
  · rw [hpieces]
    simpa using isArithmetic_verbatim hsource
  · intro b hb behind
    have htoken : tokenSymbols (.ident (String.ofList source)) = symbols source := by
      simp [tokenSymbols, hpieces]
    rw [htoken]
    exact rewritten_verbatim hnumeral hb source hsource behind

theorem front_number (hinteger : n.isInteger = true)
    (hne : n.whole ≠ []) (hdigits : ∀ c ∈ n.whole, isDigit c = true)
    (hlt : decimalValue n.whole < 2 ^ 24) (hgoes : Goes rest)
    (hrest : ∀ c ∈ rest.head?, isDigit c = false) (hname : startsName rest = false) :
    Front n.source (.number n) rest := by
  have hnumeral := head_not_numeral hgoes (startsWithDigit_of_head hrest)
  have hpieces : (writeToken (.number n)).pieces = [numberText n] := by
    simp [writeToken, Written.piece]
  obtain ⟨hends, hpercent⟩ := endsNumeral_arithmetic hgoes hrest
  refine ⟨?_, ⟨rfl, by simp, ?_⟩, mem_symbols_append hnumeral n.source, ?_⟩
  · refine lexemes_number (isCss_integer hinteger hne hdigits) hends hpercent ?_
    rwa [startsName_stop (by decide)]
    rintro rfl
    exact absurd (hgoes '\\' List.mem_cons_self) (by decide)
  · rw [hpieces]
    simpa using isArithmetic_numberText hinteger hdigits hlt
  · intro b hb behind
    have htoken : tokenSymbols (.number n) = symbols (numberText n) := by
      simp [tokenSymbols, hpieces]
    rw [htoken]
    exact rewritten_source hinteger hne hdigits hlt hnumeral (hb true) behind

theorem front_dimension (hinteger : n.isInteger = true)
    (hne : n.whole ≠ []) (hdigits : ∀ c ∈ n.whole, isDigit c = true)
    (hlt : decimalValue n.whole < 2 ^ 24) (hstart : ∃ s, u = '-' :: '-' :: s)
    (hu : ∀ c ∈ u, isDigit c = true ∨ c = '-') (hgoes : Goes rest)
    (hrest : ∀ c ∈ rest.head?, isDigit c = false ∧ c ≠ '-') :
    Front (n.source ++ u) (.dimension n (String.ofList u)) rest := by
  have hdigit := startsWithDigit_of_head fun c hc => (hrest c hc).1
  have hnumeral := head_not_numeral hgoes hdigit
  have hpieces : (writeToken (.dimension n (String.ofList u))).pieces =
      [numberText n ++ ' ' :: u] := by
    simp [writeToken, Written.piece, lower_verbatim hu]
  obtain ⟨w, hw⟩ := hstart
  refine ⟨?_, ⟨rfl, by simp, ?_⟩, mem_symbols_append hnumeral _, ?_⟩
  · rw [List.append_assoc]
    have hhead : (u ++ (rest ++ [';'])).head? = some '-' := by rw [hw]; rfl
    refine lexemes_dimension (isCss_integer hinteger hne hdigits) (isPlainName_verbatim hu)
      (endsName_arithmetic hgoes hrest) (endsNumeral_of_head ?_) (by simp [hhead]) ?_
    · intro c hc
      obtain rfl := Option.mem_some_iff.mp (hhead ▸ hc)
      decide
    · rw [hw]
      rfl
  · rw [hpieces, List.forall_mem_singleton, List.forall_mem_append, List.forall_mem_cons]
    exact ⟨isArithmetic_numberText hinteger hdigits hlt, rfl, isArithmetic_verbatim hu⟩
  · intro b hb behind
    have htoken : tokenSymbols (.dimension n (String.ofList u)) ++ b =
        symbols (numberText n) ++ (symbols u ++ b) := by
      have hspace : ∀ c ∈ (' ' :: u).head?, isNumeralChar c = false := forall_head?_cons (by rfl) u
      unfold tokenSymbols
      rw [hpieces, List.flatMap_singleton, symbols_append hspace, symbols_space rfl,
        List.append_assoc]
    have hdash : ∀ c ∈ (u ++ rest).head?, isNumeralChar c = false := by
      intro c hc
      obtain rfl : '-' = c := by simpa [hw] using hc
      rfl
    rw [htoken, List.append_assoc]
    exact rewritten_source hinteger hne hdigits hlt hdash
      (rewritten_verbatim hnumeral hb u hu true) behind

end

/-! ## The first token -/

/-- Arithmetic without parentheses: no comment starts in it, and its numbers are small enough to be
written digit by digit. -/
structure IsFlat (text : List Char) : Prop where
  arithmetic : ∀ c ∈ text, isArithmetic c = true
  no_comment : ¬['/', '*'] <:+: text
  small : ∀ t, .numeral t ∈ symbols text → decimalValue t < 2 ^ 24

theorem exists_dashes (w : List Char) :
    ∃ u rest, '-' :: '-' :: w = u ++ rest ∧ (∃ s, u = '-' :: '-' :: s) ∧
      (∀ c ∈ u, isDigit c = true ∨ c = '-') ∧ ∀ c ∈ rest.head?, isDigit c = false ∧ c ≠ '-' := by
  obtain ⟨run, rest, heq, hne, hrun, hrest, -⟩ :=
    exists_run (p := fun c => isDigit c || c = '-') (c := '-') rfl w
  obtain ⟨d, run, rfl⟩ := List.exists_cons_of_ne_nil hne
  obtain ⟨rfl, -⟩ := List.cons.inj heq
  refine ⟨'-' :: '-' :: run, rest, by rw [heq]; rfl, ⟨run, rfl⟩, ?_, ?_⟩
  · refine List.forall_mem_cons.mpr ⟨.inr rfl, fun c hc => ?_⟩
    simpa using hrun c hc
  · intro c hc
    simpa using hrest c hc

theorem startsName_arithmetic {rest : List Char} (hgoes : Goes rest) (h : startsName rest = true) :
    ∃ w, rest = '-' :: '-' :: w := by
  have hspec : ∀ d ∈ rest, isNameStart d = false ∧ d ≠ '\\' := fun d hd => by
    obtain ⟨hstart, hmarks, -⟩ := isArithmetic_spec (hgoes d hd)
    exact ⟨hstart, fun heq => hmarks (by simp [heq])⟩
  match rest, h with
  | c :: rest, h =>
    obtain ⟨hc, hescape⟩ := hspec c List.mem_cons_self
    by_cases hdash : c = '-'
    · subst hdash
      cases rest with
      | nil => cases h
      | cons d rest =>
        obtain ⟨hd, hescape⟩ := hspec d (by simp)
        have hsecond : d = '-' := by simpa [startsName, hd, hescape] using h
        exact ⟨rest, by rw [hsecond]⟩
    · simp [startsName, hdash, hc, hescape] at h

/-- A number takes a name behind it with it, and else it stands by itself. -/
theorem exists_front_numeral (sign : Option Sign) {digits rest : List Char} (hne : digits ≠ [])
    (hdigits : ∀ c ∈ digits, isDigit c = true) (hlt : decimalValue digits < 2 ^ 24)
    (hgoes : Goes rest) (hrest : ∀ c ∈ rest.head?, isDigit c = false) :
    ∃ source token rest', Sign.source sign ++ (digits ++ rest) = source ++ rest' ∧
      source ≠ [] ∧ Front source token rest' := by
  have hsource : Numeral.source ⟨sign, digits, none, none⟩ = Sign.source sign ++ digits := by
    simp [Numeral.source, Numeral.fractionSource, Exponent.source]
  have hsome : Numeral.source ⟨sign, digits, none, none⟩ ≠ [] := by simp [hsource, hne]
  cases hname : startsName rest with
  | false =>
    exact ⟨_, _, rest, by rw [hsource, List.append_assoc], hsome,
      front_number (n := ⟨sign, digits, none, none⟩) rfl hne hdigits hlt hgoes hrest hname⟩
  | true =>
    obtain ⟨w, rfl⟩ := startsName_arithmetic hgoes hname
    obtain ⟨u, rest, heq, hstart, hu, hstop⟩ := exists_dashes w
    rw [heq] at hgoes ⊢
    refine ⟨_, _, rest, by rw [hsource]; simp, by simp [hsome],
      front_dimension (n := ⟨sign, digits, none, none⟩) rfl hne hdigits hlt hstart hu ?_ hstop⟩
    exact fun c hc => hgoes c (List.mem_append_right _ hc)

theorem symbols_signed (sign : Option Sign) (text : List Char) :
    symbols text <:+ symbols (Sign.source sign ++ text) := by
  cases sign with
  | none => exact List.suffix_rfl
  | some sign =>
    have hsign : symbols (sign.char :: text) = Symbol.ofChar sign.char :: symbols text := by
      cases sign <;> exact symbols_char rfl rfl _
    show _ <:+ symbols (sign.char :: text)
    rw [hsign]
    exact List.suffix_cons ..

theorem IsFlat.exists_front_signed {sign : Option Sign} {t : List Char}
    (h : IsFlat (Sign.source sign ++ t)) (ht : startsWithDigit t = true) :
    ∃ source token rest, Sign.source sign ++ t = source ++ rest ∧ source ≠ [] ∧
      Front source token rest := by
  cases t with
  | nil => cases ht
  | cons d t =>
    have hd : isDigit d = true := by simpa [startsWithDigit] using ht
    obtain ⟨digits, rest, hsplit, hne, hdigits, hrest, -⟩ := exists_run hd t
    rw [hsplit] at h ⊢
    have hgoes : Goes rest := fun e he => h.arithmetic e (by simp [he])
    have hnumeral : .numeral digits ∈ symbols (digits ++ rest) := by
      rw [symbols_digits hne hdigits (head_not_numeral hgoes (startsWithDigit_of_head hrest))]
      exact List.mem_cons_self
    have hsmall := h.small digits ((symbols_signed sign _).subset hnumeral)
    exact exists_front_numeral sign hne hdigits hsmall hgoes hrest

theorem exists_front {c : Char} {s : List Char} (h : IsFlat (c :: s)) :
    ∃ source token rest, c :: s = source ++ rest ∧ source ≠ [] ∧ Front source token rest := by
  obtain ⟨hc, hs⟩ := List.forall_mem_cons.mp h.arithmetic
  rcases isArithmetic_cases hc with hdigit | hspace | hoperator
  · exact @IsFlat.exists_front_signed none _ h (by simpa [startsWithDigit] using hdigit)
  · obtain ⟨run, rest, heq, hne, hrun, hrest, -⟩ := exists_run hspace s
    exact ⟨run, _, rest, heq, hne, front_space hne hrun hrest⟩
  · by_cases hsign : c = '+' ∨ c = '-' → startsWithDigit s = false
    · by_cases hdash : c = '-' ∧ s.head? = some '-'
      · obtain ⟨rfl, hhead⟩ := hdash
        obtain ⟨w, rfl⟩ := List.head?_eq_some_iff.mp hhead
        obtain ⟨u, rest, heq, hstart, hu, hstop⟩ := exists_dashes w
        refine ⟨u, _, rest, heq, by obtain ⟨t, rfl⟩ := hstart; simp,
          front_name hstart hu (fun d hd => ?_) hstop⟩
        exact h.arithmetic d (by rw [heq]; exact List.mem_append_right _ hd)
      · refine ⟨[c], _, s, rfl, by simp, front_operator hoperator hs hsign ?_ ?_⟩
        · exact fun hc hhead => hdash ⟨hc, hhead⟩
        · rintro rfl hhead
          obtain ⟨t, rfl⟩ := List.head?_eq_some_iff.mp hhead
          exact h.no_comment (List.prefix_append ['/', '*'] t).isInfix
    · simp only [Classical.not_imp, Bool.not_eq_false] at hsign
      obtain ⟨rfl | rfl, hdigit⟩ := hsign
      · exact @IsFlat.exists_front_signed (some .plus) s h hdigit
      · exact @IsFlat.exists_front_signed (some .minus) s h hdigit

/-! ## All tokens -/

theorem IsFlat.rest {source token rest} (h : IsFlat (source ++ rest))
    (hfront : Front source token rest) : IsFlat rest :=
  ⟨fun c hc => h.arithmetic c (List.mem_append_right _ hc),
    fun hstarts => h.no_comment (hstarts.trans (List.suffix_append source rest).isInfix),
    fun t ht => h.small t (hfront.symbols_rest _ ht)⟩

theorem exists_lexemes {text : List Char} (h : IsFlat text) :
    ∃ ls, lexemes (text ++ [';']) = ls ++ [semicolon] ∧ (∀ l ∈ ls, IsPlainToken l.token) ∧
      ∀ behind, Rewritten behind (gluesPlus behind text) (symbols text)
        (ls.flatMap fun l => tokenSymbols l.token) := by
  match text with
  | [] => exact ⟨[], lexemes_semicolon [], by simp, fun _ => .nil⟩
  | c :: s =>
    obtain ⟨source, token, rest, heq, hne, hfront⟩ := exists_front h
    have hshort : rest.length ≤ s.length := by
      have hlength := congrArg List.length heq
      have hpositive := List.length_pos_iff.mpr hne
      rw [List.length_append, List.length_cons] at hlength
      omega
    rw [heq] at h
    obtain ⟨ls, hlexemes, hplain, hrewritten⟩ := exists_lexemes (h.rest hfront)
    refine ⟨⟨token, source⟩ :: ls, ?_, ?_, ?_⟩
    · rw [heq, List.append_assoc, hfront.lexemes_eq, hlexemes, List.cons_append]
    · exact List.forall_mem_cons.mpr ⟨hfront.plain, hplain⟩
    · rw [heq, List.flatMap_cons]
      exact hfront.rewritten _ hrewritten
termination_by text.length

end ClassStyle.Css
