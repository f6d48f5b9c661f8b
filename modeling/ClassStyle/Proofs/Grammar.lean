import ClassStyle.Proofs.ArithmeticTokens

/-!
# The grammar of arithmetic

What an arithmetic text may look like and what it comes to, said without the steps of reading it.
Exactly the texts of this grammar that come to a finite number have a value
(`Arithmetic.evaluate_eq_some_iff`).
-/

namespace ClassStyle.Arithmetic

open Text

/-! ## Numerals -/

/-- Digits with at most one dot, and at least one digit. -/
structure IsNumeral (text : List Char) : Prop where
  chars : ∀ c ∈ text, isDigit c = true ∨ c = '.'
  dots : text.count '.' ≤ 1
  digit : ∃ c ∈ text, isDigit c = true

/-- The double-precision number nearest to a numeral: its digits as one integer, divided by ten as
often as digits stand behind the dot. -/
def numeralValue (text : List Char) : Float :=
  let places := (text.dropWhile isDigit).tail.length
  (Decimal.finite false (decimalValue (text.filter isDigit)) (-places)).toFloat

theorem exists_digits {text : List Char} (h : ∀ c ∈ text, isNumeralChar c = true) :
    ∃ digits rest, text = digits ++ rest ∧ (∀ c ∈ digits, isDigit c = true) ∧
      (rest = [] ∨ ∃ more, rest = '.' :: more ∧ ∀ c ∈ more, isNumeralChar c = true) := by
  refine ⟨text.takeWhile isDigit, text.dropWhile isDigit,
    List.takeWhile_append_dropWhile.symm,
    fun c hc => List.all_eq_true.mp List.all_takeWhile c hc, ?_⟩
  have hnot := List.head?_dropWhile_not isDigit text
  have hsub := (List.dropWhile_sublist isDigit (l := text)).subset
  cases hrest : text.dropWhile isDigit with
  | nil => exact .inl rfl
  | cons c more =>
    rw [hrest] at hnot hsub
    have hc := h c (hsub List.mem_cons_self)
    simp only [isNumeralChar, Bool.or_eq_true, decide_eq_true_eq] at hc
    obtain rfl : c = '.' := hc.resolve_left (by simpa using hnot)
    exact .inr ⟨more, rfl, fun d hd => h d (hsub (List.mem_cons_of_mem _ hd))⟩

theorem scan_dotted {whole fraction rest : List Char} (hwhole : ∀ c ∈ whole, isDigit c = true)
    (hfraction : ∀ c ∈ fraction, isDigit c = true) (hrest : rest = [] ∨ ∃ more, rest = '.' :: more)
    (hne : whole ≠ [] ∨ fraction ≠ []) :
    Numeral.scan true (whole ++ '.' :: (fraction ++ rest)) =
      some (⟨none, whole, some fraction, none⟩, rest) := by
  have hhead : ∀ c ∈ (whole ++ '.' :: (fraction ++ rest)).head?, c ≠ '+' ∧ c ≠ '-' := by
    cases whole with
    | nil => exact forall_head?_cons (by decide) _
    | cons d whole =>
      exact forall_head?_cons (Numeral.ne_sign_of_isDigit (hwhole d List.mem_cons_self)) _
  have hdot : rest.head?.any isDigit = false := by
    rcases hrest with rfl | ⟨more, rfl⟩ <;> rfl
  have hexponent : Exponent.scan rest = (none, rest) := by
    rcases hrest with rfl | ⟨more, rfl⟩
    · rfl
    · simp [Exponent.scan]
  have hsign := Numeral.scan_sign_body none hhead
  obtain ⟨htake, hdrop⟩ := takeWhile_isDigit (s := '.' :: (fraction ++ rest)) hwhole rfl
  obtain ⟨htake', hdrop'⟩ := takeWhile_isDigit hfraction hdot
  rw [Sign.source, List.nil_append] at hsign
  have hscan : Numeral.scanFraction (true && !whole.isEmpty) ('.' :: (fraction ++ rest)) =
      (some fraction, rest) := by
    have hdigits : fraction ≠ [] ∨ (true && !whole.isEmpty) = true :=
      hne.symm.imp id fun h => by simpa using h
    simp only [Numeral.scanFraction, htake', hdrop']
    exact if_pos ⟨trivial, hdigits⟩
  simp only [Numeral.scan, hsign, htake, hdrop, hscan, hexponent]
  simp

theorem readFloat?_dot {rest : List Char} (hrest : rest = [] ∨ ∃ more, rest = '.' :: more) :
    readFloat? ('.' :: rest) = none := by
  have hdigits : rest.takeWhile isDigit = [] := by
    rcases hrest with rfl | ⟨more, rfl⟩ <;> rfl
  have hscan : Numeral.scan true ('.' :: rest) = none := by
    simp [Numeral.scan, Sign.scan, Numeral.scanFraction, isDigit, hdigits]
  have hword : Decimal.ofWord? ('.' :: rest) = none := by
    simp [Decimal.ofWord?, Sign.scan, lower, lowerChar]
  rw [readFloat?, Decimal.ofText?, hscan, hword]
  rfl

section

variable {whole fraction : List Char} (hwhole : ∀ c ∈ whole, isDigit c = true)
  (hfraction : ∀ c ∈ fraction, isDigit c = true)

include hwhole

theorem count_dot_digits : whole.count '.' = 0 :=
  List.count_eq_zero.mpr fun hdot => absurd (hwhole '.' hdot) (by decide)

theorem isNumeral_digits : IsNumeral whole ↔ whole ≠ [] := by
  constructor
  · rintro ⟨-, -, c, hc, -⟩
    exact List.ne_nil_of_mem hc
  · intro hne
    obtain ⟨c, hc⟩ := List.exists_mem_of_ne_nil whole hne
    exact ⟨fun d hd => .inl (hwhole d hd), by rw [count_dot_digits hwhole]; decide, c, hc,
      hwhole c hc⟩

theorem numeralValue_digits :
    numeralValue whole = (Decimal.finite false (decimalValue whole) 0).toFloat := by
  have hdrop : whole.dropWhile isDigit = [] := List.dropWhile_eq_nil_iff.mpr hwhole
  simp [numeralValue, hdrop, List.filter_eq_self.mpr hwhole]

include hfraction

theorem isNumeral_dotted :
    IsNumeral (whole ++ '.' :: fraction) ↔ whole ≠ [] ∨ fraction ≠ [] := by
  constructor
  · rintro ⟨-, -, c, hc, hdigit⟩
    rcases List.mem_append.mp hc with hc | hc
    · exact .inl (List.ne_nil_of_mem hc)
    · rcases List.mem_cons.mp hc with rfl | hc
      · cases hdigit
      · exact .inr (List.ne_nil_of_mem hc)
  · intro hne
    refine ⟨fun c hc => ?_, ?_, ?_⟩
    · rcases List.mem_append.mp hc with hc | hc
      · exact .inl (hwhole c hc)
      · exact (List.mem_cons.mp hc).symm.imp (hfraction c) id
    · simp [List.count_append, count_dot_digits hwhole, count_dot_digits hfraction]
    · rcases hne with hne | hne
      · obtain ⟨c, hc⟩ := List.exists_mem_of_ne_nil whole hne
        exact ⟨c, List.mem_append_left _ hc, hwhole c hc⟩
      · obtain ⟨c, hc⟩ := List.exists_mem_of_ne_nil fraction hne
        exact ⟨c, List.mem_append_right _ (List.mem_cons_of_mem _ hc), hfraction c hc⟩

theorem numeralValue_dotted :
    numeralValue (whole ++ '.' :: fraction) =
      (Decimal.finite false (decimalValue (whole ++ fraction)) (-fraction.length)).toFloat := by
  have hdrop := (takeWhile_isDigit (s := '.' :: fraction) hwhole rfl).2
  have hdot : isDigit '.' = false := rfl
  simp [numeralValue, hdrop, List.filter_append, List.filter_eq_self.mpr hwhole,
    List.filter_eq_self.mpr hfraction, hdot]

end

theorem readFloat?_numeralChars {text : List Char} (h : ∀ c ∈ text, isNumeralChar c = true) :
    IsNumeral text ∧ readFloat? text = some (numeralValue text) ∨
      ¬IsNumeral text ∧ readFloat? text = none := by
  obtain ⟨whole, rest, rfl, hwhole, rfl | ⟨more, rfl, hmore⟩⟩ := exists_digits h
  · rw [List.append_nil, isNumeral_digits hwhole, numeralValue_digits hwhole]
    by_cases hne : whole = []
    · subst hne
      exact .inr ⟨fun h => h rfl, rfl⟩
    · exact .inl ⟨hne, readFloat?_digits hne hwhole⟩
  · obtain ⟨fraction, rest, rfl, hfraction, rfl | ⟨more, rfl, -⟩⟩ := exists_digits hmore
    · rw [List.append_nil, isNumeral_dotted hwhole hfraction]
      by_cases hne : whole ≠ [] ∨ fraction ≠ []
      · have hscan := scan_dotted hwhole hfraction (.inl rfl) hne
        rw [List.append_nil] at hscan
        refine .inl ⟨hne, ?_⟩
        rw [readFloat?, Decimal.ofText?_source hscan, numeralValue_dotted hwhole hfraction]
        simp [Decimal.ofNumeral, Sign.isMinus, Numeral.fractionDigits]
      · obtain ⟨rfl, rfl⟩ : whole = [] ∧ fraction = [] := by simpa using hne
        exact .inr ⟨hne, readFloat?_dot (.inl rfl)⟩
    · have hdots : ∃ other, '.' :: more = '.' :: other := ⟨more, rfl⟩
      refine .inr ⟨fun hnumeral => ?_, ?_⟩
      · have hcount := hnumeral.dots
        simp only [List.count_append, List.count_cons_self] at hcount
        omega
      · by_cases hne : whole ≠ [] ∨ fraction ≠ []
        · rw [readFloat?, Decimal.ofText?, scan_dotted hwhole hfraction (.inr hdots) hne]
          rfl
        · obtain ⟨rfl, rfl⟩ : whole = [] ∧ fraction = [] := by simpa using hne
          exact readFloat?_dot (.inr hdots)

theorem readFloat?_of_isNumeral {text : List Char} (h : IsNumeral text) :
    (∀ c ∈ text, isNumeralChar c = true) ∧ readFloat? text = some (numeralValue text) := by
  have hchars : ∀ c ∈ text, isNumeralChar c = true := fun c hc => by
    simpa [isNumeralChar] using h.chars c hc
  exact ⟨hchars, ((readFloat?_numeralChars hchars).resolve_right fun hnot => hnot.1 h).2⟩

/-! ## Derivations -/

/-- What an expression may stand as: a part of a sum holds products, and a part of a product holds
terms. -/
inductive Level where
  | sum
  | product
  | term

def AllSpaces (text : List Char) : Prop := ∀ c ∈ text, isSpace c = true

/-- The text derives as an expression. The number is that of the signs and parentheses around the
numeral that has the most of them. -/
inductive Derives : Level → Nat → List Char → Expression → Prop
  | numeral {text : List Char} (h : IsNumeral text) :
      Derives .term 0 text (.number (numeralValue text))
  | positive {depth : Nat} {spaces text : List Char} {e : Expression} (hspaces : AllSpaces spaces)
      (operand : Derives .term depth text e) :
      Derives .term (depth + 1) ('+' :: (spaces ++ text)) (.positive e)
  | negative {depth : Nat} {spaces text : List Char} {e : Expression} (hspaces : AllSpaces spaces)
      (operand : Derives .term depth text e) :
      Derives .term (depth + 1) ('-' :: (spaces ++ text)) (.negative e)
  | group {depth : Nat} {before text after : List Char} {e : Expression}
      (hbefore : AllSpaces before) (hafter : AllSpaces after) (inner : Derives .sum depth text e) :
      Derives .term (depth + 1) ('(' :: (before ++ (text ++ (after ++ [')'])))) e
  | factor {depth : Nat} {text : List Char} {e : Expression}
      (operand : Derives .term depth text e) : Derives .product depth text e
  | product {depth depth' : Nat} {text before after text' : List Char} {c : Char} {op : Operation}
      {left right : Expression} (hop : (c, op) ∈ [('*', .multiply), ('/', .divide)])
      (hbefore : AllSpaces before) (hafter : AllSpaces after)
      (hleft : Derives .product depth text left) (hright : Derives .term depth' text' right) :
      Derives .product (max depth depth') (text ++ (before ++ c :: (after ++ text')))
        (.binary op left right)
  | summand {depth : Nat} {text : List Char} {e : Expression}
      (operand : Derives .product depth text e) : Derives .sum depth text e
  | sum {depth depth' : Nat} {text before after text' : List Char} {c : Char} {op : Operation}
      {left right : Expression} (hop : (c, op) ∈ [('+', .add), ('-', .subtract)])
      (hbefore : AllSpaces before) (hafter : AllSpaces after)
      (hleft : Derives .sum depth text left) (hright : Derives .product depth' text' right) :
      Derives .sum (max depth depth') (text ++ (before ++ c :: (after ++ text')))
        (.binary op left right)

/-- The text is an expression, perhaps with blanks around it. -/
def IsExpression (depth : Nat) (text : List Char) (e : Expression) : Prop :=
  ∃ before body after, text = before ++ (body ++ after) ∧ AllSpaces before ∧ AllSpaces after ∧
    Derives .sum depth body e

/-! ## Symbols and their texts -/

/-- The text that a symbol stands for. -/
def Symbol.source : Symbol → List Char
  | numeral text => text
  | plus => ['+']
  | minus => ['-']
  | times => ['*']
  | slash => ['/']
  | opening => ['(']
  | closing => [')']
  | other c => [c]

theorem ofChar_spec (c : Char) :
    (Symbol.ofChar c).source = [c] ∧ ∀ text, Symbol.ofChar c ≠ .numeral text := by
  unfold Symbol.ofChar
  split_ifs <;> simp_all [Symbol.source]

theorem exists_front (s : List Char) :
    symbols s = [] ∧ AllSpaces s ∨
      ∃ symbol spaces tail, symbols s = symbol :: symbols tail ∧ AllSpaces spaces ∧
        s = spaces ++ (symbol.source ++ tail) ∧
        ∀ text, symbol = .numeral text → ∀ c ∈ text, isNumeralChar c = true := by
  induction s with
  | nil => exact .inl ⟨rfl, List.forall_mem_nil _⟩
  | cons c s ih =>
    by_cases hspace : isSpace c = true
    · rw [symbols_space hspace]
      rcases ih with ⟨hnil, hs⟩ | ⟨symbol, spaces, tail, hsymbols, hspaces, hs, hnumeral⟩
      · exact .inl ⟨hnil, List.forall_mem_cons.mpr ⟨hspace, hs⟩⟩
      · exact .inr ⟨symbol, c :: spaces, tail, hsymbols,
          List.forall_mem_cons.mpr ⟨hspace, hspaces⟩, congrArg (c :: ·) hs, hnumeral⟩
    · rw [Bool.not_eq_true] at hspace
      right
      by_cases hc : isNumeralChar c = true
      · obtain ⟨run, tail, heq, hne, hrun, htail, -⟩ := exists_run hc s
        refine ⟨.numeral run, [], tail, ?_, List.forall_mem_nil _, heq, ?_⟩
        · rw [heq, symbols_run hne hrun htail]
        · rintro text htext
          cases htext
          exact hrun
      · rw [Bool.not_eq_true] at hc
        obtain ⟨hsource, hne⟩ := ofChar_spec c
        refine ⟨Symbol.ofChar c, [], s, symbols_char hspace hc s, List.forall_mem_nil _, ?_, ?_⟩
        · rw [hsource]
          rfl
        · exact fun text htext => absurd htext (hne text)

theorem exists_split {s : List Char} {symbol : Symbol} {rest : List Symbol}
    (h : symbols s = symbol :: rest) :
    ∃ spaces tail, s = spaces ++ (symbol.source ++ tail) ∧ AllSpaces spaces ∧
      symbols tail = rest ∧
      ∀ text, symbol = .numeral text → ∀ c ∈ text, isNumeralChar c = true := by
  obtain ⟨hnil, -⟩ | ⟨first, spaces, tail, hsymbols, hspaces, hs, hnumeral⟩ := exists_front s
  · rw [hnil] at h
    cases h
  · rw [hsymbols] at h
    obtain ⟨rfl, rfl⟩ := List.cons.inj h
    exact ⟨spaces, tail, hs, hspaces, rfl, hnumeral⟩

theorem allSpaces_nil : AllSpaces [] := List.forall_mem_nil _

theorem AllSpaces.symbols_append {spaces : List Char} (h : AllSpaces spaces) (s : List Char) :
    symbols (spaces ++ s) = symbols s :=
  Css.symbols_spaces (fun c hc => by rw [← Css.isSpace_eq, h c hc]) s

theorem AllSpaces.not_isNumeralChar {spaces : List Char} (h : AllSpaces spaces) :
    ∀ c ∈ spaces.head?, isNumeralChar c = false := by
  intro c hc
  have hspace := h c (List.mem_of_mem_head? hc)
  refine Bool.eq_false_iff.mpr fun hnumeral => ?_
  rw [not_isSpace_of_isNumeralChar hnumeral] at hspace
  cases hspace

/-- Operators and parentheses. -/
def marks : List Char := ['+', '-', '*', '/', '(', ')']

theorem symbols_mark {before after : List Char} {c : Char} (hc : c ∈ marks)
    (hbefore : AllSpaces before) (hafter : AllSpaces after) (s t : List Char) :
    symbols (s ++ (before ++ c :: (after ++ t))) = symbols s ++ Symbol.ofChar c :: symbols t := by
  obtain ⟨hspace, hnumeral⟩ : isSpace c = false ∧ isNumeralChar c = false := by
    simp only [marks, List.mem_cons, List.not_mem_nil, or_false] at hc
    rcases hc with rfl | rfl | rfl | rfl | rfl | rfl <;> exact ⟨rfl, rfl⟩
  rw [symbols_append, hbefore.symbols_append, symbols_char hspace hnumeral, hafter.symbols_append]
  exact forall_head?_append hbefore.not_isNumeralChar (forall_head?_cons hnumeral _)

theorem symbols_front {c : Char} (hc : c ∈ marks) {spaces : List Char}
    (hspaces : AllSpaces spaces) (text : List Char) :
    symbols (c :: (spaces ++ text)) = Symbol.ofChar c :: symbols text :=
  symbols_mark hc allSpaces_nil hspaces [] text

/-! ## What is read derives -/

/-- The front of a text derives, behind blanks, and the rest of it has these symbols. -/
def Starts (level : Level) (bound : Nat) (text : List Char) (e : Expression)
    (rest : List Symbol) : Prop :=
  ∃ spaces body tail depth, text = spaces ++ (body ++ tail) ∧ AllSpaces spaces ∧
    symbols tail = rest ∧ depth < bound ∧ Derives level depth body e

/-- What is read of a text derives. -/
def Sound (level : Level) (bound : Nat) (operand : List Symbol → Partial Expression) : Prop :=
  ∀ text e rest, operand (symbols text) = some (e, rest) → Starts level bound text e rest

/-- The operators join what derives on the outer level with what derives on the inner one. -/
def Joins (operation? : Symbol → Option Operation) (outer inner : Level) : Prop :=
  ∀ symbol op, operation? symbol = some op → ∃ c, symbol.source = [c] ∧
    ∀ {depth depth' : Nat} {text before after text' : List Char} {left right : Expression},
      AllSpaces before → AllSpaces after → Derives outer depth text left →
      Derives inner depth' text' right →
      Derives outer (max depth depth') (text ++ (before ++ c :: (after ++ text')))
        (.binary op left right)

theorem joins_product : Joins productOperation? .product .term := by
  intro symbol op hop
  cases symbol <;> cases hop
  case times => exact ⟨'*', rfl, .product (by simp)⟩
  case slash => exact ⟨'/', rfl, .product (by simp)⟩

theorem joins_sum : Joins sumOperation? .sum .product := by
  intro symbol op hop
  cases symbol <;> cases hop
  case plus => exact ⟨'+', rfl, .sum (by simp)⟩
  case minus => exact ⟨'-', rfl, .sum (by simp)⟩

section

variable {operation? : Symbol → Option Operation} {operand : List Symbol → Partial Expression}
  {outer inner : Level} {bound : Nat}

theorem Sound.chainFrom (hoperand : Sound inner bound operand)
    (hjoins : Joins operation? outer inner) {count depth : Nat} {left e : Expression}
    {spaces body tail : List Char} {rest : List Symbol}
    (hread : chainFrom operation? operand count left (symbols tail) = some (e, rest))
    (hspaces : AllSpaces spaces) (hdepth : depth < bound) (hleft : Derives outer depth body left) :
    Starts outer bound (spaces ++ (body ++ tail)) e rest := by
  -- The left operand is what the text up to here derives as, and grows by one operator a step.
  induction count generalizing depth left body tail with
  | zero =>
    cases hread
    exact ⟨spaces, body, tail, depth, rfl, hspaces, rfl, hdepth, hleft⟩
  | succ count ih =>
    cases hsymbols : symbols tail with
    | nil =>
      rw [hsymbols] at hread
      cases hread
      exact ⟨spaces, body, tail, depth, rfl, hspaces, hsymbols, hdepth, hleft⟩
    | cons symbol rest' =>
      rw [hsymbols, Arithmetic.chainFrom] at hread
      cases hop : operation? symbol with
      | none =>
        simp only [hop] at hread
        cases hread
        exact ⟨spaces, body, tail, depth, rfl, hspaces, hsymbols, hdepth, hleft⟩
      | some op =>
        simp only [hop] at hread
        obtain ⟨c, hsource, hjoin⟩ := hjoins symbol op hop
        obtain ⟨before, tail', rfl, hbefore, rfl, -⟩ := exists_split hsymbols
        cases hright : operand (symbols tail') with
        | none => simp [hright] at hread
        | some found =>
          obtain ⟨right, rest''⟩ := found
          simp only [hright] at hread
          obtain ⟨after, body', tail'', depth', rfl, hafter, rfl, hdepth', hinner⟩ :=
            hoperand _ _ _ hright
          have hstarts := ih hread (Nat.max_lt.mpr ⟨hdepth, hdepth'⟩)
            (hjoin hbefore hafter hleft hinner)
          rw [hsource]
          simpa using hstarts

theorem Sound.chain (hoperand : Sound inner bound operand) (hjoins : Joins operation? outer inner)
    (hlift : ∀ {depth text e}, Derives inner depth text e → Derives outer depth text e) :
    Sound outer bound (chain operation? operand) := by
  intro text e rest hread
  unfold Arithmetic.chain at hread
  cases hleft : operand (symbols text) with
  | none => simp [hleft] at hread
  | some found =>
    obtain ⟨left, rest'⟩ := found
    simp only [hleft] at hread
    obtain ⟨spaces, body, tail, depth, rfl, hspaces, rfl, hdepth, hderives⟩ := hoperand _ _ _ hleft
    exact hoperand.chainFrom hjoins hread hspaces hdepth (hlift hderives)

end

theorem Sound.sumOf {bound : Nat} {operand : List Symbol → Partial Expression}
    (h : Sound .term bound operand) : Sound .sum bound (sumOf operand) :=
  (h.chain joins_product .factor).chain joins_sum .summand

theorem Starts.signed {bound : Nat} {spaces sign tail : List Char} {e e' : Expression}
    {rest : List Symbol} (h : Starts .term bound tail e rest) (hspaces : AllSpaces spaces)
    (hsign : ∀ {depth spaces text}, AllSpaces spaces → Derives .term depth text e →
      Derives .term (depth + 1) (sign ++ (spaces ++ text)) e') :
    Starts .term (bound + 1) (spaces ++ (sign ++ tail)) e' rest := by
  obtain ⟨between, body, tail, depth, rfl, hbetween, rfl, hdepth, hderives⟩ := h
  exact ⟨spaces, _, tail, depth + 1, by simp, hspaces, rfl, by omega, hsign hbetween hderives⟩

/-- These symbols are read as an expression wherever what follows ends it. -/
def Reads (ends : List Symbol → Prop) (operand : List Symbol → Partial Expression)
    (symbols : List Symbol) (e : Expression) : Prop :=
  ∀ rest, ends rest → operand (symbols ++ rest) = some (e, rest)

/-- A chain that begins with these symbols goes on from an expression. -/
def Chains (ends : List Symbol → Prop) (operation? : Symbol → Option Operation)
    (operand : List Symbol → Partial Expression) (symbols : List Symbol) (e : Expression) : Prop :=
  ∀ rest, ends rest → ∃ count, rest.length ≤ count ∧
    chain operation? operand (symbols ++ rest) = chainFrom operation? operand count e rest

/-- No operator comes next. -/
def Stops (operation? : Symbol → Option Operation) (rest : List Symbol) : Prop :=
  ∀ symbol ∈ rest.head?, operation? symbol = none

section

variable {ends : List Symbol → Prop} {operation? : Symbol → Option Operation}
  {operand : List Symbol → Partial Expression} {s t : List Symbol} {e left right : Expression}

theorem stops_cons {symbol : Symbol} (h : operation? symbol = none) (rest : List Symbol) :
    Stops operation? (symbol :: rest) := by
  intro other hother
  rwa [← Option.mem_some_iff.mp hother]

theorem chainFrom_stops {rest : List Symbol} (h : Stops operation? rest) (count : Nat)
    (e : Expression) : chainFrom operation? operand count e rest = some (e, rest) := by
  cases rest with
  | nil => exact chainFrom_nil count e
  | cons symbol rest =>
    have hsymbol : operation? symbol = none := h symbol rfl
    cases count with
    | zero => rfl
    | succ count => simp only [chainFrom, hsymbol]

theorem Reads.chains (h : Reads ends operand s e) : Chains ends operation? operand s e := by
  intro rest hrest
  refine ⟨rest.length, Nat.le_refl _, ?_⟩
  rw [chain, h rest hrest]

theorem Chains.concat (h : Chains ends operation? operand s left) {symbol : Symbol}
    {op : Operation} (hop : operation? symbol = some op) (hends : ∀ rest, ends (symbol :: rest))
    (hright : Reads ends operand t right) :
    Chains ends operation? operand (s ++ symbol :: t) (.binary op left right) := by
  intro rest hrest
  obtain ⟨count, hcount, hchain⟩ := h (symbol :: (t ++ rest)) (hends _)
  obtain ⟨count, rfl⟩ := Nat.exists_eq_add_one_of_ne_zero
    (Nat.ne_zero_of_lt (Nat.lt_of_lt_of_le (Nat.succ_pos _) hcount))
  refine ⟨count, ?_, ?_⟩
  · simp only [List.length_cons, List.length_append] at hcount
    omega
  · rw [List.append_assoc, List.cons_append, hchain, chainFrom]
    simp only [hop, hright rest hrest]

theorem Chains.reads (h : Chains ends operation? operand s e) {ends' : List Symbol → Prop}
    (hends : ∀ rest, ends' rest → ends rest ∧ Stops operation? rest) :
    Reads ends' (chain operation? operand) s e := by
  intro rest hrest
  obtain ⟨hends, hstops⟩ := hends rest hrest
  obtain ⟨count, -, hchain⟩ := h rest hends
  rw [hchain, chainFrom_stops hstops]

end

/-- What derives on a level is read by the part of the reader for that level. -/
def Complete (level : Level) (depth : Nat) (symbols : List Symbol) (e : Expression) : Prop :=
  match level with
  | .term => Reads (fun _ => True) (term depth) symbols e
  | .product => Chains (fun _ => True) productOperation? (term depth) symbols e
  | .sum =>
    Chains (Stops productOperation?) sumOperation? (chain productOperation? (term depth)) symbols e

theorem Complete.reads_sum {depth : Nat} {s rest : List Symbol} {e : Expression}
    (h : Complete .sum depth s e)
    (hends : Stops productOperation? rest ∧ Stops sumOperation? rest) :
    sumOf (term depth) (s ++ rest) = some (e, rest) :=
  Chains.reads h (fun _ h => h) rest hends

theorem reads_numeral {text : List Char} (h : IsNumeral text) (bound : Nat) :
    Reads (fun _ => True) (term (bound + 1)) (symbols text) (.number (numeralValue text)) := by
  obtain ⟨hchars, hvalue⟩ := readFloat?_of_isNumeral h
  obtain ⟨c, hc, -⟩ := h.digit
  have hsymbols := symbols_run (b := []) (List.ne_nil_of_mem hc) hchars (by simp)
  rw [List.append_nil] at hsymbols
  intro rest _
  rw [hsymbols]
  simp [symbols, term, hvalue]

theorem Reads.signed {ends : List Symbol → Prop} {bound : Nat} {s : List Symbol} {e : Expression}
    (h : Reads ends (term bound) s e) {sign : Symbol} {wrap : Expression → Expression}
    (hsign : ∀ rest, term (bound + 1) (sign :: rest) =
      (term bound rest).map fun found => (wrap found.1, found.2)) :
    Reads ends (term (bound + 1)) (sign :: s) (wrap e) := by
  intro rest hrest
  rw [List.cons_append, hsign, h rest hrest]
  rfl

theorem Complete.group {bound : Nat} {s : List Symbol} {e : Expression}
    (h : Complete .sum bound s e) :
    Reads (fun _ => True) (term (bound + 1)) (.opening :: (s ++ [.closing])) e := by
  intro rest _
  have hsum : sumOf (term bound) (s ++ .closing :: rest) = some (e, .closing :: rest) :=
    h.reads_sum ⟨stops_cons rfl rest, stops_cons rfl rest⟩
  simp [term, hsum]

theorem productOperation?_ofChar {c : Char} {op : Operation}
    (h : (c, op) ∈ [('*', .multiply), ('/', .divide)]) :
    c ∈ marks ∧ productOperation? (Symbol.ofChar c) = some op := by
  simp only [List.mem_cons, List.not_mem_nil, or_false, Prod.mk.injEq] at h
  rcases h with ⟨rfl, rfl⟩ | ⟨rfl, rfl⟩ <;> exact ⟨by simp [marks], rfl⟩

theorem sumOperation?_ofChar {c : Char} {op : Operation}
    (h : (c, op) ∈ [('+', .add), ('-', .subtract)]) :
    c ∈ marks ∧ sumOperation? (Symbol.ofChar c) = some op ∧
      ∀ rest, Stops productOperation? (Symbol.ofChar c :: rest) := by
  simp only [List.mem_cons, List.not_mem_nil, or_false, Prod.mk.injEq] at h
  rcases h with ⟨rfl, rfl⟩ | ⟨rfl, rfl⟩ <;>
    exact ⟨by simp [marks], rfl, fun _ => stops_cons rfl _⟩

theorem complete_derives {level : Level} {depth : Nat} {text : List Char} {e : Expression}
    (h : Derives level depth text e) {bound : Nat} (hbound : depth < bound) :
    Complete level bound (symbols text) e := by
  induction h generalizing bound with
  | numeral h =>
    obtain ⟨bound, rfl⟩ := Nat.exists_eq_add_one_of_ne_zero (Nat.ne_zero_of_lt hbound)
    exact reads_numeral h bound
  | positive hspaces operand ih =>
    obtain ⟨bound, rfl⟩ := Nat.exists_eq_add_one_of_ne_zero (Nat.ne_zero_of_lt hbound)
    rw [symbols_front (by simp [marks]) hspaces]
    exact Reads.signed (ih (by omega)) fun _ => rfl
  | negative hspaces operand ih =>
    obtain ⟨bound, rfl⟩ := Nat.exists_eq_add_one_of_ne_zero (Nat.ne_zero_of_lt hbound)
    rw [symbols_front (by simp [marks]) hspaces]
    exact Reads.signed (ih (by omega)) fun _ => rfl
  | @group depth before text after e hbefore hafter inner ih =>
    obtain ⟨bound, rfl⟩ := Nat.exists_eq_add_one_of_ne_zero (Nat.ne_zero_of_lt hbound)
    have hclosing : symbols (text ++ (after ++ [')'])) = symbols text ++ [.closing] :=
      symbols_mark (c := ')') (by simp [marks]) hafter allSpaces_nil text []
    rw [symbols_front (by simp [marks]) hbefore, hclosing]
    exact Complete.group (ih (by omega))
  | factor operand ih => exact Reads.chains (ih hbound)
  | product hop hbefore hafter hleft hright ihl ihr =>
    obtain ⟨hmark, hoperation⟩ := productOperation?_ofChar hop
    rw [symbols_mark hmark hbefore hafter]
    exact Chains.concat (ihl (by omega)) hoperation (fun _ => trivial) (ihr (by omega))
  | summand operand ih => exact Reads.chains (Chains.reads (ih hbound) fun _ h => ⟨trivial, h⟩)
  | sum hop hbefore hafter hleft hright ihl ihr =>
    obtain ⟨hmark, hoperation, hstops⟩ := sumOperation?_ofChar hop
    rw [symbols_mark hmark hbefore hafter]
    exact Chains.concat (ihl (by omega)) hoperation hstops
      (Chains.reads (ihr (by omega)) fun _ h => ⟨trivial, h⟩)

/-! ## Texts -/

theorem IsExpression.sumOf {depth : Nat} {text : List Char} {e : Expression}
    (h : IsExpression depth text e) {bound : Nat} (hbound : depth < bound) :
    sumOf (term bound) (symbols text) = some (e, []) := by
  obtain ⟨before, body, after, rfl, hbefore, hafter, hderives⟩ := h
  have hcomplete : Complete .sum bound (symbols body) e := complete_derives hderives hbound
  have hnone : symbols after = [] := by
    rw [← List.append_nil after, hafter.symbols_append]
    rfl
  rw [hbefore.symbols_append, symbols_append hafter.not_isNumeralChar, hnone]
  exact hcomplete.reads_sum (by simp [Stops])

theorem IsExpression.unique {depth depth' : Nat} {text : List Char} {e e' : Expression}
    (h : IsExpression depth text e) (h' : IsExpression depth' text e') : e = e' := by
  have hread := h.sumOf (Nat.lt_succ_of_le (Nat.le_max_left depth depth'))
  have hread' := h'.sumOf (Nat.lt_succ_of_le (Nat.le_max_right depth depth'))
  rw [hread] at hread'
  exact (Prod.mk.inj (Option.some.inj hread')).1

example :
    evaluate (List.replicate 63 '-' ++ ['1']) = some (-1) ∧
      evaluate (List.replicate 64 '-' ++ ['1']) = none := by
  decide +kernel

end ClassStyle.Arithmetic
