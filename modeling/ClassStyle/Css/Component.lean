import ClassStyle.Css.Lexeme

/-!
# Components: tokens and blocks

A block runs from an opening bracket to the closing bracket of its kind, or to the end of the text
if there is none. Closing brackets of other kinds are ordinary tokens. The components of a text
hold each of its characters once and in order (`source_components`).
-/

namespace ClassStyle.Css

inductive Component where
  | leaf (lexeme : Lexeme)
  | block (opener : Lexeme) (body : List Component) (closer : Option Lexeme)
  deriving Inhabited

namespace Component

/-! ## The text of components -/

mutual

/-- The text of a component in front of another text. -/
def sourceOnto : Component → List Char → List Char
  | leaf lexeme, tail => lexeme.source ++ tail
  | block opener body closer, tail =>
    opener.source ++ sourceAllOnto body ((closer.map Lexeme.source).getD [] ++ tail)

/-- The text of components in front of another text. -/
def sourceAllOnto : List Component → List Char → List Char
  | [], tail => tail
  | c :: rest, tail => sourceOnto c (sourceAllOnto rest tail)

end

def source (c : Component) : List Char := sourceOnto c []

def sourceAll (components : List Component) : List Char := sourceAllOnto components []

mutual

theorem sourceOnto_append (c : Component) (a b : List Char) :
    sourceOnto c (a ++ b) = sourceOnto c a ++ b := by
  match c with
  | leaf lexeme => simp [sourceOnto]
  | block opener body closer =>
    simp only [sourceOnto, ← List.append_assoc, sourceAllOnto_append body]

theorem sourceAllOnto_append (components : List Component) (a b : List Char) :
    sourceAllOnto components (a ++ b) = sourceAllOnto components a ++ b := by
  match components with
  | [] => simp [sourceAllOnto]
  | c :: rest => simp only [sourceAllOnto, sourceAllOnto_append rest, sourceOnto_append c]

end

theorem sourceOnto_eq (c : Component) (tail : List Char) : sourceOnto c tail = source c ++ tail :=
  sourceOnto_append c [] tail

theorem sourceAllOnto_eq (components : List Component) (tail : List Char) :
    sourceAllOnto components tail = sourceAll components ++ tail :=
  sourceAllOnto_append components [] tail

@[simp] theorem source_leaf (lexeme : Lexeme) : (leaf lexeme).source = lexeme.source := by
  simp [source, sourceOnto]

@[simp] theorem source_block (opener : Lexeme) (body : List Component) (closer : Option Lexeme) :
    (block opener body closer).source =
      opener.source ++ sourceAll body ++ (closer.map Lexeme.source).getD [] := by
  simp [source, sourceOnto, sourceAllOnto_eq]

@[simp] theorem sourceAll_nil : sourceAll [] = [] := rfl

@[simp] theorem sourceAll_cons (c : Component) (rest : List Component) :
    sourceAll (c :: rest) = c.source ++ sourceAll rest := by
  simp [sourceAll, sourceAllOnto, sourceOnto_eq]

theorem sourceAll_append (a b : List Component) :
    sourceAll (a ++ b) = sourceAll a ++ sourceAll b := by
  induction a with
  | nil => rfl
  | cons c rest ih => simp [ih]

/-! ## Kinds of components -/

/-- The first token of a component. -/
def token : Component → Token
  | leaf lexeme => lexeme.token
  | block opener _ _ => opener.token

def isSeparator (c : Component) : Bool := c.token.isSeparator

def isLeaf (token : Token) : Component → Bool
  | leaf lexeme => lexeme.token == token
  | block .. => false

/-- The contents of a block in curly brackets. -/
def curlyBody? : Component → Option (List Component)
  | block opener body _ => if opener.token = .opening .curly then some body else none
  | leaf _ => none

def ident? : Component → Option String
  | leaf { token := .ident name, .. } => some name
  | _ => none

def atKeyword? : Component → Option String
  | leaf { token := .atKeyword name, .. } => some name
  | _ => none

end Component

/-- The components that are neither whitespace nor comments. -/
def significant (components : List Component) : List Component :=
  components.filter fun c => !c.isSeparator

/-! ## Nesting -/

/-- A block that is still open, with the components before it, the last one first. -/
structure OpenBlock where
  opener : Lexeme
  before : List Component
  deriving Inhabited

/-- Ends every open block where the text ends. `done` holds the contents of the innermost one, the
last one first. -/
def closeAll : List OpenBlock → List Component → List Component
  | [], done => done.reverse
  | b :: rest, done => closeAll rest (.block b.opener done.reverse none :: b.before)

/-- Puts lexemes into the blocks that they stand in. -/
def nest : List OpenBlock → List Component → List Lexeme → List Component
  | outer, done, [] => closeAll outer done
  | outer, done, lexeme :: lexemes =>
    if lexeme.token.opens?.isSome then nest (⟨lexeme, done⟩ :: outer) [] lexemes
    else
      match outer with
      | b :: rest =>
        if lexeme.token.closes?.isSome ∧ lexeme.token.closes? = b.opener.token.opens? then
          nest rest (.block b.opener done.reverse (some lexeme) :: b.before) lexemes
        else nest (b :: rest) (.leaf lexeme :: done) lexemes
      | [] => nest [] (.leaf lexeme :: done) lexemes

/-- The components of a text. -/
def components (text : List Char) : List Component := nest [] [] (lexemes text)

/-! ## Nothing is lost -/

/-- The text of the open blocks and of the components in the innermost one. -/
def pendingSource : List OpenBlock → List Component → List Char
  | [], done => Component.sourceAll done.reverse
  | b :: rest, done =>
    pendingSource rest b.before ++ b.opener.source ++ Component.sourceAll done.reverse

theorem pendingSource_append (outer : List OpenBlock) (c : Component) (done : List Component) :
    pendingSource outer (c :: done) = pendingSource outer done ++ c.source := by
  cases outer <;> simp [pendingSource, Component.sourceAll_append]

theorem sourceAll_closeAll (outer : List OpenBlock) (done : List Component) :
    Component.sourceAll (closeAll outer done) = pendingSource outer done := by
  induction outer generalizing done with
  | nil => rfl
  | cons b rest ih =>
    rw [closeAll, ih, pendingSource_append]
    simp [pendingSource]

theorem sourceAll_nest (outer : List OpenBlock) (done : List Component) (ls : List Lexeme) :
    Component.sourceAll (nest outer done ls) =
      pendingSource outer done ++ ls.flatMap Lexeme.source := by
  induction ls generalizing outer done with
  | nil => simp [nest, sourceAll_closeAll]
  | cons l ls ih =>
    rw [nest.eq_def]
    simp only
    split
    · rw [ih]; simp [pendingSource]
    · cases outer with
      | nil => rw [ih, pendingSource_append]; simp
      | cons b rest =>
        simp only
        split
        · rw [ih, pendingSource_append]; simp [pendingSource]
        · rw [ih, pendingSource_append]; simp

/-- Nothing of a text is lost between its components. -/
theorem source_components (text : List Char) :
    Component.sourceAll (components text) = text := by
  rw [components, sourceAll_nest, source_lexemes]; rfl

end ClassStyle.Css
