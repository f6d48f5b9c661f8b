import ClassStyle.Css.Component
import ClassStyle.Proofs.Lookahead

/-!
# Texts that leave nothing open

A text is closed if a semicolon behind it stands by itself: no string, comment, address or escape
reaches over the end of the text, and no block is open there. The components of a closed text and
of what follows it are those of both (`components_append`), and a closed text between curly
brackets is a block (`components_block`).
-/

namespace ClassStyle.Css

open Component

/-! ## Components compared -/

namespace Component

mutual

def decEq : (a b : Component) → Decidable (a = b)
  | leaf l, leaf m => decidable_of_iff (l = m) ⟨congrArg leaf, leaf.inj⟩
  | leaf _, block .. => isFalse nofun
  | block .., leaf _ => isFalse nofun
  | block opener body closer, block opener' body' closer' =>
    match decEqAll body body' with
    | isFalse h => isFalse fun heq => h (block.inj heq).2.1
    | isTrue h =>
      decidable_of_iff (opener = opener' ∧ closer = closer')
        ⟨fun ⟨ho, hc⟩ => ho ▸ h ▸ hc ▸ rfl, fun heq => ⟨(block.inj heq).1, (block.inj heq).2.2⟩⟩

def decEqAll : (a b : List Component) → Decidable (a = b)
  | [], [] => isTrue rfl
  | [], _ :: _ => isFalse nofun
  | _ :: _, [] => isFalse nofun
  | c :: a, d :: b =>
    match decEq c d, decEqAll a b with
    | isTrue h, isTrue h' => isTrue (h ▸ h' ▸ rfl)
    | isFalse h, _ => isFalse fun heq => h (List.cons.inj heq).1
    | _, isFalse h => isFalse fun heq => h (List.cons.inj heq).2

end

instance : DecidableEq Component := decEq

end Component

/-! ## Components that mean something -/

theorem significant_cons_of_isSeparator {c : Component} (h : c.isSeparator = true)
    (rest : List Component) : significant (c :: rest) = significant rest := by
  simp [significant, h]

theorem significant_cons_of_not_isSeparator {c : Component} (h : c.isSeparator = false)
    (rest : List Component) : significant (c :: rest) = c :: significant rest := by
  simp [significant, h]

/-! ## Nesting step by step -/

/-- The blocks that are open, and the components of the innermost one, the last one first. -/
abbrev Nesting := List OpenBlock × List Component

abbrev Ends (l : Lexeme) (b : OpenBlock) : Prop :=
  l.token.closes?.isSome ∧ l.token.closes? = b.opener.token.opens?

theorem opens?_of_closes? {t : Token} (h : t.closes?.isSome = true) : t.opens? = none := by
  cases t with
  | closing bracket => rfl
  | _ => cases h

theorem eq_closing_of_closes? {t : Token} {bracket : Bracket} (h : t.closes? = some bracket) :
    t = .closing bracket := by
  cases t with
  | closing bracket => exact congrArg Token.closing (Option.some.inj h)
  | _ => cases h

def nestStep (s : Nesting) (l : Lexeme) : Nesting :=
  if l.token.opens?.isSome then (⟨l, s.2⟩ :: s.1, [])
  else match s.1 with
    | b :: rest =>
      if Ends l b then (rest, .block b.opener s.2.reverse (some l) :: b.before)
      else (b :: rest, .leaf l :: s.2)
    | [] => ([], .leaf l :: s.2)

theorem nest_eq_foldl (outer : List OpenBlock) (done : List Component) (ls : List Lexeme) :
    nest outer done ls =
      closeAll (ls.foldl nestStep (outer, done)).1 (ls.foldl nestStep (outer, done)).2 := by
  induction ls generalizing outer done with
  | nil => simp [nest]
  | cons l ls ih =>
    rw [nest.eq_def, List.foldl_cons]
    simp only [nestStep]
    split
    · exact ih _ _
    · cases outer with
      | nil => exact ih _ _
      | cons b rest =>
        simp only
        split
        · exact ih _ _
        · exact ih _ _

def nesting (ls : List Lexeme) : Nesting := ls.foldl nestStep ([], [])

theorem components_eq (text : List Char) :
    components text = closeAll (nesting (lexemes text)).1 (nesting (lexemes text)).2 :=
  nest_eq_foldl [] [] (lexemes text)

theorem nestStep_eq_leaf {s : Nesting} {l last : Lexeme} {done : List Component}
    (h : nestStep s l = ([], .leaf last :: done)) : s = ([], done) ∧ l = last := by
  obtain ⟨outer, d⟩ := s
  simp only [nestStep] at h
  split at h
  · simp at h
  · cases outer with
    | nil => simp_all
    | cons b rest =>
      simp only at h
      split at h <;> simp at h

theorem closeAll_cons (b : OpenBlock) (outer : List OpenBlock) (done : List Component) :
    ∃ before opener body, closeAll (b :: outer) done = before ++ [.block opener body none] := by
  induction outer generalizing b done with
  | nil => exact ⟨b.before.reverse, b.opener, done.reverse, by simp [closeAll]⟩
  | cons b' outer ih =>
    rw [closeAll]
    exact ih b' _

theorem closeAll_eq_leaf {outer : List OpenBlock} {done before : List Component} {l : Lexeme}
    (h : closeAll outer done = before ++ [.leaf l]) :
    outer = [] ∧ done = .leaf l :: before.reverse := by
  cases outer with
  | nil => exact ⟨rfl, by simpa [closeAll, List.reverse_eq_iff] using h⟩
  | cons b outer =>
    obtain ⟨before', opener, body, h'⟩ := closeAll_cons b outer done
    have := (List.append_inj' (h.symm.trans h') rfl).2
    simp at this

/-! ## Nesting inside other blocks -/

/-- A nesting with other blocks around it and other components before it. -/
def under (outer : List OpenBlock) (done : List Component) :
    List OpenBlock → List Component → Nesting
  | [], d => (outer, d ++ done)
  | b :: rest, d =>
    (⟨b.opener, (under outer done rest b.before).2⟩ :: (under outer done rest b.before).1, d)

/-- The components that stand outside all blocks of a nesting. -/
def bottom : List OpenBlock → List Component → List Component
  | [], d => d
  | b :: rest, _ => bottom rest b.before

variable {outer : List OpenBlock} {done : List Component}

theorem under_cons (rest : List OpenBlock) (c : Component) (d : List Component) :
    under outer done rest (c :: d) =
      ((under outer done rest d).1, c :: (under outer done rest d).2) := by
  cases rest <;> rfl

theorem nestStep_under (s : Nesting) (l : Lexeme)
    (h : s.1 = [] → ∀ b ∈ outer.head?, ¬Ends l b) :
    nestStep (under outer done s.1 s.2) l =
      under outer done (nestStep s l).1 (nestStep s l).2 := by
  obtain ⟨inner, d⟩ := s
  simp only [nestStep]
  split
  · cases inner <;> rfl
  · cases inner with
    | nil =>
      cases outer with
      | nil => rfl
      | cons b rest => simp [under, h rfl b (by simp)]
    | cons b rest =>
      simp only [under]
      by_cases he : Ends l b
      · rw [if_pos he, if_pos he, under_cons]
      · rw [if_neg he, if_neg he]
        rfl

theorem bottom_nestStep (s : Nesting) (l : Lexeme) :
    bottom s.1 s.2 ⊆ bottom (nestStep s l).1 (nestStep s l).2 := by
  obtain ⟨inner, d⟩ := s
  simp only [nestStep]
  split
  · exact fun c hc => hc
  · cases inner with
    | nil => exact fun c hc => List.mem_cons_of_mem _ hc
    | cons b rest =>
      simp only
      split
      · intro c hc
        cases rest with
        | nil => exact List.mem_cons_of_mem _ hc
        | cons b' rest => exact hc
      · exact fun c hc => hc

theorem bottom_foldl (s : Nesting) (ls : List Lexeme) :
    bottom s.1 s.2 ⊆ bottom (ls.foldl nestStep s).1 (ls.foldl nestStep s).2 := by
  induction ls generalizing s with
  | nil => exact fun c hc => hc
  | cons l ls ih => exact fun c hc => ih (nestStep s l) (bottom_nestStep s l hc)

/-- Lexemes nest inside other blocks as they nest by themselves, if none of those that end up
outside all blocks ends the block around them. -/
theorem foldl_nestStep_under (outer : List OpenBlock) (done : List Component) (s : Nesting)
    (ls : List Lexeme)
    (h : ∀ l, .leaf l ∈ bottom (ls.foldl nestStep s).1 (ls.foldl nestStep s).2 →
      ∀ b ∈ outer.head?, ¬Ends l b) :
    ls.foldl nestStep (under outer done s.1 s.2) =
      under outer done (ls.foldl nestStep s).1 (ls.foldl nestStep s).2 := by
  induction ls generalizing s with
  | nil => rfl
  | cons l ls ih =>
    rw [List.foldl_cons, List.foldl_cons, nestStep_under, ih (nestStep s l) h]
    intro hs b hb he
    -- The lexeme is outside all blocks, so it stays there as a leaf.
    have hopen : l.token.opens?.isSome = false := by rw [opens?_of_closes? he.1]; rfl
    refine h l (bottom_foldl (nestStep s l) ls ?_) b hb he
    simp [nestStep, hopen, hs, bottom]

theorem closeAll_under (done : List Component) (inner : List OpenBlock) (d : List Component) :
    closeAll (under [] done inner d).1 (under [] done inner d).2 =
      done.reverse ++ closeAll inner d := by
  induction inner generalizing d with
  | nil => simp [under, closeAll]
  | cons b rest ih =>
    rw [under, closeAll, closeAll, ← ih, under_cons]

theorem closeAll_foldl (done : List Component) (ls : List Lexeme) :
    closeAll (ls.foldl nestStep ([], done)).1 (ls.foldl nestStep ([], done)).2 =
      done.reverse ++ closeAll (nesting ls).1 (nesting ls).2 := by
  have h := foldl_nestStep_under [] done ([], []) ls (by simp)
  simp only [under, List.nil_append] at h
  rw [h, closeAll_under, nesting]

/-! ## What holds of all tokens -/

/-- Something holds of each token of a component, but for closing brackets. -/
inductive Component.Each (p : Lexeme → Prop) : Component → Prop
  | leaf {lexeme : Lexeme} : p lexeme → Each p (.leaf lexeme)
  | block {opener : Lexeme} {body : List Component} {closer : Option Lexeme} :
      p opener → (∀ c ∈ body, Each p c) → Each p (.block opener body closer)

section

variable {p : Lexeme → Prop}

theorem forall_mem_lexemes {text : List Char}
    (h : ∀ c rest, c :: rest <:+ text → p (lexemeAt c rest)) : ∀ l ∈ lexemes text, p l := by
  cases text with
  | nil => simp [lexemes, lexemesAfter]
  | cons c rest =>
    rw [lexemes_cons]
    intro l hl
    rcases List.mem_cons.mp hl with rfl | hl
    · exact h c rest List.suffix_rfl
    · refine forall_mem_lexemes (fun d s hs => h d s ?_) l hl
      exact (hs.trans (List.drop_suffix _ _)).trans (List.suffix_cons c rest)
termination_by text.length
decreasing_by
  subst_vars
  rw [List.length_drop, List.length_cons]
  omega

theorem each_closeAll {outer : List OpenBlock} {done : List Component}
    (houter : ∀ b ∈ outer, p b.opener ∧ ∀ c ∈ b.before, c.Each p)
    (hdone : ∀ c ∈ done, c.Each p) : ∀ c ∈ closeAll outer done, c.Each p := by
  induction outer generalizing done with
  | nil => simpa [closeAll] using hdone
  | cons b rest ih =>
    obtain ⟨⟨hb, hbefore⟩, hrest⟩ := List.forall_mem_cons.mp houter
    rw [closeAll]
    refine ih hrest (List.forall_mem_cons.mpr ⟨?_, hbefore⟩)
    exact .block hb (by simpa using hdone)

theorem each_nest {ls : List Lexeme} (hls : ∀ l ∈ ls, p l) {outer : List OpenBlock}
    {done : List Component} (houter : ∀ b ∈ outer, p b.opener ∧ ∀ c ∈ b.before, c.Each p)
    (hdone : ∀ c ∈ done, c.Each p) : ∀ c ∈ nest outer done ls, c.Each p := by
  induction ls generalizing outer done with
  | nil =>
    rw [nest]
    exact each_closeAll houter hdone
  | cons l ls ih =>
    obtain ⟨hl, hls⟩ := List.forall_mem_cons.mp hls
    rw [nest.eq_def]
    simp only
    split
    · exact ih hls (List.forall_mem_cons.mpr ⟨⟨hl, hdone⟩, houter⟩) (by simp)
    · cases outer with
      | nil => exact ih hls houter (List.forall_mem_cons.mpr ⟨.leaf hl, hdone⟩)
      | cons b rest =>
        obtain ⟨⟨hb, hbefore⟩, hrest⟩ := List.forall_mem_cons.mp houter
        simp only
        split
        · refine ih hls hrest (List.forall_mem_cons.mpr ⟨?_, hbefore⟩)
          exact .block hb (by simpa using hdone)
        · exact ih hls houter (List.forall_mem_cons.mpr ⟨.leaf hl, hdone⟩)

theorem each_components {text : List Char}
    (h : ∀ c rest, c :: rest <:+ text → p (lexemeAt c rest)) : ∀ c ∈ components text, c.Each p :=
  each_nest (forall_mem_lexemes h) (by simp) (by simp)

end

/-! ## Marks that stand by themselves -/

def semicolon : Lexeme := ⟨.semicolon, [';']⟩

def openingCurly : Lexeme := ⟨.opening .curly, ['{']⟩

def closingCurly : Lexeme := ⟨.closing .curly, ['}']⟩

theorem lexemes_semicolon (s : List Char) : lexemes (';' :: s) = semicolon :: lexemes s := by
  rw [lexemes_cons]; rfl

theorem lexemes_openingCurly (s : List Char) :
    lexemes ('{' :: s) = openingCurly :: lexemes s := by
  rw [lexemes_cons]; rfl

theorem lexemes_closingCurly (s : List Char) :
    lexemes ('}' :: s) = closingCurly :: lexemes s := by
  rw [lexemes_cons]; rfl

theorem components_semicolon (s : List Char) :
    components (';' :: s) = .leaf semicolon :: components s := by
  rw [components_eq, lexemes_semicolon, components_eq s]
  exact closeAll_foldl [.leaf semicolon] (lexemes s)

/-! ## Closed texts -/

/-- Nothing that starts in the text is left open at its end: a semicolon behind it stands by
itself. -/
def Closed (text : List Char) : Prop :=
  components (text ++ [';']) = components text ++ components [';']

instance (text : List Char) : Decidable (Closed text) :=
  inferInstanceAs (Decidable (_ = _))

variable {t : List Char}

theorem nesting_of_closed (h : Closed t) :
    EndsBefore ';' t ∧ nesting (lexemes t) = ([], (components t).reverse) := by
  rw [Closed, components_eq (t ++ [';']), components_semicolon] at h
  obtain ⟨houter, hdone⟩ := closeAll_eq_leaf h
  have hnest : nesting (lexemes (t ++ [';'])) = ([], .leaf semicolon :: (components t).reverse) :=
    Prod.ext houter hdone
  rcases List.eq_nil_or_concat (lexemes (t ++ [';'])) with hnil | ⟨before, last, hls⟩
  · simp [hnil, nesting] at hnest
  · rw [List.concat_eq_append] at hls
    rw [hls, nesting, List.foldl_append] at hnest
    obtain ⟨hbefore, rfl⟩ := nestStep_eq_leaf hnest
    have hends : EndsBefore ';' t := ⟨before, semicolon, hls, rfl⟩
    have happend := lexemes_append (y := ';') (v := [])
      (.of_stop (by decide) (by decide) rfl) hends
    rw [lexemes_semicolon, hls] at happend
    rw [← (List.append_inj' happend rfl).1]
    exact ⟨hends, hbefore⟩

theorem lexemes_append_of_closed (h : Closed t) {y : Char} (hy : y ∈ stops)
    (hs : isSpace y = false) (s : List Char) :
    lexemes (t ++ y :: s) = lexemes t ++ lexemes (y :: s) :=
  lexemes_append (.of_stop (by decide) hy (by rw [hs]; decide)) (nesting_of_closed h).1

theorem components_append (h : Closed t) {y : Char} (hy : y ∈ stops) (hs : isSpace y = false)
    (s : List Char) : components (t ++ y :: s) = components t ++ components (y :: s) := by
  rw [components_eq (t ++ y :: s), lexemes_append_of_closed h hy hs, nesting, List.foldl_append,
    ← nesting, (nesting_of_closed h).2, closeAll_foldl, List.reverse_reverse,
    ← components_eq (y :: s)]

/-- A closing curly bracket outside the blocks of a text. -/
def hasClosingCurly (text : List Char) : Bool :=
  (components text).any (Component.isLeaf (.closing .curly))

theorem components_enclosed (opener : Lexeme) {bracket : Bracket} (y : Char) {block : List Char}
    (hopens : opener.token.opens? = some bracket)
    (hopener : ∀ s, lexemes (opener.source ++ s) = opener :: lexemes s)
    (hy : y ∈ stops) (hs : isSpace y = false)
    (hcloser : ∀ s, lexemes (y :: s) = ⟨.closing bracket, [y]⟩ :: lexemes s)
    (hb : Closed block) (hclosing : (components block).any (isLeaf (.closing bracket)) = false)
    (s : List Char) :
    components (opener.source ++ (block ++ y :: s)) =
      .block opener (components block) (some ⟨.closing bracket, [y]⟩) :: components s := by
  have hlexemes : lexemes (opener.source ++ (block ++ y :: s)) =
      opener :: (lexemes block ++ ⟨.closing bracket, [y]⟩ :: lexemes s) := by
    rw [hopener, lexemes_append_of_closed hb hy hs, hcloser]
  have hinner := foldl_nestStep_under [⟨opener, []⟩] [] ([], []) (lexemes block) (by
    rw [← nesting, (nesting_of_closed hb).2]
    intro l hl b hbo he
    obtain rfl := Option.some.inj hbo
    have hclose : l.token = .closing bracket := eq_closing_of_closes? (he.2.trans hopens)
    have hmem : .leaf l ∈ components block := by simpa [bottom] using hl
    rw [List.any_eq_false] at hclosing
    exact hclosing _ hmem (by simp [Component.isLeaf, hclose]))
  rw [← nesting, (nesting_of_closed hb).2] at hinner
  have hopen : nestStep ([], []) opener = ([⟨opener, []⟩], []) := by simp [nestStep, hopens]
  have hclosed : nestStep ([⟨opener, []⟩], (components block).reverse) ⟨.closing bracket, [y]⟩ =
      ([], [.block opener (components block) (some ⟨.closing bracket, [y]⟩)]) := by
    have hends : Ends ⟨.closing bracket, [y]⟩ ⟨opener, []⟩ := ⟨rfl, hopens.symm⟩
    have hnone : (Token.closing bracket).opens?.isSome = false := rfl
    simp only [nestStep, hnone, Bool.false_eq_true, if_false, if_pos hends, List.reverse_reverse]
  simp only [under, List.append_nil] at hinner
  rw [components_eq, hlexemes, nesting, List.foldl_cons, hopen, List.foldl_append, hinner,
    List.foldl_cons, hclosed, closeAll_foldl, ← components_eq]
  rfl

theorem components_block {block : List Char} (h : Closed t) (hb : Closed block)
    (hcurly : hasClosingCurly block = false) (s : List Char) :
    components (t ++ '{' :: (block ++ '}' :: s)) =
      components t ++ .block openingCurly (components block) (some closingCurly) ::
        components s := by
  have hinner := components_enclosed openingCurly '}' rfl lexemes_openingCurly (by decide)
    (by decide) lexemes_closingCurly hb hcurly s
  rw [components_append h (by decide) (by decide)]
  exact congrArg (components t ++ ·) hinner

end ClassStyle.Css
