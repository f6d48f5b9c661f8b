import ClassStyle.Proofs.Pieces

/-!
# Blanks around a text

A text with nothing open at its end says the same with and without blanks of ASCII around it
(`contentOf_framed`), and what follows it behind a space is read by itself
(`contentOf_append_space`).
-/

namespace ClassStyle.Css

open Component Text

/-! ## Components with a content -/

/-- Whitespace, comments and vertical tabs write nothing, wherever they stand. -/
def Component.isIdle (c : Component) : Bool :=
  c.isSeparator || c.isLeaf (.delimiter '\x0b')

/-- A token counts by what it is, not by the text that it is read from. -/
def Component.bare : Component → Component
  | .leaf l => .leaf ⟨l.token, []⟩
  | c => c

def content (cs : List Component) : List Component :=
  (cs.filter fun c => !c.isIdle).map Component.bare

def contentOf (text : List Char) : List Component := content (components text)

theorem content_append (a b : List Component) : content (a ++ b) = content a ++ content b := by
  unfold content
  rw [List.filter_append, List.map_append]

theorem content_cons_of_isIdle {c : Component} (h : c.isIdle = true) (cs : List Component) :
    content (c :: cs) = content cs := by
  simp [content, h]

/-! ## Blanks in front -/

/-- The blanks of ASCII. -/
def isAsciiBlank (c : Char) : Bool := isBlank c && c.toNat < 0x80

theorem isAsciiBlank_iff {c : Char} : isAsciiBlank c = true ↔ isSpace c = true ∨ c = '\x0b' := by
  have hchar : ∀ d : Char, c = d ↔ c.toNat = d.toNat := fun d => Char.toNat_inj.symm
  simp only [isAsciiBlank, isBlank, blankRanges, isSpace, isNewline, Bool.and_eq_true,
    Bool.or_eq_true, List.any_cons, List.any_nil, decide_eq_true_eq, hchar]
  simp
  omega

theorem lexemes_space {c : Char} (h : isSpace c = true) (s : List Char) :
    lexemes (c :: s) =
      ⟨.whitespace, c :: s.takeWhile isSpace⟩ :: lexemes (s.dropWhile isSpace) := by
  have hlexeme : lexemeAt c s = ⟨.whitespace, c :: s.takeWhile isSpace⟩ := by
    have htake : s.take (s.takeWhile isSpace).length = s.takeWhile isSpace :=
      List.prefix_iff_eq_take.mp (List.takeWhile_prefix isSpace) |>.symm
    simp [lexemeAt, tokenAt, h, htake]
  have hdrop : s.drop (s.takeWhile isSpace).length = s.dropWhile isSpace := by
    have happend := List.takeWhile_append_dropWhile (p := isSpace) (l := s)
    have hleft : (s.takeWhile isSpace ++ s.dropWhile isSpace).drop (s.takeWhile isSpace).length =
        s.dropWhile isSpace := List.drop_left
    rwa [happend] at hleft
  rw [lexemes_cons, hlexeme]
  simp [hdrop]

theorem lexemes_verticalTab (s : List Char) :
    lexemes ('\x0b' :: s) = ⟨.delimiter '\x0b', ['\x0b']⟩ :: lexemes s := by
  rw [lexemes_cons]; rfl

theorem components_cons {l : Lexeme} {s t : List Char} (hs : lexemes s = l :: lexemes t)
    (hopens : l.token.opens? = none) : components s = .leaf l :: components t := by
  have hstep : nestStep ([], []) l = ([], [.leaf l]) := by simp [nestStep, hopens]
  rw [components_eq, hs, nesting, List.foldl_cons, hstep, components_eq t]
  exact closeAll_foldl [.leaf l] (lexemes t)

theorem components_space {c : Char} (h : isSpace c = true) (s : List Char) :
    components (c :: s) =
      .leaf ⟨.whitespace, c :: s.takeWhile isSpace⟩ :: components (s.dropWhile isSpace) :=
  components_cons (lexemes_space h s) rfl

theorem contentOf_space {c : Char} (h : isSpace c = true) (s : List Char) :
    contentOf (c :: s) = contentOf (s.dropWhile isSpace) := by
  rw [contentOf, components_space h, content_cons_of_isIdle rfl, contentOf]

theorem contentOf_dropWhile (s : List Char) : contentOf (s.dropWhile isSpace) = contentOf s := by
  cases s with
  | nil => rfl
  | cons c s =>
    by_cases hc : isSpace c = true
    · rw [contentOf_space hc, List.dropWhile_cons_of_pos hc]
    · rw [List.dropWhile_cons_of_neg hc]

theorem contentOf_cons_blank {c : Char} (h : isAsciiBlank c = true) (s : List Char) :
    contentOf (c :: s) = contentOf s := by
  rcases isAsciiBlank_iff.mp h with hspace | rfl
  · rw [contentOf_space hspace, contentOf_dropWhile]
  · rw [contentOf, components_cons (lexemes_verticalTab s) rfl, content_cons_of_isIdle rfl,
      contentOf]

theorem closed_space_iff {c : Char} (h : isSpace c = true) {s : List Char} :
    Closed (c :: s) ↔ Closed (s.dropWhile isSpace) := by
  have htake := takeWhile_stop (u := s) (y := ';') (v := []) (p := isSpace) (by decide)
  have hdrop := dropWhile_stop (u := s) (y := ';') (v := []) (p := isSpace) (by decide)
  unfold Closed
  rw [List.cons_append, components_space h, components_space h, htake, hdrop, List.cons_append,
    List.cons_inj_right]

theorem closed_dropWhile {s : List Char} (h : Closed s) : Closed (s.dropWhile isSpace) := by
  cases s with
  | nil => exact h
  | cons c s =>
    by_cases hc : isSpace c = true
    · rw [List.dropWhile_cons_of_pos hc]
      exact (closed_space_iff hc).mp h
    · rwa [List.dropWhile_cons_of_neg hc]

theorem closed_cons_blank {c : Char} (h : isAsciiBlank c = true) {s : List Char} (hs : Closed s) :
    Closed (c :: s) := by
  rcases isAsciiBlank_iff.mp h with hspace | rfl
  · exact (closed_space_iff hspace).mpr (closed_dropWhile hs)
  · have hcons := components_cons (lexemes_verticalTab s) rfl
    have hcons' := components_cons (lexemes_verticalTab (s ++ [';'])) rfl
    rw [Closed, List.cons_append, hcons, hcons', hs, List.cons_append]

theorem closed_append_blanks {blanks : List Char} (h : ∀ c ∈ blanks, isAsciiBlank c = true)
    {s : List Char} (hs : Closed s) : Closed (blanks ++ s) := by
  induction blanks with
  | nil => exact hs
  | cons c blanks ih =>
    obtain ⟨hc, h⟩ := List.forall_mem_cons.mp h
    exact closed_cons_blank hc (ih h)

theorem contentOf_append_blanks {blanks : List Char} (h : ∀ c ∈ blanks, isAsciiBlank c = true)
    (s : List Char) : contentOf (blanks ++ s) = contentOf s := by
  induction blanks with
  | nil => rfl
  | cons c blanks ih =>
    obtain ⟨hc, h⟩ := List.forall_mem_cons.mp h
    rw [List.cons_append, contentOf_cons_blank hc, ih h]

/-! ## Blanks behind -/

/-- The text is the core with blanks of ASCII around it, and nothing is open at the end of the
core: a semicolon or a space behind it stands by itself. -/
structure Framed (text core : List Char) : Prop where
  closed : Closed core
  ends : EndsBefore ' ' core
  blanks : ∃ before after, text = before ++ (core ++ after) ∧
    (∀ c ∈ before, isAsciiBlank c = true) ∧ (∀ c ∈ after, isAsciiBlank c = true) ∧
    (after.head? = some '\n' → core.getLast? ≠ some '\r')

theorem framed_self {text : List Char} (hclosed : Closed text) (hends : EndsBefore ' ' text) :
    Framed text text :=
  ⟨hclosed, hends, [], [], by simp, by simp, by simp, by simp⟩

/-- A text with nothing open at its end, and maybe blanks of ASCII around it. -/
def Complete (text : List Char) : Prop := ∃ core, Framed text core

section

variable {t : List Char}

theorem components_append_of_lexemes (h : Closed t) {s : List Char}
    (hs : lexemes (t ++ s) = lexemes t ++ lexemes s) :
    components (t ++ s) = components t ++ components s := by
  rw [components_eq (t ++ s), hs, nesting, List.foldl_append, ← nesting, (nesting_of_closed h).2,
    closeAll_foldl, List.reverse_reverse, ← components_eq s]

theorem components_append_blank (h : Closed t) (hends : EndsBefore ' ' t) {c : Char}
    (hc : isAsciiBlank c = true) (hnewline : c = '\n' → t.getLast? ≠ some '\r')
    (s : List Char) : components (t ++ c :: s) = components t ++ components (c :: s) := by
  refine components_append_of_lexemes h ?_
  rcases isAsciiBlank_iff.mp hc with hspace | rfl
  · have hmark : c ∈ marks := by
      simp only [isSpace, isNewline, Bool.or_eq_true, decide_eq_true_eq] at hspace
      rcases hspace with (rfl | rfl) | ((rfl | rfl) | rfl) <;> decide
    exact lexemes_append ⟨by decide, hmark, by rw [hspace]; decide, hnewline⟩ hends
  · exact lexemes_append ⟨by decide, by decide, by decide, hnewline⟩ (nesting_of_closed h).1

variable {text core : List Char}

theorem contentOf_append_of_blanks (h : Closed t) (hends : EndsBefore ' ' t)
    {after : List Char} (hafter : ∀ c ∈ after, isAsciiBlank c = true)
    (hnewline : after.head? = some '\n' → t.getLast? ≠ some '\r') :
    contentOf (t ++ after) = contentOf t := by
  cases after with
  | nil => rw [List.append_nil]
  | cons c after =>
    obtain ⟨hc, hafter'⟩ := List.forall_mem_cons.mp hafter
    have hnone : contentOf (c :: after) = [] := by
      have hblanks := contentOf_append_blanks hafter []
      rwa [List.append_nil] at hblanks
    have happend := components_append_blank h hends hc
      (fun hc' => hnewline (by rw [hc']; rfl)) after
    rw [contentOf, happend, content_append, ← contentOf, ← contentOf, hnone, List.append_nil]

theorem contentOf_framed (h : Framed text core) : contentOf text = contentOf core := by
  obtain ⟨hclosed, hends, before, after, rfl, hbefore, hafter, hnewline⟩ := h
  rw [contentOf_append_blanks hbefore, contentOf_append_of_blanks hclosed hends hafter hnewline]

theorem closed_of_framed (h : Framed text core) : Closed text := by
  obtain ⟨hclosed, hends, before, after, rfl, hbefore, hafter, hnewline⟩ := h
  refine closed_append_blanks hbefore ?_
  cases after with
  | nil => rwa [List.append_nil]
  | cons c after =>
    have hblanks : Closed (c :: after) := by
      have hblanks := closed_append_blanks hafter (s := []) (by decide +kernel)
      rwa [List.append_nil] at hblanks
    obtain ⟨hc, -⟩ := List.forall_mem_cons.mp hafter
    have happend := components_append_blank hclosed hends hc
      (fun hc' => hnewline (by rw [hc']; rfl))
    unfold Closed at hblanks ⊢
    rw [List.append_assoc, List.cons_append, happend, happend, ← List.cons_append, hblanks,
      List.append_assoc]

theorem contentOf_append_space (h : Framed text core) (s : List Char) :
    contentOf (text ++ ' ' :: s) = contentOf core ++ contentOf s := by
  obtain ⟨hclosed, hends, before, after, rfl, hbefore, hafter, hnewline⟩ := h
  have hspace : isAsciiBlank ' ' = true := by decide
  have hrest : contentOf (core ++ (after ++ ' ' :: s)) = contentOf core ++ contentOf s := by
    cases after with
    | nil =>
      rw [List.nil_append, contentOf, components_append_blank hclosed hends hspace (by simp),
        content_append, ← contentOf, ← contentOf, contentOf_cons_blank hspace]
    | cons c after =>
      obtain ⟨hc, hafter'⟩ := List.forall_mem_cons.mp hafter
      rw [List.cons_append, contentOf, components_append_blank hclosed hends hc
        (fun hc' => hnewline (by rw [hc']; rfl)), content_append, ← contentOf, ← contentOf,
        contentOf_cons_blank hc, contentOf_append_blanks hafter', contentOf_cons_blank hspace]
  rw [List.append_assoc, contentOf_append_blanks hbefore, List.append_assoc, hrest]

end

end ClassStyle.Css
