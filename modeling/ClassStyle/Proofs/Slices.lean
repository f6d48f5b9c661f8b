import Mathlib.Data.List.TakeWhile
import ClassStyle.Proofs.Lookahead
import ClassStyle.Text.Blank

/-!
# Parts of a text by themselves

A part of a text between tokens is read by itself as it is read in the text, if a stop is behind it
or nothing but blanks (`Standing.before_edge`). So the lexemes of a trimmed text are those of the
text without the whitespace around them, where trimming leaves each of them whole
(`Standing.trim_source`, `Standing.strip`).
-/

namespace ClassStyle.Css

open Text

-- Sums start with the zero of the core library, also where an algebra library is in scope.
attribute [local instance (high)] Zero.ofOfNat0

/-- A mark behind a text from which on the text can be left out: no newline behind a backslash, and
blanks only before more blanks. -/
structure Edge (u : List Char) (y : Char) (v : List Char) : Prop where
  mark : y ∈ marks
  newline : isNewline y = true → u.getLast? ≠ some '\\'
  space : isSpace y = true → ∀ c ∈ v, isSpace c = true

variable {y : Char} {u v : List Char}

namespace Edge

theorem mono (hf : Edge u y v) {t : List Char} (h : t <:+ u) : Edge t y v :=
  ⟨hf.mark, fun hy => mt (getLast?_of_suffix h) (hf.newline hy), hf.space⟩

theorem of_stop (hy : y ∈ stops) (hs : isSpace y = false) : Edge u y v :=
  ⟨mark_of_stop hy, fun h => absurd h (by simp [not_newline_of_stop y hy]),
    fun h => absurd h (by simp [hs])⟩

theorem unseen (hf : Edge u y v) : Unseen y v y v u :=
  ⟨hf.mark, hf.mark, rfl, fun hy => ⟨rfl, hf.newline hy⟩, .inl, hf.space⟩

end Edge

/-! ## Lexemes -/

/-- Lexemes that are read in their own text. -/
def Standing (ls : List Lexeme) : Prop := lexemes (ls.flatMap Lexeme.source) = ls

theorem standing_lexemes (s : List Char) : Standing (lexemes s) := by
  rw [Standing, source_lexemes]

namespace Standing

theorem exists_lexemeAt {l : Lexeme} {ls : List Lexeme} (h : Standing (l :: ls)) :
    ∃ c rest, l.source ++ ls.flatMap Lexeme.source = c :: rest ∧ lexemeAt c rest = l ∧
      Standing ls := by
  rw [Standing, List.flatMap_cons] at h
  cases hs : l.source ++ ls.flatMap Lexeme.source with
  | nil => rw [hs] at h; cases h
  | cons c rest =>
    rw [hs, lexemes_cons] at h
    obtain ⟨hl, hls⟩ := List.cons.inj h
    refine ⟨c, rest, rfl, hl, ?_⟩
    have hsource := lexemeAt_source_append c rest
    rw [hl, ← hs] at hsource
    rw [hl, List.append_cancel_left hsource] at hls
    exact hls

theorem of_append {ls ms : List Lexeme} (h : Standing (ls ++ ms)) : Standing ms := by
  induction ls with
  | nil => exact h
  | cons l ls ih =>
    obtain ⟨-, -, -, -, hls⟩ := h.exists_lexemeAt
    exact ih hls

/-- Lexemes before an edge are read without what is behind it. -/
theorem before_edge {ls ms : List Lexeme} (h : Standing (ls ++ ms))
    (hms : ms.flatMap Lexeme.source = y :: v)
    (hf : Edge (ls.flatMap Lexeme.source) y v) : Standing ls := by
  induction ls with
  | nil => rfl
  | cons l ls ih =>
    rw [List.cons_append] at h
    obtain ⟨c, rest, hrest, hl, hls⟩ := h.exists_lexemeAt
    have hstanding : Standing ls :=
      ih hls (hf.mono (by rw [List.flatMap_cons]; exact List.suffix_append ..))
    have hne := hl ▸ source_lexemeAt_ne_nil c rest
    rw [List.flatMap_append, hms, ← List.append_assoc, ← List.flatMap_cons] at hrest
    cases hs : (l :: ls).flatMap Lexeme.source with
    | nil => exact absurd (List.append_eq_nil_iff.mp hs).1 hne
    | cons d u =>
      rw [hs, List.cons_append] at hrest
      obtain ⟨rfl, rfl⟩ := List.cons.inj hrest
      rw [hs] at hf
      have hlength := congrArg List.length hs
      rw [List.flatMap_cons, List.length_append, List.length_cons] at hlength
      have hsame := lexemeAt_stop hf.unseen (by rw [hl]; omega)
      rw [hl] at hsame
      rw [Standing, hs, lexemes_cons, ← hsame]
      have hsource := lexemeAt_source_append d u
      rw [← hsame, ← hs, List.flatMap_cons] at hsource
      rw [List.append_cancel_left hsource, hstanding]

theorem exists_lexemeAt_of_mem {ls : List Lexeme} (h : Standing ls) {l : Lexeme} (hl : l ∈ ls) :
    ∃ c rest, lexemeAt c rest = l := by
  obtain ⟨before, after, rfl⟩ := List.append_of_mem hl
  obtain ⟨c, rest, -, hlexeme, -⟩ := (of_append h).exists_lexemeAt
  exact ⟨c, rest, hlexeme⟩

end Standing

/-! ## Ends of parts -/

/-- A token that ends a part of a text: a semicolon or a closing bracket. -/
def Token.isEnd : Token → Bool
  | .semicolon | .closing _ => true
  | _ => false

/-- Ends of parts and whitespace are told by their first characters. -/
structure StartsEnd (c : Char) (token : Token) : Prop where
  isEnd : token.isEnd = true → c ∈ [';', ')', ']', '}']
  space : token = .whitespace → isSpace c = true

namespace StartsEnd

variable {c : Char}

theorem ite {p : Prop} [Decidable p] {x y : Token × Nat} (hx : p → StartsEnd c x.1)
    (hy : StartsEnd c y.1) : StartsEnd c (if p then x else y).1 := by
  split
  · next hp => exact hx hp
  · exact hy

theorem numericToken (s : List Char) : StartsEnd c (numericToken s).1 := by
  unfold Css.numericToken
  repeat' split
  all_goals exact ⟨nofun, nofun⟩

theorem nameToken (s : List Char) : StartsEnd c (nameToken s).1 := by
  unfold Css.nameToken
  dsimp only
  repeat' split
  all_goals exact ⟨nofun, nofun⟩

end StartsEnd

theorem startsEnd_tokenAt (c : Char) (rest : List Char) : StartsEnd c (tokenAt c rest).1 := by
  unfold tokenAt
  refine .ite (fun h => ⟨nofun, fun _ => h⟩) ?_
  iterate 5 refine .ite (fun _ => ⟨nofun, nofun⟩) ?_
  iterate 3 refine .ite (fun h => ⟨fun _ => by simp [h], nofun⟩) ?_
  iterate 2 refine .ite (fun _ => ⟨nofun, nofun⟩) ?_
  refine .ite (fun h => ⟨fun _ => by simp [h], nofun⟩) ?_
  iterate 2 refine .ite (fun _ => .ite (fun _ => ⟨nofun, nofun⟩) ⟨nofun, nofun⟩) ?_
  refine .ite (fun _ => .ite (fun _ => ⟨nofun, nofun⟩) ⟨nofun, nofun⟩) ?_
  refine .ite (fun _ => ⟨nofun, nofun⟩) ?_
  refine .ite (fun _ => .numericToken _) ?_
  refine .ite (fun _ => ⟨nofun, nofun⟩) ?_
  exact .ite (fun _ => .nameToken _) ⟨nofun, nofun⟩

theorem isSpace_lexemeAt {c : Char} {rest : List Char} (h : (lexemeAt c rest).token = .whitespace) :
    ∀ d ∈ (lexemeAt c rest).source, isSpace d = true := by
  have hc := (startsEnd_tokenAt c rest).space h
  have htoken : tokenAt c rest = (.whitespace, (rest.takeWhile isSpace).length + 1) := by
    rw [tokenAt, if_pos hc]
  have hsource : (lexemeAt c rest).source = c :: rest.takeWhile isSpace := by
    rw [lexemeAt, htoken]
    exact congrArg (List.cons c) (List.prefix_iff_eq_take.mp (List.takeWhile_prefix _)).symm
  rw [hsource]
  exact List.forall_mem_cons.mpr ⟨hc, List.all_eq_true.mp List.all_takeWhile⟩

namespace Standing

theorem before_end {ls ms : List Lexeme} (h : Standing (ls ++ ms))
    (hms : ∀ l ∈ ms.head?, l.token.isEnd = true) : Standing ls := by
  cases ms with
  | nil => rwa [List.append_nil] at h
  | cons l ms =>
    obtain ⟨c, rest, hrest, hl, -⟩ := (of_append h).exists_lexemeAt
    have hend : (lexemeAt c rest).token.isEnd = true := hl ▸ hms l rfl
    have hc := (startsEnd_tokenAt c rest).isEnd hend
    have hstop : ∀ d ∈ [';', ')', ']', '}'], d ∈ stops ∧ isSpace d = false :=
      forall_mem_of_all (by decide)
    exact h.before_edge (v := rest) hrest (.of_stop (hstop c hc).1 (hstop c hc).2)

end Standing

/-! ## Trimmed texts -/

theorem dropWhile_flatMap {α β : Type} {p : β → Bool} {q : α → Bool} {f : α → List β} {l : List α}
    (hpos : ∀ a ∈ l, q a = true → ∀ b ∈ f a, p b = true)
    (hneg : ∀ a ∈ l, q a = false → ∃ b ∈ (f a).head?, p b = false) :
    (l.flatMap f).dropWhile p = (l.dropWhile q).flatMap f := by
  induction l with
  | nil => rfl
  | cons a l ih =>
    obtain ⟨hpos, hposRest⟩ := List.forall_mem_cons.mp hpos
    obtain ⟨hneg, hnegRest⟩ := List.forall_mem_cons.mp hneg
    rw [List.flatMap_cons]
    cases ha : q a with
    | true =>
      rw [List.dropWhile_append_of_pos (hpos ha), List.dropWhile_cons_of_pos ha]
      exact ih hposRest hnegRest
    | false =>
      obtain ⟨b, hb, hp⟩ := hneg ha
      obtain ⟨bs, hfa⟩ := List.head?_eq_some_iff.mp hb
      rw [hfa, List.cons_append, List.dropWhile_cons_of_neg (by simp [hp]),
        List.dropWhile_cons_of_neg (by simp [ha]), List.flatMap_cons, hfa, List.cons_append]

namespace Lexeme

def isSpace (l : Lexeme) : Bool := l.token = .whitespace

/-- Trimming a text takes the lexeme off as a whole, or leaves it as a whole: it is whitespace, or
no blank stands at its ends and no backslash at its last one. -/
def IsWhole (l : Lexeme) : Prop :=
  l.isSpace = true ∨
    (∃ c ∈ l.source.head?, isBlank c = false) ∧
      ∃ c ∈ l.source.getLast?, isBlank c = false ∧ c ≠ '\\'

end Lexeme

/-- Lexemes without the whitespace at the front and at the end. -/
def strip (ls : List Lexeme) : List Lexeme :=
  ((ls.dropWhile Lexeme.isSpace).reverse.dropWhile Lexeme.isSpace).reverse

theorem isBlank_of_isSpace {c : Char} (h : isSpace c = true) : isBlank c = true := by
  simp only [isSpace, isNewline, Bool.or_eq_true, decide_eq_true_eq] at h
  rcases h with (rfl | rfl) | (rfl | rfl) | rfl <;> decide

theorem mark_of_isSpace {c : Char} (h : isSpace c = true) : c ∈ marks := by
  simp only [isSpace, isNewline, Bool.or_eq_true, decide_eq_true_eq] at h
  rcases h with (rfl | rfl) | (rfl | rfl) | rfl <;> decide

namespace Standing

variable {ls : List Lexeme} (h : Standing ls)

include h

theorem isSpace_source {l : Lexeme} (hl : l ∈ ls) (hspace : l.isSpace = true) :
    ∀ c ∈ l.source, isSpace c = true := by
  obtain ⟨c, rest, rfl⟩ := h.exists_lexemeAt_of_mem hl
  exact isSpace_lexemeAt (of_decide_eq_true hspace)

theorem trim_source (hwhole : ∀ l ∈ ls, l.IsWhole) :
    trim (ls.flatMap Lexeme.source) = (strip ls).flatMap Lexeme.source := by
  have hblank : ∀ l ∈ ls, l.isSpace = true → ∀ c ∈ l.source, isBlank c = true :=
    fun l hl hspace c hc => isBlank_of_isSpace (h.isSpace_source hl hspace c hc)
  have hsolid : ∀ l ∈ ls, l.isSpace = false → (∃ c ∈ l.source.head?, isBlank c = false) ∧
      ∃ c ∈ l.source.reverse.head?, isBlank c = false := by
    intro l hl hspace
    obtain ⟨hhead, c, hc, hlast, -⟩ := (hwhole l hl).resolve_left (by simp [hspace])
    exact ⟨hhead, c, by rwa [List.head?_reverse], hlast⟩
  have hmem : ∀ l ∈ (ls.dropWhile Lexeme.isSpace).reverse, l ∈ ls := fun l hl =>
    (List.dropWhile_sublist _).subset (List.mem_reverse.mp hl)
  rw [trim, trimStart, trimEnd, strip,
    dropWhile_flatMap hblank fun l hl hspace => (hsolid l hl hspace).1, List.reverse_flatMap,
    @dropWhile_flatMap _ _ _ Lexeme.isSpace (List.reverse ∘ Lexeme.source) _
      (fun l hl hspace c hc => hblank l (hmem l hl) hspace c (List.mem_reverse.mp hc))
      fun l hl hspace => (hsolid l (hmem l hl) hspace).2, List.reverse_flatMap]
  simp [Function.comp_def]

omit h in
theorem getLast?_source_strip (hwhole : ∀ l ∈ ls, l.IsWhole) :
    ∀ c ∈ ((Css.strip ls).flatMap Lexeme.source).getLast?, c ≠ '\\' := by
  rw [Css.strip]
  cases hlast : (ls.dropWhile Lexeme.isSpace).reverse.dropWhile Lexeme.isSpace with
  | nil => simp
  | cons l rest =>
    have hspace := List.head?_dropWhile_not Lexeme.isSpace (ls.dropWhile Lexeme.isSpace).reverse
    have hmem : l ∈ (ls.dropWhile Lexeme.isSpace).reverse :=
      (List.dropWhile_sublist _).subset (hlast ▸ List.mem_cons_self)
    rw [hlast, List.head?_cons] at hspace
    have hl : l ∈ ls := (List.dropWhile_sublist _).subset (List.mem_reverse.mp hmem)
    obtain ⟨-, c, hc, -, hne⟩ := (hwhole l hl).resolve_left (by simpa using hspace)
    rw [List.reverse_cons, List.flatMap_append, List.flatMap_singleton, List.getLast?_append,
      Option.mem_def.mp hc, Option.some_or]
    rintro _ ⟨⟩
    exact hne

/-- Lexemes that trimming leaves whole are read by themselves once their text is trimmed. -/
theorem strip (hwhole : ∀ l ∈ ls, l.IsWhole) : Standing (Css.strip ls) := by
  let back := ((ls.dropWhile Lexeme.isSpace).reverse.takeWhile Lexeme.isSpace).reverse
  have hback : ls.dropWhile Lexeme.isSpace = Css.strip ls ++ back := by
    rw [Css.strip, ← List.reverse_append, List.takeWhile_append_dropWhile, List.reverse_reverse]
  have hrest : Standing (Css.strip ls ++ back) := by
    have hall : Standing (ls.takeWhile Lexeme.isSpace ++ ls.dropWhile Lexeme.isSpace) := by
      rwa [List.takeWhile_append_dropWhile]
    rw [← hback]
    exact of_append hall
  have hspace : ∀ c ∈ back.flatMap Lexeme.source, isSpace c = true := by
    intro c hc
    obtain ⟨l, hl, hcl⟩ := List.mem_flatMap.mp hc
    exact hrest.isSpace_source (List.mem_append_right _ hl)
      (List.all_eq_true.mp List.all_takeWhile l (List.mem_reverse.mp hl)) c hcl
  cases hsource : back.flatMap Lexeme.source with
  | nil =>
    cases hnil : back with
    | nil => rwa [hnil, List.append_nil] at hrest
    | cons l ls =>
      obtain ⟨c, rest, hl⟩ := hrest.exists_lexemeAt_of_mem
        (List.mem_append_right _ (hnil ▸ List.mem_cons_self))
      rw [hnil, List.flatMap_cons, List.append_eq_nil_iff] at hsource
      exact absurd hsource.1 (hl ▸ source_lexemeAt_ne_nil c rest)
  | cons y v =>
    rw [hsource] at hspace
    obtain ⟨hy, hv⟩ := List.forall_mem_cons.mp hspace
    exact hrest.before_edge hsource ⟨mark_of_isSpace hy,
      fun _ hlast => getLast?_source_strip hwhole _ hlast rfl, fun _ => hv⟩

end Standing

end ClassStyle.Css
