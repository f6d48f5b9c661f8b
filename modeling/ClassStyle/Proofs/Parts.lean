import ClassStyle.Proofs.Cursors

/-!
# What a cursor has ahead

A cursor goes over lexemes, and a reader of components over the blocks that they stand in. What is
left behind a block, in front of a delimiter or from a delimiter on is the same for both, however
the brackets of the text are balanced (`group_leave`, `group_seek`), so each step of a cursor is a
step over the components ahead of it (`part_next`).
-/

namespace ClassStyle.Css

open Component

/-! ## Blocks as a cursor leaves them -/

@[simp] theorem token_leaf (l : Lexeme) : (leaf l).token = l.token := rfl

@[simp] theorem token_block (opener : Lexeme) (body : List Component) (closer : Option Lexeme) :
    (block opener body closer).token = opener.token := rfl

/-- The components of lexemes that stand by themselves. -/
def group (ls : List Lexeme) : List Component := nest [] [] ls

theorem nest_outside (done : List Component) (ls : List Lexeme) :
    nest [] done ls = done.reverse ++ group ls := by
  rw [group, nest_eq_foldl, nest_eq_foldl]
  exact closeAll_foldl done ls

theorem group_leaf {l : Lexeme} (h : l.token.opens? = none) (ls : List Lexeme) :
    group (l :: ls) = .leaf l :: group ls := by
  rw [group, nest, if_neg (by simp [h])]
  exact nest_outside [.leaf l] ls

theorem nestedIn_append (t : Token) (b : Bracket) (opened outer : List Bracket) :
    t.nestedIn (b :: opened ++ outer) = t.nestedIn (b :: opened) ++ outer := by
  unfold Token.nestedIn
  cases t.opens? with
  | some b => rfl
  | none =>
    simp only [List.cons_append]
    split <;> rfl

theorem leave_append (opened outer : List Bracket) (ls : List Lexeme) :
    leave (opened ++ outer) ls = leave outer (leave opened ls) := by
  induction ls generalizing opened with
  | nil => cases opened <;> cases outer <;> rfl
  | cons l ls ih =>
    cases opened with
    | nil => rfl
    | cons b opened =>
      rw [leave, ← ih, ← nestedIn_append]
      rfl

theorem leave_opening {l : Lexeme} {bracket : Bracket} (h : l.token.opens? = some bracket)
    (opened : List Bracket) (b : Bracket) (ls : List Lexeme) :
    leave (b :: opened) (l :: ls) = leave (b :: opened) (leave [bracket] ls) := by
  rw [leave, Token.nestedIn, h, ← leave_append]
  rfl

/-- The components in front of a delimiter. -/
def upTo (delimiters : List Delimiter) (cs : List Component) : List Component :=
  cs.takeWhile fun c => !c.token.endsPart delimiters

/-- The components from a delimiter on. -/
def startingAt (delimiters : List Delimiter) (cs : List Component) : List Component :=
  cs.dropWhile fun c => !c.token.endsPart delimiters

theorem upTo_cons (delimiters : List Delimiter) (c : Component) (cs : List Component) :
    upTo delimiters (c :: cs) =
      if c.token.endsPart delimiters = true then [] else c :: upTo delimiters cs := by
  unfold upTo
  rw [List.takeWhile_cons]
  cases c.token.endsPart delimiters <;> rfl

theorem startingAt_cons (delimiters : List Delimiter) (c : Component) (cs : List Component) :
    startingAt delimiters (c :: cs) =
      if c.token.endsPart delimiters = true then c :: cs else startingAt delimiters cs := by
  unfold startingAt
  rw [List.dropWhile_cons]
  cases c.token.endsPart delimiters <;> rfl

theorem endsPart_of_startingAt (delimiters : List Delimiter) (cs : List Component) :
    ∀ x ∈ (startingAt delimiters cs).head?, x.token.endsPart delimiters = true := by
  intro x hx
  have hnot := List.head?_dropWhile_not (fun c : Component => !c.token.endsPart delimiters) cs
  rw [startingAt] at hx
  rw [Option.mem_def.mp hx] at hnot
  simpa using hnot

theorem endsPart_singleton (d : Delimiter) (t : Token) :
    t.endsPart [d] = decide (t = d.token) := by
  rw [Token.endsPart, List.any_cons, List.any_nil, Bool.or_false]

theorem endsPart_closing (bracket : Bracket) (t : Token) :
    t.endsPart [.closing bracket] = decide (t.closes? = some bracket) := by
  rw [endsPart_singleton, decide_eq_decide]
  exact ⟨fun h => by rw [h]; rfl, eq_closing_of_closes?⟩

theorem closes?_of_opens? {t : Token} {bracket : Bracket} (h : t.opens? = some bracket) :
    t.closes? = none := by
  cases hcloses : t.closes? with
  | none => rfl
  | some b => rw [opens?_of_closes? (by rw [hcloses]; rfl)] at h; cases h

/-- Lexemes behind an opening bracket fill its block as far as a cursor leaves it, and the others
stand behind the block. -/
theorem exists_nest_block (bracket : Bracket) (ls : List Lexeme) :
    ∃ closer : Option Lexeme,
      startingAt [.closing bracket] (group ls) =
        closer.toList.map leaf ++ group (leave [bracket] ls) ∧
      ∀ outer done opener before, opener.token.opens? = some bracket →
        nest (⟨opener, before⟩ :: outer) done ls =
          nest outer (.block opener (done.reverse ++ upTo [.closing bracket] (group ls)) closer ::
            before) (leave [bracket] ls) := by
  match ls with
  | [] =>
    exact ⟨none, rfl, fun outer done opener before _ => by
      simp [nest, leave, upTo, group, closeAll]⟩
  | l :: ls =>
    cases hopens : l.token.opens? with
    | some inner =>
      obtain ⟨closer, hbehind, hinner⟩ := exists_nest_block inner ls
      have hshort := (leave_suffix [inner] ls).length_le
      obtain ⟨last, hlast, houter⟩ := exists_nest_block bracket (leave [inner] ls)
      have hgroup : group (l :: ls) = .block l (upTo [.closing inner] (group ls)) closer ::
          group (leave [inner] ls) := by
        rw [group, nest, if_pos (by simp [hopens]), hinner _ _ _ _ hopens, nest_outside]
        rfl
      have hopener : l.token.endsPart [.closing bracket] = false := by
        simp [endsPart_closing, closes?_of_opens? hopens]
      refine ⟨last, ?_, fun outer done opener before h => ?_⟩
      · rw [hgroup, startingAt_cons, if_neg (by simp [hopener]), hlast, leave_opening hopens]
      · rw [nest, if_pos (by simp [hopens]), hinner _ _ _ _ hopens, houter _ _ _ _ h,
          leave_opening hopens, hgroup, upTo_cons, if_neg (by simp [hopener])]
        simp
    | none =>
      by_cases hcloses : l.token.closes? = some bracket
      · refine ⟨some l, ?_, fun outer done opener before h => ?_⟩
        · simp [group_leaf hopens, startingAt_cons, endsPart_closing, hcloses, leave,
            Token.nestedIn, hopens]
        · rw [nest, if_neg (by simp [hopens])]
          simp [hcloses, h, leave, Token.nestedIn, hopens, upTo, group_leaf hopens,
            endsPart_closing]
      · obtain ⟨closer, hbehind, hrest⟩ := exists_nest_block bracket ls
        have hleave : leave [bracket] (l :: ls) = leave [bracket] ls := by
          rw [leave, Token.nestedIn, hopens]
          simp [hcloses]
        refine ⟨closer, ?_, fun outer done opener before h => ?_⟩
        · rw [group_leaf hopens, startingAt_cons, if_neg (by simp [endsPart_closing, hcloses]),
            hbehind, hleave]
        · rw [nest, if_neg (by simp [hopens])]
          simp only [h, hcloses, and_false, if_false]
          rw [hrest _ _ _ _ h, hleave, group_leaf hopens, upTo_cons,
            if_neg (by simp [endsPart_closing, hcloses])]
          simp
termination_by ls.length
decreasing_by all_goals simp only [List.length_cons]; omega

theorem exists_group_block {l : Lexeme} {bracket : Bracket} (h : l.token.opens? = some bracket)
    (ls : List Lexeme) :
    ∃ closer : Option Lexeme,
      group (l :: ls) =
        .block l (upTo [.closing bracket] (group ls)) closer :: group (leave [bracket] ls) ∧
      startingAt [.closing bracket] (group ls) =
        closer.toList.map leaf ++ group (leave [bracket] ls) := by
  obtain ⟨closer, hbehind, hnest⟩ := exists_nest_block bracket ls
  refine ⟨closer, ?_, hbehind⟩
  rw [group, nest, if_pos (by simp [h]), hnest _ _ _ _ h, nest_outside]
  rfl

theorem exists_group_cons (l : Lexeme) (ls : List Lexeme) :
    ∃ c cs, group (l :: ls) = c :: cs ∧ c.token = l.token := by
  cases h : l.token.opens? with
  | none => exact ⟨_, _, group_leaf h ls, rfl⟩
  | some bracket =>
    obtain ⟨closer, hgroup, -⟩ := exists_group_block h ls
    exact ⟨_, _, hgroup, rfl⟩

@[elab_as_elim]
theorem group_induction {p : List Lexeme → Prop} (nil : p [])
    (leaf : ∀ l ls, l.token.opens? = none → p ls → p (l :: ls))
    (block : ∀ l ls bracket, l.token.opens? = some bracket → p (leave [bracket] ls) → p (l :: ls))
    (ls : List Lexeme) : p ls := by
  match ls with
  | [] => exact nil
  | l :: ls =>
    cases h : l.token.opens? with
    | none => exact leaf l ls h (group_induction nil leaf block ls)
    | some bracket =>
      have hshort := (leave_suffix [bracket] ls).length_le
      exact block l ls bracket h (group_induction nil leaf block (leave [bracket] ls))
termination_by ls.length
decreasing_by all_goals simp only [List.length_cons]; omega

/-- A leaf opens nothing, and a block is opened by its first token. -/
def Component.IsFormed : Component → Prop
  | leaf l => l.token.opens? = none
  | block opener _ _ => opener.token.opens? ≠ none

theorem isFormed_group (ls : List Lexeme) : ∀ c ∈ group ls, c.IsFormed := by
  induction ls using group_induction with
  | nil => simp [group, nest, closeAll]
  | leaf l ls h ih =>
    rw [group_leaf h]
    exact List.forall_mem_cons.mpr ⟨h, ih⟩
  | block l ls bracket h ih =>
    obtain ⟨closer, hgroup, -⟩ := exists_group_block h ls
    rw [hgroup]
    exact List.forall_mem_cons.mpr ⟨by simp [Component.IsFormed, h], ih⟩

theorem seek_leave (delimiters : List Delimiter) (opened : List Bracket) (ls : List Lexeme) :
    seek delimiters opened ls = seek delimiters [] (leave opened ls) := by
  induction ls generalizing opened with
  | nil => cases opened <;> rfl
  | cons l ls ih =>
    cases opened with
    | nil => rfl
    | cons b opened =>
      rw [seek, if_neg (by simp), ih, leave]

theorem endsPart_of_seek (delimiters : List Delimiter) (opened : List Bracket)
    (ls : List Lexeme) :
    ∀ l ∈ (seek delimiters opened ls).head?, l.token.endsPart delimiters = true := by
  induction ls generalizing opened with
  | nil => simp [seek]
  | cons l ls ih =>
    rw [seek]
    split
    · next hends =>
      rintro _ hl
      obtain rfl := Option.mem_some_iff.mp hl
      exact hends.2
    · exact ih _

theorem group_seek (delimiters : List Delimiter) (ls : List Lexeme) :
    group (seek delimiters [] ls) = startingAt delimiters (group ls) := by
  induction ls using group_induction with
  | nil => rfl
  | leaf l ls h ih =>
    rw [seek, Token.nestedIn, h, group_leaf h]
    by_cases hends : l.token.endsPart delimiters = true
    · rw [if_pos ⟨rfl, hends⟩, group_leaf h]
      exact (List.dropWhile_cons_of_neg (by simp [hends])).symm
    · rw [if_neg (by simp [hends])]
      exact ih.trans (List.dropWhile_cons_of_pos (by simp [hends])).symm
  | block l ls bracket h ih =>
    obtain ⟨closer, hgroup, -⟩ := exists_group_block h ls
    rw [seek, Token.nestedIn, h]
    by_cases hends : l.token.endsPart delimiters = true
    · rw [if_pos ⟨rfl, hends⟩, hgroup]
      exact (List.dropWhile_cons_of_neg (by simp [hends])).symm
    · rw [if_neg (by simp [hends]), hgroup]
      dsimp only
      rw [seek_leave, ih]
      exact (List.dropWhile_cons_of_pos (by simp [hends])).symm

theorem group_leave (bracket : Bracket) (ls : List Lexeme) :
    group (leave [bracket] ls) = (startingAt [.closing bracket] (group ls)).tail := by
  induction ls using group_induction with
  | nil => rfl
  | leaf l ls h ih =>
    rw [leave, Token.nestedIn, h, group_leaf h]
    dsimp only
    by_cases hcloses : l.token.closes? = some bracket
    · rw [if_pos hcloses, leave, startingAt,
        List.dropWhile_cons_of_neg (by simp [endsPart_closing, hcloses])]
      rfl
    · rw [if_neg hcloses, startingAt,
        List.dropWhile_cons_of_pos (by simp [endsPart_closing, hcloses])]
      exact ih
  | block l ls inner h ih =>
    obtain ⟨closer, hgroup, -⟩ := exists_group_block h ls
    rw [leave_opening h, ih, hgroup, startingAt, startingAt, List.dropWhile_cons_of_pos
      (by simp [endsPart_closing, closes?_of_opens? h])]

/-! ## What a cursor has ahead -/

section

variable {α : Type} {p q : α → Bool} (h : ∀ a, p a = true → q a = true) (l : List α)

include h

theorem dropWhile_dropWhile_of_imp : (l.dropWhile p).dropWhile q = l.dropWhile q := by
  induction l with
  | nil => rfl
  | cons a l ih =>
    by_cases ha : p a = true
    · rw [List.dropWhile_cons_of_pos ha, List.dropWhile_cons_of_pos (h a ha), ih]
    · rw [List.dropWhile_cons_of_neg ha]

theorem takeWhile_dropWhile_of_imp :
    (l.dropWhile p).takeWhile q = (l.takeWhile q).dropWhile p := by
  induction l with
  | nil => rfl
  | cons a l ih =>
    by_cases ha : p a = true
    · rw [List.dropWhile_cons_of_pos ha, ih, List.takeWhile_cons_of_pos (h a ha),
        List.dropWhile_cons_of_pos ha]
    · rw [List.dropWhile_cons_of_neg ha]
      by_cases hq : q a = true
      · rw [List.takeWhile_cons_of_pos hq, List.dropWhile_cons_of_neg ha]
      · rw [List.takeWhile_cons_of_neg hq]
        rfl

end

theorem endsPart_of_isSeparator {t : Token} (h : t.isSeparator = true)
    (delimiters : List Delimiter) : t.endsPart delimiters = false := by
  rw [Token.endsPart, List.any_eq_false]
  rintro d -
  rw [decide_eq_true_eq]
  rintro rfl
  cases d <;> cases h

namespace Cursor

variable {c : Cursor} {delimiters : List Delimiter}

/-- The components ahead of a cursor. -/
def ahead (c : Cursor) : List Component := group c.settled

/-- The components in front of the delimiters. -/
def part (delimiters : List Delimiter) (c : Cursor) : List Component := upTo delimiters c.ahead

def beyond (delimiters : List Delimiter) (c : Cursor) : List Component :=
  startingAt delimiters c.ahead

/-- The part without the whitespace and the comments at its front. -/
def coming (delimiters : List Delimiter) (c : Cursor) : List Component :=
  (c.part delimiters).dropWhile isSeparator

theorem part_append_beyond (delimiters : List Delimiter) (c : Cursor) :
    c.part delimiters ++ c.beyond delimiters = c.ahead := List.takeWhile_append_dropWhile

theorem settled_of_entered (h : c.entered = none) : c.settled = c.rest := by
  rw [settled, h, Option.toList_none, leave]

theorem group_dropWhile {p : Token → Bool} (hp : ∀ t, p t = true → t.opens? = none)
    (ls : List Lexeme) :
    group (ls.dropWhile fun l => p l.token) = (group ls).dropWhile fun c => p c.token := by
  induction ls using group_induction with
  | nil => rfl
  | leaf l ls h ih =>
    rw [group_leaf h]
    by_cases hl : p l.token = true
    · simpa [hl] using ih
    · simp [hl, group_leaf h]
  | block l ls bracket h ih =>
    have hl : ¬p l.token = true := fun hl => by simp [hp _ hl] at h
    obtain ⟨closer, hgroup, -⟩ := exists_group_block h ls
    simp [hl, hgroup]

theorem part_behind {p : Token → Bool} (hp : ∀ t, p t = true → t.isSeparator = true)
    (delimiters : List Delimiter) (c : Cursor) :
    (c.behind p).part delimiters = (c.part delimiters).dropWhile (fun x => p x.token) ∧
      (c.behind p).beyond delimiters = c.beyond delimiters := by
  have hahead : (c.behind p).ahead = c.ahead.dropWhile fun x => p x.token := by
    rw [ahead, settled_of_entered rfl]
    refine group_dropWhile (fun t ht => ?_) c.settled
    have := hp t ht
    cases t <;> first | rfl | cases this
  have himp : ∀ x : Component, p x.token = true → (!x.token.endsPart delimiters) = true :=
    fun x hx => by rw [endsPart_of_isSeparator (hp _ hx)]; rfl
  rw [part, beyond, hahead]
  exact ⟨takeWhile_dropWhile_of_imp himp _, dropWhile_dropWhile_of_imp himp _⟩

theorem part_skipBlanks (delimiters : List Delimiter) (c : Cursor) :
    c.skipBlanks.part delimiters = c.coming delimiters :=
  (part_behind (fun _ h => h) delimiters c).1

theorem beyond_skipBlanks (delimiters : List Delimiter) (c : Cursor) :
    c.skipBlanks.beyond delimiters = c.beyond delimiters :=
  (part_behind (fun _ h => h) delimiters c).2

theorem coming_skipBlanks (delimiters : List Delimiter) (c : Cursor) :
    c.skipBlanks.coming delimiters = c.coming delimiters := by
  rw [coming, part_skipBlanks]
  exact dropWhile_dropWhile_of_imp (fun _ h => h) (c.part delimiters)

theorem take_eq (delimiters : List Delimiter) (c : Cursor) :
    (c.take delimiters).1 = (c.part delimiters).head?.map token ∧
      (c.take delimiters).2.part delimiters = (c.part delimiters).tail ∧
      (c.take delimiters).2.beyond delimiters = c.beyond delimiters := by
  unfold take part beyond ahead
  cases hls : c.settled with
  | nil => exact ⟨rfl, rfl, rfl⟩
  | cons l ls =>
    dsimp only
    cases hopens : l.token.opens? with
    | none =>
      by_cases hends : l.token.endsPart delimiters = true
      · simp [hends, settled, leave, group_leaf hopens, upTo]
      · simp [hends, settled, leave, group_leaf hopens, upTo, startingAt]
    | some bracket =>
      obtain ⟨closer, hgroup, -⟩ := exists_group_block hopens ls
      by_cases hends : l.token.endsPart delimiters = true
      · simp [hends, settled, leave, hgroup, upTo]
      · simp [hends, settled, hgroup, upTo, startingAt]

theorem next_fst (delimiters : List Delimiter) (c : Cursor) :
    (c.next delimiters).1 = (c.coming delimiters).head?.map token := by
  rw [next, (take_eq _ _).1, part_skipBlanks]

theorem part_next (delimiters : List Delimiter) (c : Cursor) :
    (c.next delimiters).2.part delimiters = (c.coming delimiters).tail := by
  rw [next, (take_eq _ _).2.1, part_skipBlanks]

theorem beyond_next (delimiters : List Delimiter) (c : Cursor) :
    (c.next delimiters).2.beyond delimiters = c.beyond delimiters := by
  rw [next, (take_eq _ _).2.2, beyond_skipBlanks]

theorem entered_next (delimiters : List Delimiter) (c : Cursor) :
    (c.next delimiters).2.entered = (c.next delimiters).1.bind Token.opens? := by
  unfold next take
  split
  · rfl
  · split <;> rfl

theorem isExhausted_iff : c.isExhausted delimiters = true ↔ c.coming delimiters = [] := by
  rw [isExhausted, next_fst, Option.isNone_map, Option.isNone_iff_eq_none, List.head?_eq_none_iff]

end Cursor

/-! ## Parts inside parts -/

theorem endsPart_append (more delimiters : List Delimiter) (t : Token) :
    t.endsPart (more ++ delimiters) = (t.endsPart more || t.endsPart delimiters) :=
  List.any_append

theorem upTo_append (more delimiters : List Delimiter) (cs : List Component) :
    upTo (more ++ delimiters) cs = upTo more (upTo delimiters cs) := by
  unfold upTo
  induction cs with
  | nil => rfl
  | cons c cs ih =>
    simp only [endsPart_append] at ih ⊢
    by_cases hd : c.token.endsPart delimiters = true
    · simp [hd]
    · by_cases hm : c.token.endsPart more = true
      · simp [hd, hm]
      · simpa [hd, hm] using ih

theorem upTo_startingAt (more delimiters : List Delimiter) (cs : List Component) :
    upTo delimiters (startingAt (more ++ delimiters) cs) =
      startingAt more (upTo delimiters cs) := by
  unfold upTo startingAt
  induction cs with
  | nil => rfl
  | cons c cs ih =>
    simp only [endsPart_append] at ih ⊢
    by_cases hd : c.token.endsPart delimiters = true
    · simp [hd]
    · by_cases hm : c.token.endsPart more = true
      · simp [hd, hm]
      · simpa [hd, hm] using ih

theorem startingAt_startingAt (more delimiters : List Delimiter) (cs : List Component) :
    startingAt delimiters (startingAt (more ++ delimiters) cs) = startingAt delimiters cs :=
  dropWhile_dropWhile_of_imp (fun c hc => by
    rw [endsPart_append, Bool.not_or, Bool.and_eq_true] at hc
    exact hc.2) cs

/-- A reader stays in front of the delimiters, and it takes no block beyond them. -/
def Reader.Stays {α : Type} (reader : Reader α) : Prop :=
  ∀ delimiters c, (reader delimiters c).cursor.beyond delimiters = c.beyond delimiters

theorem Loop.beyond_run {α : Type} {loop : Loop α} {delimiters : List Delimiter}
    (h : ∀ c, (loop.pass c).cursor.beyond delimiters = c.beyond delimiters) (c : Cursor) :
    (loop.run c).cursor.beyond delimiters = c.beyond delimiters := by
  induction c using run.induct loop with
  | case1 c hagain ih =>
    rw [run, dif_pos hagain]
    exact ih.trans (h c)
  | case2 c hagain =>
    rw [run, dif_neg hagain]
    exact h c

section

variable {α : Type} {reader : Reader α} (h : reader.Stays) (more delimiters : List Delimiter)
  (c : Cursor)

include h

theorem Reader.ahead_untilBefore :
    (reader.untilBefore more delimiters c).cursor.ahead = c.beyond (more ++ delimiters) := by
  have hstays := h (more ++ delimiters) c
  unfold untilBefore
  dsimp only
  rw [Cursor.ahead, Cursor.settled_of_entered rfl, group_seek, entirely_cursor]
  exact hstays

theorem Reader.part_untilBefore :
    (reader.untilBefore more delimiters c).cursor.part delimiters =
      startingAt more (c.part delimiters) := by
  rw [Cursor.part, ahead_untilBefore h, Cursor.beyond, upTo_startingAt, Cursor.part]

theorem Reader.beyond_untilBefore :
    (reader.untilBefore more delimiters c).cursor.beyond delimiters = c.beyond delimiters := by
  rw [Cursor.beyond, ahead_untilBefore h, Cursor.beyond, startingAt_startingAt, Cursor.beyond]

theorem Reader.part_untilAfter :
    (reader.untilAfter [.semicolon] delimiters c).cursor.part delimiters =
        (startingAt [.semicolon] (c.part delimiters)).tail ∧
      (reader.untilAfter [.semicolon] delimiters c).cursor.beyond delimiters =
        c.beyond delimiters := by
  have hhead : ∀ l ∈ (reader.untilBefore [.semicolon] delimiters c).cursor.rest.head?,
      l.token.endsPart ([.semicolon] ++ delimiters) = true := endsPart_of_seek _ _ _
  have hentered : (reader.untilBefore [.semicolon] delimiters c).cursor.entered = none := rfl
  rw [← part_untilBefore h [.semicolon] delimiters c,
    ← beyond_untilBefore h [.semicolon] delimiters c]
  unfold untilAfter
  dsimp only
  generalize reader.untilBefore [.semicolon] delimiters c = p at hhead hentered ⊢
  simp only [Cursor.part, Cursor.beyond, Cursor.ahead, Cursor.settled_of_entered hentered]
  cases hrest : p.cursor.rest with
  | nil => simp [Cursor.settled_of_entered hentered, hrest, group, nest, closeAll, upTo]
  | cons l ls =>
    rw [hrest] at hhead
    have hends := hhead l rfl
    rw [endsPart_append, Bool.or_eq_true] at hends
    dsimp only
    by_cases hd : l.token.endsPart delimiters = true
    · obtain ⟨x, xs, hgroup, htoken⟩ := exists_group_cons l ls
      rw [if_pos hd, Cursor.settled_of_entered hentered, hrest, hgroup]
      simp [upTo, startingAt, htoken, hd]
    · have hsemicolon : l.token = .semicolon := by
        have hends := hends.resolve_right hd
        rwa [endsPart_singleton, decide_eq_true_eq] at hends
      rw [if_neg hd, if_neg (by rw [hsemicolon]; exact Token.noConfusion),
        group_leaf (by rw [hsemicolon]; rfl), Cursor.settled_of_entered rfl]
      simp [upTo, startingAt, hd]

end

/-! ## What is passed over -/

section

variable (ends : Token → Bool) (delimiters : List Delimiter) (c : Cursor)

theorem turn_skipping : ((skipping ends delimiters).pass c).turn = .again ↔
    ((c.next delimiters).1.any fun t => !ends t) = true := by
  unfold skipping
  dsimp only
  split <;> simp [*]

theorem dropWhile_part {ends : Token → Bool}
    (h : ∀ t, t.isSeparator = true → ends t = false) :
    ((c.part delimiters).dropWhile fun x => !ends x.token) =
      (c.coming delimiters).dropWhile fun x => !ends x.token :=
  (dropWhile_dropWhile_of_imp (fun x hx => by rw [h _ hx]; rfl) _).symm

theorem beyond_skipping :
    ((skipping ends delimiters).run c).cursor.beyond delimiters = c.beyond delimiters :=
  Loop.beyond_run (Cursor.beyond_next delimiters) c

theorem part_skipping {ends : Token → Bool} (h : ∀ t, t.isSeparator = true → ends t = false) :
    ((skipping ends delimiters).run c).cursor.part delimiters =
      ((c.part delimiters).dropWhile fun x => !ends x.token).tail := by
  induction c using Loop.run.induct (skipping ends delimiters) with
  | case1 c hagain ih =>
    rw [Loop.run, dif_pos hagain]
    refine ih.trans (congrArg List.tail ?_)
    rw [dropWhile_part delimiters c h]
    show ((c.next delimiters).2.part delimiters).dropWhile _ = _
    rw [Cursor.part_next]
    have hmore := (turn_skipping ends delimiters c).mp hagain
    rw [Cursor.next_fst] at hmore
    cases hcoming : c.coming delimiters with
    | nil => rfl
    | cons x rest =>
      rw [hcoming] at hmore
      have hmore : (!ends x.token) = true := hmore
      simp [hmore]
  | case2 c hagain =>
    rw [Loop.run, dif_neg hagain, dropWhile_part delimiters c h]
    show (c.next delimiters).2.part delimiters = _
    rw [Cursor.part_next]
    have hlast := mt (turn_skipping ends delimiters c).mpr hagain
    rw [Cursor.next_fst] at hlast
    cases hcoming : c.coming delimiters with
    | nil => rfl
    | cons x rest =>
      rw [hcoming] at hlast
      have hlast : ¬(!ends x.token) = true := hlast
      simp [hlast]

theorem part_drained : (drained delimiters c).cursor.part delimiters = [] := by
  rw [drained, part_skipping _ _ fun _ _ => rfl]
  induction c.part delimiters with
  | nil => rfl
  | cons x rest ih => exact ih

theorem drained_stays : drained.Stays := fun delimiters c =>
  beyond_skipping (fun _ => false) delimiters c

theorem entered_drained : (drained delimiters c).cursor.entered = none := by
  induction c using Loop.run.induct (skipping (fun _ => false) delimiters) with
  | case1 c hagain ih =>
    rw [drained, Loop.run, dif_pos hagain]
    exact ih
  | case2 c hagain =>
    rw [drained, Loop.run, dif_neg hagain]
    have hnone : (c.next delimiters).1 = none := by
      simpa [turn_skipping] using hagain
    show (c.next delimiters).2.entered = none
    rw [Cursor.entered_next, hnone]
    rfl

theorem part_skipDeclaration :
    (skipDeclaration delimiters c).part delimiters =
        (startingAt [.semicolon] (c.part delimiters)).tail ∧
      (skipDeclaration delimiters c).beyond delimiters = c.beyond delimiters :=
  Reader.part_untilAfter drained_stays delimiters c

end

end ClassStyle.Css
