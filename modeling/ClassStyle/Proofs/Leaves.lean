import Mathlib.Data.List.Forall2
import ClassStyle.Proofs.Parts
import ClassStyle.Proofs.Slices

/-!
# Lexemes of components

The components of a text hold its lexemes in order (`flattenAll_group`). Components that stand
together in a block or before the end of a declaration are those of their own text
(`Inside.standing`). So a value is read anew into the lexemes that it had in its stylesheet
(`lexemes_value_infix`). Lexemes that are related one by one nest into components that are
(`related_group`).
-/

namespace ClassStyle.Css

namespace Component

mutual

/-- The lexemes of a component, in order. -/
def flatten : Component → List Lexeme
  | leaf l => [l]
  | block opener body closer => opener :: (flattenAll body ++ closer.toList)

def flattenAll : List Component → List Lexeme
  | [] => []
  | c :: rest => flatten c ++ flattenAll rest

end

theorem flattenAll_append (a b : List Component) :
    flattenAll (a ++ b) = flattenAll a ++ flattenAll b := by
  induction a with
  | nil => rfl
  | cons c a ih => rw [List.cons_append, flattenAll, flattenAll, ih, List.append_assoc]

theorem flattenAll_leaves (ls : List Lexeme) : flattenAll (ls.map leaf) = ls := by
  induction ls with
  | nil => rfl
  | cons l ls ih => rw [List.map_cons, flattenAll, flatten, ih, List.singleton_append]

mutual

theorem source_flatten (c : Component) : c.flatten.flatMap Lexeme.source = c.source := by
  match c with
  | leaf l => simp [flatten]
  | block opener body closer =>
    rw [flatten, List.flatMap_cons, List.flatMap_append, source_flattenAll body, source_block,
      List.append_assoc]
    cases closer <;> simp

theorem source_flattenAll (cs : List Component) :
    (flattenAll cs).flatMap Lexeme.source = sourceAll cs := by
  match cs with
  | [] => rfl
  | c :: cs =>
    rw [flattenAll, List.flatMap_append, source_flatten c, source_flattenAll cs, sourceAll_cons]

end

theorem head?_flattenAll (cs : List Component) :
    (flattenAll cs).head?.map Lexeme.token = cs.head?.map token := by
  cases cs with
  | nil => rfl
  | cons c cs => cases c <;> rfl

end Component

open Component

theorem flattenAll_group (ls : List Lexeme) : flattenAll (group ls) = ls := by
  match ls with
  | [] => rfl
  | l :: ls =>
    cases h : l.token.opens? with
    | none => rw [group_leaf h, flattenAll, flatten, flattenAll_group ls, List.singleton_append]
    | some bracket =>
      obtain ⟨closer, hgroup, hbehind⟩ := exists_group_block h ls
      have hinner := flattenAll_group ls
      have hsplit : group ls = upTo [.closing bracket] (group ls) ++
          startingAt [.closing bracket] (group ls) := List.takeWhile_append_dropWhile.symm
      rw [hsplit, hbehind, flattenAll_append, flattenAll_append, flattenAll_leaves] at hinner
      rw [hgroup, flattenAll, flatten, List.cons_append, List.append_assoc, hinner]
termination_by ls.length

theorem flattenAll_components (text : List Char) : flattenAll (components text) = lexemes text :=
  flattenAll_group (lexemes text)

/-! ## Components that stand together -/

/-- Components that follow each other in a text, up to the end of the text, of their block or of
their declaration. -/
def Inside (cs : List Component) : Prop :=
  ∃ ls before after, Standing ls ∧ group ls = before ++ cs ++ after ∧
    ∀ c ∈ after.head?, c.token.isEnd = true

theorem inside_components (text : List Char) : Inside (components text) :=
  ⟨lexemes text, [], [], standing_lexemes text, by rw [List.append_nil]; rfl, nofun⟩

theorem inside_body {ls : List Lexeme} (h : Standing ls) {opener : Lexeme} {body : List Component}
    {closer : Option Lexeme} (hmem : block opener body closer ∈ group ls) : Inside body := by
  induction ls using group_induction with
  | nil => cases hmem
  | leaf l ls hopens ih =>
    rw [group_leaf hopens] at hmem
    obtain ⟨-, -, -, -, hls⟩ := h.exists_lexemeAt
    exact ih hls ((List.mem_cons.mp hmem).resolve_left fun heq => by cases heq)
  | block l ls bracket hopens ih =>
    obtain ⟨closer', hgroup, -⟩ := exists_group_block hopens ls
    obtain ⟨-, -, -, -, hls⟩ := h.exists_lexemeAt
    rw [hgroup] at hmem
    rcases List.mem_cons.mp hmem with heq | hmem
    · obtain ⟨-, rfl, -⟩ := block.inj heq
      refine ⟨ls, [], startingAt [.closing bracket] (group ls), hls,
        List.takeWhile_append_dropWhile.symm, fun c hc => ?_⟩
      have hends := endsPart_of_startingAt _ _ c hc
      rw [endsPart_singleton, decide_eq_true_eq] at hends
      rw [hends]
      rfl
    · obtain ⟨front, hfront⟩ := leave_suffix [bracket] ls
      rw [← hfront] at hls
      exact ih hls.of_append hmem

namespace Inside

variable {cs : List Component}

theorem standing (h : Inside cs) : Standing (flattenAll cs) := by
  obtain ⟨ls, before, after, hls, hgroup, hafter⟩ := h
  rw [← flattenAll_group ls, hgroup, flattenAll_append, flattenAll_append, List.append_assoc] at hls
  refine hls.of_append.before_end fun l hl => ?_
  have hhead := head?_flattenAll after
  rw [Option.mem_def.mp hl, Option.map_some, eq_comm, Option.map_eq_some_iff] at hhead
  obtain ⟨c, hc, htoken⟩ := hhead
  exact htoken ▸ hafter c hc

theorem lexemes (h : Inside cs) : Css.lexemes (sourceAll cs) = flattenAll cs := by
  rw [← source_flattenAll]
  exact h.standing

theorem slice {before after : List Component} (h : Inside (before ++ cs ++ after))
    (hafter : ∀ c ∈ after.head?, c.token.isEnd = true) : Inside cs := by
  obtain ⟨ls, front, back, hls, hgroup, hback⟩ := h
  refine ⟨ls, front ++ before, after ++ back, hls, by rw [hgroup]; simp, fun c hc => ?_⟩
  cases after with
  | nil => exact hback c hc
  | cons d after => exact hafter c hc

theorem body (h : Inside cs) {opener : Lexeme} {body : List Component} {closer : Option Lexeme}
    (hmem : block opener body closer ∈ cs) : Inside body := by
  obtain ⟨ls, before, after, hls, hgroup, -⟩ := h
  refine @inside_body ls hls opener body closer ?_
  rw [hgroup]
  exact List.mem_append_left _ (List.mem_append_right _ hmem)

end Inside

/-! ## Values of a stylesheet -/

/-- The components of the value that is being read. -/
def ChunkState.pending : ChunkState → List Component
  | .inValue _ read => read.reverse
  | _ => []

/-- A value is the text of components that stand together, up to the end of its declaration. -/
def SliceOf (value : List Char) (cs : List Component) : Prop :=
  ∃ before slice after, cs = before ++ slice ++ after ∧ value = sourceAll slice ∧
    ∀ c ∈ after.head?, c.token.isEnd = true

theorem SliceOf.append_left {value : List Char} {cs : List Component} (h : SliceOf value cs)
    (front : List Component) : SliceOf value (front ++ cs) := by
  obtain ⟨before, slice, after, rfl, hvalue, hafter⟩ := h
  exact ⟨front ++ before, slice, after, by simp, hvalue, hafter⟩

theorem sliceOf_declared {state : ChunkState} {cs : List Component} {name : String}
    {value : List Char} (h : .declared name value ∈ chunksFrom state cs) :
    SliceOf value (state.pending ++ cs) := by
  induction cs generalizing state with
  | nil =>
    cases state with
    | between => cases h
    | behindName => simp [chunksFrom] at h
    | inValue other read =>
      simp only [chunksFrom, List.mem_singleton, Chunk.declared.injEq] at h
      exact ⟨[], read.reverse, [], by simp [ChunkState.pending], h.2, nofun⟩
    | skipping => cases h
  | cons c cs ih =>
    cases state with
    | between =>
      rw [chunksFrom] at h
      split at h
      · exact (ih h).append_left [c]
      · split at h
        · exact (ih h).append_left [c]
        · exact SliceOf.append_left (ih (by simpa using h)) [c]
    | behindName other =>
      rw [chunksFrom] at h
      split at h
      · exact (ih h).append_left [c]
      · split at h
        · exact (ih h).append_left [c]
        · exact SliceOf.append_left (ih (by simpa using h)) [c]
    | inValue other read =>
      rw [chunksFrom] at h
      split at h
      · next hsemicolon =>
        rcases List.mem_cons.mp h with heq | h
        · refine ⟨[], read.reverse, c :: cs, rfl, (Chunk.declared.inj heq).2, ?_⟩
          rintro _ ⟨⟩
          cases c with
          | leaf l => rw [token_leaf, eq_of_beq hsemicolon]; rfl
          | block => cases hsemicolon
        · simpa [ChunkState.pending] using (ih h).append_left (read.reverse ++ [c])
      · simpa [ChunkState.pending] using ih h
    | skipping =>
      rw [chunksFrom] at h
      split at h
      · exact (ih h).append_left [c]
      · exact (ih h).append_left [c]

theorem exists_block_of_curlyBody? {c : Component} {body : List Component}
    (h : c.curlyBody? = some body) : ∃ opener closer, c = .block opener body closer := by
  cases c with
  | leaf => cases h
  | block opener inner closer =>
    rw [curlyBody?] at h
    split at h
    · exact ⟨opener, closer, by rw [Option.some.inj h]⟩
    · cases h

theorem exists_curlyBody?_of_rule {state : ConstructState} {cs selectors body : List Component}
    (h : .rule selectors body ∈ constructsFrom state cs) :
    ∃ c ∈ cs, c.curlyBody? = some body := by
  induction cs generalizing state with
  | nil => cases state <;> simp [constructsFrom] at h
  | cons c cs ih =>
    have hbehind : (∃ c ∈ cs, c.curlyBody? = some body) →
        ∃ d ∈ c :: cs, d.curlyBody? = some body :=
      fun ⟨d, hd, hbody⟩ => ⟨d, List.mem_cons_of_mem _ hd, hbody⟩
    cases state with
    | between =>
      rw [constructsFrom] at h
      split at h
      · exact hbehind (ih h)
      · split at h
        · exact hbehind (ih (by simpa using h))
        · split at h
          · next hbody =>
            rcases List.mem_cons.mp h with heq | h
            · exact ⟨c, List.mem_cons_self, (Construct.rule.inj heq).2 ▸ hbody⟩
            · exact hbehind (ih h)
          · exact hbehind (ih h)
    | inAtRule =>
      rw [constructsFrom] at h
      split at h
      · exact hbehind (ih h)
      · exact hbehind (ih h)
    | inSelectors read =>
      rw [constructsFrom] at h
      split at h
      · next hbody =>
        rcases List.mem_cons.mp h with heq | h
        · exact ⟨c, List.mem_cons_self, (Construct.rule.inj heq).2 ▸ hbody⟩
        · exact hbehind (ih h)
      · exact hbehind (ih h)

/-- The lexemes of a value are those that its text has in the stylesheet. -/
theorem lexemes_value_infix {text value : List Char} {selectors body : List Component}
    {name : String} (hrule : .rule selectors body ∈ constructs (components text))
    (hvalue : .declared name value ∈ chunks body) : lexemes value <:+: lexemes text := by
  obtain ⟨c, hblock, hcurly⟩ := exists_curlyBody?_of_rule hrule
  obtain ⟨opener, closer, rfl⟩ := exists_block_of_curlyBody? hcurly
  obtain ⟨before, slice, after, hbody, rfl, hafter⟩ := sliceOf_declared hvalue
  have hinside : Inside (before ++ slice ++ after) := hbody ▸ (inside_components text).body hblock
  rw [(hinside.slice hafter).lexemes, ← flattenAll_components text]
  obtain ⟨front, back, hcomponents⟩ := List.append_of_mem hblock
  have hflat : flattenAll (components text) = flattenAll front ++ opener :: (flattenAll before ++
      flattenAll slice ++ flattenAll after ++ closer.toList) ++ flattenAll back := by
    rw [hcomponents, flattenAll_append, flattenAll, flatten, show body = _ from hbody]
    simp [flattenAll_append]
  rw [hflat]
  exact ⟨flattenAll front ++ opener :: flattenAll before,
    flattenAll after ++ closer.toList ++ flattenAll back, by simp⟩

/-! ## Lists compared one by one -/

theorem filterMap_cons_toList {α β : Type} (f : α → Option β) (a : α) (l : List α) :
    (a :: l).filterMap f = (f a).toList ++ l.filterMap f := by
  cases h : f a <;> simp [h]

section

variable {α β : Type} {P Q : α → β → Prop} {l : List α} {l' : List β}

@[elab_as_elim]
theorem rel_elim {motive : Option α → Option β → Prop} {a : Option α} {b : Option β}
    (h : Option.Rel P a b) (none : motive none none)
    (some : ∀ x y, P x y → motive (some x) (some y)) : motive a b := by
  cases h with
  | none => exact none
  | some h => exact some _ _ h

theorem forall₂_toList {a : Option α} {b : Option β} (h : Option.Rel P a b) :
    List.Forall₂ P a.toList b.toList := by
  cases h with
  | none => exact .nil
  | some h => exact .cons h .nil

theorem forall_zip_append {R : α × β → Prop} {k : List α} {k' : List β}
    (hlength : k.length = k'.length) : (∀ p ∈ (k ++ l).zip (k' ++ l'), R p) ↔
      (∀ p ∈ k.zip k', R p) ∧ ∀ p ∈ l.zip l', R p := by
  rw [List.zip_append hlength, List.forall_mem_append]

theorem forall₂_iff_zip :
    List.Forall₂ P l l' ↔ l.length = l'.length ∧ ∀ p ∈ l.zip l', P p.1 p.2 := by
  rw [List.forall₂_iff_zip]
  exact and_congr_right fun _ => ⟨fun h p hp => h hp, fun h a b hab => h (a, b) hab⟩

theorem forall₂_takeWhile_dropWhile {p : α → Bool} {q : β → Bool}
    (hpq : ∀ a b, P a b → p a = q b) (h : List.Forall₂ P l l') :
    List.Forall₂ P (l.takeWhile p) (l'.takeWhile q) ∧
      List.Forall₂ P (l.dropWhile p) (l'.dropWhile q) := by
  induction h with
  | nil => exact ⟨.nil, .nil⟩
  | cons hab hrest ih =>
    rw [List.takeWhile_cons, List.dropWhile_cons, List.takeWhile_cons, List.dropWhile_cons,
      hpq _ _ hab]
    split
    · exact ⟨.cons hab ih.1, ih.2⟩
    · exact ⟨.nil, .cons hab hrest⟩

variable (h : List.Forall₂ P l l')

include h

theorem forall₂_of_zip (hzip : ∀ p ∈ l.zip l', Q p.1 p.2) :
    List.Forall₂ (fun a b => P a b ∧ Q a b) l l' := by
  obtain ⟨hlength, hP⟩ := forall₂_iff_zip.mp h
  exact forall₂_iff_zip.mpr ⟨hlength, fun p hp => ⟨hP p hp, hzip p hp⟩⟩

theorem forall₂_head?_tail : Option.Rel P l.head? l'.head? ∧ List.Forall₂ P l.tail l'.tail := by
  cases h with
  | nil => exact ⟨.none, .nil⟩
  | cons hab hrest => exact ⟨.some hab, hrest⟩

theorem forall₂_getLast? : Option.Rel P l.getLast? l'.getLast? := by
  rw [← List.head?_reverse, ← List.head?_reverse]
  exact (forall₂_head?_tail (List.rel_reverse h)).1

end

/-! ## Components compared one by one -/

/-- Components of the same shape whose lexemes are related one by one. -/
inductive Component.Related (R : Lexeme → Lexeme → Prop) : Component → Component → Prop
  | leaf {l l' : Lexeme} : R l l' → Related R (.leaf l) (.leaf l')
  | block {opener opener' : Lexeme} {body body' : List Component} {closer closer' : Option Lexeme} :
      R opener opener' → body.length = body'.length →
      (∀ p ∈ body.zip body', Related R p.1 p.2) → Option.Rel R closer closer' →
      Related R (.block opener body closer) (.block opener' body' closer')

abbrev RelatedAll (R : Lexeme → Lexeme → Prop) : List Component → List Component → Prop :=
  List.Forall₂ (Component.Related R)

section

variable {R : Lexeme → Lexeme → Prop}

theorem Component.Related.body {opener opener' : Lexeme} {body body' : List Component}
    {closer closer' : Option Lexeme}
    (h : Related R (.block opener body closer) (.block opener' body' closer')) :
    RelatedAll R body body' := by
  cases h with
  | block _ hlength hbody _ => exact forall₂_iff_zip.mpr ⟨hlength, hbody⟩

theorem forall₂_flattenAll {cs cs' : List Component}
    (h : List.Forall₂ (fun c c' => List.Forall₂ R c.flatten c'.flatten) cs cs') :
    List.Forall₂ R (flattenAll cs) (flattenAll cs') := by
  induction h with
  | nil => exact .nil
  | cons hc _ ih => exact List.rel_append hc ih

theorem related_flatten {c c' : Component} (h : c.Related R c') :
    List.Forall₂ R c.flatten c'.flatten := by
  induction h with
  | leaf h => exact .cons h .nil
  | block hopener hlength _ hcloser ih =>
    exact .cons hopener (List.rel_append
      (forall₂_flattenAll (forall₂_iff_zip.mpr ⟨hlength, ih⟩)) (forall₂_toList hcloser))

theorem related_flattenAll {cs cs' : List Component} (h : RelatedAll R cs cs') :
    List.Forall₂ R (flattenAll cs) (flattenAll cs') :=
  forall₂_flattenAll (h.imp fun _ _ => related_flatten)

theorem related_closer {cs cs' : List Component} {closer closer' : Option Lexeme}
    (h : RelatedAll R cs cs') (hcs : cs = closer.toList.map leaf ++ cs.tail)
    (hcs' : cs' = closer'.toList.map leaf ++ cs'.tail) : Option.Rel R closer closer' := by
  have hlength := congrArg List.length hcs
  have hlength' := congrArg List.length hcs'
  cases h with
  | nil =>
    cases closer with
    | some => simp at hlength
    | none =>
      cases closer' with
      | some => simp at hlength'
      | none => exact .none
  | cons hc _ =>
    cases closer with
    | none => simp at hlength
    | some l =>
      cases closer' with
      | none => simp at hlength'
      | some l' =>
        obtain ⟨rfl, -⟩ := List.cons.inj hcs
        obtain ⟨rfl, -⟩ := List.cons.inj hcs'
        cases hc with
        | leaf h => exact .some h

/-- Related lexemes open and close the same brackets. -/
def KeepsBrackets (R : Lexeme → Lexeme → Prop) : Prop :=
  ∀ l l', R l l' → l.token.opens? = l'.token.opens? ∧ l.token.closes? = l'.token.closes?

theorem related_leave (hR : KeepsBrackets R) {ls ls' : List Lexeme} (opened : List Bracket)
    (h : List.Forall₂ R ls ls') : List.Forall₂ R (leave opened ls) (leave opened ls') := by
  induction h generalizing opened with
  | nil => cases opened <;> exact .nil
  | cons hl hls ih =>
    cases opened with
    | nil => exact .cons hl hls
    | cons bracket opened =>
      rw [leave, leave, Token.nestedIn, Token.nestedIn, (hR _ _ hl).1, (hR _ _ hl).2]
      exact ih _

theorem related_group (hR : KeepsBrackets R) {ls ls' : List Lexeme} (h : List.Forall₂ R ls ls') :
    RelatedAll R (group ls) (group ls') := by
  match ls, ls', h with
  | [], [], .nil => exact .nil
  | l :: ls, l' :: ls', .cons hl hls =>
    cases hbracket : l.token.opens? with
    | none =>
      rw [group_leaf hbracket, group_leaf ((hR _ _ hl).1 ▸ hbracket)]
      exact .cons (.leaf hl) (related_group hR hls)
    | some bracket =>
      have hshort := (leave_suffix [bracket] ls).length_le
      obtain ⟨closer, hgroup, hbehind⟩ := exists_group_block hbracket ls
      obtain ⟨closer', hgroup', hbehind'⟩ := exists_group_block ((hR _ _ hl).1 ▸ hbracket) ls'
      have hends : ∀ c c' : Component, c.Related R c' →
          (!c.token.endsPart [.closing bracket]) = !c'.token.endsPart [.closing bracket] := by
        intro c c' hc
        rw [endsPart_closing, endsPart_closing]
        cases hc with
        | leaf h => rw [token_leaf, token_leaf, (hR _ _ h).2]
        | block h => rw [token_block, token_block, (hR _ _ h).2]
      obtain ⟨hbody, hend⟩ := forall₂_takeWhile_dropWhile hends (related_group hR hls)
      obtain ⟨hlength, hzip⟩ := forall₂_iff_zip.mp hbody
      rw [group_leave] at hbehind hbehind'
      rw [hgroup, hgroup']
      exact .cons (.block hl hlength hzip (related_closer hend hbehind hbehind'))
        (related_group hR (related_leave hR [bracket] hls))
termination_by ls.length
decreasing_by all_goals simp only [List.length_cons]; omega

end

end ClassStyle.Css
