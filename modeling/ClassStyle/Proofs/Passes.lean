import Mathlib.Data.List.TakeWhile
import ClassStyle.Proofs.Parts
import ClassStyle.Proofs.Statements

/-!
# Passes over a sheet

The loops that read a sheet, a list of selectors and a block move on with each pass, whatever the
text (`readTokens_progresses`). A block is read without failing, a rule fails only if no block is
left in the text, and what is read is the sheet of the text (`readTokens_eq`).
-/

namespace ClassStyle.Css

open Component

/-! ## Declarations -/

theorem isLeaf_eq_decide {c : Component} (hc : c.IsFormed) {t : Token} (ht : t.opens? = none) :
    c.isLeaf t = decide (c.token = t) := by
  cases c with
  | leaf l => rw [Bool.eq_iff_iff, isLeaf, beq_iff_eq, decide_eq_true_eq, token_leaf]
  | block opener body closer =>
    have hne : opener.token ≠ t := fun heq => hc (heq ▸ ht)
    simp [isLeaf, hne]

theorem ident?_eq {c : Component} (hc : c.IsFormed) :
    c.ident? = c.token.ident? ∧ c.atKeyword? = c.token.atKeyword? := by
  cases c with
  | leaf l =>
    obtain ⟨t, source⟩ := l
    cases t <;> exact ⟨rfl, rfl⟩
  | block opener body closer =>
    rw [token_block]
    cases ht : opener.token <;> first | exact ⟨rfl, rfl⟩ | exact absurd (by rw [ht]; rfl) hc

section

variable {cs : List Component}

theorem chunksFrom_dropWhile (name : String) (cs : List Component) :
    chunksFrom .between (cs.dropWhile isSeparator) = chunksFrom .between cs ∧
      chunksFrom (.behindName name) (cs.dropWhile isSeparator) =
        chunksFrom (.behindName name) cs := by
  induction cs with
  | nil => exact ⟨rfl, rfl⟩
  | cons c cs ih =>
    by_cases hc : c.isSeparator = true
    · simpa [chunksFrom, hc] using ih
    · simp [hc]

variable (h : ∀ c ∈ cs, c.IsFormed)

include h

theorem chunksFrom_skipping_eq :
    chunksFrom .skipping cs = chunksFrom .between (startingAt [.semicolon] cs).tail := by
  induction cs with
  | nil => rfl
  | cons c cs ih =>
    obtain ⟨hc, h⟩ := List.forall_mem_cons.mp h
    rw [chunksFrom, isLeaf_eq_decide hc rfl, startingAt]
    by_cases hend : c.token = .semicolon
    · simp [hend, endsPart_singleton, Delimiter.token]
    · simpa [hend, endsPart_singleton, Delimiter.token, startingAt] using ih h

theorem chunksFrom_inValue_eq (name : String) (read : List Component) :
    chunksFrom (.inValue name read) cs =
      .declared name (sourceAll (read.reverse ++ upTo [.semicolon] cs)) ::
        chunksFrom .between (startingAt [.semicolon] cs).tail := by
  induction cs generalizing read with
  | nil => simp [chunksFrom, upTo, startingAt]
  | cons c cs ih =>
    obtain ⟨hc, h⟩ := List.forall_mem_cons.mp h
    rw [chunksFrom, isLeaf_eq_decide hc rfl, startingAt, upTo]
    by_cases hend : c.token = .semicolon
    · simp [hend, endsPart_singleton, Delimiter.token]
    · simpa [hend, endsPart_singleton, Delimiter.token, startingAt, upTo] using ih h (c :: read)

end

namespace Cursor

theorem isFormed_ahead (c : Cursor) : ∀ x ∈ c.ahead, x.IsFormed := isFormed_group _

theorem isFormed_part {delimiters : List Delimiter} {c : Cursor} :
    ∀ x ∈ c.part delimiters, x.IsFormed := fun x hx =>
  isFormed_group _ x ((List.takeWhile_sublist _).subset hx)

theorem isSeparator_coming (delimiters : List Delimiter) (c : Cursor) :
    ∀ x ∈ (c.coming delimiters).head?, x.isSeparator = false := by
  intro x hx
  have := List.head?_dropWhile_not isSeparator (c.part delimiters)
  rw [coming] at hx
  rw [Option.mem_def.mp hx] at this
  simpa using this

theorem isFormed_coming {delimiters : List Delimiter} {c : Cursor} :
    ∀ x ∈ c.coming delimiters, x.IsFormed := fun x hx =>
  isFormed_part x ((List.dropWhile_sublist _).subset hx)

theorem sourceAll_group (ls : List Lexeme) : sourceAll (group ls) = ls.flatMap Lexeme.source := by
  rw [group, sourceAll_nest]
  rfl

theorem textTo_eq {c last : Cursor} {cs : List Component} (hsuffix : last.rest <:+ c.rest)
    (hc : c.entered = none) (hlast : last.entered = none) (hahead : c.ahead = cs ++ last.ahead) :
    c.textTo last = sourceAll cs := by
  obtain ⟨read, hread⟩ := hsuffix
  have hsource := congrArg sourceAll hahead
  rw [sourceAll_append, ahead, ahead, settled_of_entered hc, settled_of_entered hlast,
    sourceAll_group, sourceAll_group, ← hread, List.flatMap_append,
    List.append_cancel_right_eq] at hsource
  rw [textTo, ← hread, List.length_append, Nat.add_sub_cancel, List.take_left, hsource]

end Cursor

theorem Reader.entirely_of_coming {α : Type} (reader : Reader α) {delimiters : List Delimiter}
    {c : Cursor} (h : (reader delimiters c).cursor.coming delimiters = []) :
    reader.entirely delimiters c = reader delimiters c := by
  unfold entirely
  dsimp only
  rw [if_neg]
  simp [Cursor.isExhausted_iff.mpr h]

theorem Cursor.coming_of_part {delimiters : List Delimiter} {c : Cursor}
    (h : c.part delimiters = []) : c.coming delimiters = [] := by
  rw [coming, h]
  rfl

theorem valueText_stays : valueText.Stays := drained_stays

theorem value?_valueText {c : Cursor} (h : c.entered = none) (delimiters : List Delimiter) :
    (valueText.untilBefore [.semicolon] delimiters c).value? =
      some (sourceAll (upTo [.semicolon] (c.part delimiters))) := by
  have hpart := part_drained ([.semicolon] ++ delimiters) c
  have hahead := Cursor.part_append_beyond ([.semicolon] ++ delimiters) c
  have hlast := Cursor.part_append_beyond ([.semicolon] ++ delimiters)
    (drained ([.semicolon] ++ delimiters) c).cursor
  rw [hpart, drained_stays, List.nil_append] at hlast
  unfold Reader.untilBefore
  rw [Reader.entirely_of_coming valueText (Cursor.coming_of_part hpart)]
  show some (c.textTo (drained ([.semicolon] ++ delimiters) c).cursor) = _
  rw [Cursor.textTo_eq (drained_suffix _ c) h (entered_drained _ c) (hahead.symm.trans (by
    rw [hlast]))]
  rw [Cursor.part, Cursor.part, upTo_append]

theorem Cursor.next_of_startingAt {delimiters : List Delimiter} {c : Cursor} {d : Delimiter}
    {cs : List Component} (hpart : c.part delimiters = startingAt [d] cs) :
    (c.next delimiters).1 = (startingAt [d] cs).head?.map (fun _ => d.token) ∧
      (c.next delimiters).2.part delimiters = (startingAt [d] cs).tail := by
  have hends := endsPart_of_startingAt [d] cs
  rw [next_fst, part_next, coming, hpart]
  cases hcs : startingAt [d] cs with
  | nil => exact ⟨rfl, rfl⟩
  | cons x rest =>
    have hx : x.token = d.token := by
      have hx := hends x (by rw [hcs]; rfl)
      rwa [endsPart_singleton, decide_eq_true_eq] at hx
    have hsep : ¬x.isSeparator = true := by
      rw [Component.isSeparator, hx]
      cases d <;> exact Bool.false_ne_true
    rw [List.dropWhile_cons_of_neg hsep]
    exact ⟨congrArg some hx, rfl⟩

/-- A pass gives the first of some chunks, and the part that it leaves holds the others. -/
structure Pass.Takes (p : Pass Chunk) (delimiters : List Delimiter) (c : Cursor)
    (chunks : List Chunk) : Prop where
  turn_eq : p.turn = .again
  out_append : p.out ++ chunksFrom .between (p.cursor.part delimiters) = chunks
  beyond_eq : p.cursor.beyond delimiters = c.beyond delimiters

section

variable (delimiters : List Delimiter) (c : Cursor)

theorem takes_skipDeclaration (chunk : Chunk) :
    (Pass.mk [chunk] (skipDeclaration delimiters c) .again).Takes delimiters c
      (chunk :: chunksFrom .skipping (c.part delimiters)) where
  turn_eq := rfl
  out_append := by
    rw [chunksFrom_skipping_eq Cursor.isFormed_part, (part_skipDeclaration delimiters c).1]
    rfl
  beyond_eq := (part_skipDeclaration delimiters c).2

theorem Pass.Takes.of_next {p : Pass Chunk} {delimiters : List Delimiter} {c : Cursor}
    {chunks : List Chunk} (h : p.Takes delimiters (c.next delimiters).2 chunks) :
    p.Takes delimiters c chunks :=
  ⟨h.turn_eq, h.out_append, h.beyond_eq.trans (Cursor.beyond_next _ _)⟩

theorem part_semicolon? {delimiters : List Delimiter} {c : Cursor} {cs : List Component}
    (hpart : c.part delimiters = startingAt [.semicolon] cs) :
    ((c.semicolon? delimiters).getD c).part delimiters = (startingAt [.semicolon] cs).tail ∧
      ((c.semicolon? delimiters).getD c).beyond delimiters = c.beyond delimiters := by
  obtain ⟨hfirst, hrest⟩ := Cursor.next_of_startingAt hpart
  unfold Cursor.semicolon?
  rw [hfirst]
  cases hcs : startingAt [.semicolon] cs with
  | nil => exact ⟨hpart.trans hcs, rfl⟩
  | cons x rest =>
    rw [hcs] at hrest
    exact ⟨hrest, Cursor.beyond_next _ _⟩

theorem takes_valueOf (h : c.entered = none) (name : String) :
    (valueOf delimiters name c).Takes delimiters c
      (chunksFrom (.inValue name []) (c.part delimiters)) := by
  obtain ⟨hpart, hbeyond⟩ :=
    part_semicolon? (Reader.part_untilBefore valueText_stays [.semicolon] delimiters c)
  unfold valueOf
  dsimp only
  rw [value?_valueText h]
  refine ⟨rfl, ?_, hbeyond.trans (Reader.beyond_untilBefore valueText_stays _ _ _)⟩
  rw [chunksFrom_inValue_eq Cursor.isFormed_part, hpart]
  rfl

theorem takes_declarationOf (name : String) :
    (declarationOf delimiters name c).Takes delimiters c
      (chunksFrom (.behindName name) (c.part delimiters)) := by
  have hpart := Cursor.part_next delimiters c
  have hsignificant := c.isSeparator_coming delimiters
  have hformed : ∀ x ∈ c.coming delimiters, x.IsFormed := Cursor.isFormed_coming
  have hskip := (takes_skipDeclaration delimiters (c.next delimiters).2 (.colonless name)).of_next
  rw [← (chunksFrom_dropWhile name (c.part delimiters)).2]
  change Pass.Takes _ _ _ (chunksFrom (.behindName name) (c.coming delimiters))
  unfold declarationOf
  dsimp only
  rw [Cursor.next_fst]
  cases hcoming : c.coming delimiters with
  | nil =>
    rw [hpart, hcoming] at hskip
    exact hskip
  | cons x rest =>
    rw [hcoming] at hpart hsignificant hformed
    have hx := hsignificant x rfl
    have hleaf := isLeaf_eq_decide (hformed x List.mem_cons_self) (t := .colon) rfl
    rw [hpart] at hskip
    by_cases hcolon : x.token = .colon
    · rw [if_pos (by rw [List.head?_cons, Option.map_some, hcolon])]
      have hentered : (c.next delimiters).2.entered = none := by
        rw [Cursor.entered_next, Cursor.next_fst, hcoming, List.head?_cons, Option.map_some, hcolon]
        rfl
      have hvalue := (takes_valueOf delimiters _ hentered name).of_next
      rw [hpart] at hvalue
      simpa [chunksFrom, hx, hleaf, hcolon] using hvalue
    · rw [if_neg (by simpa using hcolon)]
      simpa [chunksFrom, hx, hleaf, hcolon] using hskip

theorem takes_declaration {x : Component} {rest : List Component}
    (hcoming : c.coming delimiters = x :: rest) (hx : x.token ≠ .semicolon) :
    (declaration delimiters c).Takes delimiters c (chunksFrom .between (c.part delimiters)) := by
  have hpart := Cursor.part_next delimiters c
  have hsep := c.isSeparator_coming delimiters
  have hformed : ∀ x ∈ c.coming delimiters, x.IsFormed := Cursor.isFormed_coming
  rw [← (chunksFrom_dropWhile "" (c.part delimiters)).1]
  change Pass.Takes _ _ _ (chunksFrom .between (c.coming delimiters))
  rw [hcoming] at hpart hsep hformed ⊢
  have hsep := hsep x rfl
  have hformed := hformed x List.mem_cons_self
  have hsemicolon : x.isLeaf .semicolon = false := by
    rw [isLeaf_eq_decide hformed rfl, decide_eq_false hx]
  have hfirst : (c.next delimiters).1 = some x.token := by rw [Cursor.next_fst, hcoming]; rfl
  rw [chunksFrom, if_neg (by simp [hsep, hsemicolon])]
  unfold declaration
  dsimp only
  rw [hfirst, Option.bind_some, ← (ident?_eq hformed).1]
  cases x.ident? with
  | some name =>
    have hread := (takes_declarationOf delimiters (c.next delimiters).2 name).of_next
    rwa [hpart] at hread
  | none =>
    have hskip := (takes_skipDeclaration delimiters (c.next delimiters).2 .nameless).of_next
    rwa [hpart] at hskip

theorem takes_pass (h : c.coming delimiters ≠ []) :
    ((declarations delimiters).pass c).Takes delimiters c
      (chunksFrom .between (c.part delimiters)) := by
  obtain ⟨x, rest, hcoming⟩ := List.exists_cons_of_ne_nil h
  have hpart := Cursor.part_next delimiters c.skipBlanks
  have hfirst := Cursor.next_fst delimiters c.skipBlanks
  have hbeyond := Cursor.beyond_skipBlanks delimiters c
  have hmore : c.skipBlanks.isExhausted delimiters = false := by
    rw [Bool.eq_false_iff, ne_eq, Cursor.isExhausted_iff, Cursor.coming_skipBlanks]
    exact h
  rw [Cursor.coming_skipBlanks, hcoming] at hpart hfirst
  rw [← (chunksFrom_dropWhile "" (c.part delimiters)).1]
  change Pass.Takes _ _ _ (chunksFrom .between (c.coming delimiters))
  unfold declarations Cursor.semicolon?
  dsimp only
  rw [if_neg (by simp [hmore]), hfirst]
  by_cases hsemicolon : x.token = .semicolon
  · rw [if_pos (by rw [List.head?_cons, Option.map_some, hsemicolon])]
    have hleaf := isLeaf_eq_decide (Cursor.isFormed_coming x (hcoming ▸ List.mem_cons_self))
      (t := .semicolon) rfl
    refine ⟨rfl, ?_, (Cursor.beyond_next _ _).trans hbeyond⟩
    rw [hcoming, chunksFrom, if_pos (by simp [hleaf, hsemicolon]), List.nil_append, hpart]
    rfl
  · rw [if_neg (by simpa using hsemicolon)]
    have htakes := takes_declaration delimiters c.skipBlanks
      ((Cursor.coming_skipBlanks _ _).trans hcoming) hsemicolon
    rw [Cursor.part_skipBlanks] at htakes
    exact ⟨htakes.turn_eq, htakes.out_append, htakes.beyond_eq.trans hbeyond⟩

theorem pass_of_coming (h : c.coming delimiters = []) :
    (declarations delimiters).pass c = ⟨[], c.skipBlanks, .done⟩ := by
  unfold declarations
  dsimp only
  rw [if_pos (Cursor.isExhausted_iff.mpr ((Cursor.coming_skipBlanks _ _).trans h))]

theorem run_declarations :
    ((declarations delimiters).run c).turn = .done ∧
      ((declarations delimiters).run c).out = chunksFrom .between (c.part delimiters) ∧
      ((declarations delimiters).run c).cursor.part delimiters = [] ∧
      ((declarations delimiters).run c).cursor.beyond delimiters = c.beyond delimiters := by
  induction c using Loop.run.induct (declarations delimiters) with
  | case1 c hagain ih =>
    rw [Loop.run, dif_pos hagain]
    obtain ⟨hturn, hout, hpart, hbeyond⟩ := ih
    have htakes := takes_pass delimiters c fun hcoming => by
      rw [pass_of_coming delimiters c hcoming] at hagain
      cases hagain
    refine ⟨hturn, ?_, hpart, hbeyond.trans htakes.beyond_eq⟩
    rw [← htakes.out_append, ← hout]
  | case2 c hagain =>
    have hcoming : c.coming delimiters = [] := Decidable.byContradiction fun hcoming =>
      hagain (takes_pass delimiters c hcoming).turn_eq
    rw [Loop.run, dif_neg hagain, pass_of_coming delimiters c hcoming]
    refine ⟨rfl, ?_, ?_, Cursor.beyond_skipBlanks _ _⟩
    · rw [← (chunksFrom_dropWhile "" (c.part delimiters)).1]
      exact congrArg (chunksFrom .between) hcoming.symm
    · exact (Cursor.part_skipBlanks _ _).trans hcoming

end

/-! ## Selectors -/

theorem dropWhile_congr_of_mem {α : Type} {p q : α → Bool} {l : List α}
    (h : ∀ a ∈ l, p a = q a) : l.dropWhile p = l.dropWhile q := by
  induction l with
  | nil => rfl
  | cons a l ih =>
    obtain ⟨ha, h⟩ := List.forall_mem_cons.mp h
    rw [List.dropWhile_cons, List.dropWhile_cons, ha, ih h]

theorem nextVisible_eq (delimiters : List Delimiter) (c : Cursor) :
    (c.nextVisible delimiters).1 =
        ((c.part delimiters).dropWhile fun x => x.isLeaf .comment).head?.map token ∧
      (c.nextVisible delimiters).2.part delimiters =
        ((c.part delimiters).dropWhile fun x => x.isLeaf .comment).tail ∧
      (c.nextVisible delimiters).2.beyond delimiters = c.beyond delimiters := by
  have hleaf : ((c.part delimiters).dropWhile fun x => x.isLeaf .comment) =
      (c.part delimiters).dropWhile fun x => x.token = .comment :=
    dropWhile_congr_of_mem fun x hx => isLeaf_eq_decide (Cursor.isFormed_part x hx) rfl
  obtain ⟨hpart, hbeyond⟩ := Cursor.part_behind (p := fun t => t = .comment)
    (fun t ht => by rw [of_decide_eq_true ht]; rfl) delimiters c
  have htake := Cursor.take_eq delimiters (c.behind fun t => t = .comment)
  rwa [hpart, hbeyond, ← hleaf] at htake

theorem classSelector_stays : classSelector.Stays := by
  intro delimiters c
  have hdot := Cursor.beyond_next delimiters c
  have hname := (nextVisible_eq delimiters (c.next delimiters).2).2.2.trans hdot
  unfold classSelector
  dsimp only
  split
  · split <;> exact hname
  · exact hdot

section

variable {α : Type} {reader : Reader α} {delimiters : List Delimiter} {c last : Cursor}

theorem Reader.value?_of_failed {out : List α} (h : reader delimiters c = ⟨out, last, .failed⟩) :
    (reader.entirely delimiters c).value? = none := by
  unfold entirely
  rw [h]
  rfl

theorem Reader.value?_of_done {a : α} (h : reader delimiters c = ⟨[a], last, .done⟩) :
    (reader.entirely delimiters c).value? =
      if (last.part delimiters).all isSeparator then some a else none := by
  have hall : last.isExhausted delimiters = (last.part delimiters).all isSeparator := by
    rw [Bool.eq_iff_iff, Cursor.isExhausted_iff, Cursor.coming, List.all_eq_true]
    exact List.dropWhile_eq_nil_iff
  unfold entirely
  rw [h, ← hall]
  cases hexhausted : last.isExhausted delimiters <;> simp [hexhausted, Pass.value?]

end

theorem value?_classSelector (delimiters : List Delimiter) (c : Cursor) :
    (classSelector.entirely delimiters c).value? = classSelector? (c.part delimiters) := by
  have hdot := Cursor.next_fst delimiters c
  have hpart := Cursor.part_next delimiters c
  have hformed : ∀ x ∈ c.coming delimiters, x.IsFormed := Cursor.isFormed_coming
  obtain ⟨hname, htail, -⟩ := nextVisible_eq delimiters (c.next delimiters).2
  rw [hpart] at hname htail
  have hread : classSelector delimiters c = classSelector delimiters c := rfl
  conv at hread => rhs; unfold classSelector
  dsimp only at hread
  rw [hname, hdot] at hread
  rw [classSelector?, ← Cursor.coming]
  cases hcoming : c.coming delimiters with
  | nil =>
    rw [hcoming, if_neg (by simp)] at hread
    exact Reader.value?_of_failed hread
  | cons dot rest =>
    rw [hcoming] at htail hformed hread
    obtain ⟨hformedDot, hformed⟩ := List.forall_mem_cons.mp hformed
    have hleaf := isLeaf_eq_decide hformedDot (t := .delimiter '.') rfl
    dsimp only
    by_cases hdelimiter : dot.token = .delimiter '.'
    · rw [if_pos (by simp [hleaf, hdelimiter])]
      rw [if_pos (by simp [hdelimiter])] at hread
      rw [List.tail_cons] at hread htail
      cases hcomments : rest.dropWhile fun x => x.isLeaf .comment with
      | nil =>
        rw [hcomments] at hread
        exact Reader.value?_of_failed hread
      | cons x rest' =>
        rw [hcomments] at hread htail
        have hx : x.IsFormed := hformed x
          ((List.dropWhile_sublist _).subset (hcomments ▸ List.mem_cons_self))
        rw [List.head?_cons, Option.map_some, Option.bind_some, ← (ident?_eq hx).1] at hread
        dsimp only
        cases hident : x.ident? with
        | some name =>
          rw [hident] at hread
          rw [Reader.value?_of_done hread, htail]
          rfl
        | none =>
          rw [hident] at hread
          rw [ite_self]
          exact Reader.value?_of_failed hread
    · rw [if_neg (by simp [hleaf, hdelimiter])]
      rw [if_neg (by simpa using hdelimiter)] at hread
      exact Reader.value?_of_failed hread

theorem upTo_append_startingAt (delimiters : List Delimiter) (cs : List Component) :
    upTo delimiters cs ++ startingAt delimiters cs = cs := List.takeWhile_append_dropWhile

theorem listItems_eq {cs : List Component} (h : ∀ c ∈ cs, c.IsFormed) :
    listItems cs = upTo [.comma] cs :: match startingAt [.comma] cs with
      | [] => []
      | _ :: rest => listItems rest := by
  have hsplit := upTo_append_startingAt [.comma] cs
  have hends := endsPart_of_startingAt [.comma] cs
  have hitem : ∀ c ∈ upTo [.comma] cs, c.isLeaf .comma = false := by
    intro c hc
    have hnot := List.mem_takeWhile_imp hc
    rw [isLeaf_eq_decide (h c ((List.takeWhile_sublist _).subset hc)) rfl]
    rwa [endsPart_singleton, Bool.not_eq_true'] at hnot
  cases hrest : startingAt [.comma] cs with
  | nil =>
    rw [hrest, List.append_nil] at hsplit
    rw [hsplit] at hitem ⊢
    exact listItems_of_no_comma hitem
  | cons comma rest =>
    rw [hrest] at hsplit hends
    have hcomma : comma.isLeaf .comma = true := by
      rw [isLeaf_eq_decide (h comma (hsplit ▸ by simp)) rfl]
      have hcomma := hends comma rfl
      rwa [endsPart_singleton] at hcomma
    have hlist := @listItems_append_comma _ rest _ hitem hcomma
    rwa [hsplit] at hlist

section

variable (delimiters : List Delimiter) (c : Cursor)

theorem pass_selectors :
    let p := (selectors delimiters).pass c
    p.out = [classSelector? (upTo [.comma] (c.part delimiters))] ∧
      p.turn = (if startingAt [.comma] (c.part delimiters) = [] then .done else .again) ∧
      p.cursor.part delimiters = (startingAt [.comma] (c.part delimiters)).tail ∧
      p.cursor.beyond delimiters = c.beyond delimiters := by
  have hvalue := value?_classSelector ([.comma] ++ delimiters) c
  obtain ⟨hfirst, hpart⟩ := Cursor.next_of_startingAt
    (Reader.part_untilBefore classSelector_stays [.comma] delimiters c)
  rw [Cursor.part, upTo_append] at hvalue
  refine ⟨congrArg (fun a => [a]) hvalue, ?_, hpart, ?_⟩
  · show (if _ = _ then _ else _) = _
    rw [hfirst]
    cases startingAt [.comma] (c.part delimiters) <;> rfl
  · exact (Cursor.beyond_next _ _).trans
      (Reader.beyond_untilBefore classSelector_stays [.comma] delimiters c)

theorem run_selectors :
    let p := (selectors delimiters).run c
    p.turn = .done ∧ p.out = (listItems (c.part delimiters)).map classSelector? ∧
      p.cursor.part delimiters = [] ∧ p.cursor.beyond delimiters = c.beyond delimiters := by
  have hitems := fun c => listItems_eq (@Cursor.isFormed_part delimiters c)
  dsimp only
  induction c using Loop.run.induct (selectors delimiters) with
  | case1 c hagain ih =>
    rw [Loop.run, dif_pos hagain]
    obtain ⟨hturn, hout, hpart, hbeyond⟩ := ih
    obtain ⟨hfirst, hmore, hrest, hback⟩ := pass_selectors delimiters c
    refine ⟨hturn, ?_, hpart, hbeyond.trans hback⟩
    dsimp only
    rw [hout, hfirst, hrest, hitems c]
    cases hcomma : startingAt [.comma] (c.part delimiters) with
    | nil => rw [hmore, hcomma] at hagain; cases hagain
    | cons comma rest => rfl
  | case2 c hagain =>
    rw [Loop.run, dif_neg hagain]
    obtain ⟨hfirst, hmore, hrest, hback⟩ := pass_selectors delimiters c
    have hcomma : startingAt [.comma] (c.part delimiters) = [] := by
      cases hrest : startingAt [.comma] (c.part delimiters) with
      | nil => rfl
      | cons comma rest => exact absurd (by rw [hmore, hrest]; rfl) hagain
    rw [hcomma] at hrest hmore
    refine ⟨hmore, ?_, hrest, hback⟩
    rw [hfirst, hitems c, hcomma]
    rfl

end

/-! ## Rules -/

theorem Cursor.part_nil (c : Cursor) : c.part [] = c.ahead := by
  rw [part, upTo, List.takeWhile_eq_self_iff.mpr]
  exact fun _ _ => rfl

theorem Cursor.next_block {delimiters : List Delimiter} {c : Cursor} {opener : Lexeme}
    {body rest : List Component} {closer : Option Lexeme}
    (h : c.coming delimiters = .block opener body closer :: rest) :
    ∃ bracket, opener.token.opens? = some bracket ∧
      body = upTo [.closing bracket] (group (c.next delimiters).2.rest) := by
  rw [← part_skipBlanks, part, ahead] at h
  unfold next take
  cases hls : c.skipBlanks.settled with
  | nil =>
    rw [hls] at h
    cases h
  | cons l ls =>
    rw [hls] at h
    obtain ⟨x, xs, hcons, htoken⟩ := exists_group_cons l ls
    rw [hcons, upTo] at h
    by_cases hends : l.token.endsPart delimiters = true
    · rw [List.takeWhile_cons_of_neg (by simp [htoken, hends])] at h
      cases h
    · rw [List.takeWhile_cons_of_pos (by simp [htoken, hends]), List.cons.injEq] at h
      dsimp only
      rw [if_neg hends]
      cases hopens : l.token.opens? with
      | none =>
        rw [group_leaf hopens, List.cons.injEq, h.1] at hcons
        cases hcons.1
      | some bracket =>
        obtain ⟨closer', hgroup, -⟩ := exists_group_block hopens ls
        rw [hgroup, List.cons.injEq, h.1] at hcons
        obtain ⟨rfl, rfl, -⟩ := Component.block.inj hcons.1
        exact ⟨bracket, hopens, rfl⟩

theorem nested_chunkList (bracket : Bracket) (c : Cursor) :
    (chunkList.nested bracket c).turn = .done ∧
      (chunkList.nested bracket c).out = chunks (upTo [.closing bracket] (group c.rest)) ∧
      (chunkList.nested bracket c).cursor.ahead = group (leave [bracket] c.rest) := by
  obtain ⟨hturn, hout, hpart, hbeyond⟩ := run_declarations [.closing bracket] ⟨c.rest, none⟩
  have hsettled : (⟨c.rest, none⟩ : Cursor).settled = c.rest := Cursor.settled_of_entered rfl
  have hentirely : chunkList.entirely [.closing bracket] ⟨c.rest, none⟩ =
      (declarations [.closing bracket]).run ⟨c.rest, none⟩ :=
    Reader.entirely_of_coming chunkList (Cursor.coming_of_part hpart)
  rw [Cursor.part, Cursor.ahead, hsettled] at hout
  unfold Reader.nested
  rw [hentirely]
  refine ⟨hturn, hout, ?_⟩
  show (Cursor.mk (leave [bracket] _) none).ahead = _
  rw [Cursor.ahead, Cursor.settled_of_entered rfl, group_leave, group_leave]
  rw [Cursor.beyond, Cursor.beyond, Cursor.ahead, Cursor.ahead, hsettled] at hbeyond
  rw [hbeyond]

theorem map_isNone_eq (selectors : List Component) :
    ((((listItems selectors).map classSelector?).filter Option.isNone).map fun _ =>
      Notice.droppedSelector) = selectorNotices selectors := by
  rw [List.filter_map, List.map_map, selectorNotices, droppedCount]
  exact List.map_const' ..

theorem reduceOption_eq (selectors : List Component) :
    ((listItems selectors).map classSelector?).reduceOption = selectedClasses selectors := by
  show ((listItems selectors).map classSelector?).filterMap id = _
  rw [List.filterMap_map]
  rfl

section

variable (c : Cursor)

theorem selectorList_untilBefore :
    let p := selectorList.untilBefore [.openingCurly] [] c
    p.turn = .done ∧
      p.out = (listItems (upTo [.openingCurly] c.ahead)).map classSelector? ∧
      p.cursor.part [] = startingAt [.openingCurly] c.ahead := by
  obtain ⟨hturn, hout, hpart, hbeyond⟩ := run_selectors ([.openingCurly] ++ []) c
  have hentirely : selectorList.entirely ([.openingCurly] ++ []) c =
      (selectors ([.openingCurly] ++ [])).run c :=
    Reader.entirely_of_coming selectorList (Cursor.coming_of_part hpart)
  refine ⟨?_, ?_, ?_⟩
  · unfold Reader.untilBefore
    rw [hentirely]
    exact hturn
  · unfold Reader.untilBefore
    rw [hentirely]
    exact hout
  · have hstays : selectorList.Stays := fun delimiters c => (run_selectors delimiters c).2.2.2
    rw [Reader.part_untilBefore hstays, Cursor.part_nil]

theorem rule_of_no_block (h : startingAt [.openingCurly] c.ahead = []) :
    (rule c).turn = .failed ∧ (rule c).out = [([], selectorNotices c.ahead)] ∧
      (rule c).cursor.rest = [] := by
  obtain ⟨hturn, hout, hpart⟩ := selectorList_untilBefore c
  obtain ⟨hfirst, -⟩ := Cursor.next_of_startingAt hpart
  have hall : upTo [.openingCurly] c.ahead = c.ahead := by
    have hsplit := upTo_append_startingAt [.openingCurly] c.ahead
    rwa [h, List.append_nil] at hsplit
  have hend := Cursor.next_nil_eq_none (hfirst.trans (by rw [h]; rfl))
  unfold rule
  dsimp only
  rw [if_neg (by rw [hturn]; exact Turn.noConfusion), hfirst, h, if_neg (by simp), hout,
    map_isNone_eq, hall]
  exact ⟨rfl, rfl, hend⟩

theorem rule_of_block {opener : Lexeme} {body rest : List Component} {closer : Option Lexeme}
    (h : startingAt [.openingCurly] c.ahead = .block opener body closer :: rest) :
    (rule c).turn = .done ∧
      (rule c).out = [(Construct.rule (upTo [.openingCurly] c.ahead) body).read] ∧
      (rule c).cursor.ahead = rest := by
  obtain ⟨hturn, hout, hpart⟩ := selectorList_untilBefore c
  obtain ⟨hfirst, hrest⟩ := Cursor.next_of_startingAt hpart
  have hopener : opener.token = .opening .curly := by
    have hends := endsPart_of_startingAt [.openingCurly] c.ahead (.block opener body closer)
      (by rw [h]; rfl)
    rwa [endsPart_singleton, decide_eq_true_eq] at hends
  have hcoming : (selectorList.untilBefore [.openingCurly] [] c).cursor.coming [] =
      .block opener body closer :: rest := by
    rw [Cursor.coming, hpart, h]
    exact List.dropWhile_cons_of_neg (by simp [Component.isSeparator, hopener, Token.isSeparator])
  obtain ⟨bracket, hbracket, hbody⟩ := Cursor.next_block hcoming
  have hentered := Cursor.entered_next [] (selectorList.untilBefore [.openingCurly] [] c).cursor
  rw [h] at hfirst hrest
  rw [hfirst] at hentered
  obtain rfl : bracket = .curly := by
    rw [hopener] at hbracket
    exact (Option.some.inj hbracket).symm
  unfold rule
  dsimp only
  generalize (selectorList.untilBefore [.openingCurly] [] c).cursor.next [] = opening at *
  obtain ⟨hblockTurn, hblockOut, hblockRest⟩ := nested_chunkList .curly opening.2
  have hahead : opening.2.ahead = rest := by rwa [Cursor.part_nil] at hrest
  have hleave : group (leave [.curly] opening.2.rest) = rest := by
    rw [← hahead, Cursor.ahead, Cursor.settled, hentered]
    rfl
  have hfirst : opening.1 = some (.opening .curly) := hfirst
  rw [if_neg (by rw [hturn]; exact Turn.noConfusion), if_pos hfirst, hout, map_isNone_eq,
    reduceOption_eq]
  unfold Construct.read
  dsimp only
  cases selectedClasses (upTo [.openingCurly] c.ahead) with
  | nil => exact ⟨rfl, rfl, hahead⟩
  | cons name names =>
    dsimp only
    rw [if_neg (by rw [hblockTurn]; exact Turn.noConfusion), hblockOut, ← hbody]
    exact ⟨rfl, rfl, hblockRest.trans hleave⟩

end

/-! ## Sheets -/

theorem curlyBody?_eq_none_iff {c : Component} (hc : c.IsFormed) :
    c.curlyBody? = none ↔ c.token ≠ .opening .curly := by
  cases c with
  | leaf l =>
    refine ⟨fun _ h => ?_, fun _ => rfl⟩
    have hopens : l.token.opens? = none := hc
    rw [show l.token = _ from h] at hopens
    cases hopens
  | block opener body closer => simp [curlyBody?]

theorem constructsFrom_dropWhile (cs : List Component) :
    constructsFrom .between (cs.dropWhile isSeparator) = constructsFrom .between cs := by
  induction cs with
  | nil => rfl
  | cons c cs ih =>
    by_cases hc : c.isSeparator = true
    · simpa [constructsFrom, hc] using ih
    · simp [hc]

section

variable {cs : List Component} (h : ∀ c ∈ cs, c.IsFormed)

include h

theorem constructsFrom_inAtRule_eq :
    constructsFrom .inAtRule cs = constructsFrom .between (cs.dropWhile fun x =>
      !(x.token = .semicolon || x.token = .opening .curly)).tail := by
  induction cs with
  | nil => rfl
  | cons c cs ih =>
    obtain ⟨hc, h⟩ := List.forall_mem_cons.mp h
    have hcurly := curlyBody?_eq_none_iff hc
    rw [constructsFrom, isLeaf_eq_decide hc rfl]
    by_cases hend : c.token = .semicolon ∨ c.token = .opening .curly
    · have hends : (decide (c.token = .semicolon) || c.curlyBody?.isSome) = true := by
        rw [Bool.or_eq_true, decide_eq_true_eq]
        refine hend.imp_right fun hopening => ?_
        rw [Option.isSome_iff_ne_none, ne_eq, hcurly]
        exact not_not_intro hopening
      rw [if_pos hends, List.dropWhile_cons_of_neg (by rcases hend with h | h <;> simp [h]),
        List.tail_cons]
    · obtain ⟨hsemicolon, hopening⟩ := not_or.mp hend
      rw [if_neg (by simp [hsemicolon, hcurly.mpr hopening]), ih h,
        List.dropWhile_cons_of_pos (by simp [hsemicolon, hopening])]

theorem constructsFrom_inSelectors_eq (read : List Component) :
    constructsFrom (.inSelectors read) cs = match startingAt [.openingCurly] cs with
      | [] => [.unfinished (read.reverse ++ cs)]
      | c :: rest => .rule (read.reverse ++ upTo [.openingCurly] cs) (c.curlyBody?.getD []) ::
        constructsFrom .between rest := by
  induction cs generalizing read with
  | nil => simp [constructsFrom, startingAt]
  | cons c cs ih =>
    obtain ⟨hc, h⟩ := List.forall_mem_cons.mp h
    have hcurly := curlyBody?_eq_none_iff hc
    rw [constructsFrom, startingAt_cons, upTo_cons, endsPart_singleton]
    cases hbody : c.curlyBody? with
    | some body =>
      have hopening : c.token = .opening .curly := by
        by_contra hne
        rw [hcurly.mpr hne] at hbody
        cases hbody
      simp [Delimiter.token, hopening, hbody]
    | none =>
      have hopening := hcurly.mp hbody
      have hmore := ih h (c :: read)
      simp only [List.reverse_cons, List.append_assoc, List.singleton_append] at hmore
      simpa [Delimiter.token, hopening] using hmore

end

/-- Entries say the same if they have the same rules and the same notices one after the other. -/
def SayTheSame (a b : List Entry) : Prop :=
  a.flatMap Prod.fst = b.flatMap Prod.fst ∧ a.flatMap Prod.snd = b.flatMap Prod.snd

theorem SayTheSame.append {a b c : List Entry} (h : SayTheSame a b) :
    SayTheSame (c ++ a) (c ++ b) := by
  unfold SayTheSame
  simp only [List.flatMap_append, h.1, h.2, and_self]

theorem Cursor.ahead_of_rest {c : Cursor} (h : c.rest = []) : c.ahead = [] := by
  have hsettled : c.settled = [] := List.suffix_nil.mp (h ▸ c.settled_suffix)
  rw [ahead, hsettled]
  rfl

theorem startingAt_openingCurly {cs : List Component} (h : ∀ c ∈ cs, c.IsFormed) :
    startingAt [.openingCurly] cs = [] ∨ ∃ opener body closer rest,
      startingAt [.openingCurly] cs = .block opener body closer :: rest ∧
        (block opener body closer).curlyBody? = some body := by
  have hends := endsPart_of_startingAt [.openingCurly] cs
  cases hcs : startingAt [.openingCurly] cs with
  | nil => exact .inl rfl
  | cons x rest =>
    rw [hcs] at hends
    have hx := hends x rfl
    rw [endsPart_singleton, decide_eq_true_eq] at hx
    have hformed : x.IsFormed := h x ((List.dropWhile_sublist _).subset (hcs ▸ List.mem_cons_self))
    cases x with
    | leaf l => exact absurd hx ((curlyBody?_eq_none_iff hformed).mp rfl)
    | block opener body closer => exact .inr ⟨_, _, _, _, rfl, if_pos hx⟩

section

variable (c : Cursor)

theorem rule_failed_iff : (rule c).turn = .failed ↔ startingAt [.openingCurly] c.ahead = [] := by
  refine ⟨fun h => ?_, fun h => (rule_of_no_block c h).1⟩
  obtain hnone | ⟨opener, body, closer, rest, hblock, -⟩ :=
    startingAt_openingCurly c.isFormed_ahead
  · exact hnone
  · rw [(rule_of_block c hblock).1] at h
    cases h

theorem sayTheSame_ruleOrSkip :
    (ruleOrSkip c).turn = .again ∧
      SayTheSame ((ruleOrSkip c).out ++
          (constructsFrom .between (ruleOrSkip c).cursor.ahead).map Construct.read)
        ((constructsFrom (.inSelectors []) c.ahead).map Construct.read) := by
  rw [constructsFrom_inSelectors_eq c.isFormed_ahead]
  unfold ruleOrSkip
  dsimp only
  obtain hnone | ⟨opener, body, closer, rest, hblock, hbody⟩ :=
    startingAt_openingCurly c.isFormed_ahead
  · obtain ⟨hturn, hout, hrest⟩ := rule_of_no_block c hnone
    have hskip : (skipToNextRule (rule c).cursor).rest = [] :=
      List.suffix_nil.mp (hrest ▸ skipToNextRule_suffix _)
    rw [if_pos hturn, hout, hnone]
    dsimp only
    rw [Cursor.ahead_of_rest hskip]
    refine ⟨rfl, rfl, ?_⟩
    simp [constructsFrom, Construct.read]
  · obtain ⟨hturn, hout, hrest⟩ := rule_of_block c hblock
    rw [if_neg (by rw [hturn]; exact Turn.noConfusion), hout, hrest, hblock]
    dsimp only
    rw [hbody]
    exact ⟨rfl, rfl, rfl⟩

theorem pass_sheet_of_coming (h : c.coming [] = []) : sheet.pass c = ⟨[], c.skipBlanks, .done⟩ := by
  unfold sheet
  dsimp only
  rw [if_pos (Cursor.isExhausted_iff.mpr ((Cursor.coming_skipBlanks _ _).trans h))]

theorem sayTheSame_pass (h : c.coming [] ≠ []) :
    (sheet.pass c).turn = .again ∧
      SayTheSame ((sheet.pass c).out ++
          (constructsFrom .between (sheet.pass c).cursor.ahead).map Construct.read)
        ((constructsFrom .between c.ahead).map Construct.read) := by
  obtain ⟨x, rest, hcoming⟩ := List.exists_cons_of_ne_nil h
  have hsep := c.isSeparator_coming [] x (by rw [hcoming]; rfl)
  have hformed : ∀ x ∈ c.coming [], x.IsFormed := Cursor.isFormed_coming
  have hahead : c.skipBlanks.ahead = x :: rest := by
    rw [← Cursor.part_nil, Cursor.part_skipBlanks, hcoming]
  have hfirst := Cursor.next_fst [] c.skipBlanks
  have hrest := Cursor.part_next [] c.skipBlanks
  rw [Cursor.coming_skipBlanks, hcoming] at hfirst hrest
  have hmore : c.skipBlanks.isExhausted [] = false := by
    rw [Bool.eq_false_iff, ne_eq, Cursor.isExhausted_iff, Cursor.coming_skipBlanks]
    exact h
  have hstart : constructsFrom .between c.ahead = constructsFrom .between (x :: rest) := by
    rw [← constructsFrom_dropWhile, ← hcoming, Cursor.coming, Cursor.part_nil]
  rw [hcoming] at hformed
  obtain ⟨hx, hformed⟩ := List.forall_mem_cons.mp hformed
  rw [hstart, constructsFrom, if_neg (by simp [hsep]), (ident?_eq hx).2]
  unfold sheet
  dsimp only
  rw [if_neg (by simp [hmore]), hfirst, List.head?_cons, Option.map_some, Option.bind_some]
  cases x.token.atKeyword? with
  | some name =>
    have hends : ∀ t : Token, t.isSeparator = true →
        (decide (t = .semicolon) || decide (t = .opening .curly)) = false := fun t ht => by
      cases t <;> first | rfl | cases ht
    have hskip := part_skipping [] (c.skipBlanks.next []).2 hends
    rw [hrest, Cursor.part_nil, List.tail_cons] at hskip
    refine ⟨rfl, ?_⟩
    dsimp only
    rw [constructsFrom_inAtRule_eq hformed, ← hskip]
    exact ⟨rfl, rfl⟩
  | none =>
    have hrule := sayTheSame_ruleOrSkip c.skipBlanks
    rw [hahead, constructsFrom] at hrule
    cases hbody : x.curlyBody? <;> simpa only [hbody, List.reverse_nil] using hrule

theorem sayTheSame_run :
    SayTheSame (sheet.run c).out ((constructsFrom .between c.ahead).map Construct.read) := by
  induction c using Loop.run.induct sheet with
  | case1 c hagain ih =>
    have hcoming : c.coming [] ≠ [] := fun hcoming => by
      rw [pass_sheet_of_coming c hcoming] at hagain
      cases hagain
    rw [Loop.run, dif_pos hagain]
    obtain ⟨-, hrules, hnotices⟩ := sayTheSame_pass c hcoming
    have hrun := ih.append (c := (sheet.pass c).out)
    exact ⟨hrun.1.trans hrules, hrun.2.trans hnotices⟩
  | case2 c hagain =>
    have hcoming : c.coming [] = [] := by
      by_contra hcoming
      exact hagain (sayTheSame_pass c hcoming).1
    rw [Loop.run, dif_neg hagain, pass_sheet_of_coming c hcoming, ← constructsFrom_dropWhile,
      ← Cursor.part_nil]
    change SayTheSame [] ((constructsFrom .between (c.coming [])).map Construct.read)
    rw [hcoming]
    exact ⟨rfl, rfl⟩

end

/-- Reading a text token by token gives the sheet and the notices of its components. -/
theorem readTokens_eq (text : List Char) : readTokens text = readSheet text := by
  obtain ⟨hrules, hnotices⟩ := sayTheSame_run ⟨lexemes text, none⟩
  unfold readTokens readSheet
  dsimp only
  rw [hrules, hnotices, Cursor.ahead, Cursor.settled_of_entered rfl]
  rfl

/-! ## Progress -/

/-- Each pass of a loop moves the cursor on or leaves the loop, and there are at most as many passes
as tokens are left, and one more. -/
def Loop.Progresses {α : Type} (loop : Loop α) : Prop :=
  ∀ c, ((loop.pass c).turn = .again → c.IsBefore (loop.pass c).cursor) ∧
    ∃ n, n ≤ c.rest.length + 1 ∧ loop.EndsIn n c (loop.run c)

theorem Loop.progresses {α : Type} (loop : Loop α) : loop.Progresses := fun c =>
  ⟨fun hagain => Cursor.isBefore_of_suffix (loop.moves c).suffix ((loop.moves c).advances hagain),
    loop.exists_endsIn c⟩

theorem readTokens_progresses :
    (sheet.Progresses ∧ ∀ delimiters, (selectors delimiters).Progresses ∧
        (declarations delimiters).Progresses ∧ ∀ ends, (skipping ends delimiters).Progresses) ∧
      (∀ delimiters c, (chunkList delimiters c).turn = .done) ∧
      (∀ bracket c, (chunkList.nested bracket c).turn = .done) ∧
      (∀ c, ((rule c).turn = .failed ↔ ∀ x ∈ c.ahead, x.curlyBody? = none) ∧
        ((rule c).turn = .failed → (rule c).cursor.rest = [])) ∧
      ∀ text, readTokens text = readSheet text := by
  refine ⟨⟨sheet.progresses, fun delimiters => ⟨Loop.progresses _, Loop.progresses _,
    fun ends => Loop.progresses _⟩⟩, fun delimiters c => (run_declarations delimiters c).1,
    fun bracket c => (nested_chunkList bracket c).1, fun c => ⟨?_, fun h => ?_⟩, readTokens_eq⟩
  · rw [rule_failed_iff, startingAt, List.dropWhile_eq_nil_iff]
    refine forall₂_congr fun x hx => ?_
    rw [curlyBody?_eq_none_iff (c.isFormed_ahead x hx), endsPart_singleton, Bool.not_eq_true',
      decide_eq_false_iff_not]
    rfl
  · exact (rule_of_no_block c ((rule_failed_iff c).mp h)).2.2

end ClassStyle.Css
