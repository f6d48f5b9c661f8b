import ClassStyle.Proofs.Printed
import ClassStyle.Proofs.Room

/-!
# What is written for a value

The pieces of a value are never empty, and its opacity is always a printed number
(`wellFormed_writeText`). So what is written for two parts of a value, one behind the other, is the
text of each with a space between them, if there is any (`Written.text_append`).
-/

namespace ClassStyle.Css

open Component

/-! ## Names are not empty -/

def Lexeme.HasName (l : Lexeme) : Prop := ∀ name, l.token = .ident name → name.toList ≠ []

theorem nameChar?_isSome {c : Char} {rest : List Char} (h : startsName (c :: rest) = true) :
    (nameChar? (c :: rest)).isSome = true := by
  unfold startsName at h
  unfold nameChar?
  by_cases hescape : c = '\\'
  · subst hescape
    have hnewline : startsWithNewline rest = false := by
      simpa [isNameStart, Text.isLetter] using h
    simp [hnewline]
  · have hchar : isNameChar c = true := by
      by_cases hdash : c = '-'
      · subst hdash
        rfl
      · have hstart : isNameStart c = true := by simpa [hescape, hdash] using h
        simp [isNameChar, hstart]
    simp [hescape, hchar]

theorem readName_ne_nil {s : List Char} (h : startsName s = true) :
    (readName s).1.toList ≠ [] := by
  cases s with
  | nil => cases h
  | cons c rest =>
    obtain ⟨⟨d, n⟩, hchar⟩ := Option.isSome_iff_exists.mp (nameChar?_isSome h)
    simp [readName, nameChars, hchar]

theorem numericToken_ne_ident (s : List Char) (name : String) :
    (numericToken s).1 ≠ .ident name := by
  fun_cases numericToken s <;> simp_all

theorem nameToken_ident {s : List Char} {name : String} (h : (nameToken s).1 = .ident name) :
    name = (readName s).1 := by
  revert h
  fun_cases nameToken s <;> simp_all

theorem tokenAt_ident {c : Char} {rest : List Char} {name : String}
    (h : (tokenAt c rest).1 = .ident name) : name.toList ≠ [] := by
  revert h
  fun_cases tokenAt c rest <;> intro h <;> try cases h
  case case17 =>
    unfold matchToken at h
    split at h <;> cases h
  case case19 => exact absurd h (numericToken_ne_ident _ _)
  case case21 hname => exact nameToken_ident h ▸ readName_ne_nil hname

theorem hasName_lexemeAt (c : Char) (rest : List Char) : (lexemeAt c rest).HasName :=
  fun _ h => tokenAt_ident h

/-! ## Pieces and opacities -/

/-- No piece is empty, and the opacity is a printed number. -/
structure Written.WellFormed (w : Written) : Prop where
  pieces : ∀ piece ∈ w.pieces, piece ≠ []
  opacity : ∀ alpha ∈ w.opacity, ∃ x : Float32, alpha = writeSingle x

theorem Written.mem_opacity_append {a b : Written} {alpha : List Char}
    (h : alpha ∈ (a ++ b).opacity) : alpha ∈ a.opacity ∨ alpha ∈ b.opacity := by
  have hor : (b.opacity <|> a.opacity) = some alpha := h
  cases hopacity : b.opacity with
  | some beta =>
    rw [hopacity] at hor
    exact .inr hor
  | none =>
    rw [hopacity] at hor
    exact .inl hor

theorem Written.WellFormed.append {a b : Written} (ha : a.WellFormed) (hb : b.WellFormed) :
    (a ++ b).WellFormed :=
  ⟨List.forall_mem_append.mpr ⟨ha.pieces, hb.pieces⟩,
    fun alpha halpha => (mem_opacity_append halpha).elim (ha.opacity alpha) (hb.opacity alpha)⟩

theorem wellFormed_of_no_pieces {w : Written} (hpieces : w.pieces = []) (h : w.opacity = none) :
    w.WellFormed := by
  constructor
  · simp [hpieces]
  · simp [h]

theorem wellFormed_piece {text : List Char} (h : text ≠ []) :
    (Written.piece text).WellFormed := by
  constructor
  · simp [Written.piece, h]
  · simp [Written.piece]

/-! ## Colors -/

def Channels.WellFormed (channels : Channels) : Prop :=
  ∀ text ∈ channels.texts, ∃ x : Float32, text = writeSingle x

namespace Channels.WellFormed

variable {channels : Channels}

theorem add (h : channels.WellFormed) (x : Float32) :
    (channels.add (writeSingle x)).WellFormed := by
  intro text htext
  rcases List.mem_append.mp htext with htext | htext
  · exact h text htext
  · exact ⟨x, List.mem_singleton.mp htext⟩

theorem addPieces (h : channels.WellFormed) (pieces : List (List Char)) :
    (channels.addPieces pieces).WellFormed := by
  fun_induction Channels.addPieces channels pieces with
  | case1 => exact h
  | case2 => exact h
  | case3 channels piece x => exact h.add x
  | case4 channels piece next rest hpiece ih => exact ih h
  | case5 channels piece rest x hx ih => exact ih (h.add _)
  | case6 channels piece next rest x hx hnext ih => exact ih (h.add x)

theorem addArgument (h : channels.WellFormed) (reference : List Component → Written)
    (c : Component) : (addArgument reference channels c).WellFormed := by
  unfold Css.addArgument
  split
  · exact h.add _
  · exact h.add _
  · split
    · exact h.addPieces _
    · exact h
  · exact h

theorem written (h : channels.WellFormed) : channels.written.WellFormed := by
  unfold Channels.written
  split
  · next r g b rest htexts =>
    obtain ⟨x, rfl⟩ := h r (by simp [htexts])
    constructor
    · simp [List.intercalate, (printed_writeSingle x).ne_nil]
    · intro alpha halpha
      have hmem : alpha ∈ rest := List.mem_of_mem_head? halpha
      exact h alpha (by rw [htexts]; simp [hmem])
  · exact wellFormed_of_no_pieces rfl rfl

end Channels.WellFormed

theorem wellFormed_channels (reference : List Component → Written)
    (arguments : List Component) :
    (arguments.foldl (addArgument reference) ⟨[], []⟩).WellFormed := by
  have hfold : ∀ channels : Channels, channels.WellFormed →
      (arguments.foldl (addArgument reference) channels).WellFormed := by
    induction arguments with
    | nil => exact fun _ h => h
    | cons c arguments ih => exact fun channels h => ih _ (h.addArgument reference c)
  exact hfold ⟨[], []⟩ (List.forall_mem_nil _)

theorem wellFormed_writeColor (reference : List Component → Written)
    (arguments : List Component) : (writeColor reference arguments).WellFormed :=
  (wellFormed_channels reference arguments).written

/-! ## Components and texts -/

/-- What holds of all that is written if it holds of tokens. -/
structure Written.Composes (P : Written → Prop) : Prop where
  append : ∀ {a b : Written}, P a → P b → P (a ++ b)
  silent : ∀ {w : Written}, w.pieces = [] → w.opacity = none → P w
  color : ∀ reference arguments, P (writeColor reference arguments)

section

variable {P : Written → Prop} {K : Char → Prop}

theorem forall_writeComponents (hP : Written.Composes P) {reference : List Component → Written}
    (href : ∀ arguments, (∀ d ∈ sourceAll arguments, K d) → P (reference arguments))
    {cs : List Component} (htokens : ∀ c ∈ cs, c.Each fun l => P (writeToken l.token))
    (hchars : ∀ d ∈ sourceAll cs, K d) : P (writeComponents reference cs) := by
  induction cs with
  | nil => exact hP.silent rfl rfl
  | cons c cs ih =>
    obtain ⟨hc, htokens⟩ := List.forall_mem_cons.mp htokens
    rw [sourceAll_cons] at hchars
    obtain ⟨hsource, hchars⟩ := List.forall_mem_append.mp hchars
    rw [writeComponents]
    refine hP.append ?_ (ih htokens hchars)
    unfold writeComponent
    split
    · cases hc with
      | leaf htoken => exact htoken
    · split
      · exact hP.color reference _
      · split
        · refine href _ fun d hd => hsource d ?_
          rw [source_block]
          simp [hd]
        · exact hP.silent rfl rfl
    · exact hP.silent rfl rfl

theorem forall_writeReference (hP : Written.Composes P) {custom : SortedMap String}
    (hcustom : ∀ entry ∈ custom.entries, ∀ d ∈ entry.2.toList, K d)
    {write : List String → List Char → Written}
    (hwrite : ∀ opened text, (∀ d ∈ text, K d) → P (write opened text)) (opened : List String)
    {arguments : List Component} (h : ∀ d ∈ sourceAll arguments, K d) :
    P (writeReference custom write opened arguments) := by
  unfold writeReference
  split
  · exact hP.silent rfl rfl
  · split
    · exact hP.silent rfl rfl
    · split
      · next hvalue =>
        obtain ⟨text, hmem, hpart⟩ := definition?_sublist hvalue
        exact hwrite _ _ fun d hd => hcustom _ hmem d (hpart.subset hd)
      · next hfallback =>
        exact hwrite _ _ fun d hd => h d ((fallback?_sublist hfallback).subset hd)
      · exact hP.silent rfl rfl

theorem forall_writeText (hP : Written.Composes P)
    (htoken : ∀ c rest, (∀ d ∈ c :: rest, K d) → P (writeToken (lexemeAt c rest).token))
    {custom : SortedMap String} (hcustom : ∀ entry ∈ custom.entries, ∀ d ∈ entry.2.toList, K d)
    (depth : Nat) (opened : List String) {text : List Char} (h : ∀ d ∈ text, K d) :
    P (writeText custom depth opened text) := by
  induction depth generalizing opened text with
  | zero => exact hP.silent rfl rfl
  | succ depth ih =>
    have hbang : (beforeBang (components text)).Sublist (components text) :=
      List.takeWhile_sublist _
    refine forall_writeComponents hP (K := K) ?_ ?_ ?_
    · intro arguments harguments
      exact forall_writeReference hP hcustom (fun opened text => ih opened) opened harguments
    · intro c hc
      refine each_components (fun d rest hrest => htoken d rest fun e he => ?_) c (hbang.subset hc)
      exact h e (hrest.subset he)
    · have hsource := sourceAll_sublist hbang
      rw [source_components] at hsource
      exact fun d hd => h d (hsource.subset hd)

end

theorem composes_wellFormed : Written.Composes Written.WellFormed :=
  ⟨.append, wellFormed_of_no_pieces, wellFormed_writeColor⟩

theorem wellFormed_writeToken {l : Lexeme} (h : l.HasName) : (writeToken l.token).WellFormed := by
  have hnumber : ∀ n, numberText n ≠ [] := fun n => (printed_writeSingle _).ne_nil
  unfold writeToken
  split
  · exact wellFormed_piece (by simp)
  · exact wellFormed_piece (by simp)
  · exact wellFormed_piece (hnumber _)
  · next name hname => exact wellFormed_piece (h name hname)
  · exact wellFormed_piece (by simp)
  · exact wellFormed_piece (by simp)
  · split
    · exact wellFormed_piece (by simp)
    · exact wellFormed_of_no_pieces rfl rfl
  · exact wellFormed_of_no_pieces rfl rfl

theorem wellFormed_writeText (custom : SortedMap String) (depth : Nat) (opened : List String)
    (text : List Char) : (writeText custom depth opened text).WellFormed :=
  forall_writeText composes_wellFormed (K := fun _ => True)
    (fun c rest _ => wellFormed_writeToken (hasName_lexemeAt c rest))
    (fun _ _ _ _ => trivial) depth opened fun _ _ => trivial

theorem wellFormed_writeValue (custom : SortedMap String) (text : List Char) :
    (writeValue custom text).WellFormed := wellFormed_writeText _ _ _ _

/-! ## Parts of a value -/

/-- The arguments of a component that is a reference. -/
def Component.reference? : Component → Option (List Component)
  | .block { token := .function name, .. } body _ => if isNamed "var" name then some body else none
  | _ => none

theorem writeComponents_append (reference : List Component → Written) (a b : List Component) :
    writeComponents reference (a ++ b) =
      writeComponents reference a ++ writeComponents reference b := by
  induction a with
  | nil => rw [List.nil_append, writeComponents, Written.empty_append]
  | cons c a ih => rw [List.cons_append, writeComponents, ih, writeComponents, Written.append_assoc]

theorem writeComponent_separator (reference : List Component → Written) {c : Component}
    (h : c.isSeparator = true) : writeComponent reference c = .empty := by
  cases c with
  | leaf l =>
    obtain ⟨token, source⟩ := l
    cases token <;> first | rfl | cases h
  | block opener body closer =>
    obtain ⟨token, source⟩ := opener
    cases token <;> first | rfl | cases h

theorem writeComponents_filter (reference : List Component → Written) {p : Component → Bool}
    (h : ∀ c, p c = false → writeComponent reference c = .empty) (cs : List Component) :
    writeComponents reference (cs.filter p) = writeComponents reference cs := by
  induction cs with
  | nil => rfl
  | cons c cs ih =>
    cases hc : p c with
    | false =>
      rw [List.filter_cons_of_neg (by rw [hc]; decide), ih, writeComponents, h c hc,
        Written.empty_append]
    | true => rw [List.filter_cons_of_pos hc, writeComponents, writeComponents, ih]

theorem writeComponents_significant (reference : List Component → Written)
    (cs : List Component) :
    writeComponents reference (significant cs) = writeComponents reference cs :=
  have hseparator : ∀ c : Component, (!c.isSeparator) = false →
      writeComponent reference c = .empty :=
    fun _ hc => writeComponent_separator reference (by simpa using hc)
  writeComponents_filter reference hseparator cs

theorem beforeBang_eq_self {cs : List Component}
    (h : ∀ c ∈ cs, c.isLeaf (.delimiter '!') = false) : beforeBang cs = cs := by
  unfold beforeBang
  induction cs with
  | nil => rfl
  | cons c cs ih =>
    obtain ⟨hc, h⟩ := List.forall_mem_cons.mp h
    rw [List.takeWhile_cons_of_pos (by rw [hc]; rfl), ih h]

/-- Texts with one space between those that are not empty. -/
def spaced (texts : List (List Char)) : List Char :=
  [' '].intercalate (texts.filter fun text => !text.isEmpty)

theorem intercalate_append {p q : List (List Char)} (hp : p ≠ []) (hq : q ≠ []) :
    [' '].intercalate (p ++ q) = [' '].intercalate p ++ ' ' :: [' '].intercalate q := by
  induction p with
  | nil => exact absurd rfl hp
  | cons t p ih =>
    cases p with
    | nil => simp [List.intercalate_cons_of_ne_nil hq]
    | cons u p =>
      have hrest := ih (by simp)
      simp only [List.cons_append, List.intercalate_cons_cons] at hrest ⊢
      rw [hrest]
      simp

theorem Written.WellFormed.text_eq_nil_iff {w : Written} (h : w.WellFormed) :
    w.text = [] ↔ w.pieces = [] := by
  obtain ⟨pieces, opacity, notices⟩ := w
  unfold Written.text
  cases pieces with
  | nil => simp
  | cons piece pieces =>
    have hpiece : piece ≠ [] := h.pieces piece (by simp)
    cases pieces with
    | nil => simp [hpiece]
    | cons piece' pieces => simp [hpiece]

/-- Parts of a value are written with a space between those that have a text. -/
theorem Written.text_append {a b : Written} (ha : a.WellFormed) (hb : b.WellFormed) :
    (a ++ b).text = spaced [a.text, b.text] := by
  have happend : (a ++ b).text = [' '].intercalate (a.pieces ++ b.pieces) := rfl
  have hatext : a.text = [' '].intercalate a.pieces := rfl
  have hbtext : b.text = [' '].intercalate b.pieces := rfl
  unfold spaced
  by_cases hp : a.pieces = []
  · have hanil := ha.text_eq_nil_iff.mpr hp
    by_cases hq : b.pieces = []
    · have hbnil := hb.text_eq_nil_iff.mpr hq
      simp [happend, hp, hq, hanil, hbnil]
    · have hbsome := mt hb.text_eq_nil_iff.mp hq
      rw [happend, hp, List.nil_append, ← hbtext]
      simp [hanil, hbsome]
  · have hasome := mt ha.text_eq_nil_iff.mp hp
    by_cases hq : b.pieces = []
    · have hbnil := hb.text_eq_nil_iff.mpr hq
      rw [happend, hq, List.append_nil, ← hatext]
      simp [hasome, hbnil]
    · have hbsome := mt hb.text_eq_nil_iff.mp hq
      rw [happend, intercalate_append hp hq, ← hatext, ← hbtext]
      simp [hasome, hbsome]

end ClassStyle.Css
