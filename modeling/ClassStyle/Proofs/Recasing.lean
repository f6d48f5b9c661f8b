import ClassStyle.Proofs.Leaves
import ClassStyle.Proofs.LetterCase
import ClassStyle.Proofs.Reach

/-!
# Values in another letter case

The letters of a unit and of the name of a function, such as `rgb`, `rgba` and `var`, may change
their case, in a value, in a custom property and in a fallback: what is written for the value stays
the same (`writeValue_recased`).
-/

namespace ClassStyle

open Text

theorem Css.doubleValue_lowered (n : Numeral) : Css.doubleValue n.lowered = Css.doubleValue n := by
  obtain ⟨sign, whole, fraction, _ | e⟩ := n <;> rfl

theorem Css.numberText_congr {n n' : Numeral} (h : n.lowered = n'.lowered) :
    Css.numberText n = Css.numberText n' := by
  rw [numberText, numberText, singleValue, singleValue, ← doubleValue_lowered, h,
    doubleValue_lowered]

theorem lower_toList_congr {a b : String} (h : lowerString a = lowerString b) :
    lower a.toList = lower b.toList := by
  have hlists := congrArg String.toList h
  rwa [lowerString, lowerString, String.toList_ofList, String.toList_ofList] at hlists

namespace Css

open Component

/-! ## Tokens -/

/-- The letters of the token may change their case: those of a unit and of the name of a function,
and those of comments, strings and addresses, which are not read. -/
def Token.mayChange : Token → Bool
  | .dimension .. | .function _ | .comment | .string | .url => true
  | _ => false

/-- Where the texts of two lexemes differ, the letters of the first may change their case. -/
def Lexeme.Recased (l l' : Lexeme) : Prop := l.source = l'.source ∨ l.token.mayChange = true

instance (l l' : Lexeme) : Decidable (l.Recased l') := inferInstanceAs (Decidable (_ ∨ _))

/-- Lexemes one by one are the same but for letter case, where that may change. -/
def Lexeme.Alike (l l' : Lexeme) : Prop := l.Cased l' ∧ l.Recased l'

/-- Tokens that are written alike. -/
inductive Token.Alike : Token → Token → Prop
  | same (t : Token) : Alike t t
  | dimension {n n' : Numeral} {unit unit' : String} : numberText n = numberText n' →
      lower unit.toList = lower unit'.toList → Alike (.dimension n unit) (.dimension n' unit')
  | function {name name' : String} : lowerString name = lowerString name' →
      Alike (.function name) (.function name')

theorem Lexeme.Alike.token {l l' : Lexeme} (h : l.Alike l') : l.token.Alike l'.token := by
  obtain ⟨⟨hlowered, -, hsame⟩, hsource | hchange⟩ := h
  · rw [hsame hsource]
    exact .same _
  · generalize l.token = t at hlowered hchange
    generalize l'.token = t' at hlowered
    cases t with
    | dimension n unit =>
      cases t' with
      | dimension n' unit' =>
        simp only [Token.lowered, Token.dimension.injEq] at hlowered
        exact .dimension (numberText_congr hlowered.1) (lower_toList_congr hlowered.2)
      | _ => cases hlowered
    | function name =>
      cases t' with
      | function name' =>
        simp only [Token.lowered, Token.function.injEq] at hlowered
        exact .function hlowered
      | _ => cases hlowered
    | comment | string | url =>
      cases t' <;> cases hlowered
      exact .same _
    | _ => cases hchange

theorem keepsBrackets_of_lowered {R : Lexeme → Lexeme → Prop}
    (h : ∀ l l', R l l' → l.token.lowered = l'.token.lowered) : KeepsBrackets R := by
  have hopens : ∀ t : Token, t.lowered.opens? = t.opens? := fun t => by cases t <;> rfl
  have hcloses : ∀ t : Token, t.lowered.closes? = t.closes? := fun t => by cases t <;> rfl
  intro l l' hl
  have hlowered := h l l' hl
  exact ⟨by rw [← hopens, hlowered, hopens], by rw [← hcloses, hlowered, hcloses]⟩

/-! ## Components -/

/-- The tokens that texts are cut at. None of them has letters. -/
def Token.cuts : List Token :=
  [.whitespace, .comment, .comma, .colon, .semicolon, .opening .curly, .delimiter '!',
    .delimiter '.']

theorem Token.lowered_eq_iff {t : Token} (ht : t ∈ cuts) (u : Token) : u.lowered = t ↔ u = t := by
  simp only [cuts, List.mem_cons, List.not_mem_nil, or_false] at ht
  rcases ht with rfl | rfl | rfl | rfl | rfl | rfl | rfl | rfl <;> cases u <;> simp [lowered]
  · exact lowerChar_eq_iff rfl _
  · exact lowerChar_eq_iff rfl _

section

variable {c c' : Component} (h : c.Related Lexeme.Cased c')

include h

theorem Component.Related.lowered : c.token.lowered = c'.token.lowered := by
  cases h with
  | leaf hl => exact hl.lowered
  | block hopener => exact hopener.lowered

theorem isSeparator_cased : c.isSeparator = c'.isSeparator := by
  have hlowered : ∀ t : Token, t.lowered.isSeparator = t.isSeparator := fun t => by cases t <;> rfl
  rw [isSeparator, ← hlowered, h.lowered, hlowered, ← isSeparator]

theorem isLeaf_cased {t : Token} (ht : t ∈ Token.cuts) : c.isLeaf t = c'.isLeaf t := by
  cases h with
  | leaf hl =>
    rw [isLeaf, isLeaf, Bool.eq_iff_iff, beq_iff_eq, beq_iff_eq, ← Token.lowered_eq_iff ht,
      hl.lowered, Token.lowered_eq_iff ht]
  | block => rfl

theorem ident?_cased : c.ident?.map lowerString = c'.ident?.map lowerString := by
  have hlowered : ∀ l : Lexeme,
      (leaf l).ident?.map lowerString = (leaf ⟨l.token.lowered, []⟩).ident? := by
    rintro ⟨t, -⟩
    cases t <;> rfl
  cases h with
  | leaf hl => rw [hlowered, hlowered, hl.lowered]
  | block => rfl

theorem atKeyword?_cased : c.atKeyword?.map lowerString = c'.atKeyword?.map lowerString := by
  have hlowered : ∀ l : Lexeme,
      (leaf l).atKeyword?.map lowerString = (leaf ⟨l.token.lowered, []⟩).atKeyword? := by
    rintro ⟨t, -⟩
    cases t <;> rfl
  cases h with
  | leaf hl => rw [hlowered, hlowered, hl.lowered]
  | block => rfl

theorem curlyBody?_cased :
    Option.Rel (RelatedAll Lexeme.Cased) c.curlyBody? c'.curlyBody? := by
  have hbody := h
  cases h with
  | leaf => exact .none
  | @block opener opener' _ _ _ _ hopener =>
    have hcurly := Token.lowered_eq_iff (t := .opening .curly) (by decide)
    have hopens : opener.token = .opening .curly ↔ opener'.token = .opening .curly := by
      rw [← hcurly, hopener.lowered, hcurly]
    rw [curlyBody?, curlyBody?]
    by_cases hcurly : opener.token = .opening .curly
    · rw [if_pos hcurly, if_pos (hopens.mp hcurly)]
      exact .some hbody.body
    · rw [if_neg hcurly, if_neg (mt hopens.mpr hcurly)]
      exact .none

end

/-! ## Alike components -/

theorem Component.Related.imp {R S : Lexeme → Lexeme → Prop} (hRS : ∀ l l', R l l' → S l l')
    {c c' : Component} (h : c.Related R c') : c.Related S c' := by
  induction h with
  | leaf h => exact .leaf (hRS _ _ h)
  | block hopener hlength _ hcloser ih =>
    refine .block (hRS _ _ hopener) hlength ih ?_
    cases hcloser with
    | none => exact .none
    | some h => exact .some (hRS _ _ h)

/-- The kinds of components that are alike, with what they are written by. -/
inductive Component.Alike : Component → Component → Prop
  | leaf {t t' : Token} {source source' : List Char} : t.Alike t' →
      Alike (.leaf ⟨t, source⟩) (.leaf ⟨t', source'⟩)
  | function {name name' : String} {source source' : List Char} {body body' : List Component}
      {closer closer' : Option Lexeme} : lowerString name = lowerString name' →
      RelatedAll Lexeme.Alike body body' →
      Alike (.block ⟨.function name, source⟩ body closer)
        (.block ⟨.function name', source'⟩ body' closer')
  | other {opener opener' : Lexeme} {body body' : List Component}
      {closer closer' : Option Lexeme} : (∀ name, opener.token ≠ .function name) →
      (∀ name, opener'.token ≠ .function name) →
      Alike (.block opener body closer) (.block opener' body' closer')

theorem Component.Related.alike {c c' : Component} (h : c.Related Lexeme.Alike c') :
    c.Alike c' := by
  have hbody := h
  cases h with
  | @leaf l l' hl =>
    have htoken := hl.token
    obtain ⟨t, source⟩ := l
    obtain ⟨t', source'⟩ := l'
    exact .leaf htoken
  | @block opener opener' _ _ _ _ hopener =>
    have htoken := hopener.token
    obtain ⟨t, source⟩ := opener
    obtain ⟨t', source'⟩ := opener'
    cases htoken with
    | same =>
      cases t with
      | function name => exact .function rfl hbody.body
      | _ => exact .other (fun _ => Token.noConfusion) fun _ => Token.noConfusion
    | dimension => exact .other (fun _ => Token.noConfusion) fun _ => Token.noConfusion
    | function hname => exact .function hname hbody.body

/-- A block that no function opens is not looked into. -/
structure Component.Ignored (c : Component) : Prop where
  reference? : c.reference? = none
  references : c.references = []
  written : ∀ reference, writeComponent reference c = .empty
  added : ∀ reference channels, addArgument reference channels c = channels

theorem ignored_block {opener : Lexeme} (h : ∀ name, opener.token ≠ .function name)
    (body : List Component) (closer : Option Lexeme) : (block opener body closer).Ignored := by
  obtain ⟨t, source⟩ := opener
  cases t with
  | function name => exact absurd rfl (h name)
  | _ => exact ⟨rfl, rfl, fun _ => rfl, fun _ _ => rfl⟩

theorem isNamed_congr {name name' : String} (h : lowerString name = lowerString name')
    (keyword : String) : isNamed keyword name = isNamed keyword name' := by
  rw [isNamed, isNamed, h]

section

variable {c c' : Component} (h : c.Related Lexeme.Alike c')

include h

theorem ident?_alike : c.ident? = c'.ident? := by
  cases h.alike with
  | @leaf t _ _ _ htoken =>
    cases htoken with
    | same => cases t <;> rfl
    | dimension => rfl
    | function => rfl
  | function => rfl
  | other => rfl

theorem reference?_alike : Option.Rel (RelatedAll Lexeme.Alike) c.reference? c'.reference? := by
  cases h.alike with
  | leaf => exact .none
  | function hname hbody =>
    rw [Component.reference?, Component.reference?, isNamed_congr hname]
    split
    · exact .some hbody
    · exact .none
  | other hopener hopener' =>
    rw [(ignored_block hopener _ _).reference?, (ignored_block hopener' _ _).reference?]
    exact .none

theorem references_alike :
    List.Forall₂ (RelatedAll Lexeme.Alike) c.references c'.references := by
  cases h.alike with
  | leaf => exact .nil
  | function hname hbody =>
    rw [Component.references, Component.references, isNamed_congr hname "rgb",
      isNamed_congr hname "rgba", isNamed_congr hname "var"]
    split
    · exact List.rel_filterMap (fun _ _ h => reference?_alike h) hbody
    · split
      · exact .cons hbody .nil
      · exact .nil
  | other hopener hopener' =>
    rw [(ignored_block hopener _ _).references, (ignored_block hopener' _ _).references]
    exact .nil

end

section

variable {reference reference' : List Component → Written}

theorem addArgument_alike {c c' : Component} (h : c.Related Lexeme.Alike c')
    (href : ∀ p ∈ c.reference?.toList.zip c'.reference?.toList, reference p.1 = reference' p.2)
    (channels : Channels) :
    addArgument reference channels c = addArgument reference' channels c' := by
  cases h.alike with
  | @leaf t _ _ _ htoken =>
    cases htoken with
    | same => cases t <;> rfl
    | dimension => rfl
    | function => rfl
  | @function name name' _ _ body body' _ _ hname =>
    rw [addArgument, addArgument, isNamed_congr hname]
    split
    · next hvar =>
      have hbody : reference body = reference' body' := href (body, body') (by
        simp [Component.reference?, isNamed_congr hname, hvar])
      rw [hbody]
    · rfl
  | other hopener hopener' =>
    rw [(ignored_block hopener _ _).added, (ignored_block hopener' _ _).added]

theorem writeColor_alike {cs cs' : List Component} (h : RelatedAll Lexeme.Alike cs cs')
    (href : ∀ p ∈ (cs.filterMap Component.reference?).zip (cs'.filterMap Component.reference?),
      reference p.1 = reference' p.2) : writeColor reference cs = writeColor reference' cs' := by
  unfold writeColor
  generalize (⟨[], []⟩ : Channels) = channels
  induction h generalizing channels with
  | nil => rfl
  | @cons c c' cs cs' hc _ ih =>
    have hlength := (forall₂_toList (reference?_alike hc)).length_eq
    rw [filterMap_cons_toList, filterMap_cons_toList, forall_zip_append hlength] at href
    rw [List.foldl_cons, List.foldl_cons, addArgument_alike hc href.1]
    exact ih href.2 _

theorem writeToken_alike {t t' : Token} (h : t.Alike t') : writeToken t = writeToken t' := by
  cases h with
  | same => rfl
  | dimension hnumber hunit => rw [writeToken, writeToken, hnumber, hunit]
  | function => rfl

theorem writeComponent_alike {c c' : Component} (h : c.Related Lexeme.Alike c')
    (href : ∀ p ∈ c.references.zip c'.references, reference p.1 = reference' p.2) :
    writeComponent reference c = writeComponent reference' c' := by
  cases h.alike with
  | leaf htoken => exact writeToken_alike htoken
  | @function name name' _ _ body body' _ _ hname hbody =>
    rw [Component.references, Component.references, isNamed_congr hname "rgb",
      isNamed_congr hname "rgba", isNamed_congr hname "var"] at href
    rw [writeComponent, writeComponent, isNamed_congr hname "rgb", isNamed_congr hname "rgba",
      isNamed_congr hname "var", hname]
    split
    · next hcolor => exact writeColor_alike hbody (by rwa [if_pos hcolor, if_pos hcolor] at href)
    · next hcolor =>
      rw [if_neg hcolor, if_neg hcolor] at href
      split
      · next hvar =>
        rw [if_pos hvar, if_pos hvar] at href
        exact href (body, body') List.mem_cons_self
      · rfl
  | other hopener hopener' =>
    rw [(ignored_block hopener _ _).written, (ignored_block hopener' _ _).written]

theorem writeComponents_alike {cs cs' : List Component} (h : RelatedAll Lexeme.Alike cs cs')
    (href : ∀ p ∈ (referencesIn cs).zip (referencesIn cs'), reference p.1 = reference' p.2) :
    writeComponents reference cs = writeComponents reference' cs' := by
  induction h with
  | nil => rfl
  | cons hc _ ih =>
    unfold referencesIn at href
    rw [List.flatMap_cons, List.flatMap_cons,
      forall_zip_append (references_alike hc).length_eq] at href
    rw [writeComponents, writeComponents, writeComponent_alike hc href.1, ih href.2]

end

/-! ## Texts -/

/-- Two texts are the same but for the case of letters that may change it. -/
structure Recased (s t : List Char) : Prop where
  letters : lower s = lower t
  tokens : ∀ p ∈ (lexemes s).zip (lexemes t), p.1.Recased p.2

instance (s t : List Char) : Decidable (Recased s t) :=
  decidable_of_iff (lower s = lower t ∧ ∀ p ∈ (lexemes s).zip (lexemes t), p.1.Recased p.2)
    ⟨fun h => ⟨h.1, h.2⟩, fun h => ⟨h.letters, h.tokens⟩⟩

theorem Recased.components {s t : List Char} (h : Recased s t) :
    RelatedAll Lexeme.Alike (components s) (components t) :=
  related_group (keepsBrackets_of_lowered fun _ _ hl => hl.1.lowered)
    (forall₂_of_zip (cased_lexemes h.letters) h.tokens)

section

variable {cs cs' : List Component} (h : RelatedAll Lexeme.Alike cs cs')

include h

theorem relatedAll_cased : RelatedAll Lexeme.Cased cs cs' :=
  h.imp fun _ _ hc => hc.imp fun _ _ hl => hl.1

theorem beforeBang_alike : RelatedAll Lexeme.Alike (beforeBang cs) (beforeBang cs') := by
  refine (forall₂_takeWhile_dropWhile (fun c c' hc => ?_) h).1
  rw [isLeaf_cased (hc.imp fun _ _ hl => hl.1) (by decide)]

theorem dropWhile_isSeparator_alike :
    RelatedAll Lexeme.Alike (cs.dropWhile isSeparator) (cs'.dropWhile isSeparator) :=
  (forall₂_takeWhile_dropWhile
    (fun _ _ hc => isSeparator_cased (hc.imp fun _ _ hl => hl.1)) h).2

theorem referenceName?_alike : referenceName? cs = referenceName? cs' := by
  unfold referenceName?
  refine rel_elim (forall₂_head?_tail (dropWhile_isSeparator_alike h)).1 rfl fun c c' hc => ?_
  exact ident?_alike hc

end

/-! ## Fallbacks -/

theorem behindFirst_alike {cs cs' : List Component} (h : RelatedAll Lexeme.Alike cs cs') :
    RelatedAll Lexeme.Alike (behindFirst cs) (behindFirst cs') :=
  dropWhile_isSeparator_alike (forall₂_head?_tail (dropWhile_isSeparator_alike h)).2

theorem rel_fallback? {P : List Char → List Char → Prop} {arguments arguments' : List Component}
    (h : RelatedAll Lexeme.Alike arguments arguments')
    (hP : ∀ fallback ∈ fallback? arguments, ∀ fallback' ∈ fallback? arguments',
      fallback = trim (sourceAll (behindFirst arguments).tail) →
      fallback' = trim (sourceAll (behindFirst arguments').tail) → P fallback fallback') :
    Option.Rel P (fallback? arguments) (fallback? arguments') := by
  have hcomma : ((behindFirst arguments).head?.any (isLeaf .comma)) =
      (behindFirst arguments').head?.any (isLeaf .comma) := by
    refine rel_elim (forall₂_head?_tail (behindFirst_alike h)).1 rfl fun c c' hc => ?_
    exact isLeaf_cased (hc.imp fun _ _ hl => hl.1) (by decide)
  rw [fallback?_eq, fallback?_eq, ← hcomma] at hP ⊢
  split
  · next hfirst =>
    rw [if_pos hfirst, if_pos hfirst] at hP
    exact .some (hP _ rfl _ rfl rfl rfl)
  · exact .none

/-! ## Lexemes that trimming leaves whole -/

theorem Lexeme.Cased.isSpace {l l' : Lexeme} (h : l.Cased l') : l.isSpace = l'.isSpace := by
  have hspace := Token.lowered_eq_iff (t := .whitespace) (by decide)
  rw [Lexeme.isSpace, Lexeme.isSpace, Bool.eq_iff_iff, decide_eq_true_eq, decide_eq_true_eq,
    ← hspace, h.lowered, hspace]

theorem Lexeme.Cased.isWhole {l l' : Lexeme} (h : l.Cased l') (hl : l.IsWhole) : l'.IsWhole := by
  have hblank : ∀ {c d : Char}, lowerChar d = lowerChar c → isBlank c = false →
      isBlank d = false := fun {c d} hcd hc => by
    have hlower : ∀ c, isBlank (lowerChar c) = isBlank c := apply_lowerChar isBlank (by decide)
    rw [← hlower, hcd, hlower, hc]
  have hmem : ∀ {o o' : Option Char}, o'.map lowerChar = o.map lowerChar → ∀ c ∈ o,
      ∃ d ∈ o', lowerChar d = lowerChar c := fun {o o'} ho c hc =>
    Option.map_eq_some_iff.mp (ho.trans (congrArg (Option.map lowerChar) hc))
  have hsource : l'.source.map lowerChar = l.source.map lowerChar := h.source.symm
  rcases hl with hspace | ⟨⟨c, hc, hfirst⟩, e, he, hlast, hslash⟩
  · exact .inl (h.isSpace ▸ hspace)
  · have hhead : l'.source.head?.map lowerChar = l.source.head?.map lowerChar := by
      rw [← List.head?_map, hsource, List.head?_map]
    have hend : l'.source.getLast?.map lowerChar = l.source.getLast?.map lowerChar := by
      rw [← List.getLast?_map, hsource, List.getLast?_map]
    obtain ⟨d, hd, hcd⟩ := hmem hhead c hc
    obtain ⟨f, hf, hef⟩ := hmem hend e he
    refine .inr ⟨⟨d, hd, hblank hcd hfirst⟩, f, hf, hblank hef hlast, fun hback => hslash ?_⟩
    rwa [← lowerChar_eq_iff rfl, hef, lowerChar_eq_iff rfl] at hback

instance (l : Lexeme) : Decidable l.IsWhole :=
  decidable_of_iff (l.isSpace = true ∨ (l.source.head?.any fun c => !isBlank c) = true ∧
    (l.source.getLast?.any fun c => !isBlank c && c ≠ '\\') = true)
    (by simp [Lexeme.IsWhole, Option.any_eq_true])

/-- Components that stand together, of lexemes that trimming leaves whole. -/
structure Whole (cs : List Component) : Prop where
  inside : Inside cs
  lexemes : ∀ l ∈ flattenAll cs, l.IsWhole

theorem whole_components {s : List Char} (h : ∀ l ∈ lexemes s, l.IsWhole) :
    Whole (components s) :=
  ⟨inside_components s, flattenAll_components s ▸ h⟩

namespace Whole

variable {cs cs' : List Component}

theorem cased (h : Whole cs) (hcs : RelatedAll Lexeme.Cased cs cs') (hinside : Inside cs') :
    Whole cs' := by
  have hall : ∀ {ls ls' : List Lexeme}, List.Forall₂ Lexeme.Cased ls ls' →
      (∀ l ∈ ls, l.IsWhole) → ∀ l ∈ ls', l.IsWhole := by
    intro ls ls' hls hwhole
    induction hls with
    | nil => exact hwhole
    | cons hl _ ih =>
      obtain ⟨hfirst, hwhole⟩ := List.forall_mem_cons.mp hwhole
      exact List.forall_mem_cons.mpr ⟨hl.isWhole hfirst, ih hwhole⟩
  exact ⟨hinside, hall (related_flattenAll hcs) h.lexemes⟩

theorem of_suffix (h : Whole cs) (hsuffix : cs' <:+ cs) : Whole cs' := by
  obtain ⟨before, rfl⟩ := hsuffix
  obtain ⟨hinside, hlexemes⟩ := h
  rw [flattenAll_append, List.forall_mem_append] at hlexemes
  rw [← List.append_nil (before ++ cs')] at hinside
  exact ⟨hinside.slice nofun, hlexemes.2⟩

theorem body (h : Whole cs) {opener : Lexeme} {body : List Component} {closer : Option Lexeme}
    (hmem : block opener body closer ∈ cs) : Whole body := by
  refine ⟨h.inside.body hmem, fun l hl => h.lexemes l ?_⟩
  obtain ⟨before, after, rfl⟩ := List.append_of_mem hmem
  rw [flattenAll_append, flattenAll, flatten]
  simp [hl]

theorem reference? (h : Whole cs) {c : Component} (hc : c ∈ cs) {arguments : List Component}
    (harguments : c.reference? = some arguments) : Whole arguments := by
  unfold Component.reference? at harguments
  split at harguments
  · next name source body closer =>
    split at harguments
    · obtain rfl := Option.some.inj harguments
      exact h.body hc
    · cases harguments
  · cases harguments

theorem references (h : Whole cs) {arguments : List Component}
    (harguments : arguments ∈ referencesIn (beforeBang cs)) : Whole arguments := by
  obtain ⟨c, hc, harguments⟩ := List.mem_flatMap.mp harguments
  replace hc := (List.takeWhile_prefix _).subset hc
  unfold Component.references at harguments
  split at harguments
  · next name source body closer =>
    split at harguments
    · obtain ⟨d, hd, harguments⟩ := List.mem_filterMap.mp harguments
      exact (h.body hc).reference? hd harguments
    · split at harguments
      · exact List.mem_singleton.mp harguments ▸ h.body hc
      · cases harguments
  · cases harguments

theorem trimmed (h : Whole cs) :
    trim (sourceAll cs) = (strip (flattenAll cs)).flatMap Lexeme.source ∧
      Standing (strip (flattenAll cs)) ∧ ∀ l ∈ strip (flattenAll cs), l.IsWhole := by
  rw [← source_flattenAll]
  refine ⟨h.inside.standing.trim_source h.lexemes, h.inside.standing.strip h.lexemes,
    fun l hl => h.lexemes l ?_⟩
  have hback := (List.dropWhile_sublist _).subset (List.mem_reverse.mp hl)
  exact (List.dropWhile_sublist _).subset (List.mem_reverse.mp hback)

end Whole

theorem lower_source {ls ls' : List Lexeme} (h : List.Forall₂ Lexeme.Cased ls ls') :
    lower (ls.flatMap Lexeme.source) = lower (ls'.flatMap Lexeme.source) := by
  induction h with
  | nil => rfl
  | cons hl _ ih =>
    rw [List.flatMap_cons, List.flatMap_cons, lower_append, lower_append, hl.source, ih]

theorem recased_of_standing {ls ls' : List Lexeme} (h : Standing ls) (h' : Standing ls')
    (hls : List.Forall₂ Lexeme.Alike ls ls') :
    Recased (ls.flatMap Lexeme.source) (ls'.flatMap Lexeme.source) := by
  refine ⟨lower_source (hls.imp fun _ _ hl => hl.1), ?_⟩
  rw [h, h']
  exact fun p hp => ((forall₂_iff_zip.mp hls).2 p hp).2

theorem strip_alike {ls ls' : List Lexeme} (h : List.Forall₂ Lexeme.Alike ls ls') :
    List.Forall₂ Lexeme.Alike (strip ls) (strip ls') := by
  have hdrop : ∀ {ls ls' : List Lexeme}, List.Forall₂ Lexeme.Alike ls ls' →
      List.Forall₂ Lexeme.Alike (ls.dropWhile Lexeme.isSpace) (ls'.dropWhile Lexeme.isSpace) :=
    fun h => (forall₂_takeWhile_dropWhile (fun _ _ hl => hl.1.isSpace) h).2
  exact List.rel_reverse (hdrop (List.rel_reverse (hdrop h)))

theorem Whole.recased {cs cs' : List Component} (h : Whole cs) (hinside : Inside cs')
    (hcs : RelatedAll Lexeme.Alike cs cs') :
    Recased (trim (sourceAll cs)) (trim (sourceAll cs')) ∧
      ∀ l ∈ Css.lexemes (trim (sourceAll cs)), l.IsWhole := by
  obtain ⟨htrim, hstanding, hwhole⟩ := h.trimmed
  obtain ⟨htrim', hstanding', -⟩ := (h.cased (relatedAll_cased hcs) hinside).trimmed
  rw [htrim, htrim', hstanding]
  exact ⟨recased_of_standing hstanding hstanding' (strip_alike (related_flattenAll hcs)), hwhole⟩

/-! ## Values with their fallbacks -/

/-- Two values are the same but for the case of letters that may change it, in their fallbacks too.
A fallback is trimmed before it is read. That may cut the first or the last of its lexemes where a
name has a blank beyond ASCII in it. If so, the lexemes that count are those of what is left. -/
inductive ValueRecased : List Char → List Char → Prop
  | whole {s t : List Char} : Recased s t → (∀ l ∈ lexemes s, l.IsWhole) → ValueRecased s t
  | read {s t : List Char} : Recased s t →
      (∀ p ∈ (referencesOf s).zip (referencesOf t), ∀ fallback ∈ fallback? p.1,
        ∀ fallback' ∈ fallback? p.2, ValueRecased fallback fallback') → ValueRecased s t

namespace ValueRecased

variable {s t : List Char}

theorem recased (h : ValueRecased s t) : Recased s t := by
  cases h with
  | whole h => exact h
  | read h => exact h

theorem referencesOf (h : ValueRecased s t) :
    List.Forall₂ (RelatedAll Lexeme.Alike) (Css.referencesOf s) (Css.referencesOf t) :=
  List.rel_flatMap (beforeBang_alike h.recased.components) fun _ _ hc => references_alike hc

theorem fallback (h : ValueRecased s t) (p : List Component × List Component)
    (hp : p ∈ (Css.referencesOf s).zip (Css.referencesOf t)) :
    Option.Rel ValueRecased (fallback? p.1) (fallback? p.2) := by
  have halike := (forall₂_iff_zip.mp h.referencesOf).2 p hp
  refine rel_fallback? halike fun fallback hfallback fallback' hfallback' hs ht => ?_
  cases h with
  | read _ hread => exact hread p hp fallback hfallback fallback' hfallback'
  | whole hrecased hwhole =>
    obtain ⟨hmem, hmem'⟩ := List.of_mem_zip hp
    have hcs := whole_components hwhole
    have hcs' := hcs.cased (relatedAll_cased hrecased.components) (inside_components t)
    have hsuffix : ∀ cs, (behindFirst cs).tail <:+ cs := fun cs =>
      (List.tail_suffix _).trans (behindFirst_suffix cs)
    have hbehind := (hcs.references hmem).of_suffix (hsuffix p.1)
    have hbehind' := (hcs'.references hmem').of_suffix (hsuffix p.2)
    obtain ⟨htrimmed, hwhole⟩ := hbehind.recased hbehind'.inside
      (forall₂_head?_tail (behindFirst_alike halike)).2
    rw [hs, ht]
    exact .whole htrimmed hwhole

end ValueRecased

/-- Two texts that are trimmed before they are read are the same but for the case of letters that
may change it. -/
def TrimRecased (s t : List Char) : Prop :=
  Recased s t ∧ (∀ l ∈ lexemes s, l.IsWhole) ∨ ValueRecased (trim s) (trim t)

theorem TrimRecased.trim {s t : List Char} (h : TrimRecased s t) :
    ValueRecased (trim s) (trim t) := by
  obtain ⟨hrecased, hwhole⟩ | h := h
  · have htrimmed := (whole_components hwhole).recased (inside_components t) hrecased.components
    rw [source_components, source_components] at htrimmed
    exact .whole htrimmed.1 htrimmed.2
  · exact h

/-! ## What is written -/

/-- The custom properties that a name finds are the same but for the letters that may change. -/
def CustomRecased (custom custom' : SortedMap String) : Prop :=
  ∀ name, Option.Rel ValueRecased (definition? custom name) (definition? custom' name)

theorem writeText_recased {custom custom' : SortedMap String}
    (hcustom : CustomRecased custom custom') (depth : Nat) (opened : List String)
    {s t : List Char} (h : ValueRecased s t) :
    writeText custom depth opened s = writeText custom' depth opened t := by
  induction depth generalizing opened s t with
  | zero => rfl
  | succ depth ih =>
    refine writeComponents_alike (beforeBang_alike h.recased.components) fun p hp => ?_
    have harguments := (forall₂_iff_zip.mp h.referencesOf).2 p hp
    unfold writeReference
    rw [referenceName?_alike harguments]
    cases referenceName? p.2 with
    | none => rfl
    | some name =>
      dsimp only
      split
      · rfl
      · refine rel_elim (hcustom name) ?undefined fun value value' hvalue => ih _ hvalue
        refine rel_elim (h.fallback p hp) rfl fun fallback fallback' hfallback => ?_
        cases fallback with
        | nil =>
          obtain rfl := lower_eq_nil.mp hfallback.recased.letters.symm
          rfl
        | cons c fallback =>
          cases fallback' with
          | nil => cases hfallback.recased.letters
          | cons c' fallback' => exact ih _ hfallback

theorem writeValue_recased {custom custom' : SortedMap String}
    (hcustom : CustomRecased custom custom') {s t : List Char} (h : ValueRecased s t) :
    writeValue custom s = writeValue custom' t := by
  let depth := max (depthBound custom s) (depthBound custom' t)
  have hroom : room custom [] s ≤ depth :=
    (room_le_depthBound custom [] s).trans (le_max_left _ _)
  have hroom' : room custom' [] t ≤ depth :=
    (room_le_depthBound custom' [] t).trans (le_max_right _ _)
  calc writeValue custom s
      = writeText custom depth [] s := writeText_eq (room_le_depthBound custom [] s) hroom
    _ = writeText custom' depth [] t := writeText_recased hcustom depth [] h
    _ = writeValue custom' t := writeText_eq hroom' (room_le_depthBound custom' [] t)

end Css

end ClassStyle
