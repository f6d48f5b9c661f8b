import ClassStyle.Arithmetic.Reader

/-!
# Expressions without some of their signs

An arithmetic text has the same value if its numerals are written in another way and plus signs in
front of operands are left out. If a plus sign between two operands is left out, the text has no
value at all (`evaluate_rewritten`).
-/

namespace ClassStyle.Arithmetic

open Text

/-! ## Symbols -/

section

variable {a b : List Char} {c : Char}

theorem forall_head?_append {p : Char → Prop} (ha : ∀ d ∈ a.head?, p d)
    (hb : ∀ d ∈ b.head?, p d) : ∀ d ∈ (a ++ b).head?, p d := by
  cases a with
  | nil => exact hb
  | cons c a => exact ha

theorem forall_head?_cons {p : Char → Prop} (h : p c) (s : List Char) :
    ∀ d ∈ (c :: s).head?, p d := by
  intro d hd
  rwa [← Option.mem_some_iff.mp hd]

theorem takeWhile_run {p : Char → Bool} (ha : ∀ c ∈ a, p c = true)
    (hb : ∀ c ∈ b.head?, p c = false) :
    (a ++ b).takeWhile p = a ∧ (a ++ b).dropWhile p = b := by
  rw [List.takeWhile_append_of_pos ha, List.dropWhile_append_of_pos ha]
  cases b with
  | nil => simp
  | cons c b =>
    have hc : p c = false := hb c rfl
    simp [hc]

theorem exists_run {p : Char → Bool} (hc : p c = true) (s : List Char) :
    ∃ run rest, c :: s = run ++ rest ∧ run ≠ [] ∧ (∀ d ∈ run, p d = true) ∧
      (∀ d ∈ rest.head?, p d = false) ∧ rest.length ≤ s.length := by
  refine ⟨(c :: s).takeWhile p, (c :: s).dropWhile p, List.takeWhile_append_dropWhile.symm,
    by simp [hc], fun d hd => List.all_eq_true.mp List.all_takeWhile d hd, ?_, ?_⟩
  · intro d hd
    have hnot := List.head?_dropWhile_not p (c :: s)
    rw [Option.mem_def.mp hd] at hnot
    simpa using hnot
  · rw [List.dropWhile_cons_of_pos hc]
    exact (List.dropWhile_sublist _).length_le

theorem symbols_space (hc : isSpace c = true) (s : List Char) : symbols (c :: s) = symbols s := by
  rw [symbols.eq_def]
  simp only [hc, if_true]

theorem symbols_char (hspace : isSpace c = false) (hc : isNumeralChar c = false)
    (s : List Char) : symbols (c :: s) = Symbol.ofChar c :: symbols s := by
  rw [symbols.eq_def]
  simp only [hspace, hc, Bool.false_eq_true, if_false]

theorem not_isSpace_of_isNumeralChar (hc : isNumeralChar c = true) : isSpace c = false := by
  cases hspace : isSpace c with
  | false => rfl
  | true =>
    simp only [isSpace, Bool.or_eq_true, decide_eq_true_eq] at hspace
    rcases hspace with (((rfl | rfl) | rfl) | rfl) | rfl <;> exact absurd hc (by decide)

theorem symbols_run (hne : a ≠ []) (ha : ∀ c ∈ a, isNumeralChar c = true)
    (hb : ∀ c ∈ b.head?, isNumeralChar c = false) :
    symbols (a ++ b) = .numeral a :: symbols b := by
  induction a with
  | nil => exact absurd rfl hne
  | cons c a ih =>
    obtain ⟨hc, ha⟩ := List.forall_mem_cons.mp ha
    have hspace := not_isSpace_of_isNumeralChar hc
    rw [List.cons_append, symbols.eq_def]
    simp only [hspace, hc, Bool.false_eq_true, if_false, if_true]
    cases a with
    | nil =>
      cases b with
      | nil => rfl
      | cons d b =>
        have hd : isNumeralChar d = false := hb d rfl
        simp only [List.nil_append]
        split
        · next heq hsymbols =>
          obtain ⟨rfl, -⟩ := List.cons.inj heq
          rw [hd, if_neg Bool.false_ne_true, ← hsymbols]
        · rfl
    | cons d a =>
      have hd : isNumeralChar d = true := ha d List.mem_cons_self
      rw [ih (by simp) ha, List.cons_append]
      simp only [hd, if_true]

theorem symbols_append (hb : ∀ c ∈ b.head?, isNumeralChar c = false) (a : List Char) :
    symbols (a ++ b) = symbols a ++ symbols b := by
  match a with
  | [] => rfl
  | c :: s =>
    by_cases hspace : isSpace c = true
    · rw [List.cons_append, symbols_space hspace, symbols_space hspace, symbols_append hb s]
    · rw [Bool.not_eq_true] at hspace
      by_cases hc : isNumeralChar c = true
      · obtain ⟨run, rest, heq, hne, hrun, hrest, hshort⟩ := exists_run hc s
        have hboth := forall_head?_append hrest hb
        rw [heq, List.append_assoc, symbols_run hne hrun hboth, symbols_run hne hrun hrest,
          symbols_append hb rest, List.cons_append]
      · rw [Bool.not_eq_true] at hc
        rw [List.cons_append, symbols_char hspace hc, symbols_char hspace hc, symbols_append hb s,
          List.cons_append]
termination_by a.length

end

/-! ## Slashes -/

variable {operation? : Symbol → Option Operation} {operand : List Symbol → Partial Expression}

/-- A slash stands right before a star. -/
def HasClash (symbols : List Symbol) : Prop := [.slash, .times] <:+: symbols

theorem hasClash_cons {symbol : Symbol} {rest : List Symbol} :
    HasClash (symbol :: rest) ↔ symbol = .slash ∧ [.times] <+: rest ∨ HasClash rest := by
  unfold HasClash
  rw [List.infix_cons_iff, List.cons_prefix_cons, eq_comm]

/-- Reading an operand never goes over a slash that stands before a star. -/
def KeepsClash (operand : List Symbol → Partial Expression) : Prop :=
  (∀ rest, operand (.times :: rest) = none) ∧
    ∀ symbols e rest, operand symbols = some (e, rest) → HasClash symbols → HasClash rest

theorem hasClash_chainFrom (h : KeepsClash operand) (bound : Nat) (left : Expression)
    {symbols rest : List Symbol} {e : Expression}
    (hread : chainFrom operation? operand bound left symbols = some (e, rest))
    (hclash : HasClash symbols) : HasClash rest := by
  obtain ⟨htimes, hkeeps⟩ := h
  induction bound generalizing left symbols with
  | zero =>
    cases hread
    exact hclash
  | succ bound ih =>
    cases symbols with
    | nil =>
      cases hread
      exact hclash
    | cons symbol tail =>
      rw [chainFrom] at hread
      cases hoperation : operation? symbol with
      | none =>
        rw [hoperation] at hread
        cases hread
        exact hclash
      | some op =>
        simp only [hoperation] at hread
        cases hoperand : operand tail with
        | none => simp [hoperand] at hread
        | some found =>
          obtain ⟨right, tail'⟩ := found
          simp only [hoperand] at hread
          refine ih _ hread (hkeeps _ _ _ hoperand ?_)
          refine (hasClash_cons.mp hclash).resolve_left ?_
          rintro ⟨-, behind, rfl⟩
          rw [List.singleton_append, htimes] at hoperand
          cases hoperand

theorem keepsClash_chain (operation? : Symbol → Option Operation) (h : KeepsClash operand) :
    KeepsClash (chain operation? operand) := by
  constructor
  · intro rest
    rw [chain, h.1]
  · intro symbols e rest hread hclash
    unfold chain at hread
    cases hoperand : operand symbols with
    | none => simp [hoperand] at hread
    | some found =>
      obtain ⟨left, tail⟩ := found
      simp only [hoperand] at hread
      exact hasClash_chainFrom h _ _ hread (h.2 _ _ _ hoperand hclash)

theorem keepsClash_sumOf (h : KeepsClash operand) : KeepsClash (sumOf operand) :=
  keepsClash_chain sumOperation? (keepsClash_chain productOperation? h)

theorem keepsClash_term (depth : Nat) : KeepsClash (term depth) := by
  induction depth with
  | zero => exact ⟨fun _ => rfl, fun _ _ _ hread => by cases hread⟩
  | succ depth ih =>
    refine ⟨fun _ => rfl, ?_⟩
    intro symbols e rest hread hclash
    cases symbols with
    | nil => cases hread
    | cons symbol tail =>
      -- No first symbol of an operand is a slash.
      have htail : symbol ≠ .slash → HasClash tail := fun hne =>
        (hasClash_cons.mp hclash).resolve_left fun hslash => hne hslash.1
      unfold term at hread
      cases symbol with
      | minus | plus =>
        obtain ⟨⟨e', rest'⟩, hterm, heq⟩ := Option.map_eq_some_iff.mp hread
        obtain ⟨-, rfl⟩ := Prod.mk.inj heq
        exact ih.2 _ _ _ hterm (htail (by simp))
      | numeral text =>
        obtain ⟨x, -, heq⟩ := Option.map_eq_some_iff.mp hread
        obtain ⟨-, rfl⟩ := Prod.mk.inj heq
        exact htail (by simp)
      | opening =>
        have hsum := keepsClash_sumOf ih
        simp only at hread
        split at hread
        · next e' rest' hsumOf =>
          obtain ⟨-, rfl⟩ := Prod.mk.inj (Option.some.inj hread)
          have hinner := hsum.2 _ _ _ hsumOf (htail (by simp))
          exact (hasClash_cons.mp hinner).resolve_left (by simp)
        · cases hread
      | times | slash | closing | other => cases hread

theorem read?_of_hasClash {text : List Char} (h : HasClash (symbols text)) :
    read? text = none := by
  have hsum := keepsClash_sumOf (keepsClash_term depthLimit)
  unfold read?
  split
  · next e hread =>
    have hnil := hsum.2 _ _ _ hread h
    unfold HasClash at hnil
    rw [List.infix_nil] at hnil
    cases hnil
  · rfl

/-! ## Signs that are left out -/

/-- The second list comes from the first: numerals are replaced by others with the same value, and
a plus sign in front of a numeral may be left out. The first argument tells whether the lists stand
behind a numeral, and the second whether a plus sign behind a numeral is left out. -/
inductive Rewritten : Bool → Bool → List Symbol → List Symbol → Prop
  | nil {behind : Bool} : Rewritten behind false [] []
  | numeral {behind merged : Bool} {s t : List Char} {a b : List Symbol}
      (h : readFloat? s = readFloat? t) (rest : Rewritten true merged a b) :
      Rewritten behind merged (.numeral s :: a) (.numeral t :: b)
  | operator {behind merged : Bool} {symbol : Symbol} {a b : List Symbol}
      (h : symbol ∈ [.plus, .minus, .times, .slash]) (rest : Rewritten false merged a b) :
      Rewritten behind merged (symbol :: a) (symbol :: b)
  | dropped {behind merged : Bool} {s t : List Char} {a b : List Symbol}
      (h : readFloat? s = readFloat? t) (rest : Rewritten true merged a b) :
      Rewritten behind (behind || merged) (.plus :: .numeral s :: a) (.numeral t :: b)

/-- What reading gives for the second list, if it gives `e` and `rest` for the first one: the same
value and a rest that comes from the other, or a numeral is left that cannot be read on. The rests
are shorter than some bounds. -/
def Follows (merged : Bool) (n n' : Nat) (e : Expression) (rest : List Symbol) (e' : Expression)
    (rest' : List Symbol) : Prop :=
  e'.value = e.value ∧ Rewritten true merged rest rest' ∧ rest.length < n ∧ rest'.length < n' ∨
    merged = true ∧ ∃ t b, rest' = .numeral t :: b

theorem Follows.mono {merged : Bool} {n n' k k' : Nat} {e e' : Expression}
    {rest rest' : List Symbol} (h : Follows merged n n' e rest e' rest') (hn : n ≤ k)
    (hn' : n' ≤ k') : Follows merged k k' e rest e' rest' := by
  rcases h with ⟨hvalue, hrest, hshort, hshort'⟩ | hmerged
  · exact .inl ⟨hvalue, hrest, Nat.lt_of_lt_of_le hshort hn, Nat.lt_of_lt_of_le hshort' hn'⟩
  · exact .inr hmerged

/-- Reading an operand of the second list follows reading it of the first. -/
def Simulates (operand : List Symbol → Partial Expression) : Prop :=
  ∀ merged a b e rest, Rewritten false merged a b → operand a = some (e, rest) →
    ∃ e' rest', operand b = some (e', rest') ∧
      Follows merged a.length b.length e rest e' rest'

theorem chainFrom_nil (bound : Nat) (left : Expression) :
    chainFrom operation? operand bound left [] = some (left, []) := by
  cases bound <;> rfl

theorem chainFrom_numeral (hnumeral : ∀ t, operation? (.numeral t) = none) (bound : Nat)
    (left : Expression) (t : List Char) (b : List Symbol) :
    chainFrom operation? operand bound left (.numeral t :: b) = some (left, .numeral t :: b) := by
  cases bound with
  | zero => rfl
  | succ bound =>
    rw [chainFrom]
    simp only [hnumeral]

theorem simulates_chainFrom (hnumeral : ∀ t, operation? (.numeral t) = none)
    (h : Simulates operand) {merged : Bool} {bound bound' : Nat} {left left' : Expression}
    {a b rest : List Symbol} {e : Expression} (hleft : left'.value = left.value)
    (hab : Rewritten true merged a b) (ha : a.length ≤ bound) (hb : b.length ≤ bound')
    (hread : chainFrom operation? operand bound left a = some (e, rest)) :
    ∃ e' rest', chainFrom operation? operand bound' left' b = some (e', rest') ∧
      Follows merged (a.length + 1) (b.length + 1) e rest e' rest' := by
  induction bound generalizing bound' left left' a b with
  | zero =>
    obtain rfl : a = [] := List.length_eq_zero_iff.mp (by omega)
    cases hab
    cases hread
    exact ⟨left', [], chainFrom_nil _ _, .inl ⟨hleft, .nil, by simp, by simp⟩⟩
  | succ bound ih =>
    cases hab with
    | nil =>
      cases hread
      exact ⟨left', [], chainFrom_nil _ _, .inl ⟨hleft, .nil, by simp, by simp⟩⟩
    | numeral htext hrest =>
      rw [chainFrom_numeral hnumeral] at hread
      cases hread
      exact ⟨left', _, chainFrom_numeral hnumeral _ _ _ _,
        .inl ⟨hleft, .numeral htext hrest, by simp, by simp⟩⟩
    | dropped htext hrest =>
      -- The second list goes on with a numeral, where the chain ends.
      exact ⟨left', _, chainFrom_numeral hnumeral _ _ _ _, .inr ⟨rfl, _, _, rfl⟩⟩
    | @operator _ _ symbol a b hsymbol hrest =>
      rw [chainFrom] at hread
      obtain ⟨bound', rfl⟩ : ∃ k, bound' = k + 1 :=
        ⟨bound' - 1, by simp only [List.length_cons] at hb; omega⟩
      rw [chainFrom]
      cases hoperation : operation? symbol with
      | none =>
        simp only [hoperation] at hread ⊢
        cases hread
        exact ⟨left', _, rfl, .inl ⟨hleft, .operator hsymbol hrest, by simp, by simp⟩⟩
      | some op =>
        simp only [hoperation] at hread ⊢
        cases hoperand : operand a with
        | none => simp [hoperand] at hread
        | some found =>
          obtain ⟨right, tail⟩ := found
          simp only [hoperand] at hread
          obtain ⟨right', tail', hoperand', hfollows⟩ := h _ _ _ _ _ hrest hoperand
          simp only [hoperand']
          simp only [List.length_cons] at ha hb ⊢
          rcases hfollows with ⟨hright, htail, hlt, hlt'⟩ | ⟨hmerged, t, b', rfl⟩
          · have hvalue : (Expression.binary op left' right').value =
                (Expression.binary op left right).value := by
              rw [Expression.value, Expression.value, hleft, hright]
            have hbound : tail.length ≤ bound := by omega
            have hbound' : tail'.length ≤ bound' := by omega
            obtain ⟨e', rest', hread', hfollows⟩ := ih hvalue htail hbound hbound' hread
            exact ⟨e', rest', hread', hfollows.mono (by omega) (by omega)⟩
          · exact ⟨_, _, chainFrom_numeral hnumeral _ _ _ _, .inr ⟨hmerged, _, _, rfl⟩⟩

theorem simulates_chain (hnumeral : ∀ t, operation? (.numeral t) = none)
    (h : Simulates operand) : Simulates (chain operation? operand) := by
  intro merged a b e rest hab hread
  unfold chain at hread ⊢
  cases hoperand : operand a with
  | none => simp [hoperand] at hread
  | some found =>
    obtain ⟨left, tail⟩ := found
    simp only [hoperand] at hread
    obtain ⟨left', tail', hoperand', hfollows⟩ := h _ _ _ _ _ hab hoperand
    simp only [hoperand']
    rcases hfollows with ⟨hleft, htail, hlt, hlt'⟩ | ⟨hmerged, t, b', rfl⟩
    · obtain ⟨e', rest', hread', hfollows⟩ :=
        simulates_chainFrom hnumeral h hleft htail (Nat.le_refl _) (Nat.le_refl _) hread
      exact ⟨e', rest', hread', hfollows.mono (by omega) (by omega)⟩
    · exact ⟨_, _, chainFrom_numeral hnumeral _ _ _ _, .inr ⟨hmerged, _, _, rfl⟩⟩

theorem Simulates.wrap (h : Simulates operand) {wrap : Expression → Expression}
    (hwrap : ∀ e e' : Expression, e'.value = e.value → (wrap e').value = (wrap e).value)
    {merged : Bool} {a b rest : List Symbol} {e : Expression} (hab : Rewritten false merged a b)
    (hread : ((operand a).map fun found => (wrap found.1, found.2)) = some (e, rest)) :
    ∃ e' rest', ((operand b).map fun found => (wrap found.1, found.2)) = some (e', rest') ∧
      Follows merged a.length b.length e rest e' rest' := by
  obtain ⟨found, hoperand, heq⟩ := Option.map_eq_some_iff.mp hread
  obtain ⟨rfl, rfl⟩ := Prod.mk.inj heq
  obtain ⟨e', rest', hoperand', hfollows⟩ := h _ _ _ _ _ hab hoperand
  refine ⟨wrap e', rest', by rw [hoperand']; rfl, ?_⟩
  rcases hfollows with ⟨hvalue, hrest⟩ | hmerged
  · exact .inl ⟨hwrap _ _ hvalue, hrest⟩
  · exact .inr hmerged

theorem simulates_term (depth : Nat) : Simulates (term depth) := by
  induction depth with
  | zero =>
    intro merged a b e rest hab hread
    cases hread
  | succ depth ih =>
    intro merged a b e rest hab hread
    cases hab with
    | nil => cases hread
    | numeral htext hrest =>
      unfold term at hread ⊢
      simp only [← htext]
      obtain ⟨x, hx, heq⟩ := Option.map_eq_some_iff.mp hread
      cases heq
      rw [hx]
      exact ⟨_, _, rfl, .inl ⟨rfl, hrest, by simp, by simp⟩⟩
    | @dropped _ merged s t a b htext hrest =>
      -- The plus sign is one more term around the number.
      rw [Bool.false_or]
      unfold term at hread
      obtain ⟨⟨operand, tail⟩, hoperand, heq⟩ := Option.map_eq_some_iff.mp hread
      cases heq
      cases depth with
      | zero => cases hoperand
      | succ depth =>
        obtain ⟨x, hx, heq⟩ := Option.map_eq_some_iff.mp hoperand
        cases heq
        have hread' : term (depth + 2) (.numeral t :: b) = some (.number x, b) := by
          show (readFloat? t).map _ = _
          rw [← htext, hx]
          rfl
        exact ⟨_, _, hread', .inl ⟨rfl, hrest, by simp only [List.length_cons]; omega, by simp⟩⟩
    | @operator _ _ symbol a b hsymbol hrest =>
      simp only [List.mem_cons, List.not_mem_nil, or_false] at hsymbol
      unfold term at hread ⊢
      rcases hsymbol with rfl | rfl | rfl | rfl
      · have hpositive : ∀ e e' : Expression, e'.value = e.value →
            e'.positive.value = e.positive.value := fun _ _ hvalue => hvalue
        obtain ⟨e', rest', hread', hfollows⟩ := ih.wrap hpositive hrest hread
        exact ⟨e', rest', hread', hfollows.mono (Nat.le_succ _) (Nat.le_succ _)⟩
      · have hnegative : ∀ e e' : Expression, e'.value = e.value →
            e'.negative.value = e.negative.value := fun e e' hvalue => by
          rw [Expression.value, Expression.value, hvalue]
        obtain ⟨e', rest', hread', hfollows⟩ := ih.wrap hnegative hrest hread
        exact ⟨e', rest', hread', hfollows.mono (Nat.le_succ _) (Nat.le_succ _)⟩
      · cases hread
      · cases hread

/-- With some of its plus signs left out, a text keeps its value, unless one of them stands between
two numerals: then it has none. -/
theorem evaluate_rewritten {merged : Bool} {text text' : List Char} {v : Float}
    (h : Rewritten false merged (symbols text) (symbols text'))
    (hvalue : evaluate text = some v) :
    evaluate text' = if merged then none else some v := by
  have hsimulates : Simulates (sumOf (term depthLimit)) :=
    simulates_chain (fun _ => rfl) (simulates_chain (fun _ => rfl) (simulates_term depthLimit))
  unfold evaluate read? at hvalue ⊢
  obtain ⟨e, hread, hfinite⟩ := Option.bind_eq_some_iff.mp hvalue
  split at hread
  · next e₀ hsum =>
    obtain rfl := Option.some.inj hread
    obtain ⟨e', rest', hsum', hfollows⟩ := hsimulates _ _ _ _ _ h hsum
    rw [hsum']
    rcases hfollows with ⟨hsame, hrest, -⟩ | ⟨rfl, t, b, rfl⟩
    · cases hrest
      simpa [hsame] using hfinite
    · rfl
  · cases hread

end ClassStyle.Arithmetic
