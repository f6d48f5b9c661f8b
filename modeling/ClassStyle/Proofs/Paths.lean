import ClassStyle.Watcher

/-!
# Paths compared

The order of paths is a total one in which only paths of the same parts stand level (`le_trans`,
`le_total`, `same_of_le`), and which paths are in a list depends on their parts only.
-/

namespace ClassStyle

/-! ## The order of paths -/

namespace Path

theorem Part.lt_irrefl (a : Part) : a.lt a = false := by
  cases a with
  | name text => exact decide_eq_false (String.lt_irrefl text)
  | _ => rfl

theorem Part.lt_trans {a b c : Part} (h : a.lt b = true) (h' : b.lt c = true) :
    a.lt c = true := by
  cases a <;> cases b <;> cases c
  case name.name.name =>
    exact decide_eq_true (String.lt_trans (of_decide_eq_true h) (of_decide_eq_true h'))
  all_goals simp_all [lt, rank]

theorem Part.lt_asymm {a b : Part} (h : a.lt b = true) : b.lt a = false := by
  refine Bool.eq_false_iff.mpr fun h' => ?_
  have haa := Part.lt_trans h h'
  rw [Part.lt_irrefl] at haa
  cases haa

theorem Part.eq_of_not_lt {a b : Part} (h : a.lt b = false) (h' : b.lt a = false) : a = b := by
  cases a <;> cases b
  case name.name =>
    exact congrArg name (String.le_antisymm (of_decide_eq_false h') (of_decide_eq_false h))
  all_goals simp_all [lt, rank]

theorem partsLe_cons_iff {a b : Part} {as bs : List Part} :
    partsLe (a :: as) (b :: bs) = true ↔ a.lt b = true ∨ a = b ∧ partsLe as bs = true := by
  change (if a.lt b then true else if b.lt a then false else partsLe as bs) = true ↔ _
  cases hab : a.lt b with
  | true => simp
  | false =>
    cases hba : b.lt a with
    | true =>
      have hne : a ≠ b := by
        rintro rfl
        rw [Part.lt_irrefl] at hba
        cases hba
      simp [hne]
    | false => simp [Part.eq_of_not_lt hab hba]

theorem partsLe_trans {as bs cs : List Part} (h : partsLe as bs = true)
    (h' : partsLe bs cs = true) : partsLe as cs = true := by
  induction as generalizing bs cs with
  | nil => rfl
  | cons a as ih =>
    cases bs with
    | nil => cases h
    | cons b bs =>
      cases cs with
      | nil => cases h'
      | cons c cs =>
        rw [partsLe_cons_iff] at h h' ⊢
        rcases h with hab | ⟨rfl, h⟩
        · rcases h' with hbc | ⟨rfl, -⟩
          · exact .inl (Part.lt_trans hab hbc)
          · exact .inl hab
        · exact h'.imp_right fun ⟨heq, h'⟩ => ⟨heq, ih h h'⟩

theorem partsLe_total (as bs : List Part) : (partsLe as bs || partsLe bs as) = true := by
  induction as generalizing bs with
  | nil => rfl
  | cons a as ih =>
    cases bs with
    | nil => rfl
    | cons b bs =>
      rw [Bool.or_eq_true, partsLe_cons_iff, partsLe_cons_iff]
      cases hab : a.lt b with
      | true => exact .inl (.inl rfl)
      | false =>
        cases hba : b.lt a with
        | true => exact .inr (.inl rfl)
        | false =>
          obtain rfl := Part.eq_of_not_lt hab hba
          exact ((Bool.or_eq_true _ _).mp (ih bs)).imp (fun h => .inr ⟨rfl, h⟩)
            fun h => .inr ⟨rfl, h⟩

theorem partsLe_antisymm {as bs : List Part} (h : partsLe as bs = true)
    (h' : partsLe bs as = true) : as = bs := by
  induction as generalizing bs with
  | nil =>
    cases bs with
    | nil => rfl
    | cons b bs => cases h'
  | cons a as ih =>
    cases bs with
    | nil => cases h
    | cons b bs =>
      rw [partsLe_cons_iff] at h h'
      rcases h with hab | ⟨rfl, h⟩
      · rcases h' with hba | ⟨rfl, -⟩
        · rw [Part.lt_asymm hab] at hba
          cases hba
        · rw [Part.lt_irrefl] at hab
          cases hab
      · rcases h' with haa | ⟨-, h'⟩
        · rw [Part.lt_irrefl] at haa
          cases haa
        · rw [ih h h']

variable {a b c : Path} {paths : List Path}

theorem le_trans (h : a.le b = true) (h' : b.le c = true) : a.le c = true := partsLe_trans h h'

theorem le_total (a b : Path) : (a.le b || b.le a) = true := partsLe_total _ _

theorem same_iff : a.same b = true ↔ a.parts = b.parts := beq_iff_eq

theorem same_refl (a : Path) : a.same a = true := same_iff.mpr rfl

theorem same_comm (a b : Path) : a.same b = b.same a := Bool.beq_comm

theorem same_congr (h : a.same b = true) (c : Path) : a.same c = b.same c := by
  unfold same
  rw [same_iff.mp h]

theorem same_of_le (h : a.le b = true) (h' : b.le a = true) : a.same b = true :=
  same_iff.mpr (partsLe_antisymm h h')

theorem le_of_same (h : a.same b = true) : a.le b = true := by
  have hle := partsLe_total a.parts a.parts
  rw [Bool.or_self] at hle
  unfold le
  rwa [← same_iff.mp h]

/-- One path stands before another one in the order, and they are not the same. -/
def Before (a b : Path) : Prop := a.le b = true ∧ a.same b = false

theorem Before.trans_le (h : a.Before b) (h' : b.le c = true) : a.Before c := by
  refine ⟨le_trans h.1 h', Bool.eq_false_iff.mpr fun hac => ?_⟩
  have hba : b.le a = true := le_trans h' (le_of_same ((same_comm c a).trans hac))
  have hab := h.2
  rw [same_of_le h.1 hba] at hab
  cases hab

/-! ## Paths in a list -/

theorem isIn_iff : a.isIn paths = true ↔ ∃ other ∈ paths, a.same other = true := List.any_eq_true

theorem isIn_of_mem (h : a ∈ paths) : a.isIn paths = true := isIn_iff.mpr ⟨a, h, same_refl a⟩

theorem isIn_congr (h : a.same b = true) (paths : List Path) : a.isIn paths = b.isIn paths := by
  unfold isIn
  rw [funext (same_congr h)]

theorem isIn_concat (a b : Path) (paths : List Path) :
    a.isIn (paths ++ [b]) = (a.isIn paths || a.same b) := by simp [isIn]

theorem isIn_eraseFrom (a b : Path) (paths : List Path) :
    a.isIn (b.eraseFrom paths) = (a.isIn paths && !b.same a) := by
  rw [Bool.eq_iff_iff, Bool.and_eq_true, Bool.not_eq_true', isIn_iff, isIn_iff]
  constructor
  · rintro ⟨other, hother, hsame⟩
    obtain ⟨hmem, hne⟩ := List.mem_filter.mp hother
    refine ⟨⟨other, hmem, hsame⟩, ?_⟩
    rw [same_comm b a, same_congr hsame, same_comm other b]
    simpa using hne
  · rintro ⟨⟨other, hmem, hsame⟩, hne⟩
    refine ⟨other, List.mem_filter.mpr ⟨hmem, ?_⟩, hsame⟩
    rw [same_comm b other, ← same_congr hsame, same_comm a b, hne]
    rfl

end Path

end ClassStyle
