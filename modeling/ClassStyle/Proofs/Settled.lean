import Mathlib.Data.List.Basic
import Mathlib.Data.List.Induction
import ClassStyle.Proofs.Paints

/-!
# Properties declared again

The entries of a map that is built pair by pair have each name once, where it first came, with the
value that came last (`entries_ofList`). So the entries of some names are those of the pairs with
these names.
-/

namespace ClassStyle

/-- Each name once, where it first comes, with the value that it has last. -/
def settled {α : Type} (pairs : List (String × α)) : List (String × α) :=
  (pairs.map Prod.fst).eraseDups.filterMap fun name =>
    (pairs.filterMap fun pair => if pair.1 = name then some pair.2 else none).getLast?.map
      fun value => (name, value)

section

variable {α : Type}

theorem eraseDups_concat (l : List String) (a : String) :
    (l ++ [a]).eraseDups = if a ∈ l then l.eraseDups else l.eraseDups ++ [a] := by
  rw [List.eraseDups_append]
  by_cases h : a ∈ l <;> simp [List.removeAll, h, List.eraseDups_cons]

theorem names_ofList (pairs : List (String × α)) :
    (ArrivalMap.ofList pairs).names = (pairs.map Prod.fst).eraseDups := by
  induction pairs using List.reverseRecOn with
  | nil => rfl
  | append_singleton pairs pair ih =>
    have hput : ArrivalMap.ofList (pairs ++ [pair]) =
        (ArrivalMap.ofList pairs).put pair.1 pair.2 := putAll_append .empty pairs [pair]
    rw [hput, List.map_append, List.map_singleton, eraseDups_concat]
    by_cases h : pair.1 ∈ pairs.map Prod.fst
    · rw [if_pos h, ArrivalMap.names_put_of_mem, ih]
      rwa [ih, List.mem_eraseDups]
    · rw [if_neg h, ArrivalMap.names_put_of_not_mem, ih]
      rwa [ih, List.mem_eraseDups]

theorem lookup_of_mem {l : List (String × α)} (h : (l.map Prod.fst).Nodup) {pair : String × α}
    (hpair : pair ∈ l) : ArrivalMap.lookup pair.1 l = some pair.2 := by
  induction l with
  | nil => cases hpair
  | cons first l ih =>
    obtain ⟨hfirst, h⟩ := List.nodup_cons.mp h
    rcases List.mem_cons.mp hpair with rfl | hpair
    · simp [ArrivalMap.lookup]
    · have hne : first.1 ≠ pair.1 := by
        intro heq
        exact hfirst (heq ▸ List.mem_map_of_mem hpair)
      simpa [ArrivalMap.lookup, hne] using ih h hpair

theorem eraseDups_filter (keep : String → Bool) (l : List String) :
    (l.filter keep).eraseDups = l.eraseDups.filter keep := by
  induction l using List.reverseRecOn with
  | nil => rfl
  | append_singleton l a ih =>
    rw [List.filter_append, eraseDups_concat]
    by_cases ha : keep a = true
    · rw [List.filter_cons_of_pos ha, List.filter_nil, eraseDups_concat, ih]
      by_cases hmem : a ∈ l <;> simp [hmem, ha]
    · rw [List.filter_cons_of_neg ha, List.filter_nil, List.append_nil, ih]
      by_cases hmem : a ∈ l <;> simp [hmem, ha]

theorem settled_filter (keep : String → Bool) (pairs : List (String × α)) :
    settled (pairs.filter fun pair => keep pair.1) =
      (settled pairs).filter fun pair => keep pair.1 := by
  have hnames : (pairs.filter fun pair => keep pair.1).map Prod.fst =
      (pairs.map Prod.fst).filter keep := by
    rw [List.filter_map]
    rfl
  unfold settled
  rw [hnames, eraseDups_filter, List.filterMap_filter, List.filter_filterMap]
  apply List.filterMap_congr
  intro name _
  by_cases hname : keep name = true
  · -- All pairs with this name are kept.
    have hsame : ∀ pair : String × α,
        (if keep pair.1 = true then if pair.1 = name then some pair.2 else none else none) =
          if pair.1 = name then some pair.2 else none := by
      intro pair
      by_cases heq : pair.1 = name
      · simp [heq, hname]
      · simp [heq]
    rw [if_pos hname, List.filterMap_filter]
    simp only [hsame]
    generalize (pairs.filterMap fun pair =>
      if pair.1 = name then some pair.2 else none).getLast? = last
    cases last <;> simp [Option.filter, hname]
  · rw [if_neg hname]
    generalize (pairs.filterMap fun pair =>
      if pair.1 = name then some pair.2 else none).getLast? = last
    cases last <;> simp [Option.filter, hname]

theorem eraseDups_of_nodup {l : List String} (h : l.Nodup) : l.eraseDups = l := by
  induction l with
  | nil => rfl
  | cons a l ih =>
    obtain ⟨ha, h⟩ := List.nodup_cons.mp h
    have hkeep : l.filter (fun b => !b == a) = l := by
      rw [List.filter_eq_self]
      intro b hb
      simp [show b ≠ a from fun heq => ha (heq ▸ hb)]
    rw [List.eraseDups_cons, hkeep, ih h]

theorem settled_of_nodup {pairs : List (String × α)} (h : (pairs.map Prod.fst).Nodup) :
    settled pairs = pairs := by
  unfold settled
  rw [eraseDups_of_nodup h, List.filterMap_map]
  conv_rhs => rw [← List.filterMap_some (l := pairs)]
  apply List.filterMap_congr
  intro pair hpair
  have hone := Css.filterMap_entries (m := ⟨pairs⟩) h pair.1 some
  have hget : (ArrivalMap.mk pairs).get? pair.1 = some pair.2 := lookup_of_mem h hpair
  rw [hget] at hone
  simp only [Function.comp_apply, hone]
  rfl

theorem entries_ofList (pairs : List (String × α)) :
    (ArrivalMap.ofList pairs).entries = settled pairs := by
  have hnodup := ArrivalMap.nodup_names_ofList pairs
  have hnames : ((ArrivalMap.ofList pairs).entries.map Prod.fst).eraseDups =
      (pairs.map Prod.fst).eraseDups :=
    (eraseDups_of_nodup hnodup).trans (names_ofList pairs)
  refine (settled_of_nodup hnodup).symm.trans ?_
  unfold settled
  rw [hnames]
  apply List.filterMap_congr
  intro name _
  rw [Css.filterMap_entries hnodup name some, ← Css.get?_ofList]
  cases (ArrivalMap.ofList pairs).get? name <;> rfl

theorem names_settled (pairs : List (String × α)) :
    (settled pairs).map Prod.fst = (pairs.map Prod.fst).eraseDups := by
  rw [← entries_ofList]
  exact names_ofList pairs

theorem eraseDups_filterMap_eraseDups (g : String → Option String) (l : List String) :
    (l.eraseDups.filterMap g).eraseDups = (l.filterMap g).eraseDups := by
  induction l using List.reverseRecOn with
  | nil => rfl
  | append_singleton l a ih =>
    cases hg : g a with
    | none => by_cases ha : a ∈ l <;> simpa [eraseDups_concat, hg, ha] using ih
    | some b =>
      by_cases ha : a ∈ l
      · have hb : b ∈ l.filterMap g := List.mem_filterMap.mpr ⟨a, ha, hg⟩
        simpa [eraseDups_concat, hg, ha, hb] using ih
      · have hmem : b ∈ l.eraseDups.filterMap g ↔ b ∈ l.filterMap g := by
          simp [List.mem_filterMap, List.mem_eraseDups]
        simp [eraseDups_concat, hg, ha, hmem, ih]

theorem getLast?_filterMap_of_isSome {β : Type} {f : α → Option β} {l : List α}
    (h : ∀ a ∈ l, (f a).isSome = true) : (l.filterMap f).getLast? = l.getLast?.bind f := by
  induction l using List.reverseRecOn with
  | nil => rfl
  | append_singleton l a _ =>
    obtain ⟨b, hb⟩ := Option.isSome_iff_exists.mp (h a (by simp))
    simp [List.filterMap_append, hb]

theorem getLast?_settled {β : Type} {pairs : List (String × α)} {name : String}
    {f : α → Option β} (h : ∀ pair ∈ pairs, pair.1 = name → (f pair.2).isSome = true) :
    ((settled pairs).filterMap fun pair => if pair.1 = name then f pair.2 else none).getLast? =
      (pairs.filterMap fun pair => if pair.1 = name then f pair.2 else none).getLast? := by
  have hvalues : (pairs.filterMap fun pair => if pair.1 = name then f pair.2 else none) =
      (pairs.filterMap fun pair => if pair.1 = name then some pair.2 else none).filterMap f := by
    rw [List.filterMap_filterMap]
    apply List.filterMap_congr
    intro pair _
    by_cases hname : pair.1 = name <;> simp [hname]
  have haccepted : ∀ value ∈ pairs.filterMap fun pair =>
      if pair.1 = name then some pair.2 else none, (f value).isSome = true := by
    intro value hvalue
    obtain ⟨pair, hpair, hsome⟩ := List.mem_filterMap.mp hvalue
    split at hsome
    · next hname =>
      obtain rfl := Option.some.inj hsome
      exact h pair hpair hname
    · cases hsome
  rw [← entries_ofList, Css.filterMap_entries (ArrivalMap.nodup_names_ofList pairs), hvalues,
    getLast?_filterMap_of_isSome haccepted, ← Css.get?_ofList]
  cases ((ArrivalMap.ofList pairs).get? name).bind f <;> rfl

theorem filterMap_filter_names {β : Type} {keep : String → Bool} {g : String × α → Option β}
    (h : ∀ entry, keep entry.1 = false → g entry = none) (entries : List (String × α)) :
    (entries.filter fun entry => keep entry.1).filterMap g = entries.filterMap g := by
  rw [List.filterMap_filter]
  apply List.filterMap_congr
  intro entry _
  by_cases hkeep : keep entry.1 = true
  · rw [if_pos hkeep]
  · rw [if_neg hkeep, h entry (by simpa using hkeep)]

end

end ClassStyle
