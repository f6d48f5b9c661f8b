import Mathlib.Data.List.Dedup
import ClassStyle.Proofs.Revisions
import ClassStyle.Proofs.Settled

/-!
# Cascades

Resolving a list of classes is like declaring all that they declare in one class, one after another:
each property comes once, where it first comes, with the value that it has last. So a list can be
resolved in parts, and of a class that is named again the last mention decides
(`Sheet.resolve_cascade`).
-/

namespace ClassStyle

/-! ## Maps that are put together -/

section

variable {α : Type}

theorem ArrivalMap.ext_get? {m m' : ArrivalMap α} (hnodup : m.names.Nodup)
    (hnames : m.names = m'.names) (hget : ∀ name, m.get? name = m'.get? name) : m = m' := by
  have hentries : ∀ m : ArrivalMap α, m.names.Nodup → m.entries =
      m.names.filterMap fun name => (m.get? name).map fun value => (name, value) := by
    intro m hm
    unfold names
    rw [List.filterMap_map]
    conv_lhs => rw [← List.filterMap_some (l := m.entries)]
    apply List.filterMap_congr
    intro entry hentry
    have hlookup : m.get? entry.1 = some entry.2 := lookup_of_mem hm hentry
    simp [hlookup]
  have hsame : m.entries = m'.entries := by
    rw [hentries m hnodup, hentries m' (hnames ▸ hnodup), ← hnames]
    simp only [hget]
  cases m
  exact congrArg ArrivalMap.mk hsame

theorem nodup_eraseDups (l : List String) : l.eraseDups.Nodup := by
  have hnodup := ArrivalMap.nodup_names_ofList (l.map fun name => (name, ()))
  rw [names_ofList, List.map_map] at hnodup
  simpa [Function.comp_def] using hnodup

theorem eraseDups_append_eraseDups (l l' : List String) :
    (l ++ l'.eraseDups).eraseDups = (l ++ l').eraseDups := by
  have hremove : ∀ k : List String, k.removeAll l = k.filter fun name => !l.elem name :=
    fun _ => rfl
  rw [List.eraseDups_append, List.eraseDups_append, hremove, hremove, eraseDups_filter,
    eraseDups_filter, eraseDups_of_nodup (nodup_eraseDups l')]

theorem ofList_append_entries (pairs added : List (String × α)) :
    ArrivalMap.ofList (pairs ++ (ArrivalMap.ofList added).entries) =
      ArrivalMap.ofList (pairs ++ added) := by
  apply ArrivalMap.ext_get? (ArrivalMap.nodup_names_ofList _)
  · have hadded : (ArrivalMap.ofList added).entries.map Prod.fst =
        (added.map Prod.fst).eraseDups := names_ofList added
    rw [names_ofList, names_ofList, List.map_append, List.map_append, hadded,
      eraseDups_append_eraseDups]
  · intro name
    have hone := Css.filterMap_entries (ArrivalMap.nodup_names_ofList added) name some
    rw [Css.get?_ofList, Css.get?_ofList, List.filterMap_append, List.filterMap_append, hone,
      List.getLast?_append, List.getLast?_append, ← Css.get?_ofList added]
    cases (ArrivalMap.ofList added).get? name <;> rfl

end

theorem getLast?_flatMap_dedup {β : Type} (f : String → List β) (classes : List String) :
    (classes.dedup.flatMap f).getLast? = (classes.flatMap f).getLast? := by
  induction classes with
  | nil => rfl
  | cons className classes ih =>
    by_cases hmem : className ∈ classes
    · rw [List.dedup_cons_of_mem hmem, ih, List.flatMap_cons, List.getLast?_append]
      cases hlast : (classes.flatMap f).getLast? with
      | some value => rfl
      | none =>
        -- A class that is mentioned again and says nothing there says nothing here.
        have hnil : f className = [] :=
          List.flatMap_eq_nil_iff.mp (List.getLast?_eq_none_iff.mp hlast) className hmem
        rw [hnil]
        rfl
    · rw [List.dedup_cons_of_notMem hmem, List.flatMap_cons, List.flatMap_cons,
        List.getLast?_append, List.getLast?_append, ih]

/-! ## Classes one after another -/

namespace Sheet

/-- No rule of the sheet declares a property twice. -/
def DeclaresOnce (sheet : Sheet) : Prop :=
  ∀ className, (sheet.declarations className).names.Nodup

/-- All that the matched rules declare, one after another. -/
def declared (sheet : Sheet) (classes : List String) : List (String × String) :=
  (sheet.matched classes).flatMap fun entry => entry.2.declarations.entries

variable (sheet : Sheet)

theorem declared_append (xs ys : List String) :
    sheet.declared (xs ++ ys) = sheet.declared xs ++ sheet.declared ys := by
  unfold declared matched
  rw [List.filterMap_append, List.flatMap_append]

theorem declared_eq (classes : List String) :
    sheet.declared classes =
      classes.flatMap fun className => (sheet.declarations className).entries :=
  flatMap_matched (f := fun _ declarations => declarations.entries) (fun _ => rfl) sheet classes

theorem resolve_eq (classes : List String) :
    sheet.resolve classes = .ofList (sheet.declared classes) := by
  unfold resolve declared ArrivalMap.ofList ArrivalMap.putAll
  rw [List.foldl_flatMap]
  rfl

theorem resolve_append (xs ys : List String) :
    sheet.resolve (xs ++ ys) = (sheet.resolve xs).cascade (sheet.resolve ys) := by
  have hcascade : (sheet.resolve xs).cascade (sheet.resolve ys) =
      .ofList (sheet.declared xs ++ (sheet.resolve ys).entries) := by
    rw [resolve_eq sheet xs]
    exact (putAll_append .empty _ _).symm
  rw [hcascade, resolve_eq, resolve_eq, declared_append, ofList_append_entries]

/-- The values that the classes declare for a property, one after another. -/
def values (classes : List String) (property : String) : List String :=
  (sheet.declared classes).filterMap fun entry =>
    if entry.1 = property then some entry.2 else none

variable {sheet}

theorem values_eq (h : sheet.DeclaresOnce) (classes : List String) (property : String) :
    sheet.values classes property =
      (sheet.matched classes).filterMap fun entry => entry.2.declarations.get? property := by
  have hclass : ∀ className, ((sheet.declarations className).entries.filterMap fun entry =>
      if entry.1 = property then some entry.2 else none) =
        ((sheet.declarations className).get? property).toList := by
    intro className
    have hone := Css.filterMap_entries (h className) property some
    rwa [Option.bind_fun_some] at hone
  have hmatched := flatMap_matched
    (f := fun _ declarations => (declarations.get? property).toList) (fun _ => rfl) sheet classes
  rw [values, declared_eq, List.filterMap_flatMap]
  simp only [hclass]
  rw [← hmatched, List.filterMap_eq_flatMap_toList]

theorem get?_resolve (classes : List String) (property : String) :
    (sheet.resolve classes).get? property = (sheet.values classes property).getLast? := by
  rw [resolve_eq]
  exact Css.get?_ofList (sheet.declared classes) property

theorem get?_resolve_dedup (classes : List String) (property : String) :
    (sheet.resolve classes.dedup).get? property = (sheet.resolve classes).get? property := by
  rw [get?_resolve, get?_resolve]
  unfold values
  rw [declared_eq, declared_eq, List.filterMap_flatMap, List.filterMap_flatMap]
  exact getLast?_flatMap_dedup _ classes

/-- The declarations of several classes hold each property once, in the order in which the
properties first come, with the value of the last class that declares it. The classes can be
resolved in parts. Of a class that is named several times only the last mention matters for the
values. -/
theorem resolve_cascade (sheet : Sheet) :
    (∀ classes,
      (sheet.resolve classes).names.Nodup ∧
      (sheet.resolve classes).names = ((sheet.declared classes).map Prod.fst).eraseDups ∧
      (sheet.DeclaresOnce → ∀ property,
        (sheet.resolve classes).get? property =
          ((sheet.matched classes).filterMap fun entry =>
            entry.2.declarations.get? property).getLast?)) ∧
    (∀ xs ys, sheet.resolve (xs ++ ys) = (sheet.resolve xs).cascade (sheet.resolve ys)) ∧
    ∀ classes property,
      (sheet.resolve classes.dedup).get? property = (sheet.resolve classes).get? property := by
  refine ⟨?_, sheet.resolve_append, get?_resolve_dedup⟩
  intro classes
  rw [resolve_eq]
  refine ⟨ArrivalMap.nodup_names_ofList _, names_ofList _, ?_⟩
  intro honce property
  rw [← resolve_eq, get?_resolve, values_eq honce]

end Sheet

theorem declaresOnce_readSheet (text : List Char) : (Css.readSheet text).value.DeclaresOnce := by
  intro className
  unfold Sheet.declarations
  rw [Css.get?_readSheet]
  cases Css.blockOf text className with
  | none => exact List.nodup_nil
  | some body => exact ArrivalMap.nodup_names_ofList _

/-- The class that is named again decides the color, which stays where it first came. -/
theorem Sheet.resolve_cascade_again :
    let sheet := (Css.readSheet
      ".a \x7b color: red; width: 1px \x7d .b \x7b height: 2px; color: blue \x7d".toList).value
    let classes := ["a", "c", "b", "a"]
    sheet.DeclaresOnce ∧
    (sheet.resolve classes).names = ["color", "width", "height"] ∧
    (sheet.resolve classes).get? "color" = some "red" ∧
    (sheet.resolve classes.dedup).names = ["height", "color", "width"] := by
  intro sheet classes
  have honce := declaresOnce_readSheet
    ".a \x7b color: red; width: 1px \x7d .b \x7b height: 2px; color: blue \x7d".toList
  obtain ⟨hresolved, -, -⟩ := Sheet.resolve_cascade sheet
  obtain ⟨-, hnames, hvalue⟩ := hresolved classes
  obtain ⟨-, hlast, -⟩ := hresolved classes.dedup
  refine ⟨honce, ?_, ?_, ?_⟩
  · rw [hnames]
    decide +kernel
  · rw [hvalue honce]
    decide +kernel
  · rw [hlast]
    decide +kernel

end ClassStyle
