/-!
# Maps with keys in order of arrival

A map from names to values whose entries stand in the order in which their names first came. A
name that comes again has its value replaced where it stands.
-/

namespace ClassStyle

structure ArrivalMap (α : Type) where
  entries : List (String × α)
  deriving DecidableEq, Inhabited

namespace ArrivalMap

variable {α : Type}

def empty : ArrivalMap α := ⟨[]⟩

/-- Replaces the value of the name where it stands, or puts a new entry at the end. -/
def putEntry (name : String) (value : α) : List (String × α) → List (String × α)
  | [] => [(name, value)]
  | (n, v) :: rest => if n = name then (n, value) :: rest else (n, v) :: putEntry name value rest

def put (m : ArrivalMap α) (name : String) (value : α) : ArrivalMap α :=
  ⟨putEntry name value m.entries⟩

/-- Puts the entries of a list, one after another. -/
def putAll (m : ArrivalMap α) (pairs : List (String × α)) : ArrivalMap α :=
  pairs.foldl (fun m pair => m.put pair.1 pair.2) m

def ofList (pairs : List (String × α)) : ArrivalMap α := empty.putAll pairs

def lookup (name : String) : List (String × α) → Option α
  | [] => none
  | (n, v) :: rest => if n = name then some v else lookup name rest

def get? (m : ArrivalMap α) (name : String) : Option α := lookup name m.entries

def contains (m : ArrivalMap α) (name : String) : Bool := (m.get? name).isSome

def names (m : ArrivalMap α) : List String := m.entries.map Prod.fst

def size (m : ArrivalMap α) : Nat := m.entries.length

def isEmpty (m : ArrivalMap α) : Bool := m.entries.isEmpty

/-! ## One entry more -/

@[simp] theorem get?_empty (name : String) : (empty : ArrivalMap α).get? name = none := rfl

@[simp] theorem get?_put_self (m : ArrivalMap α) (name : String) (value : α) :
    (m.put name value).get? name = some value := by
  obtain ⟨l⟩ := m
  simp only [put, get?]
  induction l with
  | nil => simp [putEntry, lookup]
  | cons e rest ih => by_cases h : e.1 = name <;> simp [putEntry, lookup, h, ih]

theorem get?_put_of_ne (m : ArrivalMap α) {name other : String} (h : name ≠ other) (value : α) :
    (m.put name value).get? other = m.get? other := by
  obtain ⟨l⟩ := m
  simp only [put, get?]
  induction l with
  | nil => simp [putEntry, lookup, h]
  | cons e rest ih =>
    obtain ⟨n, v⟩ := e
    by_cases hn : n = name
    · subst hn; simp [putEntry, lookup, h]
    · by_cases ho : n = other
      · subst ho; simp [putEntry, lookup, hn]
      · simp [putEntry, lookup, hn, ho, ih]

theorem get?_put (m : ArrivalMap α) (name other : String) (value : α) :
    (m.put name value).get? other = if name = other then some value else m.get? other := by
  split
  · next h => subst h; simp
  · next h => exact get?_put_of_ne m h value

theorem mem_putEntry {name : String} {value : α} {entry : String × α} {l : List (String × α)}
    (h : entry ∈ putEntry name value l) : entry = (name, value) ∨ entry ∈ l := by
  induction l with
  | nil => exact .inl (List.mem_singleton.mp h)
  | cons e rest ih =>
    obtain ⟨n, v⟩ := e
    simp only [putEntry] at h
    split at h
    · next hn =>
      rcases List.mem_cons.mp h with rfl | h
      · exact .inl (by rw [hn])
      · exact .inr (List.mem_cons_of_mem _ h)
    · rcases List.mem_cons.mp h with rfl | h
      · exact .inr List.mem_cons_self
      · exact (ih h).imp id (List.mem_cons_of_mem _)

theorem mem_putAll {m : ArrivalMap α} {pairs : List (String × α)} {entry : String × α}
    (h : entry ∈ (m.putAll pairs).entries) : entry ∈ pairs ∨ entry ∈ m.entries := by
  induction pairs generalizing m with
  | nil => exact .inr h
  | cons pair pairs ih =>
    rcases ih h with h | h
    · exact .inl (List.mem_cons_of_mem _ h)
    · rcases mem_putEntry h with rfl | h
      · exact .inl List.mem_cons_self
      · exact .inr h

theorem mem_ofList {pairs : List (String × α)} {entry : String × α}
    (h : entry ∈ (ofList pairs).entries) : entry ∈ pairs :=
  (mem_putAll h).resolve_right List.not_mem_nil

theorem mem_of_get? {m : ArrivalMap α} {name : String} {value : α}
    (h : m.get? name = some value) : (name, value) ∈ m.entries := by
  obtain ⟨l⟩ := m
  simp only [get?] at h ⊢
  induction l with
  | nil => cases h
  | cons e rest ih =>
    obtain ⟨n, v⟩ := e
    rw [lookup] at h
    split at h
    · next hn =>
      obtain rfl := Option.some.inj h
      exact hn ▸ List.mem_cons_self
    · exact List.mem_cons_of_mem _ (ih h)

/-! ## Names -/

theorem names_put_of_mem {m : ArrivalMap α} {name : String} (h : name ∈ m.names) (value : α) :
    (m.put name value).names = m.names := by
  obtain ⟨l⟩ := m
  simp only [put, names] at h ⊢
  induction l with
  | nil => simp at h
  | cons e rest ih =>
    by_cases hn : e.1 = name
    · simp [putEntry, hn]
    · simp [putEntry, hn, ih (by simpa [Ne.symm hn] using h)]

theorem names_put_of_not_mem {m : ArrivalMap α} {name : String} (h : name ∉ m.names)
    (value : α) : (m.put name value).names = m.names ++ [name] := by
  obtain ⟨l⟩ := m
  simp only [put, names] at h ⊢
  induction l with
  | nil => simp [putEntry]
  | cons e rest ih =>
    have hn : e.1 ≠ name := fun hn => h (by simp [hn])
    simp [putEntry, hn, ih fun hm => h (by simp at hm ⊢; exact .inr hm)]

theorem nodup_names_put {m : ArrivalMap α} (h : m.names.Nodup) (name : String) (value : α) :
    (m.put name value).names.Nodup := by
  by_cases hm : name ∈ m.names
  · rw [names_put_of_mem hm]; exact h
  · rw [names_put_of_not_mem hm]
    exact List.nodup_append.mpr ⟨h, by simp, fun a ha b hb => by
      rintro rfl; exact hm (List.mem_singleton.mp hb ▸ ha)⟩

theorem nodup_names_putAll {m : ArrivalMap α} (h : m.names.Nodup)
    (pairs : List (String × α)) : (m.putAll pairs).names.Nodup := by
  induction pairs generalizing m with
  | nil => exact h
  | cons pair rest ih => exact ih (nodup_names_put h pair.1 pair.2)

/-- No name comes twice in a map that was built entry by entry. -/
theorem nodup_names_ofList (pairs : List (String × α)) : (ofList pairs).names.Nodup :=
  nodup_names_putAll (m := empty) List.nodup_nil pairs

end ArrivalMap

end ClassStyle
