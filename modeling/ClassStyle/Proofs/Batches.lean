import ClassStyle.Proofs.Publication
import ClassStyle.Proofs.Settled

/-!
# Batches of changes

A batch of changes publishes a sheet for each file that was removed or can be read, and the cache
ends with the last of these. A file that cannot be read costs a record and nothing else
(`Watcher.applyChanges_batch`).
-/

namespace ClassStyle

theorem Path.empty_join (path : Path) : Path.join ⟨""⟩ path = path := by
  unfold join
  simp

/-! ## What a change comes to -/

namespace Change

variable (files : FileTree) (change : Change)

/-- The file was removed, or its text can be read. -/
def takesEffect : Bool := change.kind = .removed || (files.readText change.path).isOk

/-- The sheet that a change publishes: an empty one for a file that was removed, and otherwise that
of the file. -/
def published? : Option Sheet :=
  match change.kind with
  | .removed => some .empty
  | .modified | .created =>
    match files.readText change.path with
    | .ok css => some { (Sheet.ofCss css).value with source := some change.path }
    | .error _ => none

/-- The record of a file that cannot be read. -/
def complaint? : Option Record :=
  match change.kind with
  | .removed => none
  | .modified | .created =>
    match files.readText change.path with
    | .ok _ => none
    | .error fault => some
      { level := .error
        area := .watching
        message := "Failed to reload stylesheet " ++ change.path.text ++ ": " ++
          (Failure.unreadable change.path fault).message
        className := none }

theorem isSome_published? : (change.published? files).isSome = change.takesEffect files := by
  unfold published? takesEffect
  cases change.kind <;> cases files.readText change.path <;> rfl

theorem sheet?_empty : change.sheet? files ⟨""⟩ = change.published? files := by
  unfold sheet? published? fileSheet?
  rw [Path.empty_join]
  cases change.kind <;> rfl

end Change

/-! ## Records -/

def Record.isError (r : Record) : Bool := r.level = .error

theorem filter_isError_ofCss (css : String) :
    (Sheet.ofCss css).records.filter Record.isError = [] := by
  rw [List.filter_eq_nil_iff]
  intro r hr
  obtain ⟨notice, -, rfl⟩ := List.mem_map.mp hr
  exact Bool.false_ne_true

theorem filter_isError_reload (cache : Cache) (files : FileTree) (path : Path) :
    (cache.reload files path).records.filter Record.isError = [] := by
  unfold Cache.reload Sheet.ofFile
  cases files.readText path with
  | error fault => rfl
  | ok css =>
    have hread := filter_isError_ofCss css
    simp only [Logged.records_bind, Logged.value_bind, Logged.value_pure, Logged.records_pure,
      List.filter_append, hread]
    rfl

namespace Watcher

variable (files : FileTree) (cache : Cache) (change : Change) (changes : List Change)

theorem filter_isError_applyChange :
    (applyChange files cache change).records.filter Record.isError =
      (change.complaint? files).toList := by
  have hreload := filter_isError_reload cache files change.path
  have hvalue := cache.value_reload files change.path
  unfold applyChange Change.complaint?
  cases change.kind with
  | removed => rfl
  | modified | created =>
    simp only [Logged.records_bind, List.filter_append, hreload, hvalue]
    cases files.readText change.path <;> rfl

theorem filter_isError_applyChanges :
    (applyChanges files cache changes).records.filter Record.isError =
      changes.filterMap (Change.complaint? files) := by
  induction changes generalizing cache with
  | nil => rfl
  | cons change changes ih =>
    rw [applyChanges]
    simp only [Logged.records_bind, Logged.records_pure, List.append_nil, List.filter_append,
      filter_isError_applyChange, ih]
    cases hcomplaint : change.complaint? files with
    | none => rw [List.filterMap_cons_none hcomplaint]; rfl
    | some r => rw [List.filterMap_cons_some hcomplaint]; rfl

/-! ## Batches -/

theorem applyChanges_after : (applyChanges files cache changes).value =
    (cache.after (changes.filterMap (Change.published? files)),
      (changes.filterMap (Change.published? files)).length) := by
  have hvalue := value_applyChanges files cache ⟨""⟩ changes
  simpa only [Path.empty_join, Change.sheet?_empty, List.map_id'] using hvalue

theorem filterMap_published? : changes.filterMap (Change.published? files) =
    (changes.filter (Change.takesEffect files)).filterMap (Change.published? files) := by
  rw [List.filterMap_filter]
  apply List.filterMap_congr
  intro change _
  rw [← change.isSome_published? files]
  cases change.published? files <;> rfl

/-- A batch publishes one sheet for each change that takes effect and tells how many these are. The
cache has counted as many more and holds the sheet of the last one, or is as it was if there is
none. All other changes leave a record each. -/
theorem applyChanges_batch (files : FileTree) (cache : Cache) (changes : List Change) :
    let effective := changes.filter (Change.takesEffect files)
    let result := applyChanges files cache changes
    result.value.2 = effective.length ∧
    result.value.1.generation.toNat =
      (cache.generation.toNat + effective.length) % UInt64.size ∧
    (match effective.getLast? with
      | some change => change.published? files = some result.value.1.sheet
      | none => result.value.1 = cache) ∧
    result.records.filter (fun r => r.level = .error) =
      changes.filterMap (Change.complaint? files) := by
  intro effective result
  have haccepted : ∀ change ∈ effective, (change.published? files).isSome = true :=
    fun change hchange => (change.isSome_published? files).trans (List.mem_filter.mp hchange).2
  have hvalue : result.value = (cache.after (effective.filterMap (Change.published? files)),
      (effective.filterMap (Change.published? files)).length) := by
    rw [← filterMap_published?]
    exact applyChanges_after files cache changes
  have hlength : (effective.filterMap (Change.published? files)).length = effective.length :=
    List.filterMap_length_eq_length.mpr haccepted
  have hlast := getLast?_filterMap_of_isSome haccepted
  rw [hvalue, hlength]
  refine ⟨rfl, ?_, ?_, filter_isError_applyChanges files cache changes⟩
  · unfold Cache.after
    rw [hlength]
    simp [UInt64.toNat_add, UInt64.size]
  · unfold Cache.after
    rw [hlast]
    cases hfind : effective.getLast? with
    | none =>
      rw [List.getLast?_eq_none_iff.mp hfind]
      simp
    | some change =>
      obtain ⟨sheet, hsheet⟩ := Option.isSome_iff_exists.mp
        (haccepted change (List.mem_of_getLast? hfind))
      simp [hsheet]

end Watcher

end ClassStyle
