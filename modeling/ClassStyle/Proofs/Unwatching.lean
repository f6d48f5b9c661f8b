import ClassStyle.Proofs.Locations
import ClassStyle.Proofs.Watching

/-!
# Files that are not watched any more

A file is watched under its path without detours. It can be given back under any spelling while it
is there. Once it is gone a spelling is taken as it stands, so that one with a detour gives back
nothing (`Watcher.unwatch_watched`).
-/

namespace ClassStyle

open FileTree

namespace Watcher

/-! ## Watched files -/

theorem mem_watched_turn {watcher : Watcher} {turn : Turn} {file : Path}
    (h : file ∈ (watcher.turn turn).watched) :
    file ∈ watcher.watched ∨ ∃ path, turn.files.canonical path = .ok file := by
  obtain ⟨files, act⟩ := turn
  cases act with
  | watch path =>
    unfold Watcher.turn watch at h
    cases hfile : files.canonical path with
    | error fault => exact .inl (by simpa [hfile] using h)
    | ok other =>
      cases hin : other.isIn watcher.watched with
      | true => exact .inl (by simpa [hfile, hin] using h)
      | false =>
        have hmem : file ∈ watcher.watched ∨ file = other := by simpa [hfile, hin] using h
        rcases hmem with hmem | rfl
        · exact .inl hmem
        · exact .inr ⟨path, hfile⟩
  | unwatch path =>
    obtain heq | ⟨other, heq⟩ := watcher.turn_unwatch files path
    · exact .inl (heq ▸ h)
    · rw [heq] at h
      exact .inl (List.mem_filter.mp h).1
  | report batch => exact .inl h
  | poll => exact .inl h

theorem mem_watched_run {turns : List Turn} {file : Path} (h : file ∈ (run turns).watched) :
    ∃ location, AreNames location ∧ file = pathOf location := by
  induction turns using List.reverseRecOn with
  | nil => cases h
  | append_singleton turns turn ih =>
    rw [run_concat] at h
    rcases mem_watched_turn h with h | ⟨path, hpath⟩
    · exact ih h
    · unfold canonical at hpath
      cases hlocation : turn.files.locate path with
      | error fault =>
        rw [hlocation] at hpath
        cases hpath
      | ok location =>
        rw [hlocation] at hpath
        cases hpath
        exact ⟨location, areNames_of_locate hlocation, rfl⟩

theorem isIn_watch {watcher watching : Watcher} {files : FileTree} {path : Path}
    (h : (watcher.watch files path).value = .ok watching) :
    ∃ location, files.locate path = .ok location ∧ ∀ other : Path,
      other.isIn watching.watched =
        (other.isIn watcher.watched || other.same (pathOf location)) := by
  unfold watch canonical at h
  cases hlocation : files.locate path with
  | error fault => simp [hlocation, Except.map] at h
  | ok location =>
    refine ⟨location, rfl, fun other => ?_⟩
    cases hin : (pathOf location).isIn watcher.watched with
    | true =>
      have hsame : watcher = watching := by simpa [hlocation, Except.map, hin] using h
      rw [← hsame]
      cases hother : other.same (pathOf location) with
      | true => rw [Path.isIn_congr hother, hin, Bool.or_true]
      | false => rw [Bool.or_false]
    | false =>
      have hadded :
          { watcher with watched := watcher.watched ++ [pathOf location] } = watching := by
        simpa [hlocation, Except.map, hin] using h
      rw [← hadded, Path.isIn_concat]

/-! ## Giving files back -/

section

variable {watcher : Watcher} {files later : FileTree} {path file : Path} {location : Location}

theorem value_unwatch (watcher : Watcher) (tree : FileTree) (path : Path) :
    (watcher.unwatch tree path).value =
      if (lookupPath tree path).isIn watcher.watched then
        { watcher with
          watched := (lookupPath tree path).eraseFrom watcher.watched
          removed := (lookupPath tree path).eraseFrom watcher.removed }
      else watcher := by
  unfold unwatch
  dsimp only
  split <;> rfl

theorem eraseFrom_of_not_isIn {paths : List Path} (h : file.isIn paths = false) :
    file.eraseFrom paths = paths := by
  unfold Path.eraseFrom
  rw [List.filter_eq_self]
  intro other hother
  cases hsame : file.same other with
  | true =>
    rw [Path.isIn_iff.mpr ⟨other, hother, hsame⟩] at h
    cases h
  | false => rfl

theorem eraseFrom_congr {a b : Path} (h : a.same b = true) (paths : List Path) :
    a.eraseFrom paths = b.eraseFrom paths := by
  unfold Path.eraseFrom
  simp only [Path.same_congr h]

theorem watched_unwatch (h : (lookupPath later path).same file = true) :
    (watcher.unwatch later path).value.watched = file.eraseFrom watcher.watched := by
  rw [value_unwatch, ← eraseFrom_congr h]
  split
  case isTrue => rfl
  case isFalse hin => exact (eraseFrom_of_not_isIn (Bool.eq_false_iff.mpr hin)).symm

theorem lookupPath_kept (h : files.locate path = .ok location)
    (hkept : ∀ d ∈ passed [] (steps path), later.isDirectory d = true) :
    lookupPath later path = if (later.node? location).isSome then pathOf location else path := by
  unfold lookupPath canonical
  rw [locate_kept h hkept]
  cases (later.node? location).isSome <;> rfl

end

/-- A path that was watched gives back the file that it led to then, and no other, if the file is
there or if the path is spelled like that of the file. Otherwise nothing is given back. -/
theorem unwatch_watched (before after : List Turn) {files later : FileTree} {path : Path}
    {watching : Watcher} (hwatch : ((run before).watch files path).value = .ok watching)
    (hkept : ∀ d ∈ passed [] (steps path), later.isDirectory d = true) :
    ∃ location, files.locate path = .ok location ∧
      let file := pathOf location
      let watcher := run (before ++ ⟨files, .watch path⟩ :: after)
      let unwatched := (watcher.unwatch later path).value
      (∀ other : Path, other.isIn watching.watched =
        (other.isIn (run before).watched || other.same file)) ∧
      ((later.node? location).isSome = true ∨ path.same file = true →
        unwatched.watched = file.eraseFrom watcher.watched) ∧
      ((later.node? location).isSome = false ∧ path.same file = false →
        unwatched = watcher) := by
  obtain ⟨location, hlocation, hadded⟩ := isIn_watch hwatch
  refine ⟨location, hlocation, hadded, ?_, ?_⟩
  · intro hcan
    apply watched_unwatch
    rw [lookupPath_kept hlocation hkept]
    split
    case isTrue => exact Path.same_refl _
    case isFalse hgone => exact hcan.resolve_left hgone
  · rintro ⟨hgone, hdetour⟩
    have hlookup : lookupPath later path = path := by
      rw [lookupPath_kept hlocation hkept, hgone]
      rfl
    rw [value_unwatch, hlookup, if_neg]
    intro hin
    -- A watched file that is spelled like the path would be the one that the path led to.
    obtain ⟨other, hother, hsame⟩ := Path.isIn_iff.mp hin
    obtain ⟨names, hnames, rfl⟩ := mem_watched_run hother
    rw [eq_of_same_pathOf hlocation hnames hsame, hsame] at hdetour
    cases hdetour

def withStyle : FileTree := ⟨[(["a.css"], .file ⟨#[]⟩), (["sub"], .directory)]⟩

def withoutStyle : FileTree := ⟨[(["sub"], .directory)]⟩

/-- The file is removed and written again. -/
theorem unwatch_watched_again :
    let path : Path := ⟨"sub/../a.css"⟩
    let file : Path := ⟨"a.css"⟩
    let between : List Turn := [⟨withStyle, .watch ⟨"sub"⟩⟩, ⟨withoutStyle, .poll⟩]
    let watcher := run (⟨withStyle, .watch path⟩ :: between)
    (Watcher.empty.watch withStyle path).value = .ok ⟨[file], [], []⟩ ∧
    (∀ d ∈ passed [] (steps path), withStyle.isDirectory d = true) ∧
    watcher.watched = [file, ⟨"sub"⟩] ∧
    (watcher.unwatch withStyle path).value.watched = [⟨"sub"⟩] := by
  intro path file between watcher
  have hwatch : (Watcher.empty.watch withStyle path).value = .ok ⟨[file], [], []⟩ := by
    decide +kernel
  have hkept : ∀ d ∈ passed [] (steps path), withStyle.isDirectory d = true := by
    decide +kernel
  have hwatched : watcher.watched = [file, ⟨"sub"⟩] := by decide +kernel
  have hfound : withStyle.locate path = .ok ["a.css"] := by decide +kernel
  obtain ⟨location, hlocation, -, hgiven, -⟩ := unwatch_watched [] between hwatch hkept
  obtain rfl : location = ["a.css"] := Except.ok.inj (hlocation.symm.trans hfound)
  have hunwatched : (watcher.unwatch withStyle path).value.watched =
      file.eraseFrom watcher.watched := hgiven (.inl (by decide +kernel))
  refine ⟨hwatch, hkept, hwatched, ?_⟩
  rw [hunwatched, hwatched]
  decide +kernel

/-- The file is gone when it is to be given back under a path with a detour. It stays watched. -/
theorem unwatch_watched_detour :
    let path : Path := ⟨"sub/../a.css"⟩
    let watcher := run [⟨withStyle, .watch path⟩]
    (Watcher.empty.watch withStyle path).value = .ok watcher ∧
    watcher.watched = [⟨"a.css"⟩] ∧
    (∀ d ∈ passed [] (steps path), withoutStyle.isDirectory d = true) ∧
    (watcher.unwatch withoutStyle path).value.watched = [⟨"a.css"⟩] := by
  decide +kernel

end Watcher

end ClassStyle
