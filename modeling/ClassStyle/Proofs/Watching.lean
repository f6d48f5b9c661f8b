import ClassStyle.Proofs.Paths
import Mathlib.Data.List.Induction

/-!
# What a watcher tells

A poll tells of each watched file that something happened to, once and in the order of the paths,
and its last word on a file is what the watcher remembers of it (`Watcher.run_polls`).
-/

namespace ClassStyle

/-! ## The last change of each file -/

namespace Change

/-- Whether a change is one of a file. -/
def isOf (path : Path) (change : Change) : Bool := path.same change.path

theorem isOf_congr {a b : Path} (h : a.same b = true) : isOf a = isOf b :=
  funext fun change => Path.same_congr h change.path

end Change

namespace Watcher

theorem firstOfEach_sublist (changes : List Change) : (firstOfEach changes).Sublist changes := by
  induction changes with
  | nil => exact .slnil
  | cons change rest ih =>
    unfold firstOfEach
    cases hfirst : firstOfEach rest with
    | nil => exact .cons_cons _ (List.nil_sublist _)
    | cons next others =>
      rw [hfirst] at ih
      dsimp only
      split
      · exact .cons_cons _ ((List.sublist_cons_self next others).trans ih)
      · exact .cons_cons _ ih

theorem find?_firstOfEach (path : Path) (changes : List Change) :
    (firstOfEach changes).find? (Change.isOf path) = changes.find? (Change.isOf path) := by
  induction changes with
  | nil => rfl
  | cons change rest ih =>
    unfold firstOfEach
    rw [List.find?_cons, ← ih]
    cases firstOfEach rest with
    | nil => simp [List.find?_cons]
    | cons next others =>
      dsimp only
      split
      case isFalse => rw [List.find?_cons]
      case isTrue hsame =>
        rw [List.find?_cons]
        cases hof : change.isOf path with
        | true => rfl
        | false =>
          have hnext : next.isOf path = false := by
            unfold Change.isOf at hof ⊢
            rwa [Path.same_comm, ← Path.same_congr hsame, Path.same_comm]
          rw [List.find?_cons, hnext]

theorem firstOfEach_pairwise {changes : List Change}
    (h : changes.Pairwise fun a b => a.path.le b.path = true) :
    (firstOfEach changes).Pairwise fun a b => a.path.Before b.path := by
  induction changes with
  | nil => exact .nil
  | cons change rest ih =>
    obtain ⟨hchange, hrest⟩ := List.pairwise_cons.mp h
    have hsub := firstOfEach_sublist rest
    have hfirst := ih hrest
    unfold firstOfEach
    cases heq : firstOfEach rest with
    | nil => exact List.pairwise_singleton _ _
    | cons next others =>
      rw [heq] at hsub hfirst
      obtain ⟨hnext, hothers⟩ := List.pairwise_cons.mp hfirst
      have hle : change.path.le next.path = true := hchange next (hsub.subset List.mem_cons_self)
      dsimp only
      split
      case isTrue hsame =>
        refine List.pairwise_cons.mpr ⟨fun other hother => ?_, hothers⟩
        obtain ⟨hbefore, hne⟩ := hnext other hother
        exact ⟨Path.le_trans hle hbefore, (Path.same_congr hsame _).trans hne⟩
      case isFalse hsame =>
        have hbefore : change.path.Before next.path := ⟨hle, Bool.eq_false_iff.mpr hsame⟩
        refine List.pairwise_cons.mpr ⟨fun other hother => ?_, hfirst⟩
        rcases List.mem_cons.mp hother with rfl | hother
        · exact hbefore
        · exact hbefore.trans_le (hnext other hother).1

/-- The changes in the order of the paths, the changes of one file as they were. -/
def sorted (changes : List Change) : List Change :=
  changes.mergeSort fun a b => a.path.le b.path

section Sorted

variable (changes : List Change)

theorem pathLe_trans (a b c : Change) : a.path.le b.path = true → b.path.le c.path = true →
    a.path.le c.path = true := Path.le_trans

theorem pathLe_total (a b : Change) : (a.path.le b.path || b.path.le a.path) = true :=
  Path.le_total _ _

theorem sorted_pairwise : (sorted changes).Pairwise fun a b => a.path.le b.path = true := by
  unfold sorted
  exact List.pairwise_mergeSort pathLe_trans pathLe_total changes

theorem sorted_perm : (sorted changes).Perm changes := by
  unfold sorted
  exact List.mergeSort_perm _ _

/-- Sorting is stable: the first change of a file is still the first one. -/
theorem find?_sorted (path : Path) :
    (sorted changes).find? (Change.isOf path) = changes.find? (Change.isOf path) := by
  -- The changes of the file are level, so the sort keeps them in the order that they are in.
  have hlevel : (changes.filter (Change.isOf path)).Pairwise
      fun a b => a.path.le b.path = true := by
    refine List.pairwise_of_forall_mem_list fun a ha b hb => Path.le_of_same ?_
    rw [← Path.same_congr (List.mem_filter.mp ha).2]
    exact (List.mem_filter.mp hb).2
  have hsub : (changes.filter (Change.isOf path)).Sublist (sorted changes) := by
    unfold sorted
    exact List.sublist_mergeSort pathLe_trans pathLe_total hlevel List.filter_sublist
  have hsub' := hsub.filter (Change.isOf path)
  simp only [List.filter_filter, Bool.and_self] at hsub'
  have hperm := (sorted_perm changes).filter (Change.isOf path)
  rw [← List.head?_filter, ← List.head?_filter, hsub'.eq_of_length hperm.length_eq.symm]

end Sorted

/-! ## What a poll finds -/

/-- An event that a poll looks at: a settled one of a watched file. -/
def counts (watched : List Path) (event : Event) : Bool :=
  event.kind == .settled && event.path.isIn watched

namespace Findings

variable {tree : FileTree} {watched removed : List Path} {events : List Event} {event : Event}
  {found : Findings}

/-- What a poll has found after the events that it has looked at. -/
structure Tells (tree : FileTree) (removed : List Path) (events : List Event)
    (found : Findings) : Prop where
  paths : found.changes.map Change.path = (events.map Event.path).reverse
  kinds : ∀ change ∈ found.changes, change.kind = .removed ↔ tree.hasPath change.path = false
  /-- The last change of a file decides whether it counts as removed. -/
  removed : ∀ path : Path, path.isIn found.removed =
    match found.changes.find? (Change.isOf path) with
    | some change => change.kind == .removed
    | none => path.isIn removed

theorem add_of_not_counts (h : counts watched event = false) :
    found.add tree watched event = found := by
  unfold add
  rw [if_pos]
  revert h
  unfold counts
  cases event.kind <;> simp

theorem add_of_counts (tree : FileTree) (found : Findings) (h : counts watched event = true) :
    ∃ kind, (found.add tree watched event).changes = ⟨event.path, kind⟩ :: found.changes ∧
      (kind = .removed ↔ tree.hasPath event.path = false) ∧
      ∀ path : Path, path.isIn (found.add tree watched event).removed =
        if path.same event.path then kind == .removed else path.isIn found.removed := by
  obtain ⟨hkind, hwatched⟩ := (Bool.and_eq_true _ _).mp h
  unfold add
  rw [if_neg (by simp [beq_iff_eq.mp hkind, hwatched])]
  cases hhas : tree.hasPath event.path with
  | false =>
    refine ⟨.removed, by simp, by simp, fun path => ?_⟩
    cases hin : event.path.isIn found.removed with
    | true =>
      cases hsame : path.same event.path with
      | true => simpa using (Path.isIn_congr hsame _).trans hin
      | false => simp
    | false => cases hsame : path.same event.path <;> simp [Path.isIn_concat, hsame]
  | true =>
    cases hin : event.path.isIn found.removed with
    | true =>
      refine ⟨.created, by simp, by simp, fun path => ?_⟩
      cases hsame : path.same event.path <;>
        simp [Path.isIn_eraseFrom, Path.same_comm event.path path, hsame]
    | false =>
      refine ⟨.modified, by simp, by simp, fun path => ?_⟩
      cases hsame : path.same event.path with
      | true =>
        rw [if_pos rfl]
        exact (Path.isIn_congr hsame _).trans hin
      | false => simp

theorem Tells.add (h : Tells tree removed events found) (hcounts : counts watched event = true) :
    Tells tree removed (events ++ [event]) (found.add tree watched event) := by
  obtain ⟨kind, hchanges, hkind, hremoved⟩ := add_of_counts tree found hcounts
  constructor
  case paths => simp [hchanges, h.paths]
  case kinds =>
    rw [hchanges]
    exact List.forall_mem_cons.mpr ⟨hkind, h.kinds⟩
  case removed =>
    intro path
    rw [hremoved, hchanges, List.find?_cons, h.removed]
    unfold Change.isOf
    cases path.same event.path <;> rfl

theorem tells_foldl (tree : FileTree) (watched removed : List Path) (events : List Event) :
    Tells tree removed (events.filter (counts watched))
      (events.foldl (Findings.add tree watched) ⟨removed, []⟩) := by
  induction events using List.reverseRecOn with
  | nil => exact ⟨rfl, by simp, by simp⟩
  | append_singleton events event ih =>
    rw [List.foldl_append, List.filter_append]
    cases h : counts watched event with
    | true => simpa [h] using ih.add h
    | false => simpa [h, add_of_not_counts h] using ih

end Findings

section Poll

variable (watcher : Watcher) (tree : FileTree)

/-- What the next poll finds out. -/
def found : Findings :=
  watcher.batches.flatten.foldl (Findings.add tree watcher.watched) ⟨watcher.removed, []⟩

theorem poll_snd : (watcher.poll tree).2 = firstOfEach (sorted (watcher.found tree).changes) := rfl

theorem tells_found : Findings.Tells tree watcher.removed
    (watcher.batches.flatten.filter (counts watcher.watched)) (watcher.found tree) :=
  Findings.tells_foldl _ _ _ _

theorem poll_pairwise : (watcher.poll tree).2.Pairwise fun a b => a.path.Before b.path :=
  firstOfEach_pairwise (sorted_pairwise _)

theorem find?_poll (path : Path) : (watcher.poll tree).2.find? (Change.isOf path) =
    (watcher.found tree).changes.find? (Change.isOf path) := by
  rw [poll_snd, find?_firstOfEach, find?_sorted]

theorem poll_kinds {change : Change} (h : change ∈ (watcher.poll tree).2) :
    change.kind = .removed ↔ tree.hasPath change.path = false := by
  rw [poll_snd] at h
  exact (watcher.tells_found tree).kinds _ <|
    (sorted_perm _).subset ((firstOfEach_sublist _).subset h)

theorem exists_change_iff {path : Path} {changes : List Change} :
    (∃ change ∈ changes, path.same change.path = true) ↔
      (changes.find? (Change.isOf path)).isSome = true := List.find?_isSome.symm

theorem poll_paths (path : Path) :
    (∃ change ∈ (watcher.poll tree).2, path.same change.path = true) ↔
      path.isIn watcher.watched = true ∧
        ∃ event ∈ watcher.batches.flatten, event.kind = .settled ∧
          path.same event.path = true := by
  have hpaths := (watcher.tells_found tree).paths
  rw [exists_change_iff, find?_poll, ← exists_change_iff]
  constructor
  · rintro ⟨change, hchange, hsame⟩
    have hmem := hpaths ▸ List.mem_map_of_mem hchange
    obtain ⟨event, hevent, heq⟩ := List.mem_map.mp (List.mem_reverse.mp hmem)
    obtain ⟨hevent, hcounts⟩ := List.mem_filter.mp hevent
    obtain ⟨hkind, hwatched⟩ := (Bool.and_eq_true _ _).mp hcounts
    rw [← heq] at hsame
    exact ⟨(Path.isIn_congr hsame _).trans hwatched, event, hevent, beq_iff_eq.mp hkind, hsame⟩
  · rintro ⟨hwatched, event, hevent, hkind, hsame⟩
    have hcounts : counts watcher.watched event = true := by
      simp [counts, hkind, ← Path.isIn_congr hsame, hwatched]
    have hmem : event.path ∈ (watcher.found tree).changes.map Change.path := by
      rw [hpaths]
      exact List.mem_reverse.mpr (List.mem_map_of_mem (List.mem_filter.mpr ⟨hevent, hcounts⟩))
    obtain ⟨change, hchange, heq⟩ := List.mem_map.mp hmem
    exact ⟨change, hchange, heq ▸ hsame⟩

/-- A poll remembers of a file what it tells, and what it knew if it tells nothing. -/
theorem poll_removed (path : Path) : path.isIn (watcher.poll tree).1.removed =
    match (watcher.poll tree).2.find? (Change.isOf path) with
    | some change => change.kind == .removed
    | none => path.isIn watcher.removed := by
  rw [find?_poll]
  exact (watcher.tells_found tree).removed path

end Poll

/-! ## Runs -/

/-- What is done with a watcher. -/
inductive Act where
  | watch (path : Path)
  | unwatch (path : Path)
  /-- A batch of events comes in. -/
  | report (batch : List Event)
  | poll

/-- An act and the files that are there at that time. -/
structure Turn where
  files : FileTree
  act : Act

/-- What a watcher lets others know of. -/
inductive Notice where
  /-- A file is watched that was not watched before. -/
  | added (path : Path)
  | told (change : Change)

/-- The watcher after a turn. -/
def turn (watcher : Watcher) (turn : Turn) : Watcher :=
  match turn.act with
  | .watch path =>
    match (watcher.watch turn.files path).value with
    | .ok watcher => watcher
    | .error _ => watcher
  | .unwatch path => (watcher.unwatch turn.files path).value
  | .report batch => watcher.report batch
  | .poll => (watcher.poll turn.files).1

/-- What a turn gives notice of. -/
def noticesOf (watcher : Watcher) (turn : Turn) : List Notice :=
  match turn.act with
  | .poll => (watcher.poll turn.files).2.map .told
  | _ => ((watcher.turn turn).watched.filter fun path => !path.isIn watcher.watched).map .added

/-- The watcher after some turns. -/
def run (turns : List Turn) : Watcher := turns.foldl turn .empty

/-- What turns give notice of, from a watcher on. -/
def noticesFrom (watcher : Watcher) : List Turn → List Notice
  | [] => []
  | turn :: rest => watcher.noticesOf turn ++ (watcher.turn turn).noticesFrom rest

def notices (turns : List Turn) : List Notice := Watcher.empty.noticesFrom turns

/-- The events that came in after the last poll. -/
def waiting (turns : List Turn) : List Event :=
  turns.foldl
    (fun events turn =>
      match turn.act with
      | .report batch => events ++ batch
      | .poll => []
      | _ => events)
    []

/-- The last change told of a file, given what was told before. Nothing is told of a file that is
added again. -/
def Notice.last (path : Path) (told : Option Change) : Notice → Option Change
  | .added file => if path.same file then none else told
  | .told change => if change.isOf path then some change else told

/-- The last change told of a file since it was added. -/
def lastTold (path : Path) (notices : List Notice) : Option Change :=
  notices.foldl (Notice.last path) none

section Runs

variable {watcher : Watcher} {notices : List Notice}

theorem run_concat (turns : List Turn) (turn : Turn) :
    run (turns ++ [turn]) = (run turns).turn turn := by
  unfold run
  rw [List.foldl_append]
  rfl

theorem noticesFrom_concat (watcher : Watcher) (turns : List Turn) (turn : Turn) :
    watcher.noticesFrom (turns ++ [turn]) =
      watcher.noticesFrom turns ++ (turns.foldl Watcher.turn watcher).noticesOf turn := by
  induction turns generalizing watcher with
  | nil => exact List.append_nil _
  | cons first rest ih =>
    rw [List.cons_append, noticesFrom, noticesFrom, ih, List.append_assoc]
    rfl

theorem turn_watch (watcher : Watcher) (files : FileTree) (path : Path) :
    watcher.turn ⟨files, .watch path⟩ = watcher ∨
      ∃ file : Path, file.isIn watcher.watched = false ∧
        watcher.turn ⟨files, .watch path⟩ =
          { watcher with watched := watcher.watched ++ [file] } := by
  cases hfile : files.canonical path with
  | error fault => exact .inl (by simp [turn, watch, hfile])
  | ok file =>
    cases hin : file.isIn watcher.watched with
    | true => exact .inl (by simp [turn, watch, hfile, hin])
    | false => exact .inr ⟨file, hin, by simp [turn, watch, hfile, hin]⟩

theorem turn_unwatch (watcher : Watcher) (files : FileTree) (path : Path) :
    watcher.turn ⟨files, .unwatch path⟩ = watcher ∨
      ∃ file : Path, watcher.turn ⟨files, .unwatch path⟩ =
        { watcher with
          watched := file.eraseFrom watcher.watched
          removed := file.eraseFrom watcher.removed } := by
  cases hin : (lookupPath files path).isIn watcher.watched with
  | true => exact .inr ⟨lookupPath files path, by simp [turn, unwatch, hin]⟩
  | false => exact .inl (by simp [turn, unwatch, hin])

theorem run_batches (turns : List Turn) : (run turns).batches.flatten = waiting turns := by
  induction turns using List.reverseRecOn with
  | nil => rfl
  | append_singleton turns turn ih =>
    rw [run_concat, waiting, List.foldl_append]
    change _ = match turn.act with
      | .report batch => waiting turns ++ batch
      | .poll => []
      | _ => waiting turns
    rw [← ih]
    obtain ⟨files, act⟩ := turn
    cases act with
    | watch path =>
      obtain h | ⟨file, -, h⟩ := (run turns).turn_watch files path <;> rw [h]
    | unwatch path =>
      obtain h | ⟨file, h⟩ := (run turns).turn_unwatch files path <;> rw [h]
    | report batch => simp [Watcher.turn, report]
    | poll => rfl

/-- What the removed files of a watcher stand for. -/
structure Keeps (notices : List Notice) (watcher : Watcher) : Prop where
  watched : ∀ path : Path, path.isIn watcher.removed = true → path.isIn watcher.watched = true
  last : ∀ path : Path, path.isIn watcher.watched = true →
    path.isIn watcher.removed = (lastTold path notices).any (·.kind == .removed)

theorem lastTold_append (path : Path) (notices more : List Notice) :
    lastTold path (notices ++ more) = more.foldl (Notice.last path) (lastTold path notices) :=
  List.foldl_append ..

theorem foldl_last_told (path : Path) {changes : List Change}
    (h : changes.Pairwise fun a b => a.path.Before b.path) (told : Option Change) :
    (changes.map .told).foldl (Notice.last path) told =
      (changes.find? (Change.isOf path)).or told := by
  induction changes generalizing told with
  | nil => rfl
  | cons change rest ih =>
    obtain ⟨hchange, hrest⟩ := List.pairwise_cons.mp h
    rw [List.map_cons, List.foldl_cons, ih hrest, List.find?_cons, Notice.last]
    cases hof : change.isOf path with
    | false => simp
    | true =>
      have hnone : rest.find? (Change.isOf path) = none := by
        rw [Change.isOf_congr hof]
        exact List.find?_eq_none.mpr fun other hother => by
          simp [Change.isOf, (hchange other hother).2]
      simp [hnone]

theorem filter_not_isIn {before after : List Path} (h : after ⊆ before) :
    after.filter (fun path => !path.isIn before) = [] :=
  List.filter_eq_nil_iff.mpr fun path hpath => by simp [Path.isIn_of_mem (h hpath)]

theorem Keeps.add (h : Keeps notices watcher) {file : Path}
    (hnew : file.isIn watcher.watched = false) :
    Keeps (notices ++ [.added file]) { watcher with watched := watcher.watched ++ [file] } := by
  constructor
  case watched =>
    intro path hremoved
    rw [Path.isIn_concat, h.watched path hremoved, Bool.true_or]
  case last =>
    intro path hwatched
    rw [lastTold_append, List.foldl_cons, List.foldl_nil, Notice.last]
    cases hsame : path.same file with
    | true =>
      -- A file that was not watched before was not held as removed either.
      rw [← Path.isIn_congr hsame] at hnew
      exact Bool.eq_false_iff.mpr fun hremoved => by simp [h.watched path hremoved] at hnew
    | false =>
      rw [Path.isIn_concat, hsame, Bool.or_false] at hwatched
      exact h.last path hwatched

theorem Keeps.erase (h : Keeps notices watcher) (file : Path) :
    Keeps notices
      { watcher with
        watched := file.eraseFrom watcher.watched
        removed := file.eraseFrom watcher.removed } := by
  constructor
  case watched =>
    intro path hremoved
    rw [Path.isIn_eraseFrom, Bool.and_eq_true] at hremoved ⊢
    exact hremoved.imp_left (h.watched path)
  case last =>
    intro path hwatched
    rw [Path.isIn_eraseFrom, Bool.and_eq_true] at hwatched
    rw [Path.isIn_eraseFrom, hwatched.2, Bool.and_true]
    exact h.last path hwatched.1

theorem Keeps.poll (h : Keeps notices watcher) (files : FileTree) :
    Keeps (notices ++ (watcher.poll files).2.map .told) (watcher.poll files).1 := by
  constructor
  case watched =>
    intro path hremoved
    rw [poll_removed] at hremoved
    cases hfind : (watcher.poll files).2.find? (Change.isOf path) with
    | some change =>
      exact ((watcher.poll_paths files path).mp
        (exists_change_iff.mpr (Option.isSome_of_eq_some hfind))).1
    | none =>
      rw [hfind] at hremoved
      exact h.watched path hremoved
  case last =>
    intro path hwatched
    rw [poll_removed, lastTold_append, foldl_last_told path (watcher.poll_pairwise files)]
    cases (watcher.poll files).2.find? (Change.isOf path) with
    | some change => rfl
    | none => exact h.last path hwatched

theorem Keeps.turn (h : Keeps notices watcher) (turn : Turn) :
    Keeps (notices ++ watcher.noticesOf turn) (watcher.turn turn) := by
  obtain ⟨files, act⟩ := turn
  cases act with
  | watch path =>
    unfold noticesOf
    obtain heq | ⟨file, hnew, heq⟩ := watcher.turn_watch files path
    · simpa [heq, filter_not_isIn] using h
    · simpa [heq, filter_not_isIn, hnew] using h.add hnew
  | unwatch path =>
    unfold noticesOf
    obtain heq | ⟨file, heq⟩ := watcher.turn_unwatch files path
    · simpa [heq, filter_not_isIn] using h
    · have hsub : file.eraseFrom watcher.watched ⊆ watcher.watched := List.filter_sublist.subset
      simpa [heq, filter_not_isIn hsub] using h.erase file
  | report batch => simpa [noticesOf, Watcher.turn, report, filter_not_isIn] using ⟨h.1, h.2⟩
  | poll => exact h.poll files

theorem keeps_run (turns : List Turn) : Keeps (Watcher.notices turns) (run turns) := by
  induction turns using List.reverseRecOn with
  | nil => exact ⟨fun _ h => h, fun _ _ => rfl⟩
  | append_singleton turns turn ih =>
    rw [run_concat, Watcher.notices, noticesFrom_concat]
    exact ih.turn turn

end Runs

/-- After any turns, a poll tells once and in the order of the paths of the watched files that
settled events came in for, of a file as removed if it is not there. The files that a watcher holds
as removed are watched, and they are those that were told of as removed last. -/
theorem run_polls (turns : List Turn) (files : FileTree) :
    (((run turns).poll files).2.Pairwise fun a b => a.path.Before b.path) ∧
    (∀ path : Path, (∃ change ∈ ((run turns).poll files).2, path.same change.path = true) ↔
      path.isIn (run turns).watched = true ∧
        ∃ event ∈ waiting turns, event.kind = .settled ∧ path.same event.path = true) ∧
    (∀ change ∈ ((run turns).poll files).2,
      change.kind = .removed ↔ files.hasPath change.path = false) ∧
    (∀ path : Path, path.isIn (run turns).removed = true →
      path.isIn (run turns).watched = true) ∧
    ∀ path : Path, path.isIn (run turns).watched = true →
      (path.isIn (run turns).removed = true ↔
        ∃ change, lastTold path (notices turns) = some change ∧ change.kind = .removed) := by
  refine ⟨poll_pairwise _ _, fun path => ?_, fun _ => poll_kinds _ _, (keeps_run turns).watched,
    fun path h => ?_⟩
  · rw [poll_paths, run_batches]
  · rw [(keeps_run turns).last path h, Option.any_eq_true]
    simp

end Watcher

end ClassStyle
