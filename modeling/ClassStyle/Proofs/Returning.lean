import ClassStyle.Proofs.Watching

/-!
# Files that are there again

A file that was told of as removed is told of as created if one event came in for it. Later events
of the same poll hide that one: the file is then told of as modified (`Watcher.poll_returning`).
-/

namespace ClassStyle

namespace Watcher

/-- The events of a file that a poll looks at if the file is watched. -/
def settledOf (path : Path) (events : List Event) : List Event :=
  events.filter fun event => event.kind == .settled && path.same event.path

/-- What is told of a file that is there, by the number of its events and by whether it was gone. -/
def toldKind? (wasRemoved : Bool) : Nat → Option ChangeKind
  | 0 => none
  | 1 => some (if wasRemoved then .created else .modified)
  | _ => some .modified

/-- The file was told of as removed last. -/
def toldRemoved (path : Path) (notices : List Notice) : Bool :=
  (lastTold path notices).any fun change => change.kind == .removed

theorem toldKind?_succ (wasRemoved : Bool) (n : Nat) :
    toldKind? wasRemoved (n + 1) = some (if wasRemoved && n == 0 then .created else .modified) := by
  cases n with
  | zero => simp [toldKind?]
  | succ n => simp [toldKind?]

/-! ## One event -/

section

variable {tree : FileTree} {watched removed : List Path} {events : List Event} {event : Event}
  {found : Findings} {path : Path}

theorem settledOf_concat_of_same (events : List Event) (hkind : event.kind = .settled)
    (hsame : path.same event.path = true) :
    settledOf path (events ++ [event]) = settledOf path events ++ [event] := by
  simp [settledOf, List.filter_append, hkind, hsame]

theorem settledOf_concat (h : (event.kind == .settled && path.same event.path) = false) :
    settledOf path (events ++ [event]) = settledOf path events := by
  simp [settledOf, List.filter_append, h]

theorem changes_add_of_hasPath (found : Findings) (h : counts watched event = true)
    (hthere : tree.hasPath event.path = true) :
    (found.add tree watched event).changes =
      ⟨event.path, if event.path.isIn found.removed then .created else .modified⟩ ::
        found.changes := by
  obtain ⟨hkind, hwatched⟩ := (Bool.and_eq_true _ _).mp h
  unfold Findings.add
  rw [if_neg (by simp [beq_iff_eq.mp hkind, hwatched])]
  cases hin : event.path.isIn found.removed <;> simp [hthere]

theorem find?_add_of_not_same (found : Findings) (h : path.same event.path = false) :
    (found.add tree watched event).changes.find? (Change.isOf path) =
      found.changes.find? (Change.isOf path) := by
  cases hcounts : counts watched event with
  | false => rw [Findings.add_of_not_counts hcounts]
  | true =>
    obtain ⟨kind, hchanges, -⟩ := Findings.add_of_counts tree found hcounts
    rw [hchanges, List.find?_cons_of_neg]
    simp [Change.isOf, h]

theorem Findings.Tells.isIn_removed (h : Findings.Tells tree removed events found) {n : Nat}
    (hkind : (found.changes.find? (Change.isOf path)).map Change.kind =
      toldKind? (path.isIn removed) n) :
    path.isIn found.removed = (path.isIn removed && n == 0) := by
  rw [h.removed]
  cases n with
  | zero =>
    rw [Option.map_eq_none_iff.mp hkind]
    exact (Bool.and_true _).symm
  | succ n =>
    rw [toldKind?_succ] at hkind
    obtain ⟨change, hfind, hchange⟩ := Option.map_eq_some_iff.mp hkind
    rw [hfind]
    dsimp only
    rw [hchange]
    split <;> simp

/-! ## All events -/

theorem kind_foldl (removed : List Path) (hwatched : path.isIn watched = true)
    (hthere : ∀ event ∈ settledOf path events, tree.hasPath event.path = true) :
    ((events.foldl (Findings.add tree watched) ⟨removed, []⟩).changes.find?
        (Change.isOf path)).map Change.kind =
      toldKind? (path.isIn removed) (settledOf path events).length := by
  induction events using List.reverseRecOn with
  | nil => rfl
  | append_singleton events event ih =>
    rw [List.foldl_append, List.foldl_cons, List.foldl_nil]
    cases hsame : path.same event.path with
    | false =>
      have hsettled : settledOf path (events ++ [event]) = settledOf path events :=
        settledOf_concat (by rw [hsame, Bool.and_false])
      rw [find?_add_of_not_same _ hsame, hsettled]
      exact ih (hsettled ▸ hthere)
    | true =>
      by_cases hkind : event.kind = .settled
      case neg =>
        have hsettled : settledOf path (events ++ [event]) = settledOf path events :=
          settledOf_concat (by simp [hkind])
        have hcounts : counts watched event = false := by simp [counts, hkind]
        rw [Findings.add_of_not_counts hcounts, hsettled]
        exact ih (hsettled ▸ hthere)
      case pos =>
        have hsettled := settledOf_concat_of_same events hkind hsame
        rw [hsettled] at hthere ⊢
        obtain ⟨hbefore, hevent⟩ := List.forall_mem_append.mp hthere
        have hcounts : counts watched event = true := by
          simp [counts, hkind, ← Path.isIn_congr hsame, hwatched]
        -- Only the first of its events finds the file among the removed ones.
        have htells := Findings.tells_foldl tree watched removed events
        have hremoved := htells.isIn_removed (ih hbefore)
        have hthere : tree.hasPath event.path = true := hevent event (by simp)
        have hof : ∀ kind, Change.isOf path ⟨event.path, kind⟩ = true := fun _ => hsame
        rw [changes_add_of_hasPath _ hcounts hthere, List.find?_cons_of_pos (hof _),
          Option.map_some, ← Path.isIn_congr hsame, hremoved, List.length_append,
          List.length_singleton, toldKind?_succ]

theorem filter_isOf (path : Path) {changes : List Change}
    (h : changes.Pairwise fun a b => a.path.Before b.path) :
    changes.filter (Change.isOf path) = (changes.find? (Change.isOf path)).toList := by
  induction changes with
  | nil => rfl
  | cons change rest ih =>
    obtain ⟨hchange, hrest⟩ := List.pairwise_cons.mp h
    cases hof : change.isOf path with
    | false => rw [List.filter_cons_of_neg (by simp [hof]), List.find?_cons, hof, ih hrest]
    | true =>
      have hnone : rest.filter (Change.isOf path) = [] := by
        rw [Change.isOf_congr hof]
        exact List.filter_eq_nil_iff.mpr fun other hother => by
          simp [Change.isOf, (hchange other hother).2]
      rw [List.filter_cons_of_pos hof, List.find?_cons, hof, hnone]
      rfl

theorem poll_snd_of_pairwise {watcher : Watcher}
    (h : (watcher.found tree).changes.Pairwise fun a b => a.path.le b.path = true) :
    (watcher.poll tree).2 = firstOfEach (watcher.found tree).changes := by
  rw [poll_snd, sorted, List.mergeSort_of_pairwise h]

/-! ## Runs -/

theorem toldRemoved_eq {turns : List Turn} (h : path.isIn (run turns).watched = true) :
    toldRemoved path (notices turns) = path.isIn (run turns).removed :=
  ((keeps_run turns).last path h).symm

end

/-- After any turns, a poll tells one change of a watched file that is there if events came in for
it. It is created if the file was told of as removed last and this was the only event, and modified
otherwise. -/
theorem poll_returning {turns : List Turn} {files : FileTree} {path : Path}
    (hwatched : path.isIn (run turns).watched = true)
    (hevents : settledOf path (waiting turns) ≠ [])
    (hthere : ∀ event ∈ settledOf path (waiting turns), files.hasPath event.path = true) :
    ∃ change, ((run turns).poll files).2.filter (Change.isOf path) = [change] ∧
      change.kind =
        if toldRemoved path (notices turns) ∧ (settledOf path (waiting turns)).length = 1 then
          .created
        else .modified := by
  obtain ⟨n, hn⟩ := Nat.exists_eq_add_one.mpr (List.length_pos_iff.mpr hevents)
  rw [← run_batches] at hthere
  have hkind := kind_foldl (run turns).removed hwatched hthere
  rw [← found, ← find?_poll, run_batches, ← toldRemoved_eq hwatched, hn, toldKind?_succ] at hkind
  obtain ⟨change, hfind, hchange⟩ := Option.map_eq_some_iff.mp hkind
  refine ⟨change, ?_, ?_⟩
  · rw [filter_isOf path ((run turns).poll_pairwise files), hfind]
    rfl
  · rw [hchange, hn]
    simp

/-- One event for a file that was told of as removed. -/
theorem poll_returning_once :
    let path : Path := ⟨"a.css"⟩
    let there : FileTree := ⟨[(["a.css"], .file ⟨#[]⟩)]⟩
    let event : Event := ⟨path, .settled⟩
    let turns : List Turn :=
      [⟨there, .watch path⟩, ⟨.empty, .report [event]⟩, ⟨.empty, .poll⟩, ⟨there, .report [event]⟩]
    path.isIn (run turns).watched = true ∧ settledOf path (waiting turns) = [event] ∧
      there.hasPath path = true ∧ toldRemoved path (notices turns) = true ∧
      ∃ change, ((run turns).poll there).2.filter (Change.isOf path) = [change] ∧
        change.kind = .created := by
  intro path there event turns
  have hwatched : path.isIn (run turns).watched = true := by decide +kernel
  have hsettled : settledOf path (waiting turns) = [event] := by decide +kernel
  have hthere : there.hasPath path = true := by decide +kernel
  have htold : toldRemoved path (notices turns) = true := by
    rw [toldRemoved_eq hwatched]
    decide +kernel
  have hevents : ∀ event ∈ settledOf path (waiting turns), there.hasPath event.path = true := by
    simpa [hsettled] using hthere
  obtain ⟨change, hpoll, hkind⟩ := poll_returning hwatched (by simp [hsettled]) hevents
  rw [htold, hsettled] at hkind
  exact ⟨hwatched, hsettled, hthere, htold, change, hpoll, hkind⟩

/-- Two events for a file that was told of as removed: it is not told of as created. -/
theorem poll_returning_twice :
    let path : Path := ⟨"a.css"⟩
    let there : FileTree := ⟨[(["a.css"], .file ⟨#[]⟩)]⟩
    let event : Event := ⟨path, .settled⟩
    let turns : List Turn :=
      [⟨there, .watch path⟩, ⟨.empty, .report [event]⟩, ⟨.empty, .poll⟩,
        ⟨there, .report [event]⟩, ⟨there, .report [event]⟩]
    path.isIn (run turns).watched = true ∧ event ∈ waiting turns ∧ there.hasPath path = true ∧
      toldRemoved path (notices turns) = true ∧
      ((run turns).poll there).2 = [⟨path, .modified⟩] := by
  intro path there event turns
  have hwatched : path.isIn (run turns).watched = true := by decide +kernel
  have hfound : ((run turns).found there).changes = [⟨path, .modified⟩, ⟨path, .created⟩] := by
    decide +kernel
  refine ⟨hwatched, by decide +kernel, by decide +kernel, ?_, ?_⟩
  · rw [toldRemoved_eq hwatched]
    decide +kernel
  · rw [poll_snd_of_pairwise (by rw [hfound]; decide +kernel), hfound]
    decide +kernel

end Watcher

end ClassStyle
