import ClassStyle.Cache

/-!
# Watchers

A watcher knows the files that are watched and the batches of events that the system reported for
them. A poll takes all batches and tells what happened to each file.
-/

namespace ClassStyle

inductive ChangeKind where
  | modified
  /-- The file is there again after it was removed. -/
  | created
  | removed
  deriving DecidableEq, Inhabited

structure Change where
  path : Path
  kind : ChangeKind
  deriving DecidableEq, Inhabited

inductive EventKind where
  | settled
  /-- More events of the same kind are still coming in. -/
  | ongoing
  deriving DecidableEq, Inhabited

/-- What the system reports: something happened to a file. -/
structure Event where
  path : Path
  kind : EventKind
  deriving DecidableEq, Inhabited

/-- Whether a path is in a list, however it is written. -/
def Path.isIn (path : Path) (paths : List Path) : Bool := paths.any path.same

/-- The paths of a list that are not a certain one. -/
def Path.eraseFrom (path : Path) (paths : List Path) : List Path :=
  paths.filter fun other => !path.same other

structure Watcher where
  watched : List Path
  /-- The watched files that were reported as removed last. -/
  removed : List Path
  batches : List (List Event)
  deriving DecidableEq, Inhabited

namespace Watcher

def empty : Watcher := ⟨[], [], []⟩

/-! ## Files to watch -/

/-- Watches a file that is there. -/
def watch (watcher : Watcher) (tree : FileTree) (path : Path) :
    Logged (Except Failure Watcher) := do
  match tree.canonical path with
  | .error fault => pure (.error (.unreadable path fault))
  | .ok file =>
    if file.isIn watcher.watched then pure (.ok watcher)
    else
      Logged.report .info .watching ("Watching stylesheet: " ++ file.text)
      pure (.ok { watcher with watched := watcher.watched ++ [file] })

/-- The path by which a file is looked up: as it is written if the file is gone. -/
def lookupPath (tree : FileTree) (path : Path) : Path :=
  match tree.canonical path with
  | .ok file => file
  | .error _ => path

/-- Stops watching a file. -/
def unwatch (watcher : Watcher) (tree : FileTree) (path : Path) : Logged Watcher := do
  let file := lookupPath tree path
  if file.isIn watcher.watched then
    Logged.report .info .watching ("Stopped watching stylesheet: " ++ file.text)
    pure { watcher with
      watched := file.eraseFrom watcher.watched
      removed := file.eraseFrom watcher.removed }
  else pure watcher

/-! ## Events -/

/-- Takes in a batch of events. -/
def report (watcher : Watcher) (batch : List Event) : Watcher :=
  { watcher with batches := watcher.batches ++ [batch] }

/-- Takes in that something happened to a file. -/
def touched (watcher : Watcher) (path : Path) : Watcher :=
  if path.isIn watcher.watched then watcher.report [⟨path, .settled⟩] else watcher

/-- What a poll has found out: the files removed and the changes, the last one first. -/
structure Findings where
  removed : List Path
  changes : List Change
  deriving DecidableEq, Inhabited

/-- Takes one event into account, if it is a settled one of a watched file. -/
def Findings.add (tree : FileTree) (watched : List Path) (found : Findings) (event : Event) :
    Findings :=
  if event.kind ≠ .settled || !event.path.isIn watched then found
  else if !tree.hasPath event.path then
    { removed :=
        if event.path.isIn found.removed then found.removed else found.removed ++ [event.path]
      changes := ⟨event.path, .removed⟩ :: found.changes }
  else if event.path.isIn found.removed then
    { removed := event.path.eraseFrom found.removed
      changes := ⟨event.path, .created⟩ :: found.changes }
  else { found with changes := ⟨event.path, .modified⟩ :: found.changes }

/-- Keeps the first of changes of one file that follow each other. -/
def firstOfEach : List Change → List Change
  | [] => []
  | change :: rest =>
    match firstOfEach rest with
    | [] => [change]
    | next :: others =>
      if change.path.same next.path then change :: others else change :: next :: others

/-- Takes all events and gives the last change of each file, in the order of the paths. -/
def poll (watcher : Watcher) (tree : FileTree) : Watcher × List Change :=
  let found := watcher.batches.flatten.foldl (Findings.add tree watcher.watched)
    ⟨watcher.removed, []⟩
  ({ watcher with removed := found.removed, batches := [] },
    firstOfEach (found.changes.mergeSort fun a b => a.path.le b.path))

/-! ## Publishing -/

/-- Publishes the sheet of a changed file, an empty one if it was removed. The number counts
sheets published. -/
def applyChange (tree : FileTree) (cache : Cache) (change : Change) : Logged (Cache × Nat) := do
  match change.kind with
  | .removed =>
    Logged.report .warn .watching ("CSS file not found: " ++ change.path.text)
    return (← cache.publish .empty, 1)
  | _ =>
    Logged.report .info .watching ("Reloading stylesheet: " ++ change.path.text)
    let (cache, result) ← cache.reload tree change.path
    match result with
    | .ok _ => pure (cache, 1)
    | .error failure =>
      Logged.report .error .watching
        ("Failed to reload stylesheet " ++ change.path.text ++ ": " ++ failure.message)
      pure (cache, 0)

/-- Publishes the sheets of changed files one after another. -/
def applyChanges (tree : FileTree) (cache : Cache) : List Change → Logged (Cache × Nat)
  | [] => pure (cache, 0)
  | change :: rest => do
    let (cache, published) ← applyChange tree cache change
    let (cache, more) ← applyChanges tree cache rest
    pure (cache, published + more)

end Watcher

end ClassStyle
