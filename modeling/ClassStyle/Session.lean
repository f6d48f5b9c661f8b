import ClassStyle.Engine
import ClassStyle.Watcher

/-!
# Sessions

A session is one engine at work over a tree of files: sheets are published, reloaded and handed
out, files change, and a watcher follows them. Each step gives a reply.
-/

namespace ClassStyle

structure Session where
  tree : FileTree
  /-- The directory that the paths of all actions are seen from. -/
  base : Path
  engine : Engine
  /-- The sheets handed out, the first one first. -/
  snapshots : List Sheet
  watcher : Watcher
  deriving Inhabited

inductive Action where
  | write (path : Path) (content : ByteArray)
  | makeDirectory (path : Path)
  | removeFile (path : Path)
  | configure (path : Path)
  | configureFromFile (path : Path)
  | useCss (css : String)
  | useEmpty
  /-- Goes on with a second engine over the same cache. -/
  | share
  | publish (css : String)
  | reload
  | reloadFile (path : Path)
  | snapshot
  | sheetOfSnapshot (index : Nat)
  | config
  | configFromFile (path : Path)
  | sheetFromFile (path : Path)
  | sheetFromFileOrEmpty (path : Path)
  | sheet
  | resolve (classes : List String)
  | synthesize (request : Request)
  | watch (path : Path)
  | unwatch (path : Path)
  | watched
  | applyChanges (changes : List Change)
  | poll
  deriving Inhabited

inductive Reply where
  | done
  | failed (failure : Failure)
  | truth (value : Bool)
  | count (value : Nat)
  | config (value : Config)
  | sheet (value : Option Sheet)
  | loaded (value : Sheet)
  | declarations (value : Declarations)
  | synthesis (value : Synthesis)
  | paths (value : List Path)
  | changes (value : List Change)
  deriving Inhabited

def Reply.ofCount : Except Failure Nat → Reply
  | .ok n => .count n
  | .error failure => .failed failure

namespace Session

/-- A session in an empty directory. -/
def start (base : Path) : Session where
  tree := (FileTree.empty.makeDirectory base).1
  base := base
  engine := .ofCache .empty
  snapshots := []
  watcher := .empty

/-- A path as seen from the directory of the session. -/
def full (s : Session) (path : Path) : Path := s.base.join path

/-! ## Files -/

/-- Goes on with a changed tree. The watcher takes notice of the file that was changed. -/
def changeFile (s : Session) (changed : FileTree × Option Location) : Session × Reply :=
  match changed with
  | (tree, none) => ({ s with tree }, .truth false)
  | (tree, some location) =>
    ({ s with tree, watcher := s.watcher.touched (FileTree.pathOf location) }, .truth true)

def makeDirectory (s : Session) (path : Path) : Session × Reply :=
  let (tree, made) := s.tree.makeDirectory path
  ({ s with tree }, .truth made.isSome)

/-! ## Engines -/

def configure (s : Session) (config : Config) : Logged (Session × Reply) := do
  return ({ s with engine := ← Engine.ofConfig s.tree config }, .done)

def configureFromFile (s : Session) (path : Path) : Logged (Session × Reply) :=
  match Config.ofFile s.tree path with
  | .error failure => pure (s, .failed failure)
  | .ok config => s.configure config

/-- Reads a stylesheet and uses its sheet in a new engine. -/
def useCss (s : Session) (css : String) : Logged (Session × Reply) := do
  return ({ s with engine := .ofCache (.ofSheet (← Sheet.ofCss css)) }, .done)

def publish (s : Session) (css : String) : Logged (Session × Reply) := do
  let sheet ← Sheet.ofCss css
  return ({ s with engine := ← s.engine.publish sheet }, .done)

/-- Goes on with what is left of an engine by a reload. -/
def reloaded (s : Session) (result : Logged (Engine × Except Failure Nat)) :
    Logged (Session × Reply) := do
  let (engine, classes) ← result
  pure ({ s with engine }, .ofCount classes)

/-! ## Sheets -/

def snapshot (s : Session) : Session × Reply :=
  ({ s with snapshots := s.snapshots ++ [s.engine.cache.sheet] }, .count s.snapshots.length)

def configFromFile (s : Session) (path : Path) : Reply :=
  match Config.ofFile s.tree path with
  | .error failure => .failed failure
  | .ok config => .config config

def sheetFromFile (s : Session) (path : Path) : Logged Reply := do
  match ← Sheet.ofFile s.tree path with
  | .error failure => pure (.failed failure)
  | .ok sheet => pure (.loaded sheet)

/-! ## Watching -/

def watch (s : Session) (path : Path) : Logged (Session × Reply) := do
  match ← s.watcher.watch s.tree path with
  | .error failure => pure (s, .failed failure)
  | .ok watcher => pure ({ s with watcher }, .count watcher.watched.length)

def unwatch (s : Session) (path : Path) : Logged (Session × Reply) := do
  let watcher ← s.watcher.unwatch s.tree path
  pure ({ s with watcher }, .count watcher.watched.length)

/-- The watched files in the order of their texts. -/
def watched (s : Session) : List Path :=
  s.watcher.watched.mergeSort fun a b => a.text ≤ b.text

def applyChanges (s : Session) (changes : List Change) : Logged (Session × Reply) := do
  let (cache, published) ← Watcher.applyChanges s.tree s.engine.cache changes
  pure ({ s with engine := { s.engine with cache } }, .count published)

def poll (s : Session) : Session × Reply :=
  let (watcher, changes) := s.watcher.poll s.tree
  ({ s with watcher }, .changes changes)

/-! ## Steps -/

/-- Carries out an action. -/
def step (s : Session) : Action → Logged (Session × Reply)
  | .write path content => pure (s.changeFile (s.tree.write (s.full path) content))
  | .makeDirectory path => pure (s.makeDirectory (s.full path))
  | .removeFile path => pure (s.changeFile (s.tree.remove (s.full path)))
  | .configure path => s.configure ⟨s.full path⟩
  | .configureFromFile path => s.configureFromFile (s.full path)
  | .useCss css => s.useCss css
  | .useEmpty => pure ({ s with engine := .ofCache .empty }, .done)
  | .share => pure (s, .done)
  | .publish css => s.publish css
  | .reload => s.reloaded (s.engine.reload s.tree)
  | .reloadFile path => s.reloaded (s.engine.reloadFile s.tree (s.full path))
  | .snapshot => pure s.snapshot
  | .sheetOfSnapshot index => pure (s, .sheet s.snapshots[index]?)
  | .config => pure (s, .config s.engine.config)
  | .configFromFile path => pure (s, s.configFromFile (s.full path))
  | .sheetFromFile path => do return (s, ← s.sheetFromFile (s.full path))
  | .sheetFromFileOrEmpty path => do
    return (s, .loaded (← Sheet.ofFileOrEmpty s.tree (s.full path)))
  | .sheet => pure (s, .sheet (some s.engine.cache.sheet))
  | .resolve classes => pure (s, .declarations (s.engine.resolve classes))
  | .synthesize request => do return (s, .synthesis (← s.engine.synthesize request))
  | .watch path => s.watch (s.full path)
  | .unwatch path => s.unwatch (s.full path)
  | .watched => pure (s, .paths s.watched)
  | .applyChanges changes =>
    s.applyChanges (changes.map fun change => { change with path := s.full change.path })
  | .poll => pure s.poll

end Session

end ClassStyle
