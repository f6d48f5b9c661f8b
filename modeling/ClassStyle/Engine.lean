import ClassStyle.Cache
import ClassStyle.Config
import ClassStyle.Synthesis

/-!
# Engines

An engine works out styles with the sheet of its cache, and reloads the sheet that its
configuration names.
-/

namespace ClassStyle

structure Engine where
  cache : Cache
  config : Config
  deriving DecidableEq, Inhabited

namespace Engine

/-- An engine with the standard configuration. -/
def ofCache (cache : Cache) : Engine := ⟨cache, .standard⟩

/-- An engine with the sheet that a configuration names, or an empty one. -/
def ofConfig (tree : FileTree) (config : Config) : Logged Engine := do
  return ⟨← Cache.ofFile tree config.cssFile, config⟩

def publish (engine : Engine) (sheet : Sheet) : Logged Engine := do
  return { engine with cache := ← engine.cache.publish sheet }

/-- Reloads the sheet of some file. -/
def reloadFile (engine : Engine) (tree : FileTree) (path : Path) :
    Logged (Engine × Except Failure Nat) := do
  let (cache, result) ← engine.cache.reload tree path
  pure ({ engine with cache }, result)

/-- Reloads the sheet that the configuration names. -/
def reload (engine : Engine) (tree : FileTree) : Logged (Engine × Except Failure Nat) :=
  engine.reloadFile tree engine.config.cssFile

def resolve (engine : Engine) (classes : List String) : Declarations :=
  engine.cache.sheet.resolve classes

def synthesize (engine : Engine) (request : Request) : Logged Synthesis :=
  engine.cache.sheet.synthesize request

end Engine

end ClassStyle
