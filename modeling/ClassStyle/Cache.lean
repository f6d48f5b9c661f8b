import ClassStyle.Sheet.Load

/-!
# Caches

A cache holds the sheet that was published last and counts how many were published. Sheets are
values, so one that was handed out stays as it was.
-/

namespace ClassStyle

structure Cache where
  sheet : Sheet
  generation : UInt64
  deriving DecidableEq, Inhabited

namespace Cache

def ofSheet (sheet : Sheet) : Cache := ⟨sheet, 0⟩

def empty : Cache := ofSheet .empty

def ofFile (tree : FileTree) (path : Path) : Logged Cache := do
  return ofSheet (← Sheet.ofFileOrEmpty tree path)

/-- Replaces the sheet. -/
def publish (cache : Cache) (sheet : Sheet) : Logged Cache := do
  let generation := cache.generation + 1
  Logged.report .debug .cache s!"Published stylesheet generation {generation}"
  pure ⟨sheet, generation⟩

@[simp] theorem value_publish (cache : Cache) (sheet : Sheet) :
    (cache.publish sheet).value = ⟨sheet, cache.generation + 1⟩ := rfl

/-- Publishes the sheet of a file and gives its number of classes. If the file cannot be read, the
cache stays as it is. -/
def reload (cache : Cache) (tree : FileTree) (path : Path) :
    Logged (Cache × Except Failure Nat) := do
  match ← Sheet.ofFile tree path with
  | .error failure => pure (cache, .error failure)
  | .ok sheet =>
    let cache ← cache.publish sheet
    Logged.report .info .cache ("Reloaded " ++ path.text ++ " " ++ sheet.countText)
    pure (cache, .ok sheet.size)

end Cache

end ClassStyle
