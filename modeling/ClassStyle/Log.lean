/-!
# Log records

What a computation reports beside its result: records with a level, the area they come from, a
message, and the class they speak of if they name one.
-/

namespace ClassStyle

inductive Level where
  | debug
  | info
  | warn
  | error
  deriving DecidableEq, Inhabited

/-- The part of the work that a record comes from. -/
inductive Area where
  | reading
  | synthesis
  | cache
  | watching
  deriving DecidableEq, Inhabited

structure Record where
  level : Level
  area : Area
  message : String
  className : Option String
  deriving DecidableEq, Inhabited

/-- A result with the records of its computation, in order. -/
structure Logged (α : Type) where
  value : α
  records : List Record
  deriving Inhabited

namespace Logged

variable {α β : Type}

instance : Monad Logged where
  pure a := ⟨a, []⟩
  bind m f := ⟨(f m.value).value, m.records ++ (f m.value).records⟩

@[simp] theorem value_pure (a : α) : (pure a : Logged α).value = a := rfl

@[simp] theorem records_pure (a : α) : (pure a : Logged α).records = [] := rfl

@[simp] theorem value_bind (m : Logged α) (f : α → Logged β) :
    (m >>= f).value = (f m.value).value := rfl

@[simp] theorem records_bind (m : Logged α) (f : α → Logged β) :
    (m >>= f).records = m.records ++ (f m.value).records := rfl

/-- Reports one record. -/
def report (level : Level) (area : Area) (message : String) : Logged Unit :=
  ⟨(), [{ level, area, message, className := none }]⟩

end Logged

end ClassStyle
