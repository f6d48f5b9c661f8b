import ClassStyle.Css.Value

/-!
# A machine that writes values

Values are written step by step, with the open properties on a stack. There is always a next step,
and only defined properties are opened, none of them twice (`Bounded.run`).
-/

namespace ClassStyle.Css

open Component Text

/-! ## The machine -/

/-- What is left to do. -/
inductive Task where
  | text (rest : List Component)
  | color (rest : List Component) (channels : Channels)
  /-- Goes on with a color behind a reference. `before` was written before the color. -/
  | argument (rest : List Component) (channels : Channels) (before : Written)
  | reference (arguments : List Component)
  /-- Leaves a block. What the readers of the block left must not mean anything. -/
  | leave (unread : List Component)
  | close

/-- The tasks are those of the innermost text first. -/
structure Machine where
  out : Written
  opened : List String
  tasks : List Task

def passOver : List Component → List Component
  | [] => []
  | _ :: rest => passOver rest

namespace Machine

def textStep (m : Machine) (tasks : List Task) (c : Component) (rest : List Component) :
    Machine :=
  if c.isLeaf (.delimiter '!') then { m with tasks := .text (passOver rest) :: tasks }
  else match c with
    | .leaf lexeme =>
      { m with out := m.out ++ writeToken lexeme.token, tasks := .text rest :: tasks }
    | .block { token := .function name, .. } body _ =>
      if isNamed "rgb" name || isNamed "rgba" name then
        { m with tasks := .color body ⟨[], []⟩ :: .text rest :: tasks }
      else if isNamed "var" name then { m with tasks := .reference body :: .text rest :: tasks }
      else
        { m with
          out := m.out ++ .notice (.ignoredFunction (lowerString name))
          tasks := .text rest :: tasks }
    | .block .. => { m with tasks := .text rest :: tasks }

def colorStep (m : Machine) (tasks : List Task) (channels : Channels) (c : Component)
    (rest : List Component) : Machine :=
  match c with
  | .block { token := .function name, .. } body _ =>
    if isNamed "var" name then
      { m with out := .empty, tasks := .reference body :: .argument rest channels m.out :: tasks }
    else { m with tasks := .color rest channels :: tasks }
  | c => { m with tasks := .color rest (addArgument (fun _ => .empty) channels c) :: tasks }

/-- The arguments are read to their end before anything is written. -/
def referenceStep (custom : SortedMap String) (m : Machine) (tasks : List Task)
    (arguments : List Component) : Machine :=
  let tasks := .leave (passOver arguments) :: tasks
  match referenceName? arguments with
  | none => { m with tasks }
  | some name =>
    if m.opened.contains name then
      { m with out := m.out ++ .notice (.cyclicReference name), tasks }
    else match definition? custom name, fallback? arguments with
      | some value, _ =>
        { m with
          opened := name :: m.opened
          tasks := .text (components value) :: .close :: tasks }
      | none, some (c :: text) => { m with tasks := .text (components (c :: text)) :: tasks }
      | none, _ => { m with out := m.out ++ .notice (.unresolvedReference name), tasks }

/-- One step. There is none out of a block that was not read to its end. -/
def step (custom : SortedMap String) (m : Machine) : Option Machine :=
  match m.tasks with
  | [] => some m
  | .text [] :: tasks => some { m with tasks }
  | .text (c :: rest) :: tasks => some (m.textStep tasks c rest)
  | .color [] channels :: tasks =>
    some { m with out := m.out ++ channels.written, tasks := .leave [] :: tasks }
  | .color (c :: rest) channels :: tasks => some (m.colorStep tasks channels c rest)
  | .argument rest channels before :: tasks =>
    some { m with out := before, tasks := .color rest (channels.addWritten m.out) :: tasks }
  | .reference arguments :: tasks => some (m.referenceStep custom tasks arguments)
  | .leave unread :: tasks => if unread.all isSeparator then some { m with tasks } else none
  | .close :: tasks => some { m with opened := m.opened.tail, tasks }

def run (custom : SortedMap String) : Nat → Machine → Option Machine
  | 0, m => some m
  | n + 1, m => (m.step custom).bind (run custom n)

/-- The machine before a text is written behind `out`. -/
def start (out : Written) (opened : List String) (text : List Char) : Machine :=
  ⟨out, opened, [.text (components text)]⟩

end Machine

/-! ## What is open -/

theorem passOver_eq_nil (cs : List Component) : passOver cs = [] := by
  induction cs with
  | nil => rfl
  | cons c cs ih => exact ih

def Task.isClose : Task → Bool
  | close => true
  | _ => false

def Task.isExhausted : Task → Bool
  | leave unread => unread.all isSeparator
  | _ => true

/-- `added` was opened on top of `entry`. Each open property is defined, was not open before, and
has one task that closes it. -/
structure Machine.Bounded (custom : SortedMap String) (entry : List String) (m : Machine)
    (added : List String) : Prop where
  opened : m.opened = added ++ entry
  nodup : added.Nodup
  fresh : ∀ name ∈ added, name ∉ entry
  defined : ∀ name ∈ added, custom.contains name = true
  closes : m.tasks.countP Task.isClose = added.length
  exhausted : ∀ task ∈ m.tasks, task.isExhausted = true

namespace Machine

variable {custom : SortedMap String} {entry added : List String} {m : Machine}

theorem bounded_start (out : Written) (entry : List String) (text : List Char) :
    Bounded custom entry (start out entry text) [] :=
  ⟨rfl, .nil, by simp, by simp, rfl, by simp [start, Task.isExhausted]⟩

theorem Bounded.replace (h : Bounded custom entry m added) {task : Task} {tasks : List Task}
    (hm : m.tasks = task :: tasks) (htask : task.isClose = false) (out : Written)
    (instead : List Task) (hclose : ∀ t ∈ instead, t.isClose = false)
    (hexhausted : ∀ t ∈ instead, t.isExhausted = true) :
    Bounded custom entry ⟨out, m.opened, instead ++ tasks⟩ added := by
  obtain ⟨hopened, hnodup, hfresh, hdefined, hcloses, hleft⟩ := h
  rw [hm] at hcloses hleft
  have hcount : instead.countP Task.isClose = 0 := by
    rw [List.countP_eq_zero]
    intro t ht
    simp [hclose t ht]
  refine ⟨hopened, hnodup, hfresh, hdefined, ?_, ?_⟩
  · rw [List.countP_cons_of_neg (by simp [htask])] at hcloses
    rw [List.countP_append, hcount, hcloses, Nat.zero_add]
  · intro t ht
    rcases List.mem_append.mp ht with ht | ht
    · exact hexhausted t ht
    · exact hleft t (List.mem_cons_of_mem _ ht)

theorem contains_of_definition? {name : String} {value : List Char}
    (h : definition? custom name = some value) : custom.contains name = true := by
  unfold definition? at h
  unfold SortedMap.contains
  cases hget : custom.get? name with
  | none => simp [hget] at h
  | some text => rfl

theorem Bounded.referenceStep (h : Bounded custom entry m added) {arguments : List Component}
    {tasks : List Task} (hm : m.tasks = .reference arguments :: tasks) :
    ∃ added', Bounded custom entry (m.referenceStep custom tasks arguments) added' := by
  have hleave : (Task.leave (passOver arguments)).isExhausted = true := by
    simp [passOver_eq_nil, Task.isExhausted]
  have hreplace := h.replace hm rfl
  unfold Machine.referenceStep
  cases hname : referenceName? arguments with
  | none => exact ⟨added, hreplace m.out [.leave _] (by simp [Task.isClose]) (by simpa)⟩
  | some name =>
    simp only
    split
    · exact ⟨added, hreplace _ [.leave _] (by simp [Task.isClose]) (by simpa)⟩
    · next hnot =>
      rw [List.contains_iff_mem] at hnot
      split
      · -- The property is opened, and the task that closes it stands right behind its value.
        next value hvalue =>
        have hopen := hreplace m.out [.text (components value), .leave (passOver arguments)]
          (by simp [Task.isClose]) (by simpa [Task.isExhausted] using hleave)
        rw [h.opened, List.mem_append, not_or] at hnot
        refine ⟨name :: added, ?_, ?_, ?_, ?_, ?_, ?_⟩
        · simp [h.opened]
        · exact List.nodup_cons.mpr ⟨hnot.1, h.nodup⟩
        · exact List.forall_mem_cons.mpr ⟨hnot.2, h.fresh⟩
        · exact List.forall_mem_cons.mpr ⟨contains_of_definition? hvalue, h.defined⟩
        · have hcount := hopen.closes
          simp [List.countP_cons, Task.isClose] at hcount ⊢
          omega
        · have hleft := hopen.exhausted
          simp [Task.isExhausted] at hleft ⊢
          exact hleft
      · next c text =>
        exact ⟨added, hreplace m.out [.text _, .leave _] (by simp [Task.isClose])
          (by simpa [Task.isExhausted] using hleave)⟩
      · exact ⟨added, hreplace _ [.leave _] (by simp [Task.isClose]) (by simpa)⟩

theorem Bounded.textStep (h : Bounded custom entry m added) {c : Component}
    {rest : List Component} {tasks : List Task} (hm : m.tasks = .text (c :: rest) :: tasks) :
    Bounded custom entry (m.textStep tasks c rest) added := by
  have hreplace := h.replace hm rfl
  unfold Machine.textStep
  split
  · exact hreplace m.out [.text _] (by simp [Task.isClose]) (by simp [Task.isExhausted])
  · split
    · exact hreplace _ [.text _] (by simp [Task.isClose]) (by simp [Task.isExhausted])
    · split
      · exact hreplace m.out [.color _ _, .text _] (by simp [Task.isClose])
          (by simp [Task.isExhausted])
      · split
        · exact hreplace m.out [.reference _, .text _] (by simp [Task.isClose])
            (by simp [Task.isExhausted])
        · exact hreplace _ [.text _] (by simp [Task.isClose]) (by simp [Task.isExhausted])
    · exact hreplace m.out [.text _] (by simp [Task.isClose]) (by simp [Task.isExhausted])

theorem Bounded.colorStep (h : Bounded custom entry m added) {channels : Channels}
    {c : Component} {rest : List Component} {tasks : List Task}
    (hm : m.tasks = .color (c :: rest) channels :: tasks) :
    Bounded custom entry (m.colorStep tasks channels c rest) added := by
  have hreplace := h.replace hm rfl
  unfold Machine.colorStep
  split
  · split
    · exact hreplace _ [.reference _, .argument _ _ _] (by simp [Task.isClose])
        (by simp [Task.isExhausted])
    · exact hreplace m.out [.color _ _] (by simp [Task.isClose]) (by simp [Task.isExhausted])
  · exact hreplace m.out [.color _ _] (by simp [Task.isClose]) (by simp [Task.isExhausted])

/-- A close takes back the property that was opened last, and never one of `entry`. -/
theorem Bounded.close (h : Bounded custom entry m added) {tasks : List Task}
    (hm : m.tasks = .close :: tasks) :
    Bounded custom entry ⟨m.out, m.opened.tail, tasks⟩ added.tail := by
  obtain ⟨hopened, hnodup, hfresh, hdefined, hcloses, hleft⟩ := h
  rw [hm] at hcloses hleft
  simp only [List.countP_cons, Task.isClose, if_true] at hcloses
  cases added with
  | nil => simp at hcloses
  | cons name added =>
    refine ⟨?_, hnodup.tail, ?_, ?_, ?_, ?_⟩
    · simp [hopened]
    · exact fun n hn => hfresh n (List.mem_cons_of_mem _ hn)
    · exact fun n hn => hdefined n (List.mem_cons_of_mem _ hn)
    · simpa using hcloses
    · exact fun t ht => hleft t (List.mem_cons_of_mem _ ht)

/-- There is always a next step, and it keeps the bounds. -/
theorem Bounded.step (h : Bounded custom entry m added) :
    ∃ m' added', m.step custom = some m' ∧ Bounded custom entry m' added' := by
  unfold Machine.step
  split
  · exact ⟨m, added, rfl, h⟩
  · next hm => exact ⟨_, added, rfl, h.replace hm rfl m.out [] (by simp) (by simp)⟩
  · next hm => exact ⟨_, added, rfl, h.textStep hm⟩
  · next hm =>
    exact ⟨_, added, rfl, h.replace hm rfl _ [.leave []] (by simp [Task.isClose])
      (by simp [Task.isExhausted])⟩
  · next hm => exact ⟨_, added, rfl, h.colorStep hm⟩
  · next hm =>
    exact ⟨_, added, rfl, h.replace hm rfl _ [.color _ _] (by simp [Task.isClose])
      (by simp [Task.isExhausted])⟩
  · next hm =>
    obtain ⟨added', hstep⟩ := h.referenceStep hm
    exact ⟨_, added', rfl, hstep⟩
  · next unread tasks hm =>
    have hread := h.exhausted (.leave unread) (by simp [hm])
    rw [if_pos (by exact hread)]
    exact ⟨_, added, rfl, h.replace hm rfl m.out [] (by simp) (by simp)⟩
  · next hm => exact ⟨_, added.tail, rfl, h.close hm⟩

theorem Bounded.run (h : Bounded custom entry m added) (n : Nat) :
    ∃ m' added', m.run custom n = some m' ∧ Bounded custom entry m' added' := by
  induction n generalizing m added with
  | zero => exact ⟨m, added, rfl, h⟩
  | succ n ih =>
    obtain ⟨m', added', hstep, h'⟩ := h.step
    obtain ⟨m'', added'', hrun, h''⟩ := ih h'
    refine ⟨m'', added'', ?_, h''⟩
    unfold Machine.run
    rw [hstep]
    exact hrun

theorem Bounded.length_le (h : Bounded custom entry m added) : added.length ≤ custom.size := by
  have hsubset : added ⊆ custom.entries.map Prod.fst := by
    intro name hname
    obtain ⟨value, hvalue⟩ := Option.isSome_iff_exists.mp (h.defined name hname)
    exact List.mem_map_of_mem (SortedMap.mem_of_lookup hvalue)
  have hle := h.nodup.length_le_of_subset hsubset
  rwa [List.length_map] at hle

end Machine

end ClassStyle.Css
