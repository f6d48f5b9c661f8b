import ClassStyle.Proofs.Machine
import ClassStyle.Proofs.Room

/-!
# Substitution of custom properties

The machine stops for every text and all properties, however they refer to each other. It leaves
the stack as it was and has written what `writeText` says (`Machine.run_start`).
-/

namespace ClassStyle.Css

open Component

/-! ## Runs -/

namespace Machine

variable {custom : SortedMap String}

theorem run_add (a b : Nat) (m : Machine) :
    m.run custom (a + b) = (m.run custom a).bind (run custom b) := by
  induction a generalizing m with
  | zero => rw [Nat.zero_add]; rfl
  | succ a ih =>
    rw [Nat.succ_add, run, run]
    cases m.step custom with
    | none => rfl
    | some m' => exact ih m'

theorem run_of_done {m : Machine} (h : m.tasks = []) (n : Nat) : m.run custom n = some m := by
  induction n with
  | zero => rfl
  | succ n ih =>
    rw [run, step, h]
    exact ih

def Reaches (custom : SortedMap String) (m m' : Machine) : Prop :=
  ∃ n, m.run custom n = some m'

theorem Reaches.trans {m m' m'' : Machine} (h : Reaches custom m m')
    (h' : Reaches custom m' m'') : Reaches custom m m'' := by
  obtain ⟨a, ha⟩ := h
  obtain ⟨b, hb⟩ := h'
  refine ⟨a + b, ?_⟩
  rw [run_add, ha]
  exact hb

theorem Reaches.of_step {m m' : Machine} (h : m.step custom = some m') :
    Reaches custom m m' := by
  refine ⟨1, ?_⟩
  rw [run, h]
  rfl

/-- References with short arguments are written as a function says. -/
def Follows (custom : SortedMap String) (opened : List String) (length : Nat)
    (reference : List Component → Written) : Prop :=
  ∀ arguments, (sourceAll arguments).length < length → ∀ out tasks,
    Reaches custom ⟨out, opened, .reference arguments :: tasks⟩
      ⟨out ++ reference arguments, opened, tasks⟩

variable {opened : List String} {length : Nat} {reference : List Component → Written}

theorem reaches_color (href : Follows custom opened length reference) {cs : List Component}
    (hcs : Fits length cs) (channels : Channels) (out : Written) (tasks : List Task) :
    Reaches custom ⟨out, opened, .color cs channels :: tasks⟩
      ⟨out ++ (cs.foldl (addArgument reference) channels).written, opened, tasks⟩ := by
  induction cs generalizing channels with
  | nil => exact .trans (.of_step rfl) (.of_step rfl)
  | cons c cs ih =>
    have hrest := ih hcs.tail
    rw [List.foldl_cons]
    refine .trans ?_ (hrest _)
    cases c with
    | leaf lexeme =>
      obtain ⟨token, source⟩ := lexeme
      cases token <;> exact .of_step rfl
    | block opener body closer =>
      obtain ⟨token, source⟩ := opener
      cases token with
      | function name =>
        by_cases hvar : isNamed "var" name = true
        · have hbody := href body hcs.body.1 .empty (.argument cs channels out :: tasks)
          have henter : Machine.step custom ⟨out, opened,
              .color (.block ⟨.function name, source⟩ body closer :: cs) channels :: tasks⟩ =
                some ⟨.empty, opened, .reference body :: .argument cs channels out :: tasks⟩ := by
            simp [step, colorStep, hvar]
          refine .trans (.of_step henter) (.trans hbody (.of_step ?_))
          simp [step, addArgument, hvar]
        · refine .of_step ?_
          simp [step, colorStep, addArgument, hvar]
      | _ => exact .of_step rfl

theorem reaches_components (href : Follows custom opened length reference)
    {cs : List Component} (hcs : Fits length cs) (out : Written) (tasks : List Task) :
    Reaches custom ⟨out, opened, .text cs :: tasks⟩
      ⟨out ++ writeComponents reference (beforeBang cs), opened, tasks⟩ := by
  induction cs generalizing out with
  | nil =>
    refine .of_step ?_
    simp [step, beforeBang, writeComponents]
  | cons c cs ih =>
    have hrest := ih hcs.tail
    by_cases hbang : c.isLeaf (.delimiter '!') = true
    · -- Nothing behind an exclamation mark is written.
      have hskip : Machine.step custom ⟨out, opened, .text (c :: cs) :: tasks⟩ =
          some ⟨out, opened, .text [] :: tasks⟩ := by
        simp [step, textStep, hbang, passOver_eq_nil]
      refine .trans (.of_step hskip) (.of_step ?_)
      simp [step, beforeBang, hbang, writeComponents]
    · have hbefore : beforeBang (c :: cs) = c :: beforeBang cs := by simp [beforeBang, hbang]
      rw [hbefore, writeComponents, ← Written.append_assoc]
      -- What is left to show is that the machine comes past `c`, with what `c` stands for written.
      refine .trans ?_ (hrest _)
      cases c with
      | leaf lexeme =>
        refine .of_step ?_
        simp [step, textStep, hbang, writeComponent]
      | block opener body closer =>
        obtain ⟨token, source⟩ := opener
        cases token with
        | function name =>
          by_cases hrgb : (isNamed "rgb" name || isNamed "rgba" name) = true
          · have hcolor := reaches_color href hcs.body.2 ⟨[], []⟩ out (.text cs :: tasks)
            refine .trans (.of_step ?_) (.trans hcolor ?_)
            · simp only [step, textStep, hbang, hrgb, if_true, Bool.false_eq_true, if_false]
            · simp only [writeComponent, hrgb, if_true, writeColor]
              exact ⟨0, rfl⟩
          · by_cases hvar : isNamed "var" name = true
            · have hbody := href body hcs.body.1 out (.text cs :: tasks)
              refine .trans (.of_step ?_) (.trans hbody ?_)
              · simp only [step, textStep, hbang, hrgb, hvar, if_true, Bool.false_eq_true,
                  if_false]
              · simp only [writeComponent, hrgb, hvar, if_true, Bool.false_eq_true, if_false]
                exact ⟨0, rfl⟩
            · refine .of_step ?_
              simp only [step, textStep, hbang, hrgb, hvar, writeComponent, Bool.false_eq_true,
                if_false]
        | _ =>
          refine .of_step ?_
          simp [step, textStep, hbang, writeComponent]

theorem follows_writeReference {write : List String → List Char → Written}
    (hvalue : ∀ name value, definition? custom name = some value → name ∉ opened →
      ∀ out tasks, Reaches custom ⟨out, name :: opened, .text (components value) :: tasks⟩
        ⟨out ++ write (name :: opened) value, name :: opened, tasks⟩)
    (hfallback : ∀ text : List Char, text.length < length →
      ∀ out tasks, Reaches custom ⟨out, opened, .text (components text) :: tasks⟩
        ⟨out ++ write opened text, opened, tasks⟩) :
    Follows custom opened length (writeReference custom write opened) := by
  intro arguments hlength out tasks
  have hleave : ∀ out opened, Machine.step custom
      ⟨out, opened, .leave (passOver arguments) :: tasks⟩ = some ⟨out, opened, tasks⟩ := by
    intro out opened
    simp [step, passOver_eq_nil]
  refine .trans (.of_step rfl) ?_
  unfold referenceStep writeReference
  cases referenceName? arguments with
  | none =>
    rw [Written.append_empty]
    exact .of_step (hleave _ _)
  | some name =>
    simp only
    split
    · exact .of_step (hleave _ _)
    · next hnot =>
      rw [List.contains_iff_mem] at hnot
      cases hdefined : definition? custom name with
      | some value =>
        refine .trans (hvalue name value hdefined hnot out _) ?_
        exact .trans (.of_step rfl) (.of_step (hleave _ _))
      | none =>
        cases htext : fallback? arguments with
        | none => exact .of_step (hleave _ _)
        | some text =>
          cases text with
          | nil => exact .of_step (hleave _ _)
          | cons c text =>
            have hle := (fallback?_sublist htext).length_le
            exact .trans (hfallback (c :: text) (by omega) out _) (.of_step (hleave _ _))

/-- With room to go `depth` texts deep, a text is written as `writeText` says. -/
theorem reaches_text (depth : Nat) (opened : List String) (text : List Char)
    (h : room custom opened text ≤ depth) (out : Written) (tasks : List Task) :
    Reaches custom ⟨out, opened, .text (components text) :: tasks⟩
      ⟨out ++ writeText custom depth opened text, opened, tasks⟩ := by
  induction depth generalizing opened text out tasks with
  | zero =>
    unfold room at h
    omega
  | succ depth ih =>
    -- Each text in this one needs less room, so it can go one level less deep.
    refine reaches_components (follows_writeReference ?_ ?_) (fits_components text) out tasks
    · intro name value hvalue hnot
      have hroom := room_open hvalue hnot text
      exact ih (name :: opened) value (by omega)
    · intro fallback hlength
      exact ih opened fallback (by unfold room at h ⊢; omega)

theorem Reaches.unique {m a b : Machine} (ha : Reaches custom m a) (hb : Reaches custom m b)
    (hadone : a.tasks = []) (hbdone : b.tasks = []) : a = b := by
  obtain ⟨i, hi⟩ := ha
  obtain ⟨j, hj⟩ := hb
  have hij : m.run custom (i + j) = some a := by
    rw [run_add, hi]
    exact run_of_done hadone j
  have hji : m.run custom (j + i) = some b := by
    rw [run_add, hj]
    exact run_of_done hbdone i
  rw [Nat.add_comm, hji] at hij
  exact (Option.some.inj hij).symm

end Machine

theorem writeText_eq {custom : SortedMap String} {depth depth' : Nat} {opened : List String}
    {text : List Char} (h : room custom opened text ≤ depth)
    (h' : room custom opened text ≤ depth') :
    writeText custom depth opened text = writeText custom depth' opened text := by
  have hreach := Machine.reaches_text depth opened text h .empty []
  have hreach' := Machine.reaches_text depth' opened text h' .empty []
  have heq := congrArg Machine.out (hreach.unique hreach' rfl rfl)
  simpa using heq

/-- Every run ends, and no step of it fails. It leaves the open properties as they were, and opens
each property once at most on the way. A reference to an open property adds no text. -/
theorem Machine.run_start (custom : SortedMap String) (out : Written) (entry : List String)
    (text : List Char) :
    (∃ n, ∀ k, n ≤ k → (start out entry text).run custom k =
      some ⟨out ++ writeText custom (depthBound custom text) entry text, entry, []⟩) ∧
    (∀ k, ∃ m added, (start out entry text).run custom k = some m ∧ m.opened = added ++ entry ∧
      added.Nodup ∧ (∀ name ∈ added, name ∉ entry ∧ custom.contains name = true) ∧
      added.length ≤ custom.size) ∧
    (∀ m arguments tasks name, m.tasks = .reference arguments :: tasks →
      referenceName? arguments = some name → name ∈ m.opened →
      ∃ out', Reaches custom m ⟨out', m.opened, tasks⟩ ∧
        out'.pieces = m.out.pieces ∧ out'.opacity = m.out.opacity) ∧
    ∀ depth, depthBound custom text ≤ depth →
      writeText custom depth entry text =
        writeText custom (depthBound custom text) entry text := by
  have hroom := room_le_depthBound custom entry text
  refine ⟨?_, ?_, ?_, ?_⟩
  · obtain ⟨n, hn⟩ := reaches_text (depthBound custom text) entry text hroom out []
    refine ⟨n, fun k hk => ?_⟩
    obtain ⟨d, rfl⟩ := Nat.exists_eq_add_of_le hk
    unfold start
    rw [run_add, hn]
    exact run_of_done rfl d
  · intro k
    have hstart : Bounded custom entry (start out entry text) [] := bounded_start out entry text
    obtain ⟨m, added, hrun, hm⟩ := hstart.run k
    exact ⟨m, added, hrun, hm.opened, hm.nodup,
      fun name hname => ⟨hm.fresh name hname, hm.defined name hname⟩, hm.length_le⟩
  · rintro ⟨out, opened, tasks⟩ arguments rest name rfl hname hopen
    refine ⟨out ++ .notice (.cyclicReference name), ?_, ?_, ?_⟩
    · have hnotice : Machine.step custom ⟨out, opened, .reference arguments :: rest⟩ =
          some ⟨out ++ .notice (.cyclicReference name), opened,
            .leave (passOver arguments) :: rest⟩ := by
        unfold step referenceStep
        simp only [hname]
        rw [if_pos (List.contains_iff_mem.mpr hopen)]
      refine .trans (.of_step hnotice) (.of_step ?_)
      simp [step, passOver_eq_nil]
    · exact List.append_nil out.pieces
    · rfl
  · intro depth hdepth
    exact writeText_eq (by omega) hroom

-- Two properties that refer to each other, each with a word of its own.
example :
    (writeValue (.ofList [("--a", "x var(--b)"), ("--b", "y var(--a)")])
      ['v', 'a', 'r', '(', '-', '-', 'a', ')']).pieces = [['x'], ['y']] := by
  decide +kernel

end ClassStyle.Css
