import ClassStyle.Session

/-!
# What a cache has published

Engines that share a cache take turns while the files change. The cache holds the sheet that was
published last and has counted all of them, and a sheet that was handed out stays as it was
(`Session.run_history`).
-/

namespace ClassStyle

/-! ## Turns -/

/-- One engine over the cache carries out an action. An engine is known by its configuration, and
the files are as somebody has left them. -/
structure Turn where
  files : FileTree
  config : Config
  action : Action

namespace Session

/-- The session before a turn: the engine whose turn it is works on the cache of the last one. -/
def before (s : Session) (t : Turn) : Session :=
  { s with tree := t.files, engine := { s.engine with config := t.config } }

def turn (s : Session) (t : Turn) : Session × Reply := ((s.before t).step t.action).value

def take (s : Session) (t : Turn) : Session := (s.turn t).1

def run (s : Session) (turns : List Turn) : Session := turns.foldl take s

/-- The session with a new cache. -/
def withSheet (s : Session) (sheet : Sheet) : Session :=
  { s with engine := { s.engine with cache := .ofSheet sheet } }

end Session

/-! ## Histories -/

/-- The sheet of a file as it is published, if the file can be read. -/
def fileSheet? (files : FileTree) (path : Path) : Option Sheet :=
  match files.readText path with
  | .ok css => some { (Sheet.ofCss css).value with source := some path }
  | .error _ => none

def Change.sheet? (files : FileTree) (base : Path) (change : Change) : Option Sheet :=
  match change.kind with
  | .removed => some .empty
  | _ => fileSheet? files (base.join change.path)

/-- The sheets that a turn publishes, seen from the directory of the session. -/
def Turn.published (base : Path) (t : Turn) : List Sheet :=
  match t.action with
  | .publish css => [(Sheet.ofCss css).value]
  | .reload => (fileSheet? t.files t.config.cssFile).toList
  | .reloadFile path => (fileSheet? t.files (base.join path)).toList
  | .applyChanges changes => changes.filterMap fun change => change.sheet? t.files base
  | _ => []

/-- The file that a turn reloads. -/
def Turn.reloads? (base : Path) (t : Turn) : Option Path :=
  match t.action with
  | .reload => some t.config.cssFile
  | .reloadFile path => some (base.join path)
  | _ => none

/-- The sheet of a new cache, if a turn goes on with one. -/
def Turn.renewed? (base : Path) (t : Turn) : Option Sheet :=
  match t.action with
  | .configure path => some ((fileSheet? t.files (base.join path)).getD .empty)
  | .configureFromFile path =>
    match Config.ofFile t.files (base.join path) with
    | .ok config => some ((fileSheet? t.files config.cssFile).getD .empty)
    | .error _ => none
  | .useCss css => some (Sheet.ofCss css).value
  | .useEmpty => some .empty
  | _ => none

structure History where
  /-- The sheet that the cache was made with. -/
  initial : Sheet
  published : List Sheet
  handedOut : List Sheet

namespace History

def current (h : History) : Sheet := h.published.getLast?.getD h.initial

/-- What is in use when it is asked for is handed out. -/
def handOut (h : History) : Action → List Sheet
  | .snapshot => [h.current]
  | _ => []

def add (base : Path) (h : History) (t : Turn) : History :=
  match t.renewed? base with
  | some sheet => ⟨sheet, [], h.handedOut ++ h.handOut t.action⟩
  | none => ⟨h.initial, h.published ++ t.published base, h.handedOut ++ h.handOut t.action⟩

def ofTurns (base : Path) (h : History) (turns : List Turn) : History := turns.foldl (add base) h

end History

/-- A session is where a history has led. -/
structure Session.Follows (s : Session) (base : Path) (h : History) : Prop where
  base_eq : s.base = base
  sheet : s.engine.cache.sheet = h.current
  generation : s.engine.cache.generation = .ofNat h.published.length
  snapshots : s.snapshots = h.handedOut

/-! ## Publishing -/

/-- A cache after some sheets were published to it. -/
def Cache.after (cache : Cache) (sheets : List Sheet) : Cache :=
  ⟨sheets.getLast?.getD cache.sheet, cache.generation + .ofNat sheets.length⟩

theorem Cache.after_nil (cache : Cache) : cache.after [] = cache := by
  simp [after]

theorem Cache.after_append (cache : Cache) (first second : List Sheet) :
    cache.after (first ++ second) = (cache.after first).after second := by
  unfold after
  rw [List.getLast?_append, List.length_append, UInt64.ofNat_add, UInt64.add_assoc]
  cases second.getLast? <;> rfl

theorem Sheet.value_ofFile (files : FileTree) (path : Path) :
    (Sheet.ofFile files path).value =
      match files.readText path with
      | .ok css => .ok { (Sheet.ofCss css).value with source := some path }
      | .error fault => .error (.unreadable path fault) := by
  unfold Sheet.ofFile
  cases files.readText path <;> rfl

theorem Sheet.value_ofFileOrEmpty (files : FileTree) (path : Path) :
    (Sheet.ofFileOrEmpty files path).value = (fileSheet? files path).getD .empty := by
  unfold Sheet.ofFileOrEmpty fileSheet?
  rw [Logged.value_bind, value_ofFile]
  cases files.readText path with
  | ok css => rfl
  | error fault => cases fault <;> rfl

theorem Cache.value_reload (cache : Cache) (files : FileTree) (path : Path) :
    (cache.reload files path).value =
      match files.readText path with
      | .ok css =>
        (cache.after [{ (Sheet.ofCss css).value with source := some path }],
          .ok (Sheet.ofCss css).value.size)
      | .error fault => (cache, .error (.unreadable path fault)) := by
  unfold Cache.reload
  rw [Logged.value_bind, Sheet.value_ofFile]
  cases files.readText path <;> rfl

theorem Cache.reload_after (cache : Cache) (files : FileTree) (path : Path) :
    (cache.reload files path).value.1 = cache.after (fileSheet? files path).toList := by
  rw [value_reload]
  unfold fileSheet?
  cases files.readText path with
  | ok css => rfl
  | error fault => exact (cache.after_nil).symm

theorem Watcher.value_applyChange (files : FileTree) (cache : Cache) (base : Path)
    (change : Change) :
    (Watcher.applyChange files cache { change with path := base.join change.path }).value =
      (cache.after (change.sheet? files base).toList,
        (change.sheet? files base).toList.length) := by
  -- A removed file publishes without being read. All other changes are reloads.
  have hreload : ∀ kind, kind ≠ .removed →
      (Watcher.applyChange files cache ⟨base.join change.path, kind⟩).value =
        (cache.after (fileSheet? files (base.join change.path)).toList,
          (fileSheet? files (base.join change.path)).toList.length) := by
    intro kind hkind
    unfold Watcher.applyChange fileSheet?
    have hvalue := cache.value_reload files (base.join change.path)
    cases hread : files.readText (base.join change.path) with
    | ok css =>
      rw [hread] at hvalue
      cases kind with
      | removed => exact absurd rfl hkind
      | _ => simp [hvalue]
    | error fault =>
      rw [hread] at hvalue
      cases kind with
      | removed => exact absurd rfl hkind
      | _ => simp [hvalue, cache.after_nil]
  obtain ⟨path, kind⟩ := change
  cases kind with
  | removed => rfl
  | modified => exact hreload .modified nofun
  | created => exact hreload .created nofun

theorem Watcher.value_applyChanges (files : FileTree) (cache : Cache) (base : Path)
    (changes : List Change) :
    (Watcher.applyChanges files cache
        (changes.map fun change => { change with path := base.join change.path })).value =
      (cache.after (changes.filterMap fun change => change.sheet? files base),
        (changes.filterMap fun change => change.sheet? files base).length) := by
  induction changes generalizing cache with
  | nil => exact Prod.ext cache.after_nil.symm rfl
  | cons change changes ih =>
    rw [List.map_cons, Watcher.applyChanges, Logged.value_bind, value_applyChange,
      Logged.value_bind, ih]
    cases h : change.sheet? files base with
    | none => simp [h, Cache.after_nil]
    | some sheet =>
      rw [List.filterMap_cons_some h]
      refine Prod.ext ?_ ?_
      · exact (cache.after_append [sheet] _).symm
      · simp [Nat.add_comm]

/-! ## Turn after turn -/

namespace Session

/-- The parts of a session that a history tells. -/
structure Holds (s : Session) (base : Path) (cache : Cache) (snapshots : List Sheet) : Prop where
  base_eq : s.base = base
  cache_eq : s.engine.cache = cache
  snapshots_eq : s.snapshots = snapshots

theorem holds_idle {s : Session} {base : Path} {cache : Cache} {snapshots : List Sheet}
    (hbase : s.base = base) (hcache : s.engine.cache = cache) (h : s.snapshots = snapshots) :
    s.Holds base (cache.after []) (snapshots ++ []) :=
  ⟨hbase, hcache.trans cache.after_nil.symm, by rw [h, List.append_nil]⟩

theorem holds_makeDirectory (s : Session) (path : Path) :
    (s.makeDirectory path).1.Holds s.base (s.engine.cache.after []) (s.snapshots ++ []) := by
  unfold makeDirectory
  cases s.tree.makeDirectory path
  exact holds_idle rfl rfl rfl

theorem holds_changeFile (s : Session) (changed : FileTree × Option Location) :
    (s.changeFile changed).1.Holds s.base (s.engine.cache.after []) (s.snapshots ++ []) := by
  obtain ⟨tree, location⟩ := changed
  cases location <;> exact holds_idle rfl rfl rfl

theorem holds_reloaded (s : Session) (path : Path) :
    (s.reloaded (s.engine.reloadFile s.tree path)).value.1.Holds s.base
      (s.engine.cache.after (fileSheet? s.tree path).toList) (s.snapshots ++ []) :=
  ⟨rfl, s.engine.cache.reload_after s.tree path, (List.append_nil _).symm⟩

theorem holds_watch (s : Session) (path : Path) :
    (s.watch path).value.1.Holds s.base (s.engine.cache.after []) (s.snapshots ++ []) := by
  unfold watch
  rw [Logged.value_bind]
  cases (s.watcher.watch s.tree path).value <;> exact holds_idle rfl rfl rfl

theorem holds_take (s : Session) (t : Turn) :
    (s.take t).Holds s.base
      (match t.renewed? s.base with
        | some sheet => .ofSheet sheet
        | none => s.engine.cache.after (t.published s.base))
      (s.snapshots ++ match t.action with
        | .snapshot => [s.engine.cache.sheet]
        | _ => []) := by
  obtain ⟨files, config, action⟩ := t
  let started : Session := s.before ⟨files, config, action⟩
  cases action with
  | publish css => exact ⟨rfl, rfl, (List.append_nil _).symm⟩
  | reload => exact holds_reloaded started config.cssFile
  | reloadFile path => exact holds_reloaded started (s.base.join path)
  | applyChanges changes =>
    refine ⟨rfl, ?_, (List.append_nil _).symm⟩
    exact congrArg Prod.fst (Watcher.value_applyChanges files s.engine.cache s.base changes)
  | snapshot => exact ⟨rfl, s.engine.cache.after_nil.symm, rfl⟩
  | configure path =>
    refine ⟨rfl, ?_, (List.append_nil _).symm⟩
    exact congrArg Cache.ofSheet (Sheet.value_ofFileOrEmpty files (s.base.join path))
  | configureFromFile path =>
    unfold take turn step Turn.renewed?
    simp only [configureFromFile, before, full]
    cases Config.ofFile files (s.base.join path) with
    | error failure => exact holds_idle rfl rfl rfl
    | ok config =>
      refine ⟨rfl, ?_, (List.append_nil _).symm⟩
      exact congrArg Cache.ofSheet (Sheet.value_ofFileOrEmpty files config.cssFile)
  | useCss css => exact ⟨rfl, rfl, (List.append_nil _).symm⟩
  | useEmpty => exact ⟨rfl, rfl, (List.append_nil _).symm⟩
  | write path content => exact holds_changeFile started _
  | makeDirectory path => exact holds_makeDirectory started _
  | removeFile path => exact holds_changeFile started _
  | watch path => exact holds_watch started (s.base.join path)
  | _ => exact holds_idle rfl rfl rfl

theorem follows_take {s : Session} {base : Path} {h : History} (hs : s.Follows base h)
    (t : Turn) : (s.take t).Follows base (h.add base t) := by
  obtain ⟨rfl, hsheet, hgeneration, hsnapshots⟩ := hs
  obtain ⟨hbase, hcache, htaken⟩ := s.holds_take t
  have hhanded : (s.take t).snapshots = h.handedOut ++ h.handOut t.action := by
    rw [htaken, hsheet, hsnapshots]
    cases t.action <;> rfl
  unfold History.add
  cases hrenewed : t.renewed? s.base with
  | some sheet =>
    -- The generation of a new cache is zero again.
    rw [hrenewed] at hcache
    refine ⟨hbase, ?_, ?_, hhanded⟩
    · rw [hcache]
      rfl
    · rw [hcache]
      rfl
  | none =>
    rw [hrenewed] at hcache
    refine ⟨hbase, ?_, ?_, hhanded⟩
    · rw [hcache]
      simp only [Cache.after, hsheet, History.current, List.getLast?_append]
      cases (t.published s.base).getLast? <;> rfl
    · rw [hcache]
      simp only [Cache.after, hgeneration, List.length_append, UInt64.ofNat_add]

theorem follows_run {s : Session} {base : Path} {h : History} (hs : s.Follows base h)
    (turns : List Turn) : (s.run turns).Follows base (.ofTurns base h turns) := by
  induction turns generalizing s h with
  | nil => exact hs
  | cons t turns ih => exact ih (follows_take hs t)

theorem run_append (s : Session) (first second : List Turn) :
    s.run (first ++ second) = (s.run first).run second := List.foldl_append

theorem turn_of_reloads {s : Session} {t : Turn} {path : Path}
    (h : t.reloads? s.base = some path) :
    (s.turn t).1.engine.cache = (s.engine.cache.reload t.files path).value.1 ∧
    (s.turn t).2 = .ofCount (s.engine.cache.reload t.files path).value.2 := by
  obtain ⟨files, config, action⟩ := t
  cases action with
  | reload =>
    obtain rfl := Option.some.inj h
    exact ⟨rfl, rfl⟩
  | reloadFile written =>
    obtain rfl := Option.some.inj h
    exact ⟨rfl, rfl⟩
  | _ => cases h

theorem snapshots_prefix (s : Session) (turns : List Turn) :
    s.snapshots <+: (s.run turns).snapshots := by
  induction turns generalizing s with
  | nil => exact List.prefix_refl _
  | cons t turns ih =>
    have htaken : s.snapshots <+: (s.take t).snapshots := ⟨_, (s.holds_take t).snapshots_eq.symm⟩
    exact htaken.trans (ih (s.take t))

/-- A cache that several engines share holds the sheet that was published last, and its generation
counts the sheets that were published. A reload publishes the sheet of its file and tells how many
classes that has, or changes nothing if the file cannot be read. What was handed out before a turn
is still the same after it. -/
theorem run_history (s : Session) (initial : Sheet) (turns : List Turn) :
    ((s.withSheet initial).run turns).engine.cache.sheet =
      (History.ofTurns s.base ⟨initial, [], s.snapshots⟩ turns).current ∧
    ((s.withSheet initial).run turns).engine.cache.generation.toNat =
      (History.ofTurns s.base ⟨initial, [], s.snapshots⟩ turns).published.length % UInt64.size ∧
    (∀ t : Turn,
      match t.reloads? s.base with
      | none => True
      | some path =>
        match t.files.readText path with
        | .ok css =>
          (((s.withSheet initial).run turns).turn t).2 = .count (Sheet.ofCss css).value.size ∧
          (((s.withSheet initial).run turns).turn t).1.engine.cache =
            ⟨{ (Sheet.ofCss css).value with source := some path },
              ((s.withSheet initial).run turns).engine.cache.generation + 1⟩
        | .error fault =>
          (((s.withSheet initial).run turns).turn t).2 = .failed (.unreadable path fault) ∧
          (((s.withSheet initial).run turns).turn t).1.engine.cache =
            ((s.withSheet initial).run turns).engine.cache) ∧
    ∀ files config more,
      ((s.withSheet initial).run (turns ++ ⟨files, config, .snapshot⟩ :: more)).snapshots[
          ((s.withSheet initial).run turns).snapshots.length]? =
        some (History.ofTurns s.base ⟨initial, [], s.snapshots⟩ turns).current := by
  have hstart : (s.withSheet initial).Follows s.base ⟨initial, [], s.snapshots⟩ :=
    ⟨rfl, rfl, rfl, rfl⟩
  have hreached := follows_run hstart turns
  refine ⟨hreached.sheet, ?_, ?_, ?_⟩
  · rw [hreached.generation]
    exact UInt64.toNat_ofNat'
  · intro t
    rw [← hreached.base_eq]
    cases hpath : t.reloads? ((s.withSheet initial).run turns).base with
    | none => trivial
    | some path =>
      obtain ⟨hcache, hreply⟩ := turn_of_reloads hpath
      rw [Cache.value_reload] at hcache hreply
      simp only
      split
      · next css hread =>
        rw [hread] at hcache hreply
        exact ⟨hreply, hcache⟩
      · next fault hread =>
        rw [hread] at hcache hreply
        exact ⟨hreply, hcache⟩
  · intro files config more
    rw [run_append, run, List.foldl_cons, ← run]
    have htaken := (((s.withSheet initial).run turns).holds_take
      ⟨files, config, .snapshot⟩).snapshots_eq
    obtain ⟨later, hlater⟩ := snapshots_prefix
      (((s.withSheet initial).run turns).take ⟨files, config, .snapshot⟩) more
    rw [← hlater, htaken]
    simp [hreached.sheet]

end Session

end ClassStyle
