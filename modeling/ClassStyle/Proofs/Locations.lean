import ClassStyle.Storage.FileTree

/-!
# Where paths lead

A path leads where its segments lead, whatever else is in the tree, as long as the directories on
the way are there (`FileTree.locate_kept`). A path that is spelled like that of a location leads to
this location only (`FileTree.eq_of_same_pathOf`).
-/

namespace ClassStyle

/-! ## Segments -/

namespace Path

/-- What can stand between two slashes. -/
def IsSegment (s : String) : Prop := s ≠ "" ∧ '/' ∉ s.toList

theorem slash_not_mem_splitSlashes {l s : List Char} (h : s ∈ splitSlashes l) : '/' ∉ s := by
  induction l generalizing s with
  | nil =>
    obtain rfl := List.mem_singleton.mp h
    exact List.not_mem_nil
  | cons c rest ih =>
    unfold splitSlashes at h
    split at h
    case isTrue =>
      rcases List.mem_cons.mp h with rfl | h
      · exact List.not_mem_nil
      · exact ih h
    case isFalse hc =>
      cases hrest : splitSlashes rest with
      | nil =>
        rw [hrest] at h
        obtain rfl := List.mem_singleton.mp h
        simpa using Ne.symm hc
      | cons first others =>
        rw [hrest] at h ih
        rcases List.mem_cons.mp h with rfl | h
        · simp [Ne.symm hc, ih List.mem_cons_self]
        · exact ih (List.mem_cons_of_mem _ h)

theorem isSegment_of_mem {path : Path} {s : String} (h : s ∈ path.segments) : IsSegment s := by
  obtain ⟨chars, hchars, rfl⟩ := List.mem_map.mp h
  obtain ⟨hsplit, hne⟩ := List.mem_filter.mp hchars
  constructor
  · rintro hempty
    simp [String.ofList_eq_empty_iff.mp hempty] at hne
  · rw [String.toList_ofList]
    exact slash_not_mem_splitSlashes hsplit

theorem splitSlashes_of_not_mem {s : List Char} (h : '/' ∉ s) : splitSlashes s = [s] := by
  induction s with
  | nil => rfl
  | cons c s ih =>
    obtain ⟨hc, hs⟩ := List.ne_and_not_mem_of_not_mem_cons h
    rw [splitSlashes, if_neg (Ne.symm hc), ih hs]

theorem splitSlashes_append {s : List Char} (h : '/' ∉ s) (rest : List Char) :
    splitSlashes (s ++ '/' :: rest) = s :: splitSlashes rest := by
  induction s with
  | nil => rfl
  | cons c s ih =>
    obtain ⟨hc, hs⟩ := List.ne_and_not_mem_of_not_mem_cons h
    rw [List.cons_append, splitSlashes, if_neg (Ne.symm hc), ih hs]

theorem splitSlashes_intercalate {names : List (List Char)} (hne : names ≠ [])
    (h : ∀ s ∈ names, '/' ∉ s) : splitSlashes (['/'].intercalate names) = names := by
  induction names with
  | nil => exact absurd rfl hne
  | cons s names ih =>
    obtain ⟨hs, hnames⟩ := List.forall_mem_cons.mp h
    cases names with
    | nil =>
      rw [List.intercalate_singleton]
      exact splitSlashes_of_not_mem hs
    | cons t names =>
      rw [List.intercalate_cons_cons, List.append_assoc, List.singleton_append,
        splitSlashes_append hs, ih (List.cons_ne_nil t names) hnames]

theorem named_of_parts {path : Path} {names : List String}
    (h : path.parts = names.map Part.name) :
    (path.segments.map Part.ofSegment).filter (· != .here) = names.map Part.name := by
  unfold parts at h
  dsimp only at h
  split at h
  · cases names <;> cases h
  · split at h
    · cases names <;> cases h
    · exact h

end Path

namespace FileTree

/-! ## Names -/

/-- A name that something in a directory can have: a segment that is no step. -/
def IsName (s : String) : Prop := Path.IsSegment s ∧ s ≠ "." ∧ s ≠ ".."

def AreNames (location : Location) : Prop := ∀ s ∈ location, IsName s

theorem AreNames.stepTo {location : Location} (h : AreNames location) {segment : String}
    (hsegment : Path.IsSegment segment) : AreNames (FileTree.stepTo location segment) := by
  unfold FileTree.stepTo
  split
  case isTrue => exact h
  case isFalse hdot =>
    split
    case isTrue => exact fun s hs => h s ((List.dropLast_sublist location).subset hs)
    case isFalse hdots =>
      exact List.forall_mem_append.mpr ⟨h, List.forall_mem_singleton.mpr ⟨hsegment, hdot, hdots⟩⟩

theorem isSegment_of_mem_steps {path : Path} {s : String} (h : s ∈ steps path) :
    Path.IsSegment s := by
  rcases List.mem_append.mp h with h | h
  · exact Path.isSegment_of_mem h
  · have hdot : s = "." := by
      split at h
      · exact List.mem_singleton.mp h
      · cases h
    rw [hdot]
    exact ⟨by decide, by decide⟩

theorem parts_pathOf {location : Location} (h : AreNames location) :
    (pathOf location).parts = location.map Path.Part.name := by
  cases location with
  | nil => rfl
  | cons name location =>
    have hsplit : Path.splitSlashes (pathOf (name :: location)).text.toList =
        (name :: location).map String.toList := by
      unfold pathOf
      rw [String.toList_intercalate]
      refine Path.splitSlashes_intercalate (by simp) fun s hs => ?_
      obtain ⟨segment, hsegment, rfl⟩ := List.mem_map.mp hs
      exact (h segment hsegment).1.2
    have hnonempty : ∀ s ∈ (name :: location).map String.toList, (!s.isEmpty) = true := by
      intro s hs
      obtain ⟨segment, hsegment, rfl⟩ := List.mem_map.mp hs
      simpa using (h segment hsegment).1.1
    have hsegments : (pathOf (name :: location)).segments = name :: location := by
      unfold Path.segments
      rw [hsplit, List.filter_eq_self.mpr hnonempty]
      simp
    have hrelative : (pathOf (name :: location)).isAbsolute = false := by
      unfold Path.isAbsolute
      rw [decide_eq_false_iff_not]
      intro habsolute
      obtain ⟨rest, hrest⟩ := List.head?_eq_some_iff.mp habsolute
      rw [hrest] at hsplit
      have hname : [] = name.toList := (List.cons.inj hsplit).1
      exact (h name List.mem_cons_self).1.1 (by simpa using hname.symm)
    have hparts : ∀ s ∈ name :: location, Path.Part.ofSegment s = .name s := by
      intro s hs
      obtain ⟨-, hdot, hdots⟩ := h s hs
      simp [Path.Part.ofSegment, hdot, hdots]
    have hmap : (name :: location).map Path.Part.ofSegment =
        (name :: location).map Path.Part.name := List.map_congr_left hparts
    unfold Path.parts
    rw [hsegments, hmap, hrelative]
    simp

/-! ## Following segments -/

/-- The directories that segments are followed through from a location. -/
def passed (location : Location) : List String → List Location
  | [] => []
  | segment :: rest => location :: passed (stepTo location segment) rest

def isDirectory (tree : FileTree) (location : Location) : Bool :=
  match tree.node? location with
  | some .directory => true
  | _ => false

section

variable {tree later : FileTree} {location target : Location} {segments : List String}
  {path : Path}

theorem target_of_follow (h : tree.follow location segments = .ok target) :
    target = segments.foldl stepTo location := by
  induction segments generalizing location with
  | nil =>
    unfold follow at h
    split at h <;> cases h
    rfl
  | cons segment rest ih =>
    unfold follow at h
    split at h
    · exact ih h
    · cases h
    · cases h

theorem follow_kept (hkept : ∀ d ∈ passed location segments, later.isDirectory d = true) :
    later.follow location segments =
      if (later.node? (segments.foldl stepTo location)).isSome then
        .ok (segments.foldl stepTo location)
      else .error .notFound := by
  induction segments generalizing location with
  | nil =>
    unfold follow
    rw [List.foldl_nil]
    cases later.node? location <;> rfl
  | cons segment rest ih =>
    obtain ⟨hhere, hrest⟩ := List.forall_mem_cons.mp hkept
    unfold isDirectory at hhere
    unfold follow
    split at hhere
    case h_1 hnode =>
      rw [hnode]
      exact ih hrest
    case h_2 => cases hhere

theorem target_of_locate (h : tree.locate path = .ok location) :
    location = (steps path).foldl stepTo [] := by
  unfold locate at h
  split at h
  · cases h
  · exact target_of_follow h

theorem locate_kept (h : tree.locate path = .ok location)
    (hkept : ∀ d ∈ passed [] (steps path), later.isDirectory d = true) :
    later.locate path =
      if (later.node? location).isSome then .ok location else .error .notFound := by
  rw [target_of_locate h, ← follow_kept hkept]
  unfold locate at h ⊢
  split at h
  · cases h
  · next hempty => rw [if_neg hempty]

theorem areNames_of_locate (h : tree.locate path = .ok location) : AreNames location := by
  rw [target_of_locate h]
  refine List.foldlRecOn _ _ (by simp [AreNames]) fun location hlocation segment hsegment => ?_
  exact hlocation.stepTo (isSegment_of_mem_steps hsegment)

theorem foldl_stepTo {names : List String}
    (h : (segments.map Path.Part.ofSegment).filter (· != .here) = names.map Path.Part.name)
    (location : Location) : segments.foldl stepTo location = location ++ names := by
  induction segments generalizing names location with
  | nil =>
    cases names with
    | nil => exact (List.append_nil location).symm
    | cons => cases h
  | cons segment rest ih =>
    rw [List.map_cons] at h
    rw [List.foldl_cons]
    by_cases hdot : segment = "."
    · have hpart : Path.Part.ofSegment segment = .here := if_pos hdot
      have hstep : stepTo location segment = location := if_pos hdot
      rw [hpart] at h
      rw [hstep, ih h]
    · by_cases hdots : segment = ".."
      · have hpart : Path.Part.ofSegment segment = .parent := (if_neg hdot).trans (if_pos hdots)
        rw [hpart] at h
        cases names <;> cases h
      · have hpart : Path.Part.ofSegment segment = .name segment :=
          (if_neg hdot).trans (if_neg hdots)
        have hstep : stepTo location segment = location ++ [segment] :=
          (if_neg hdot).trans (if_neg hdots)
        rw [hpart] at h
        cases names with
        | nil => cases h
        | cons name names =>
          obtain ⟨hname, hrest⟩ := List.cons.inj h
          rw [hstep, ih hrest, Path.Part.name.inj hname, List.append_assoc]
          rfl

theorem eq_of_same_pathOf (h : tree.locate path = .ok target) (hnames : AreNames location)
    (hsame : path.same (pathOf location) = true) : target = location := by
  have hparts : path.parts = location.map Path.Part.name :=
    (beq_iff_eq.mp hsame).trans (parts_pathOf hnames)
  have hslash : (steps path).foldl stepTo [] = path.segments.foldl stepTo [] := by
    unfold steps
    rw [List.foldl_append]
    split <;> rfl
  rw [target_of_locate h, hslash, foldl_stepTo (Path.named_of_parts hparts), List.nil_append]

end

end FileTree

end ClassStyle
