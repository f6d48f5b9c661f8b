import ClassStyle.Proofs.Statements

/-!
# Behind malformed chunks

A block is written as chunks with semicolons between them. A chunk that is no declaration says
nothing, and the next one is read as if it were not there, with one exception: a name that stands
alone takes its semicolon with it, so the chunk behind it is skipped as well
(`blockRule_joined`).
-/

namespace ClassStyle.Css

open Component

/-! ## Chunks as they are written -/

/-- A chunk leaves nothing open, and has no semicolon and no closing curly bracket outside its
blocks. -/
structure IsChunk (text : List Char) : Prop where
  closed : Closed text
  no_semicolon : ∀ c ∈ components text, c.isLeaf .semicolon = false
  no_closing : hasClosingCurly text = false

def startsWithName (cs : List Component) : Bool :=
  (significant cs).head?.any fun c => c.ident?.isSome

/-- A name and a colon come first. -/
def declares (cs : List Component) : Bool :=
  startsWithName cs && (significant cs).tail.head?.any (isLeaf .colon)

/-- There is a name and nothing else. -/
def isName (cs : List Component) : Bool := startsWithName cs && (significant cs).tail.isEmpty

def isDeclaration (text : List Char) : Bool := declares (components text)

def isLoneName (text : List Char) : Bool := isName (components text)

/-- The text of a block, with semicolons between its chunks. -/
def joined (chunks : List (List Char)) : List Char := [';'].intercalate chunks

def Chunk.isDeclared : Chunk → Bool
  | declared .. => true
  | _ => false

/-- The declarations that are read from the text of a block. -/
def declaredIn (text : List Char) : List Chunk :=
  (chunks (components text)).filter Chunk.isDeclared

/-! ## Reading a chunk -/

section

variable {cs : List Component} (rest : List Component)

theorem chunksFrom_skipping (h : ∀ c ∈ cs, c.isLeaf .semicolon = false) :
    chunksFrom .skipping cs = [] ∧
    chunksFrom .skipping (cs ++ .leaf semicolon :: rest) = chunksFrom .between rest := by
  induction cs with
  | nil => exact ⟨rfl, rfl⟩
  | cons c cs ih =>
    obtain ⟨hc, h⟩ := List.forall_mem_cons.mp h
    simp only [List.cons_append, chunksFrom, hc]
    exact ih h

theorem chunksFrom_inValue (h : ∀ c ∈ cs, c.isLeaf .semicolon = false) (name : String)
    (read : List Component) :
    chunksFrom (.inValue name read) cs = [.declared name (sourceAll (read.reverse ++ cs))] ∧
    chunksFrom (.inValue name read) (cs ++ .leaf semicolon :: rest) =
      .declared name (sourceAll (read.reverse ++ cs)) :: chunksFrom .between rest := by
  induction cs generalizing read with
  | nil => simp [chunksFrom, isLeaf, semicolon]
  | cons c cs ih =>
    obtain ⟨hc, h⟩ := List.forall_mem_cons.mp h
    have hread := ih h (c :: read)
    rw [List.reverse_cons, List.append_assoc] at hread
    simp only [List.cons_append, chunksFrom, hc]
    exact hread

theorem chunksFrom_behindName (h : ∀ c ∈ cs, c.isLeaf .semicolon = false) (name : String) :
    ∃ chunk, chunksFrom (.behindName name) cs = [chunk] ∧
      chunk.isDeclared = ((significant cs).head?.any (isLeaf .colon)) ∧
      chunksFrom (.behindName name) (cs ++ .leaf semicolon :: rest) =
        chunk :: chunksFrom (if (significant cs).isEmpty then .skipping else .between) rest := by
  induction cs with
  | nil => exact ⟨.colonless name, rfl, rfl, rfl⟩
  | cons c cs ih =>
    obtain ⟨-, h⟩ := List.forall_mem_cons.mp h
    cases hc : c.isSeparator with
    | true =>
      simp only [significant_cons_of_isSeparator hc, List.cons_append, chunksFrom, hc, if_true]
      exact ih h
    | false =>
      simp only [significant_cons_of_not_isSeparator hc, List.cons_append, chunksFrom, hc,
        Bool.false_eq_true, if_false, List.head?_cons, Option.any_some, List.isEmpty_cons]
      cases hcolon : c.isLeaf .colon with
      | true =>
        obtain ⟨hend, hmore⟩ := chunksFrom_inValue rest h name []
        exact ⟨_, hend, rfl, hmore⟩
      | false =>
        obtain ⟨hend, hmore⟩ := chunksFrom_skipping rest h
        refine ⟨.colonless name, ?_, rfl, ?_⟩
        · simp [hend]
        · simp [hmore]

/-- A chunk makes at most one declaration, and only a lone name reaches over its semicolon. -/
theorem chunksFrom_between (h : ∀ c ∈ cs, c.isLeaf .semicolon = false) :
    ((chunksFrom .between cs).filter Chunk.isDeclared).length = (if declares cs then 1 else 0) ∧
    chunksFrom .between (cs ++ .leaf semicolon :: rest) =
      chunksFrom .between cs ++ chunksFrom (if isName cs then .skipping else .between) rest := by
  induction cs with
  | nil => exact ⟨rfl, rfl⟩
  | cons c cs ih =>
    obtain ⟨hc', h⟩ := List.forall_mem_cons.mp h
    cases hc : c.isSeparator with
    | true =>
      simp only [declares, isName, startsWithName, significant_cons_of_isSeparator hc,
        List.cons_append, chunksFrom, hc, Bool.true_or, if_true]
      exact ih h
    | false =>
      simp only [declares, isName, startsWithName, significant_cons_of_not_isSeparator hc,
        List.cons_append, chunksFrom, hc, hc', Bool.or_false, Bool.false_eq_true, if_false,
        List.head?_cons, List.tail_cons, Option.any_some]
      cases hname : c.ident? with
      | none =>
        obtain ⟨hend, hmore⟩ := chunksFrom_skipping rest h
        simp only [hend, hmore]
        exact ⟨rfl, rfl⟩
      | some name =>
        obtain ⟨chunk, hend, hdeclared, hmore⟩ := chunksFrom_behindName rest h name
        simp only [hend, hmore, Option.isSome_some, Bool.true_and, ← hdeclared]
        refine ⟨?_, rfl⟩
        cases hd : chunk.isDeclared <;> simp [hd]

end

/-! ## Reading a block -/

theorem joined_cons_cons (t u : List Char) (ts : List (List Char)) :
    joined (t :: u :: ts) = t ++ ';' :: joined (u :: ts) := by
  simp [joined, List.intercalate]

theorem components_joined {t u : List Char} {ts : List (List Char)} (h : IsChunk t) :
    components (joined (t :: u :: ts)) =
      components t ++ .leaf semicolon :: components (joined (u :: ts)) := by
  rw [joined_cons_cons, components_append h.closed (by decide) (by decide),
    components_semicolon]

theorem length_declaredIn {t : List Char} (h : IsChunk t) :
    (declaredIn t).length = if isDeclaration t then 1 else 0 :=
  (chunksFrom_between [] h.no_semicolon).1

theorem declaredIn_of_not {t : List Char} (h : IsChunk t) (hd : isDeclaration t = false) :
    declaredIn t = [] :=
  List.length_eq_zero_iff.mp (by rw [length_declaredIn h, hd]; rfl)

theorem not_isLoneName {t : List Char} (h : isDeclaration t = true) : isLoneName t = false := by
  simp only [isDeclaration, declares, isLoneName, isName, Bool.and_eq_true] at h ⊢
  cases hs : (significant (components t)).tail with
  | nil => simp [hs] at h
  | cons c cs => simp

/-- The declarations that count, with the first chunk skipped or not. -/
def keptFrom : Bool → List (List Char) → List (List Char)
  | _, [] => []
  | true, _ :: rest => keptFrom false rest
  | false, t :: rest =>
    if isDeclaration t then t :: keptFrom false rest else keptFrom (isLoneName t) rest

/-- The chunks that a lone name takes along, with the first chunk skipped or not. -/
def swallowedFrom : Bool → List (List Char) → List (List Char)
  | _, [] => []
  | true, t :: rest => t :: swallowedFrom false rest
  | false, t :: rest => swallowedFrom (isLoneName t) rest

def kept (chunks : List (List Char)) : List (List Char) := keptFrom false chunks

def swallowed (chunks : List (List Char)) : List (List Char) := swallowedFrom false chunks

theorem filter_chunksFrom_joined {ts : List (List Char)} (h : ∀ t ∈ ts, IsChunk t)
    (skip : Bool) :
    (chunksFrom (if skip then .skipping else .between) (components (joined ts))).filter
      Chunk.isDeclared = (keptFrom skip ts).flatMap declaredIn := by
  induction ts generalizing skip with
  | nil => cases skip <;> rfl
  | cons t ts ih =>
    obtain ⟨ht, h⟩ := List.forall_mem_cons.mp h
    have hskip := chunksFrom_skipping (components (joined ts)) ht.no_semicolon
    have hread := chunksFrom_between (components (joined ts)) ht.no_semicolon
    -- A declaration is kept, and what is no declaration adds none.
    have hkept : (if isDeclaration t then t :: keptFrom false ts
        else keptFrom (isLoneName t) ts).flatMap declaredIn =
          declaredIn t ++ (keptFrom (isLoneName t) ts).flatMap declaredIn := by
      cases hd : isDeclaration t with
      | true => simp [not_isLoneName hd]
      | false => simp [declaredIn_of_not ht hd]
    cases ts with
    | nil =>
      cases skip with
      | true => simp [joined, hskip.1, keptFrom]
      | false =>
        rw [keptFrom, hkept]
        simp [joined, keptFrom, declaredIn, chunks]
    | cons u ts =>
      rw [components_joined ht]
      cases skip with
      | true => simp only [if_true, hskip.2, keptFrom]; exact ih h false
      | false =>
        rw [keptFrom, hkept, ← ih h (isLoneName t)]
        simp only [Bool.false_eq_true, if_false, hread.2, List.filter_append]
        rfl

theorem declaredIn_joined {ts : List (List Char)} (h : ∀ t ∈ ts, IsChunk t) :
    declaredIn (joined ts) = (kept ts).flatMap declaredIn :=
  filter_chunksFrom_joined h false

/-! ## What a malformed chunk costs -/

theorem filterMap_chunks {β : Type} {f : Chunk → Option β}
    (hf : ∀ c, c.isDeclared = false → f c = none) (text : List Char) :
    (chunks (components text)).filterMap f = (declaredIn text).filterMap f := by
  unfold declaredIn
  induction chunks (components text) with
  | nil => rfl
  | cons c cs ih =>
    cases hc : c.isDeclared with
    | true => rw [List.filter_cons_of_pos hc, List.filterMap_cons, List.filterMap_cons, ih]
    | false =>
      rw [List.filter_cons_of_neg (by simp [hc]), List.filterMap_cons_none (hf c hc), ih]

/-- The rule that chunks make. -/
def ruleOf (cs : List Chunk) : Rule :=
  ⟨customOf cs, .ofList ((writtenDeclarations cs).flatMap fun d => entriesOf d.1 d.2)⟩

theorem blockRule_eq (text : List Char) : blockRule text = ruleOf (declaredIn text) := by
  have hcustom : ∀ c : Chunk, c.isDeclared = false → c.custom? = none := by
    intro c hc
    cases c <;> simp_all [Chunk.isDeclared, Chunk.custom?]
  have hdeclaration : ∀ c : Chunk, c.isDeclared = false → c.declaration? = none := by
    intro c hc
    cases c <;> simp_all [Chunk.isDeclared, Chunk.declaration?]
  simp only [blockRule, ruleOf, readBlock, writtenDeclarations, customOf,
    filterMap_chunks hcustom, filterMap_chunks hdeclaration]

theorem blockRule_congr {a b : List Char} (h : declaredIn a = declaredIn b) :
    blockRule a = blockRule b := by
  rw [blockRule_eq, blockRule_eq, h]

theorem keptFrom_filter (ts : List (List Char)) :
    keptFrom false (ts.filter isDeclaration) = ts.filter isDeclaration := by
  induction ts with
  | nil => rfl
  | cons t ts ih =>
    cases ht : isDeclaration t with
    | false => simpa [ht] using ih
    | true => simpa [ht, keptFrom] using ih

theorem declaredIn_joined_filter {ts : List (List Char)} (h : ∀ t ∈ ts, IsChunk t) :
    declaredIn (joined (ts.filter isDeclaration)) =
      (ts.filter isDeclaration).flatMap declaredIn := by
  rw [declaredIn_joined fun t ht => h t (List.mem_filter.mp ht).1, kept, keptFrom_filter]

theorem isDeclaration_of_mem_keptFrom {t : List Char} {skip : Bool} {ts : List (List Char)}
    (h : t ∈ keptFrom skip ts) : t ∈ ts ∧ isDeclaration t = true := by
  induction ts generalizing skip with
  | nil => cases skip <;> simp [keptFrom] at h
  | cons u ts ih =>
    cases skip with
    | true =>
      obtain ⟨hmem, hd⟩ := ih h
      exact ⟨List.mem_cons_of_mem _ hmem, hd⟩
    | false =>
      rw [keptFrom] at h
      split at h
      · next hu =>
        rcases List.mem_cons.mp h with rfl | h
        · exact ⟨List.mem_cons_self, hu⟩
        · exact ⟨List.mem_cons_of_mem _ (ih h).1, (ih h).2⟩
      · exact ⟨List.mem_cons_of_mem _ (ih h).1, (ih h).2⟩

theorem length_filter_isDeclaration (skip : Bool) (ts : List (List Char)) :
    (ts.filter isDeclaration).length =
      (keptFrom skip ts).length + ((swallowedFrom skip ts).filter isDeclaration).length := by
  induction ts generalizing skip with
  | nil => cases skip <;> rfl
  | cons t ts ih =>
    cases skip with
    | true =>
      have hrest := ih false
      cases ht : isDeclaration t <;> simp [keptFrom, swallowedFrom, ht] <;> omega
    | false =>
      cases ht : isDeclaration t with
      | true =>
        have hrest := ih false
        simp [keptFrom, swallowedFrom, ht, not_isLoneName ht]
        omega
      | false =>
        have hrest := ih (isLoneName t)
        simp [keptFrom, swallowedFrom, ht]
        omega

theorem keptFrom_of_forall_swallowedFrom {skip : Bool} {ts : List (List Char)}
    (h : ∀ t ∈ swallowedFrom skip ts, isDeclaration t = false) :
    keptFrom skip ts = ts.filter isDeclaration := by
  induction ts generalizing skip with
  | nil => cases skip <;> rfl
  | cons t ts ih =>
    cases skip with
    | true =>
      obtain ⟨ht, h⟩ := List.forall_mem_cons.mp h
      rw [keptFrom, List.filter_cons_of_neg (by simp [ht]), ih h]
    | false =>
      cases ht : isDeclaration t with
      | true =>
        rw [swallowedFrom, not_isLoneName ht] at h
        rw [keptFrom, if_pos ht, List.filter_cons_of_pos ht, ih h]
      | false =>
        rw [keptFrom, if_neg (by simp [ht]), List.filter_cons_of_neg (by simp [ht]), ih h]

theorem length_flatMap_declaredIn {ts : List (List Char)} (h : ∀ t ∈ ts, IsChunk t)
    (hd : ∀ t ∈ ts, isDeclaration t = true) : (ts.flatMap declaredIn).length = ts.length := by
  induction ts with
  | nil => rfl
  | cons t ts ih =>
    obtain ⟨ht, h⟩ := List.forall_mem_cons.mp h
    obtain ⟨htd, hd⟩ := List.forall_mem_cons.mp hd
    rw [List.flatMap_cons, List.length_append, length_declaredIn ht, if_pos htd, ih h hd]
    simp [Nat.add_comm]

/-- The malformed chunks of a block cost only themselves just when no lone name swallows a
declaration. What is swallowed says nothing, and nothing else is lost. -/
theorem blockRule_joined (ts : List (List Char)) (h : ∀ t ∈ ts, IsChunk t) :
    blockRule (joined ts) = blockRule (joined (kept ts)) ∧
    (declaredIn (joined ts) = declaredIn (joined (ts.filter isDeclaration)) ↔
      ∀ t ∈ swallowed ts, isDeclaration t = false) ∧
    ((∀ t ∈ swallowed ts, isDeclaration t = false) →
      blockRule (joined ts) = blockRule (joined (ts.filter isDeclaration))) := by
  have hkept : ∀ t ∈ kept ts, IsChunk t ∧ isDeclaration t = true := fun t ht =>
    have hmem := isDeclaration_of_mem_keptFrom ht
    ⟨h t hmem.1, hmem.2⟩
  have hself : kept (kept ts) = kept ts := by
    have hfilter : (kept ts).filter isDeclaration = kept ts :=
      List.filter_eq_self.mpr fun t ht => (hkept t ht).2
    rw [kept, ← hfilter, keptFrom_filter]
  have hiff : declaredIn (joined ts) = declaredIn (joined (ts.filter isDeclaration)) ↔
      ∀ t ∈ swallowed ts, isDeclaration t = false := by
    rw [declaredIn_joined h, declaredIn_joined_filter h]
    constructor
    · intro heq
      -- Counting is enough: each declaration is read once or swallowed.
      have hlength := congrArg List.length heq
      rw [length_flatMap_declaredIn (fun t ht => (hkept t ht).1) fun t ht => (hkept t ht).2,
        length_flatMap_declaredIn (fun t ht => h t (List.mem_filter.mp ht).1) fun t ht =>
          (List.mem_filter.mp ht).2,
        length_filter_isDeclaration false] at hlength
      have hnone : ((swallowed ts).filter isDeclaration).length = 0 := by
        rw [kept] at hlength
        rw [swallowed]
        omega
      simpa using List.filter_eq_nil_iff.mp (List.length_eq_zero_iff.mp hnone)
    · intro hnone
      rw [kept, keptFrom_of_forall_swallowedFrom hnone]
  refine ⟨blockRule_congr ?_, hiff, fun hnone => blockRule_congr (hiff.mpr hnone)⟩
  rw [declaredIn_joined h, declaredIn_joined fun t ht => (hkept t ht).1, hself]

theorem isChunk_name : IsChunk ['w'] :=
  ⟨by decide +kernel, by decide +kernel, by decide +kernel⟩

theorem isChunk_colon : IsChunk [':', 'w'] :=
  ⟨by decide +kernel, by decide +kernel, by decide +kernel⟩

theorem isChunk_declaration : IsChunk ['h', ':', 'x'] :=
  ⟨by decide +kernel, by decide +kernel, by decide +kernel⟩

/-- A nameless chunk costs itself alone, whatever stands behind it. -/
theorem blockRule_joined_nameless :
    (∀ t ∈ [[':', 'w'], ['h', ':', 'x']], IsChunk t) ∧
    (∀ t ∈ swallowed [[':', 'w'], ['h', ':', 'x']], isDeclaration t = false) ∧
    blockRule (joined [[':', 'w'], ['h', ':', 'x']]) = blockRule ['h', ':', 'x'] := by
  have hchunks : ∀ t ∈ [[':', 'w'], ['h', ':', 'x']], IsChunk t := by
    simp [isChunk_colon, isChunk_declaration]
  have hswallowed :
      ∀ t ∈ swallowed [[':', 'w'], ['h', ':', 'x']], isDeclaration t = false := by
    decide +kernel
  refine ⟨hchunks, hswallowed, ?_⟩
  have hrule := (blockRule_joined [[':', 'w'], ['h', ':', 'x']] hchunks).2.2 hswallowed
  have hfilter : [[':', 'w'], ['h', ':', 'x']].filter isDeclaration = [['h', ':', 'x']] := by
    decide +kernel
  rw [hrule, hfilter]
  rfl

/-- A lone name costs the declaration behind it. -/
theorem blockRule_joined_lone_name :
    (∀ t ∈ [['w'], ['h', ':', 'x']], IsChunk t) ∧
    blockRule (joined [['w'], ['h', ':', 'x']]) ≠
      blockRule (joined ([['w'], ['h', ':', 'x']].filter isDeclaration)) := by
  refine ⟨by simp [isChunk_name, isChunk_declaration], ?_⟩
  decide +kernel

end ClassStyle.Css
