import ClassStyle.Css.Stylesheet
import ClassStyle.Proofs.Nesting

/-!
# A cursor over tokens

A stylesheet can also be read by a cursor that takes one token after another and looks at a part of
the text at a time, up to some delimiters. A token that opens a block leaves the block to be read or
to be passed over. What loops over tokens moves the cursor on with each pass, so it comes to an end.
-/

namespace ClassStyle.Css

/-! ## Delimiters and blocks -/

/-- What ends a part of a text that is read by itself. -/
inductive Delimiter where
  | comma
  | semicolon
  | openingCurly
  | closing (bracket : Bracket)
  deriving DecidableEq, Inhabited

def Delimiter.token : Delimiter → Token
  | comma => .comma
  | semicolon => .semicolon
  | openingCurly => .opening .curly
  | closing bracket => .closing bracket

namespace Token

def endsPart (delimiters : List Delimiter) (t : Token) : Bool :=
  delimiters.any fun d => t = d.token

def ident? : Token → Option String
  | ident name => some name
  | _ => none

def atKeyword? : Token → Option String
  | atKeyword name => some name
  | _ => none

/-- The blocks that are open behind a token, the innermost one first. -/
def nestedIn (opened : List Bracket) (t : Token) : List Bracket :=
  match t.opens? with
  | some bracket => bracket :: opened
  | none =>
    match opened with
    | [] => []
    | bracket :: outer => if t.closes? = some bracket then outer else bracket :: outer

end Token

/-- What is behind the end of some open blocks, the innermost one first. -/
def leave : List Bracket → List Lexeme → List Lexeme
  | [], ls => ls
  | _ :: _, [] => []
  | bracket :: outer, l :: ls => leave (l.token.nestedIn (bracket :: outer)) ls

/-- What is left from the first delimiter on that stands outside all blocks. -/
def seek (delimiters : List Delimiter) : List Bracket → List Lexeme → List Lexeme
  | _, [] => []
  | opened, l :: ls =>
    if opened = [] ∧ l.token.endsPart delimiters then l :: ls
    else seek delimiters (l.token.nestedIn opened) ls

/-! ## Cursors -/

/-- A place between two tokens. The token in front of it may have opened a block. -/
structure Cursor where
  rest : List Lexeme
  entered : Option Bracket
  deriving DecidableEq, Inhabited

namespace Cursor

/-- The lexemes behind the block that was entered, if it is not read. -/
def settled (c : Cursor) : List Lexeme := leave c.entered.toList c.rest

/-- The cursor behind the tokens of some kind that stand at it. -/
def behind (p : Token → Bool) (c : Cursor) : Cursor :=
  ⟨c.settled.dropWhile fun l => p l.token, none⟩

def skipBlanks (c : Cursor) : Cursor := c.behind Token.isSeparator

/-- Takes the token at the cursor, unless a delimiter or nothing at all stands there. -/
def take (delimiters : List Delimiter) (c : Cursor) : Option Token × Cursor :=
  match c.settled with
  | [] => (none, ⟨[], none⟩)
  | l :: ls =>
    if l.token.endsPart delimiters then (none, ⟨l :: ls, none⟩)
    else (some l.token, ⟨ls, l.token.opens?⟩)

/-- Takes the next token that means something. -/
def next (delimiters : List Delimiter) (c : Cursor) : Option Token × Cursor :=
  c.skipBlanks.take delimiters

/-- Takes the next token that is no comment. -/
def nextVisible (delimiters : List Delimiter) (c : Cursor) : Option Token × Cursor :=
  (c.behind fun t => t = .comment).take delimiters

def isExhausted (delimiters : List Delimiter) (c : Cursor) : Bool := (c.next delimiters).1.isNone

/-- The cursor behind a semicolon, if that comes next. -/
def semicolon? (delimiters : List Delimiter) (c : Cursor) : Option Cursor :=
  if (c.next delimiters).1 = some .semicolon then some (c.next delimiters).2 else none

/-- The text between two cursors. -/
def textTo (c last : Cursor) : List Char :=
  (c.rest.take (c.rest.length - last.rest.length)).flatMap Lexeme.source

/-- At least one token stands between a cursor and another one. -/
def IsBefore (c last : Cursor) : Prop := ∃ read, read ≠ [] ∧ c.rest = read ++ last.rest

end Cursor

/-! ## Passes and loops -/

/-- How a pass of a loop ends. -/
inductive Turn where
  | again
  | done
  | failed
  deriving DecidableEq, Inhabited

/-- What a pass gives, and the cursor behind it. -/
structure Pass (α : Type) where
  out : List α
  cursor : Cursor
  turn : Turn

/-- A reader of one part of a text, up to some delimiters. -/
abbrev Reader (α : Type) := List Delimiter → Cursor → Pass α

namespace Pass

variable {α : Type}

/-- The one result of a reader that did not fail. -/
def value? (p : Pass α) : Option α := if p.turn = .failed then none else p.out.head?

/-- A pass that starts at a cursor goes back nowhere, and it moves on if the loop does. -/
structure Moves (p : Pass α) (c : Cursor) : Prop where
  suffix : p.cursor.rest <:+ c.rest
  advances : p.turn = .again → p.cursor.rest.length < c.rest.length

end Pass

structure Loop (α : Type) where
  pass : Cursor → Pass α
  moves : ∀ c, (pass c).Moves c

namespace Loop

variable {α : Type}

/-- Passes until one leaves the loop. -/
def run (loop : Loop α) (c : Cursor) : Pass α :=
  if _ : (loop.pass c).turn = .again then
    let last := loop.run (loop.pass c).cursor
    { last with out := (loop.pass c).out ++ last.out }
  else loop.pass c
termination_by c.rest.length
decreasing_by exact (loop.moves c).advances ‹_›

/-- A loop ends behind a number of passes, each of which but the last one moves the cursor on. -/
inductive EndsIn (loop : Loop α) : Nat → Cursor → Pass α → Prop
  | last {c : Cursor} : (loop.pass c).turn ≠ .again → EndsIn loop 1 c (loop.pass c)
  | more {c : Cursor} {n : Nat} {p : Pass α} : (loop.pass c).turn = .again →
      c.IsBefore (loop.pass c).cursor → EndsIn loop n (loop.pass c).cursor p →
      EndsIn loop (n + 1) c { p with out := (loop.pass c).out ++ p.out }

end Loop

/-! ## Nothing is read twice -/

theorem leave_suffix (opened : List Bracket) (ls : List Lexeme) : leave opened ls <:+ ls := by
  induction ls generalizing opened with
  | nil => cases opened <;> exact List.suffix_rfl
  | cons l ls ih =>
    cases opened with
    | nil => exact List.suffix_rfl
    | cons bracket outer => exact (ih _).trans (List.suffix_cons l ls)

theorem seek_suffix (delimiters : List Delimiter) (opened : List Bracket) (ls : List Lexeme) :
    seek delimiters opened ls <:+ ls := by
  induction ls generalizing opened with
  | nil => exact List.suffix_rfl
  | cons l ls ih =>
    rw [seek]
    split
    · exact List.suffix_rfl
    · exact (ih _).trans (List.suffix_cons l ls)

namespace Cursor

variable {c last : Cursor} {delimiters : List Delimiter}

theorem isBefore_of_suffix (h : last.rest <:+ c.rest)
    (hlength : last.rest.length < c.rest.length) : c.IsBefore last := by
  obtain ⟨read, hread⟩ := h
  refine ⟨read, ?_, hread.symm⟩
  rintro rfl
  rw [← hread] at hlength
  exact Nat.lt_irrefl _ hlength

theorem settled_suffix (c : Cursor) : c.settled <:+ c.rest := leave_suffix _ _

theorem behind_suffix (p : Token → Bool) (c : Cursor) : (c.behind p).rest <:+ c.rest :=
  (List.dropWhile_suffix _).trans c.settled_suffix

theorem skipBlanks_suffix (c : Cursor) : c.skipBlanks.rest <:+ c.rest := c.behind_suffix _

theorem take_suffix (delimiters : List Delimiter) (c : Cursor) :
    (c.take delimiters).2.rest <:+ c.rest := by
  have hsettled := c.settled_suffix
  unfold take
  cases hls : c.settled with
  | nil => exact List.nil_suffix
  | cons l ls =>
    rw [hls] at hsettled
    dsimp only
    split
    · exact hsettled
    · exact (List.suffix_cons l ls).trans hsettled

theorem length_take_lt (h : (c.take delimiters).1 ≠ none) :
    (c.take delimiters).2.rest.length < c.rest.length := by
  have hsettled := c.settled_suffix.length_le
  unfold take at h ⊢
  cases hls : c.settled with
  | nil => simp [hls] at h
  | cons l ls =>
    rw [hls] at h hsettled
    dsimp only at h ⊢
    split
    · next hends => simp [hends] at h
    · exact hsettled

theorem next_suffix (delimiters : List Delimiter) (c : Cursor) :
    (c.next delimiters).2.rest <:+ c.rest :=
  (take_suffix _ _).trans c.skipBlanks_suffix

theorem length_next_lt (h : (c.next delimiters).1 ≠ none) :
    (c.next delimiters).2.rest.length < c.rest.length :=
  Nat.lt_of_lt_of_le (length_take_lt h) c.skipBlanks_suffix.length_le

theorem next_nil_eq_none (h : (c.next []).1 = none) : (c.next []).2.rest = [] := by
  unfold next take at h ⊢
  cases hls : c.skipBlanks.settled with
  | nil => rfl
  | cons l ls => simp [hls, Token.endsPart] at h

theorem nextVisible_suffix (delimiters : List Delimiter) (c : Cursor) :
    (c.nextVisible delimiters).2.rest <:+ c.rest :=
  (take_suffix _ _).trans (c.behind_suffix _)

theorem next_of_semicolon? (h : c.semicolon? delimiters = some last) :
    (c.next delimiters).1 = some .semicolon ∧ (c.next delimiters).2 = last := by
  unfold semicolon? at h
  split at h
  · next hsemicolon => exact ⟨hsemicolon, Option.some.inj h⟩
  · cases h

theorem getD_semicolon?_suffix (delimiters : List Delimiter) (c : Cursor) :
    ((c.semicolon? delimiters).getD c).rest <:+ c.rest := by
  cases h : c.semicolon? delimiters with
  | none => exact List.suffix_rfl
  | some last =>
    obtain ⟨-, rfl⟩ := next_of_semicolon? h
    exact c.next_suffix delimiters

end Cursor

namespace Loop

variable {α : Type} (loop : Loop α) (c : Cursor)

theorem run_suffix : (loop.run c).cursor.rest <:+ c.rest := by
  induction c using run.induct loop with
  | case1 c h ih =>
    rw [run, dif_pos h]
    exact ih.trans (loop.moves c).suffix
  | case2 c h =>
    rw [run, dif_neg h]
    exact (loop.moves c).suffix

/-- A loop makes at most one pass more than tokens are left. -/
theorem exists_endsIn : ∃ n, n ≤ c.rest.length + 1 ∧ loop.EndsIn n c (loop.run c) := by
  induction c using run.induct loop with
  | case1 c h ih =>
    obtain ⟨n, hn, hends⟩ := ih
    have hmoves := loop.moves c
    have hlength := hmoves.advances h
    refine ⟨n + 1, by omega, ?_⟩
    rw [run, dif_pos h]
    exact .more h (Cursor.isBefore_of_suffix hmoves.suffix hlength) hends
  | case2 c h =>
    refine ⟨1, by omega, ?_⟩
    rw [run, dif_neg h]
    exact .last h

end Loop

/-! ## Parts of a text -/

section

variable {α : Type}

/-- A reader fails if it leaves something unread in front of the delimiters. -/
def Reader.entirely (reader : Reader α) (delimiters : List Delimiter) (c : Cursor) : Pass α :=
  let p := reader delimiters c
  if p.turn = .done ∧ p.cursor.isExhausted delimiters = false then { p with turn := .failed } else p

/-- Reads up to some more delimiters, and passes over what is left in front of them. -/
def Reader.untilBefore (reader : Reader α) (more delimiters : List Delimiter) (c : Cursor) :
    Pass α :=
  let p := reader.entirely (more ++ delimiters) c
  { p with cursor := ⟨seek (more ++ delimiters) [] p.cursor.settled, none⟩ }

/-- Reads up to some more delimiters, and takes the one that ends the part. -/
def Reader.untilAfter (reader : Reader α) (more delimiters : List Delimiter) (c : Cursor) :
    Pass α :=
  let p := reader.untilBefore more delimiters c
  match p.cursor.rest with
  | [] => p
  | l :: ls =>
    if l.token.endsPart delimiters then p
    else { p with cursor := ⟨if l.token = .opening .curly then leave [.curly] ls else ls, none⟩ }

/-- Reads the block that was entered, up to the bracket that closes it. -/
def Reader.nested (reader : Reader α) (bracket : Bracket) (c : Cursor) : Pass α :=
  let p := reader.entirely [.closing bracket] ⟨c.rest, none⟩
  { p with cursor := ⟨leave [bracket] p.cursor.settled, none⟩ }

variable {reader : Reader α}

theorem Reader.entirely_cursor (reader : Reader α) (delimiters : List Delimiter) (c : Cursor) :
    (reader.entirely delimiters c).cursor = (reader delimiters c).cursor := by
  unfold entirely
  dsimp only
  split <;> rfl

theorem Reader.untilBefore_suffix (h : ∀ ds c, (reader ds c).cursor.rest <:+ c.rest)
    (more delimiters : List Delimiter) (c : Cursor) :
    (reader.untilBefore more delimiters c).cursor.rest <:+ c.rest := by
  unfold untilBefore
  dsimp only
  rw [entirely_cursor]
  exact (seek_suffix _ _ _).trans ((Cursor.settled_suffix _).trans (h _ _))

theorem Reader.untilAfter_suffix (h : ∀ ds c, (reader ds c).cursor.rest <:+ c.rest)
    (more delimiters : List Delimiter) (c : Cursor) :
    (reader.untilAfter more delimiters c).cursor.rest <:+ c.rest := by
  have hbefore := untilBefore_suffix h more delimiters c
  unfold untilAfter
  dsimp only
  split
  · exact hbefore
  · next l ls hrest =>
    have hls : ls <:+ c.rest := by
      rw [hrest] at hbefore
      exact (List.suffix_cons l ls).trans hbefore
    split
    · exact hbefore
    · dsimp only
      split
      · exact (leave_suffix _ _).trans hls
      · exact hls

theorem Reader.nested_suffix (h : ∀ ds c, (reader ds c).cursor.rest <:+ c.rest)
    (bracket : Bracket) (c : Cursor) :
    (reader.nested bracket c).cursor.rest <:+ c.rest := by
  unfold nested
  dsimp only
  rw [entirely_cursor]
  exact (leave_suffix _ _).trans ((Cursor.settled_suffix _).trans (h _ _))

end

/-! ## Passing over tokens -/

/-- Takes tokens through one that ends it, or as long as there are some. -/
def skipping (ends : Token → Bool) (delimiters : List Delimiter) : Loop Empty where
  pass c :=
    let token := c.next delimiters
    ⟨[], token.2, if token.1.any fun t => !ends t then .again else .done⟩
  moves c :=
    { suffix := c.next_suffix delimiters
      advances := fun h => Cursor.length_next_lt fun hnone => by simp [hnone] at h }

def drained : Reader Empty := fun delimiters => (skipping (fun _ => false) delimiters).run

/-- Goes behind the semicolon or into the block that ends an at-rule. -/
def skipAtRule (c : Cursor) : Cursor :=
  ((skipping (fun t => t = .semicolon || t = .opening .curly) []).run c).cursor

/-- Goes into the block of a rule that is not read. -/
def skipToNextRule (c : Cursor) : Cursor :=
  ((skipping (fun t => t = .opening .curly) []).run c).cursor

/-- Goes behind the next semicolon. -/
def skipDeclaration (delimiters : List Delimiter) (c : Cursor) : Cursor :=
  (drained.untilAfter [.semicolon] delimiters c).cursor

theorem drained_suffix (delimiters : List Delimiter) (c : Cursor) :
    (drained delimiters c).cursor.rest <:+ c.rest := Loop.run_suffix _ c

theorem length_skipping_lt (ends : Token → Bool) {c : Cursor} (h : c.rest ≠ []) :
    ((skipping ends []).run c).cursor.rest.length < c.rest.length := by
  have hmoves := (skipping ends []).moves c
  by_cases hagain : ((skipping ends []).pass c).turn = .again
  · rw [Loop.run, dif_pos hagain]
    exact Nat.lt_of_le_of_lt ((skipping ends []).run_suffix _).length_le (hmoves.advances hagain)
  · rw [Loop.run, dif_neg hagain]
    show (c.next []).2.rest.length < c.rest.length
    by_cases hnone : (c.next []).1 = none
    · rw [Cursor.next_nil_eq_none hnone]
      exact List.length_pos_iff.mpr h
    · exact Cursor.length_next_lt hnone

theorem skipDeclaration_suffix (delimiters : List Delimiter) (c : Cursor) :
    (skipDeclaration delimiters c).rest <:+ c.rest :=
  Reader.untilAfter_suffix drained_suffix _ _ c

/-! ## Selectors -/

/-- Reads a selector that is one class. -/
def classSelector : Reader String := fun delimiters c =>
  let dot := c.next delimiters
  if dot.1 = some (.delimiter '.') then
    let name := dot.2.nextVisible delimiters
    match name.1.bind Token.ident? with
    | some className => ⟨[className], name.2, .done⟩
    | none => ⟨[], name.2, .failed⟩
  else ⟨[], dot.2, .failed⟩

theorem classSelector_suffix (delimiters : List Delimiter) (c : Cursor) :
    (classSelector delimiters c).cursor.rest <:+ c.rest := by
  have hdot := c.next_suffix delimiters
  unfold classSelector
  dsimp only
  split
  · split <;> exact (Cursor.nextVisible_suffix _ _).trans hdot
  · exact hdot

/-- The selectors of a list, each with its class if it is one. -/
def selectors (delimiters : List Delimiter) : Loop (Option String) where
  pass c :=
    let item := classSelector.untilBefore [.comma] delimiters c
    let comma := item.cursor.next delimiters
    ⟨[item.value?], comma.2, if comma.1 = some .comma then .again else .done⟩
  moves c :=
    have hitem := Reader.untilBefore_suffix classSelector_suffix [.comma] delimiters c
    { suffix := (Cursor.next_suffix _ _).trans hitem
      advances := fun h =>
        Nat.lt_of_lt_of_le (Cursor.length_next_lt fun hnone => by simp [hnone] at h)
          hitem.length_le }

def selectorList : Reader (Option String) := fun delimiters => (selectors delimiters).run

/-! ## Declarations -/

/-- Reads a value as it is written. -/
def valueText : Reader (List Char) := fun delimiters c =>
  let last := (drained delimiters c).cursor
  ⟨[c.textTo last], last, .done⟩

/-- Reads the value of a declaration, through the semicolon that ends it. -/
def valueOf (delimiters : List Delimiter) (name : String) (c : Cursor) : Pass Chunk :=
  let value := valueText.untilBefore [.semicolon] delimiters c
  match value.value? with
  | some text =>
    ⟨[.declared name text], (value.cursor.semicolon? delimiters).getD value.cursor, .again⟩
  | none => ⟨[], value.cursor, .failed⟩

/-- Reads a declaration behind its name, or passes over it if no colon stands there. -/
def declarationOf (delimiters : List Delimiter) (name : String) (c : Cursor) : Pass Chunk :=
  let colon := c.next delimiters
  if colon.1 = some .colon then valueOf delimiters name colon.2
  else ⟨[.colonless name], skipDeclaration delimiters colon.2, .again⟩

/-- Reads what comes next in a block, unless that is a semicolon. -/
def declaration (delimiters : List Delimiter) (c : Cursor) : Pass Chunk :=
  let first := c.next delimiters
  match first.1.bind Token.ident? with
  | some name => declarationOf delimiters name first.2
  | none => ⟨[.nameless], skipDeclaration delimiters first.2, .again⟩

theorem valueOf_suffix (delimiters : List Delimiter) (name : String) (c : Cursor) :
    (valueOf delimiters name c).cursor.rest <:+ c.rest := by
  have htext : ∀ ds c, (valueText ds c).cursor.rest <:+ c.rest := drained_suffix
  have hvalue := Reader.untilBefore_suffix htext [.semicolon] delimiters c
  unfold valueOf
  dsimp only
  split
  · exact (Cursor.getD_semicolon?_suffix _ _).trans hvalue
  · exact hvalue

theorem declarationOf_suffix (delimiters : List Delimiter) (name : String) (c : Cursor) :
    (declarationOf delimiters name c).cursor.rest <:+ c.rest := by
  have hcolon := c.next_suffix delimiters
  unfold declarationOf
  dsimp only
  split
  · exact (valueOf_suffix _ _ _).trans hcolon
  · exact (skipDeclaration_suffix _ _).trans hcolon

theorem declaration_suffix (delimiters : List Delimiter) (c : Cursor) :
    (declaration delimiters c).cursor.rest <:+ (c.next delimiters).2.rest := by
  unfold declaration
  dsimp only
  split
  · exact declarationOf_suffix _ _ _
  · exact skipDeclaration_suffix _ _

/-- The declarations of a block, and what is malformed between them. -/
def declarations (delimiters : List Delimiter) : Loop Chunk where
  pass start :=
    let c := start.skipBlanks
    if c.isExhausted delimiters then ⟨[], c, .done⟩
    else
      match c.semicolon? delimiters with
      | some last => ⟨[], last, .again⟩
      | none => declaration delimiters c
  moves start := by
    have hstart := start.skipBlanks_suffix
    have hnext := start.skipBlanks.next_suffix delimiters
    dsimp only
    split
    · exact ⟨hstart, fun h => by cases h⟩
    · next hmore =>
      have hlt : (start.skipBlanks.next delimiters).2.rest.length < start.rest.length :=
        Nat.lt_of_lt_of_le (Cursor.length_next_lt fun hnone => by
          simp [Cursor.isExhausted, hnone] at hmore) hstart.length_le
      split
      · next last h =>
        obtain ⟨-, rfl⟩ := Cursor.next_of_semicolon? h
        exact ⟨hnext.trans hstart, fun _ => hlt⟩
      · have hbehind := declaration_suffix delimiters start.skipBlanks
        exact ⟨hbehind.trans (hnext.trans hstart),
          fun _ => Nat.lt_of_le_of_lt hbehind.length_le hlt⟩

def chunkList : Reader Chunk := fun delimiters => (declarations delimiters).run

/-- The rule that the chunks of a block make, and what was noticed in reading them. -/
def readChunks (chunks : List Chunk) : Rule × List Notice :=
  let written := writtenDeclarations chunks
  (⟨customOf chunks, .ofList (written.flatMap fun d => entriesOf d.1 d.2)⟩,
    chunks.filterMap Chunk.notice? ++ written.flatMap fun d => noticesOf d.1 d.2)

/-! ## Rules and sheets -/

/-- Rules for classes, and what was noticed in reading them. -/
abbrev Entry := List (String × Rule) × List Notice

/-- Reads a rule. Without a block it fails. -/
def rule (c : Cursor) : Pass Entry :=
  let list := selectorList.untilBefore [.openingCurly] [] c
  let dropped := (list.out.filter Option.isNone).map fun _ => Notice.droppedSelector
  if list.turn = .failed then ⟨[([], dropped)], list.cursor, .failed⟩
  else
    let opening := list.cursor.next []
    if opening.1 = some (.opening .curly) then
      match list.out.reduceOption with
      | [] => ⟨[([], dropped ++ [.skippedUnclassedRule])], opening.2, .done⟩
      | classes =>
        let chunks := chunkList.nested .curly opening.2
        if chunks.turn = .failed then
          ⟨[([], dropped ++ chunks.out.filterMap Chunk.notice?)], chunks.cursor, .failed⟩
        else
          let (shared, notices) := readChunks chunks.out
          ⟨[(classes.map fun name => (name, shared), dropped ++ notices)], chunks.cursor, .done⟩
    else ⟨[([], dropped)], opening.2, .failed⟩

theorem selectorList_suffix (delimiters : List Delimiter) (c : Cursor) :
    (selectorList delimiters c).cursor.rest <:+ c.rest := Loop.run_suffix _ c

theorem chunkList_suffix (delimiters : List Delimiter) (c : Cursor) :
    (chunkList delimiters c).cursor.rest <:+ c.rest := Loop.run_suffix _ c

theorem rule_suffix (c : Cursor) : (rule c).cursor.rest <:+ c.rest := by
  have hlist := Reader.untilBefore_suffix selectorList_suffix [.openingCurly] [] c
  have hopening := (Cursor.next_suffix [] _).trans hlist
  unfold rule
  dsimp only
  split
  · exact hlist
  · split
    · split
      · exact hopening
      · have hchunks := (Reader.nested_suffix chunkList_suffix .curly _).trans hopening
        split <;> exact hchunks
    · exact hopening

theorem length_rule_lt {c : Cursor} (h : (rule c).turn ≠ .failed) :
    (rule c).cursor.rest.length < c.rest.length := by
  have hlist := Reader.untilBefore_suffix selectorList_suffix [.openingCurly] [] c
  revert h
  unfold rule
  dsimp only
  split
  · exact fun h => absurd rfl h
  · split
    · next hcurly =>
      have hopening := Nat.lt_of_lt_of_le (@Cursor.length_next_lt _ []
        (by rw [hcurly]; exact Option.some_ne_none _)) hlist.length_le
      split
      · exact fun _ => hopening
      · have hchunks := Nat.lt_of_le_of_lt
          (Reader.nested_suffix chunkList_suffix .curly _).length_le hopening
        split <;> exact fun _ => hchunks
    · exact fun h => absurd rfl h

/-- Reads a rule, or goes into the next block if the rule fails. -/
def ruleOrSkip (c : Cursor) : Pass Entry :=
  let entry := rule c
  if entry.turn = .failed then
    ⟨entry.out ++ [([], [.skippedRule])], skipToNextRule entry.cursor, .again⟩
  else ⟨entry.out, entry.cursor, .again⟩

theorem skipAtRule_suffix (c : Cursor) : (skipAtRule c).rest <:+ c.rest := Loop.run_suffix _ c

theorem skipToNextRule_suffix (c : Cursor) : (skipToNextRule c).rest <:+ c.rest :=
  Loop.run_suffix _ c

theorem ruleOrSkip_suffix (c : Cursor) : (ruleOrSkip c).cursor.rest <:+ c.rest := by
  have hrule := rule_suffix c
  unfold ruleOrSkip
  dsimp only
  split
  · exact (skipToNextRule_suffix _).trans hrule
  · exact hrule

theorem length_ruleOrSkip_lt {c : Cursor} (h : c.rest ≠ []) :
    (ruleOrSkip c).cursor.rest.length < c.rest.length := by
  have hrule := (rule_suffix c).length_le
  have hskip := skipToNextRule_suffix (rule c).cursor
  unfold ruleOrSkip
  dsimp only
  split
  · dsimp only
    by_cases hrest : (rule c).cursor.rest = []
    · rw [hrest] at hskip
      rw [List.suffix_nil.mp hskip]
      exact List.length_pos_iff.mpr h
    · exact Nat.lt_of_lt_of_le (length_skipping_lt _ hrest) hrule
  · next hdone => exact length_rule_lt hdone

/-- The at-rules and rules of a sheet. -/
def sheet : Loop Entry where
  pass start :=
    let c := start.skipBlanks
    if c.isExhausted [] then ⟨[], c, .done⟩
    else
      let first := c.next []
      match first.1.bind Token.atKeyword? with
      | some name => ⟨[([], [.skippedAtRule name])], skipAtRule first.2, .again⟩
      | none => ruleOrSkip c
  moves start := by
    have hstart := start.skipBlanks_suffix
    dsimp only
    split
    · exact ⟨hstart, fun h => by cases h⟩
    · next hmore =>
      have hnext := @Cursor.length_next_lt start.skipBlanks [] fun hnone => by
        simp [Cursor.isExhausted, hnone] at hmore
      split
      · have hskip := skipAtRule_suffix (start.skipBlanks.next []).2
        exact ⟨hskip.trans ((Cursor.next_suffix _ _).trans hstart), fun _ =>
          Nat.lt_of_le_of_lt hskip.length_le (Nat.lt_of_lt_of_le hnext hstart.length_le)⟩
      · exact ⟨(ruleOrSkip_suffix _).trans hstart, fun _ => Nat.lt_of_lt_of_le
          (length_ruleOrSkip_lt (List.length_pos_iff.mp (Nat.zero_lt_of_lt hnext)))
          hstart.length_le⟩

/-- The sheet of a text, read by a cursor. -/
def readTokens (text : List Char) : Logged Sheet :=
  let entries := (sheet.run ⟨lexemes text, none⟩).out
  { value := addRules .empty (entries.flatMap Prod.fst)
    records := (entries.flatMap Prod.snd).map Notice.record }

end ClassStyle.Css
