import Mathlib.Data.List.Perm.Basic
import ClassStyle.Proofs.UnknownProperties

/-!
# Custom properties anywhere in their block

The custom properties of a block are collected before any of its values is written. So it does not
matter where in its block a custom property is declared, as long as it follows those of its own
name as it did, and other blocks have no part in it (`blockRule_rearranged`).
-/

namespace ClassStyle

/-! ## Maps with the same look-ups -/

namespace SortedMap

variable {α : Type}

theorem lookup_of_mem {l : List (String × α)} (h : (l.map Prod.fst).Pairwise (· < ·))
    {entry : String × α} (hmem : entry ∈ l) : lookup entry.1 l = some entry.2 := by
  induction l with
  | nil => cases hmem
  | cons first rest ih =>
    obtain ⟨hfirst, hrest⟩ := List.pairwise_cons.mp h
    rcases List.mem_cons.mp hmem with rfl | hmem
    · exact if_pos rfl
    · have hlt := hfirst entry.1 (List.mem_map_of_mem hmem)
      rw [lookup, if_neg (ne_of_lt hlt), ih hrest hmem]

theorem ext_get? {a b : SortedMap α} (h : ∀ key, a.get? key = b.get? key) : a = b := by
  have hsub : ∀ {a b : SortedMap α}, (∀ key, a.get? key = b.get? key) →
      ∀ entry ∈ a.entries, entry ∈ b.entries := by
    intro a b h entry hentry
    have hget := h entry.1
    unfold get? at hget
    rw [lookup_of_mem a.ascending hentry] at hget
    exact mem_of_lookup hget.symm
  have hnodup : ∀ a : SortedMap α, a.entries.Nodup := fun a =>
    List.Pairwise.imp (fun hlt heq => by rw [heq] at hlt; exact lt_irrefl _ hlt)
      (List.pairwise_map.mp a.ascending)
  have hperm : a.entries.Perm b.entries :=
    (List.perm_ext_iff_of_nodup (hnodup a) (hnodup b)).mpr fun entry =>
      ⟨hsub h entry, hsub (fun key => (h key).symm) entry⟩
  refine ext_entries (List.Perm.eq_of_pairwise ?_ (List.pairwise_map.mp a.ascending)
    (List.pairwise_map.mp b.ascending) hperm)
  exact fun _ _ _ _ hlt hgt => absurd hgt (lt_asymm hlt)

theorem get?_ofList (pairs : List (String × α)) (key : String) :
    (ofList pairs).get? key =
      (pairs.filterMap fun pair => if pair.1 = key then some pair.2 else none).getLast? := by
  have hinsert : ∀ (m : SortedMap α) (pair : String × α),
      (m.insert pair.1 pair.2).get? key =
        ((if pair.1 = key then some pair.2 else none).map some).getD (m.get? key) := by
    intro m pair
    rw [get?_insert]
    split <;> rfl
  have hlast := foldl_last (fun m : SortedMap α => m.get? key) hinsert .empty pairs
  unfold ofList
  rw [hlast, ← List.map_filterMap, List.getLast?_map, get?_empty]
  cases (pairs.filterMap fun pair => if pair.1 = key then some pair.2 else none).getLast? <;> rfl

end SortedMap

namespace Css

open Component

/-! ## Properties of chunks -/

/-- The name of the property that a chunk declares. -/
def property? (text : List Char) : Option String :=
  if isDeclaration text then (significant (components text)).head?.bind Component.ident? else none

/-- The same chunks in another order, in which the ordinary declarations follow each other as they
did, and so do the custom properties of one name. -/
structure Rearranged (ts us : List (List Char)) : Prop where
  perm : us.Perm ts
  ordinary : (us.filter fun t => (property? t).any fun name => !isCustom name) =
    ts.filter fun t => (property? t).any fun name => !isCustom name
  custom : ∀ name, isCustom name = true →
    (us.filter fun t => property? t = some name) = ts.filter fun t => property? t = some name

section

variable {cs : List Component}

theorem chunksFrom_behindName_colon (h : ∀ c ∈ cs, c.isLeaf .semicolon = false)
    (hcolon : (significant cs).head?.any (isLeaf .colon) = true) (name : String) :
    ∃ value, chunksFrom (.behindName name) cs = [.declared name value] := by
  induction cs with
  | nil => cases hcolon
  | cons c cs ih =>
    obtain ⟨-, h⟩ := List.forall_mem_cons.mp h
    cases hc : c.isSeparator with
    | true =>
      rw [significant_cons_of_isSeparator hc] at hcolon
      rw [chunksFrom, if_pos hc]
      exact ih h hcolon
    | false =>
      rw [significant_cons_of_not_isSeparator hc, List.head?_cons, Option.any_some] at hcolon
      rw [chunksFrom, if_neg (by simp [hc]), if_pos hcolon]
      exact ⟨_, (chunksFrom_inValue [] h name []).1⟩

theorem chunksFrom_between_declares (h : ∀ c ∈ cs, c.isLeaf .semicolon = false)
    (hdeclares : declares cs = true) :
    ∃ name value, (significant cs).head?.bind Component.ident? = some name ∧
      chunksFrom .between cs = [.declared name value] := by
  induction cs with
  | nil => cases hdeclares
  | cons c cs ih =>
    obtain ⟨hsemicolon, h⟩ := List.forall_mem_cons.mp h
    cases hc : c.isSeparator with
    | true =>
      unfold declares startsWithName at hdeclares ih
      rw [significant_cons_of_isSeparator hc] at hdeclares ⊢
      rw [chunksFrom, if_pos (by simp [hc])]
      exact ih h hdeclares
    | false =>
      simp only [declares, startsWithName, significant_cons_of_not_isSeparator hc,
        List.head?_cons, Option.any_some, List.tail_cons, Bool.and_eq_true] at hdeclares
      obtain ⟨hsome, hcolon⟩ := hdeclares
      obtain ⟨name, hname⟩ := Option.isSome_iff_exists.mp hsome
      obtain ⟨value, hvalue⟩ := chunksFrom_behindName_colon h hcolon name
      refine ⟨name, value, ?_, ?_⟩
      · rw [significant_cons_of_not_isSeparator hc, List.head?_cons, Option.bind_some, hname]
      · rw [chunksFrom, if_neg (by simp [hc, hsemicolon]), hname]
        exact hvalue

end

theorem declaredIn_property {t : List Char} (h : IsChunk t) :
    (property? t = none ∧ declaredIn t = []) ∨
      ∃ name value, property? t = some name ∧ declaredIn t = [.declared name value] := by
  unfold property?
  cases hd : isDeclaration t with
  | false => exact .inl ⟨rfl, declaredIn_of_not h hd⟩
  | true =>
    obtain ⟨name, value, hname, hchunks⟩ := chunksFrom_between_declares h.no_semicolon hd
    refine .inr ⟨name, value, by rw [if_pos rfl, hname], ?_⟩
    unfold declaredIn chunks
    rw [hchunks]
    rfl

/-! ## Rearranged blocks -/

theorem flatMap_filter_of_eq_nil {α β : Type} {p : α → Bool} {f : α → List β} {l : List α}
    (h : ∀ a ∈ l, p a = false → f a = []) : (l.filter p).flatMap f = l.flatMap f := by
  induction l with
  | nil => rfl
  | cons a l ih =>
    obtain ⟨ha, h⟩ := List.forall_mem_cons.mp h
    rw [List.flatMap_cons, ← ih h]
    cases hp : p a with
    | true => rw [List.filter_cons_of_pos hp, List.flatMap_cons]
    | false => rw [List.filter_cons_of_neg (by simp [hp]), ha hp, List.nil_append]

section

variable {ts us : List (List Char)}

theorem filterMap_declaredIn {β : Type} {p : List Char → Bool} {f : Chunk → Option β}
    (hts : ∀ t ∈ ts, p t = false → (declaredIn t).filterMap f = [])
    (hus : ∀ t ∈ us, p t = false → (declaredIn t).filterMap f = [])
    (h : us.filter p = ts.filter p) :
    (us.flatMap declaredIn).filterMap f = (ts.flatMap declaredIn).filterMap f := by
  rw [List.filterMap_flatMap, List.filterMap_flatMap, ← flatMap_filter_of_eq_nil hts,
    ← flatMap_filter_of_eq_nil hus, h]

theorem Rearranged.declarations (h : Rearranged ts us) (hchunks : ∀ t ∈ ts, IsChunk t) :
    (us.flatMap declaredIn).filterMap Chunk.declaration? =
      (ts.flatMap declaredIn).filterMap Chunk.declaration? := by
  have hnone : ∀ t, IsChunk t → (property? t).any (fun name => !isCustom name) = false →
      (declaredIn t).filterMap Chunk.declaration? = [] := by
    intro t ht hcustom
    rcases declaredIn_property ht with ⟨-, hnil⟩ | ⟨name, value, hname, hdeclared⟩
    · rw [hnil, List.filterMap_nil]
    · rw [hname] at hcustom
      have hname : isCustom name = true := by simpa using hcustom
      simp [hdeclared, Chunk.declaration?, hname]
  exact filterMap_declaredIn (fun t ht => hnone t (hchunks t ht))
    (fun t ht => hnone t (hchunks t (h.perm.subset ht))) h.ordinary

theorem Rearranged.customOf (h : Rearranged ts us) (hchunks : ∀ t ∈ ts, IsChunk t) :
    Css.customOf (us.flatMap declaredIn) = Css.customOf (ts.flatMap declaredIn) := by
  apply SortedMap.ext_get?
  intro key
  -- The last text of a custom property is that of the last chunk which declares it.
  let text (c : Chunk) : Option String :=
    c.custom?.bind fun pair => if pair.1 = key then some pair.2 else none
  have hlast : ∀ cs : List Chunk, (Css.customOf cs).get? key = (cs.filterMap text).getLast? := by
    intro cs
    rw [Css.customOf, SortedMap.get?_ofList, List.filterMap_filterMap]
  have hnone : ∀ t, IsChunk t → (isCustom key && decide (property? t = some key)) = false →
      (declaredIn t).filterMap text = [] := by
    intro t ht hother
    rcases declaredIn_property ht with ⟨-, hnil⟩ | ⟨name, value, hname, hdeclared⟩
    · rw [hnil, List.filterMap_nil]
    · rw [hdeclared, List.filterMap_cons_none, List.filterMap_nil]
      simp only [text, Chunk.custom?]
      split
      · next hcustom =>
        refine if_neg ?_
        rintro rfl
        simp [hname, hcustom] at hother
      · rfl
  rw [hlast, hlast]
  refine congrArg List.getLast? (filterMap_declaredIn (fun t ht => hnone t (hchunks t ht))
    (fun t ht => hnone t (hchunks t (h.perm.subset ht))) ?_)
  cases hkey : isCustom key with
  | false => simp
  | true => simpa using h.custom key hkey

theorem declaredIn_joined_flatMap (hchunks : ∀ t ∈ ts, IsChunk t)
    (hnames : ∀ t ∈ ts, isLoneName t = false) :
    declaredIn (joined ts) = ts.flatMap declaredIn := by
  have hnone : ∀ t ∈ ([] : List (List Char)), IsChunk t := by simp
  have happend := declaredIn_joined_append hchunks hnone hnames
  rwa [List.append_nil, show declaredIn (joined []) = [] from rfl, List.append_nil] at happend

end

/-- A block whose custom properties stand elsewhere in it makes the same rule. No other rule of a
stylesheet has a part in it, whatever properties that declares: one that names the class behind it
takes its place as a whole. -/
theorem blockRule_rearranged {ts us : List (List Char)} (hchunks : ∀ t ∈ ts, IsChunk t)
    (hnames : ∀ t ∈ ts, isLoneName t = false) (h : Rearranged ts us) :
    blockRule (joined us) = blockRule (joined ts) ∧
    ∀ (before : List Statement) (prelude rest : List Char) (name : String),
      (∀ s ∈ before, s.Complete) → (ruleWith prelude ts).Complete →
      (ruleWith prelude us).isAtRule = false → (ruleWith prelude us).Names name →
      (readSheet (sourceOf (before ++ [ruleWith prelude us]) ++ rest)).value.get? name =
        ((readSheet rest).value.get? name).or (some (blockRule (joined ts))) := by
  have hchunks' : ∀ t ∈ us, IsChunk t := fun t ht => hchunks t (h.perm.subset ht)
  have hnames' : ∀ t ∈ us, isLoneName t = false := fun t ht => hnames t (h.perm.subset ht)
  have hrule : blockRule (joined us) = blockRule (joined ts) := by
    rw [blockRule_eq, blockRule_eq, declaredIn_joined_flatMap hchunks hnames,
      declaredIn_joined_flatMap hchunks' hnames', ruleOf, ruleOf, writtenDeclarations,
      writtenDeclarations, h.customOf hchunks, h.declarations hchunks]
  refine ⟨hrule, fun before prelude rest name hbefore hcomplete hat hname => ?_⟩
  have hall : ∀ s ∈ before ++ [ruleWith prelude us], s.Complete :=
    List.forall_mem_append.mpr ⟨hbefore, by simpa using complete_ruleWith hcomplete hchunks'⟩
  have happly := (Statement.get?_apply (ruleWith prelude us)
    (before.foldl Statement.apply .empty) name).2 _ hat rfl
  rw [value_readSheet, addRules_sourceOf hall, get?_addRules, ← value_readSheet,
    List.foldl_append, List.foldl_cons, List.foldl_nil, happly.1 hname, hrule]

instance : DecidablePred IsChunk := fun text =>
  decidable_of_iff (Closed text ∧ ((components text).all fun c => !c.isLeaf .semicolon) = true ∧
      hasClosingCurly text = false)
    ⟨fun ⟨hclosed, hall, hcurly⟩ => ⟨hclosed, by simpa using hall, hcurly⟩,
      fun h => ⟨h.closed, by simpa using h.no_semicolon, h.no_closing⟩⟩

/-- A chunk that declares `--x`, one that declares it again behind a space, one that declares `--y`
through it, and an ordinary declaration that refers to both. -/
def firstText : List Char := "--x:1".toList

def secondText : List Char := " --x:2".toList

def linkedText : List Char := " --y:var(--x)".toList

def ordinaryText : List Char := "top:var(--x) var(--y)".toList

def scattered : List (List Char) := [firstText, ordinaryText, linkedText, secondText, []]

def gathered : List (List Char) := [linkedText, firstText, secondText, [], ordinaryText]

/-- A rule for another class with a custom property of the same name. -/
def foreignRule : Statement := ruleWith ['.', 'b'] ["--x:9".toList]

theorem rearranged_gathered : Rearranged scattered gathered := by
  have hfirst : property? firstText = some "--x" := by cbv
  have hsecond : property? secondText = some "--x" := by cbv
  have hlinked : property? linkedText = some "--y" := by cbv
  have hordinary : property? ordinaryText = some "top" := by cbv
  have hblank : property? [] = none := by cbv
  refine ⟨by decide +kernel, by cbv, fun name hname => ?_⟩
  have htop : "top" ≠ name := by
    rintro rfl
    revert hname
    decide +kernel
  by_cases hx : "--x" = name
  · subst hx
    simp [scattered, gathered, List.filter, hfirst, hsecond, hlinked, hordinary, hblank]
  · simp [scattered, gathered, List.filter, hfirst, hsecond, hlinked, hordinary, hblank, hx, htop]

theorem blockRule_rearranged_gathered :
    Rearranged scattered gathered ∧ foreignRule.Complete ∧
    blockRule (joined gathered) = blockRule (joined scattered) ∧
    (readSheet (sourceOf ([foreignRule] ++ [ruleWith ['.', 'a'] gathered]) ++ [])).value.get? "a" =
      some (blockRule (joined scattered)) ∧
    (blockRule (joined scattered)).declarations.get? "top" = some "2 2" := by
  have hchunks : ∀ t ∈ scattered, IsChunk t := forall_mem_of_all (by decide +kernel)
  have hnames : ∀ t ∈ scattered, isLoneName t = false := forall_mem_of_all (by decide +kernel)
  have hforeign : foreignRule.Complete :=
    ⟨by decide +kernel, forall_mem_of_all (by decide +kernel), nofun, fun _ => rfl,
      by decide +kernel⟩
  have hempty : (ruleWith ['.', 'a'] []).Complete :=
    ⟨by decide +kernel, forall_mem_of_all (by decide +kernel), nofun, fun _ => rfl,
      by decide +kernel⟩
  have hclasses : (ruleWith ['.', 'a'] gathered).classes = ["a"] := by decide +kernel
  have hnamed : "a" ∈ (ruleWith ['.', 'a'] gathered).classes := by simp [hclasses]
  obtain ⟨hsame, hsheet⟩ := blockRule_rearranged hchunks hnames rearranged_gathered
  have hrule := hsheet [foreignRule] ['.', 'a'] [] "a" (List.forall_mem_singleton.mpr hforeign)
    (complete_ruleWith hempty hchunks) rfl (Statement.mem_classes_iff.mp hnamed)
  exact ⟨rearranged_gathered, hforeign, hsame, hrule, by decide +kernel⟩

end Css

end ClassStyle
