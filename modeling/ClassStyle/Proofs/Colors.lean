import ClassStyle.Proofs.Fields
import ClassStyle.Proofs.Pieces
import ClassStyle.Proofs.Room
import ClassStyle.Proofs.Statements

/-!
# Colors written and read back

The reader of stylesheets writes a color as a list of channels, and a list of channels is read as a
color again. If the arguments of a color are literals, the color read is the one of their numbers,
and the fourth of them becomes the opacity (`blockRule_color`).
-/

namespace ClassStyle.Css

open Component

/-! ## Literals -/

/-- A number or a percentage among the arguments of a color. -/
inductive Literal where
  | number (n : Numeral)
  | percentage (n : Numeral)
  deriving DecidableEq

namespace Literal

def ofComponent? : Component → Option Literal
  | .leaf { token := .number n, .. } => some (number n)
  | .leaf { token := .percentage n, .. } => some (percentage n)
  | _ => none

/-- The text of one of the first three literals. A percentage is one of 255. -/
def channelText : Literal → List Char
  | number n => writeSingle (singleValue n)
  | percentage n => writeSingle (percentFraction n * 255)

/-- The text of a literal behind the first three. A percentage is a fraction of one. -/
def alphaText : Literal → List Char
  | number n => writeSingle (singleValue n)
  | percentage n => writeSingle (percentFraction n)

theorem printed_channelText (l : Literal) : Printed l.channelText := by
  cases l <;> exact printed_writeSingle _

end Literal

/-- The literals among arguments. All other arguments but references are passed over. -/
def literals (arguments : List Component) : List Literal :=
  arguments.filterMap Literal.ofComponent?

/-! ## Arguments one by one -/

section

variable {reference : List Component → Written} {channels : Channels} {c : Component}

theorem addArgument_literal {l : Literal} (h : Literal.ofComponent? c = some l) :
    addArgument reference channels c =
      channels.add (if 3 ≤ channels.texts.length then l.alphaText else l.channelText) := by
  unfold Literal.ofComponent? at h
  split at h
  · obtain rfl := Option.some.inj h
    simp [addArgument, numberText, Literal.alphaText, Literal.channelText]
  · obtain rfl := Option.some.inj h
    simp only [addArgument, Channels.scaled]
    split <;> rfl
  · simp at h

theorem addArgument_other (h : Literal.ofComponent? c = none) (href : c.reference? = none) :
    addArgument reference channels c = channels := by
  unfold addArgument
  split
  · simp [Literal.ofComponent?] at h
  · simp [Literal.ofComponent?] at h
  · rw [if_neg (by simpa [reference?] using href)]
  · rfl

end

theorem foldl_addArgument {reference : List Component → Written} {arguments : List Component}
    (h : ∀ c ∈ arguments, c.reference? = none) (channels : Channels) :
    arguments.foldl (addArgument reference) channels =
      { channels with texts := channels.texts ++
          (((literals arguments).take (3 - channels.texts.length)).map Literal.channelText ++
            ((literals arguments).drop (3 - channels.texts.length)).map Literal.alphaText) } := by
  induction arguments generalizing channels with
  | nil => simp [literals]
  | cons c arguments ih =>
    obtain ⟨hc, h⟩ := List.forall_mem_cons.mp h
    rw [List.foldl_cons, ih h]
    cases hl : Literal.ofComponent? c with
    | none =>
      have hlits : literals (c :: arguments) = literals arguments := List.filterMap_cons_none hl
      rw [addArgument_other hl hc, hlits]
    | some l =>
      have hlits : literals (c :: arguments) = l :: literals arguments :=
        List.filterMap_cons_some hl
      rw [addArgument_literal hl, hlits]
      by_cases hfull : 3 ≤ channels.texts.length
      · have hnone : 3 - channels.texts.length = 0 := by omega
        have hnone' : 3 - (channels.texts.length + 1) = 0 := by omega
        simp [Channels.add, hfull, hnone, hnone']
      · have hmore : 3 - channels.texts.length = (3 - (channels.texts.length + 1)) + 1 := by omega
        simp [Channels.add, hfull, hmore]

theorem writeColor_literals (reference : List Component → Written) {arguments : List Component}
    (h : ∀ c ∈ arguments, c.reference? = none) :
    writeColor reference arguments =
      match literals arguments with
      | r :: g :: b :: rest =>
        ⟨[[','].intercalate [r.channelText, g.channelText, b.channelText]],
          rest.head?.map Literal.alphaText, []⟩
      | few => ⟨[], none, [.ignoredChannels few.length]⟩ := by
  unfold writeColor
  rw [foldl_addArgument h]
  match literals arguments with
  | [] => rfl
  | [_] => rfl
  | [_, _] => rfl
  | r :: g :: b :: [] => rfl
  | r :: g :: b :: a :: rest => rfl

/-! ## Values that are one color -/

/-- A value is one color with some arguments. An exclamation mark may stand behind it. -/
def IsColor (value : List Char) (arguments : List Component) : Prop :=
  ∃ name source closer, (isNamed "rgb" name || isNamed "rgba" name) = true ∧
    significant (beforeBang (components value)) =
      [.block ⟨.function name, source⟩ arguments closer]

theorem writeValue_color {value : List Char} {arguments : List Component}
    (h : IsColor value arguments) (custom : SortedMap String) :
    ∃ reference, writeValue custom value = writeColor reference arguments := by
  obtain ⟨name, source, closer, hname, hvalue⟩ := h
  obtain ⟨depth, hdepth⟩ := exists_depthBound custom value
  refine ⟨writeReference custom (writeText custom depth) [], ?_⟩
  rw [writeValue, hdepth, writeText, ← writeComponents_significant, hvalue]
  simp only [writeComponents, writeComponent, hname, if_true, Written.append_empty]

/-! ## Blocks with one declaration -/

@[simp] theorem Written.text_singleton (text : List Char) (opacity : Option (List Char))
    (notices : List Notice) : (Written.mk [text] opacity notices).text = text := by
  simp [Written.text, List.intercalate]

theorem get?_ofList {α : Type} (entries : List (String × α)) (name : String) :
    (ArrivalMap.ofList entries).get? name =
      (entries.filterMap fun entry => if entry.1 = name then some entry.2 else none).getLast? := by
  have hput : ∀ (m : ArrivalMap α) (entry : String × α),
      (m.put entry.1 entry.2).get? name =
        ((if entry.1 = name then some entry.2 else none).map some).getD (m.get? name) := by
    intro m entry
    rw [ArrivalMap.get?_put]
    split <;> rfl
  have hlast := foldl_last (fun m : ArrivalMap α => m.get? name) hput .empty entries
  unfold ArrivalMap.ofList ArrivalMap.putAll
  rw [hlast, ← List.map_filterMap, List.getLast?_map, ArrivalMap.get?_empty]
  cases (entries.filterMap fun entry =>
    if entry.1 = name then some entry.2 else none).getLast? <;> rfl

theorem get?_entriesOf {property : String} (h : property ≠ opacityProperty property)
    {written : Written} (hsome : written.text ≠ []) :
    (ArrivalMap.ofList (entriesOf property written)).get? property =
        some (String.ofList written.text) ∧
      (ArrivalMap.ofList (entriesOf property written)).get? (opacityProperty property) =
        written.opacity.map String.ofList := by
  unfold entriesOf
  rw [if_neg hsome, get?_ofList, get?_ofList]
  cases written.opacity <;> simp [h, h.symm]

theorem blockRule_declarations {block : List Char} {property : String} {value : List Char}
    (h : (chunks (components block)).filterMap Chunk.declaration? = [(property, value)]) :
    (blockRule block).declarations =
      .ofList (entriesOf property (writeValue (customOf (chunks (components block))) value)) := by
  unfold blockRule readBlock writtenDeclarations
  simp only [h, List.map_cons, List.map_nil, List.flatMap_cons, List.flatMap_nil, List.append_nil]

theorem ne_opacityProperty {property : String}
    (h : property ∈ ["color", "background-color", "border-color"]) :
    property ≠ opacityProperty property := by
  revert property
  decide

/-- A color of literals is stored such that it is read back as the color of the numbers that were
written, and its fourth literal is the value of the opacity that belongs to it. With fewer than
three literals nothing is stored. -/
theorem blockRule_color {block value : List Char} {property : String}
    {arguments : List Component}
    (hproperty : property ∈ ["color", "background-color", "border-color"])
    (honly : (chunks (components block)).filterMap Chunk.declaration? = [(property, value)])
    (hcolor : IsColor value arguments)
    (hliteral : ∀ c ∈ arguments, c.reference? = none) :
    match literals arguments with
    | r :: g :: b :: rest =>
      ∃ text x y z, (blockRule block).declarations.get? property = some text ∧
        text = String.ofList ([','].intercalate [r.channelText, g.channelText, b.channelText]) ∧
        readFloat? r.channelText = some x ∧ readFloat? g.channelText = some y ∧
        readFloat? b.channelText = some z ∧
        Color.read? text.toList = some ⟨nearestByte x, nearestByte y, nearestByte z⟩ ∧
        (blockRule block).declarations.get? (opacityProperty property) =
          rest.head?.map fun alpha => String.ofList alpha.alphaText
    | _ =>
      (blockRule block).declarations.get? property = none ∧
        (blockRule block).declarations.get? (opacityProperty property) = none := by
  obtain ⟨reference, hwritten⟩ :=
    writeValue_color hcolor (customOf (chunks (components block)))
  have hne := ne_opacityProperty hproperty
  rw [blockRule_declarations honly, hwritten, writeColor_literals reference hliteral]
  generalize literals arguments = values
  rcases values with _ | ⟨r, _ | ⟨g, _ | ⟨b, rest⟩⟩⟩
  · exact ⟨rfl, rfl⟩
  · exact ⟨rfl, rfl⟩
  · exact ⟨rfl, rfl⟩
  · obtain ⟨x, y, z, hx, hy, hz, hread⟩ := Color.read?_printed r.printed_channelText
      g.printed_channelText b.printed_channelText
    let text := [','].intercalate [r.channelText, g.channelText, b.channelText]
    have hsome : (Written.mk [text] (rest.head?.map Literal.alphaText) []).text ≠ [] := by
      rw [Written.text_singleton]
      simp [text, List.intercalate, r.printed_channelText.ne_nil]
    obtain ⟨hvalue, hopacity⟩ := get?_entriesOf hne hsome
    rw [Written.text_singleton] at hvalue
    refine ⟨_, x, y, z, hvalue, rfl, hx, hy, hz, ?_, ?_⟩
    · rw [String.toList_ofList, hread]
    · rw [hopacity, Option.map_map]
      rfl

/-- `1 2,50%/.5` -/
def mixedArguments : List Char := ['1', ' ', '2', ',', '5', '0', '%', '/', '.', '5']

/-- The value `rgb(1 2,50%/.5)`. -/
def mixedColor : List Char := ['r', 'g', 'b', '('] ++ mixedArguments ++ [')']

theorem blockRule_color_mixed :
    let rule := blockRule (['c', 'o', 'l', 'o', 'r', ':'] ++ mixedColor)
    ∃ text, rule.declarations.get? "color" = some text ∧
      Color.read? text.toList = some ⟨1, 2, 128⟩ ∧
      rule.declarations.get? "text-opacity" = some "0.5" := by
  have hcolor : IsColor mixedColor (components mixedArguments) :=
    ⟨"rgb", ['r', 'g', 'b', '('], some ⟨.closing .round, [')']⟩, by decide, by decide +kernel⟩
  have honly : (chunks (components (['c', 'o', 'l', 'o', 'r', ':'] ++ mixedColor))).filterMap
      Chunk.declaration? = [("color", mixedColor)] := by decide +kernel
  have hrule := blockRule_color (by decide) honly hcolor (by decide +kernel)
  have hliterals : literals (components mixedArguments) =
      [.number ⟨none, ['1'], none, none⟩, .number ⟨none, ['2'], none, none⟩,
        .percentage ⟨none, ['5', '0'], none, none⟩, .number ⟨none, [], some ['5'], none⟩] := by
    decide +kernel
  rw [hliterals] at hrule
  obtain ⟨text, x, y, z, hstored, -, hx, hy, hz, hread, hopacity⟩ := hrule
  have hbyte : ∀ {l : Literal} {v : Float} (byte : UInt8), readFloat? l.channelText = some v →
      (readFloat? l.channelText).map nearestByte = some byte → nearestByte v = byte := by
    intro l v byte hv hb
    rw [hv] at hb
    exact Option.some.inj hb
  refine ⟨text, hstored, ?_, hopacity.trans (by decide +kernel)⟩
  rw [hread, hbyte 1 hx (by decide +kernel), hbyte 2 hy (by decide +kernel),
    hbyte 128 hz (by decide +kernel)]

end ClassStyle.Css
