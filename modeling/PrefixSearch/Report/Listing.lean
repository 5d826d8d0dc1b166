import PrefixSearch.Decoder
import PrefixSearch.Report.Summary
import PrefixSearch.Text.Lowercase
import PrefixSearch.Text.Quoted

/-!
# Listing of results

The results of one query, a line for each: the label of its kind, its name with the part that was
typed standing out, its flags and its URL. What is shown is a sequence of texts and styles, which
is written either without the styles or with the control sequences of a terminal.
-/

namespace PrefixSearch.Report

inductive Colour where
  | red | green | yellow | blue | cyan | white
deriving DecidableEq, Repr

/-- The digit of a colour in a control sequence. -/
def Colour.digit : Colour → String
  | .red => "1"
  | .green => "2"
  | .yellow => "3"
  | .blue => "4"
  | .cyan => "6"
  | .white => "7"

/-- How text is shown. -/
structure Style where
  bold : Bool := false
  dimmed : Bool := false
  colour : Option Colour := none
deriving DecidableEq, Repr

/-- A piece of what is shown. -/
inductive Span where
  | text (s : String)
  /-- Show what follows in the style. -/
  | style (shown : Style)
  /-- Show what follows without any style. -/
  | reset
deriving DecidableEq, Repr

namespace Span

/-- The control sequence with the given parameter. -/
def control (parameter : String) : String :=
  "\x1b[" ++ parameter ++ "m"

/-- The piece as text without styles. -/
def plain : Span → String
  | .text s => s
  | .style _ => ""
  | .reset => ""

/-- The piece as text with control sequences. A style takes the place of the one before it. -/
def terminal : Span → String
  | .text s => s
  | .style shown =>
      control "0" ++
        (if shown.bold then control "1" else "") ++
        (if shown.dimmed then control "2" else "") ++
        (match shown.colour with
          | some colour => control ("3" ++ colour.digit)
          | none => "")
  | .reset => control "0"

end Span

/-- The pieces as text, with or without styles. -/
def render (coloured : Bool) (spans : List Span) : String :=
  String.join (spans.map (if coloured then Span.terminal else Span.plain))

/-- The colour of a kind's label. -/
def colourOf : CssClass → Option Colour
  | .plain => none
  | .primary => some .blue
  | .success => some .green
  | .warning => some .yellow
  | .danger => some .red
  | .info => some .cyan
  | .dim => some .white

/-- The number of characters at the front of a name that the query already has. Each character is
compared in lowercase on its own. -/
def typedLength (query name : String) : Nat :=
  ((name.toList.zip query.toList).takeWhile fun pair =>
    Text.lowerChar pair.1 == Text.lowerChar pair.2).length

/-- The line of a result. -/
def resultSpans (query symbolPrefix : String) (result : SearchResult) : List Span :=
  let nameStyle : Style := { dimmed := result.deleted || result.deprecated }
  let typed := typedLength query result.name
  [.style { colour := colourOf result.cssClass }, .text (padLeft 9 result.label), .reset,
    .text "  ",
    .style { nameStyle with bold := true },
    .text (String.ofList (result.name.toList.take typed)),
    .style nameStyle,
    .text (String.ofList (result.name.toList.drop typed)), .reset] ++
    (if result.deprecated then [.text " (deprecated)"] else []) ++
    (if result.deleted then [.text " (deleted)"] else []) ++
    [.style { colour := some .cyan }, .text s!"  -> {symbolPrefix}{result.url}", .reset,
      .text "\n"]

/-- The listing of a query's results. -/
def listing (query symbolPrefix : String) (results : List SearchResult) : List Span :=
  if results.isEmpty then
    [.style { dimmed := true }, .text s!"no results for {Text.quoted query}\n", .reset]
  else
    results.flatMap (resultSpans query symbolPrefix)

end PrefixSearch.Report
