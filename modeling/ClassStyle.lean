import ClassStyle.Session
import ClassStyle.Proofs.Lookahead
import ClassStyle.Proofs.Nesting
import ClassStyle.Proofs.Statements
import ClassStyle.Proofs.Recovery
import ClassStyle.Proofs.Machine
import ClassStyle.Proofs.Room
import ClassStyle.Proofs.Substitution
import ClassStyle.Proofs.Fields
import ClassStyle.Proofs.Emission
import ClassStyle.Proofs.Publication
import ClassStyle.Proofs.Batches
import ClassStyle.Proofs.Printed
import ClassStyle.Proofs.Pieces
import ClassStyle.Proofs.Colors
import ClassStyle.Proofs.Paints
import ClassStyle.Proofs.Reach
import ClassStyle.Proofs.Blanks
import ClassStyle.Proofs.References
import ClassStyle.Proofs.Revisions
import ClassStyle.Proofs.FontSizes
import ClassStyle.Proofs.Layouts
import ClassStyle.Proofs.Rounding
import ClassStyle.Proofs.Magnitudes
import ClassStyle.Proofs.Tokens
import ClassStyle.Proofs.Quantities
import ClassStyle.Proofs.Integers
import ClassStyle.Proofs.Expressions
import ClassStyle.Proofs.ArithmeticTokens
import ClassStyle.Proofs.Ratios
import ClassStyle.Proofs.Shapes
import ClassStyle.Proofs.Shorthands
import ClassStyle.Proofs.UnknownProperties
import ClassStyle.Proofs.Finiteness
import ClassStyle.Proofs.Cascades
import ClassStyle.Proofs.Merging
import ClassStyle.Proofs.Warnings
import ClassStyle.Proofs.StyleParts
import ClassStyle.Proofs.Reorderings
import ClassStyle.Proofs.Repetitions
import ClassStyle.Proofs.Paths
import ClassStyle.Proofs.Watching
import ClassStyle.Proofs.Locations
import ClassStyle.Proofs.Unwatching
import ClassStyle.Proofs.TextNodes
import ClassStyle.Proofs.Rules
import ClassStyle.Proofs.Grammar
import ClassStyle.Proofs.Returning
import ClassStyle.Proofs.CustomProperties
import ClassStyle.Proofs.Units
import ClassStyle.Proofs.Notations
import ClassStyle.Proofs.ColorReferences
import ClassStyle.Proofs.LongestNumeral
import ClassStyle.Proofs.Passes
import ClassStyle.Proofs.RecasedSheets
