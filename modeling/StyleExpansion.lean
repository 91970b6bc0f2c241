import StyleExpansion.Component
import StyleExpansion.Component.Lossless
import StyleExpansion.Decimal.Binary
import StyleExpansion.Decimal.Numeral
import StyleExpansion.Decimal.Shortest
import StyleExpansion.Decimal.Written
import StyleExpansion.Declaration
import StyleExpansion.Edge
import StyleExpansion.Error
import StyleExpansion.Expander
import StyleExpansion.Expander.Events
import StyleExpansion.Expander.Session
import StyleExpansion.Expansion
import StyleExpansion.Expansion.Backgrounds
import StyleExpansion.Expansion.Borders
import StyleExpansion.Expansion.Edges
import StyleExpansion.Expansion.Fonts
import StyleExpansion.Expansion.Layout
import StyleExpansion.Expansion.Motion
import StyleExpansion.Expansion.Texts
import StyleExpansion.LogPath
import StyleExpansion.Matching
import StyleExpansion.Pattern
import StyleExpansion.Pattern.Mask
import StyleExpansion.Pattern.Properties
import StyleExpansion.Pattern.Reader
import StyleExpansion.Pattern.Sign
import StyleExpansion.Pattern.Spans
import StyleExpansion.Pattern.Types
import StyleExpansion.Proofs.Component.Append
import StyleExpansion.Proofs.Component.Cursor
import StyleExpansion.Proofs.Decimal.Numeral
import StyleExpansion.Proofs.Decimal.Percent
import StyleExpansion.Proofs.Decimal.Places
import StyleExpansion.Proofs.Decimal.Ratio
import StyleExpansion.Proofs.Decimal.Rounding
import StyleExpansion.Proofs.Decimal.Shortest
import StyleExpansion.Proofs.Declaration.Importance
import StyleExpansion.Proofs.Declaration.Recovery
import StyleExpansion.Proofs.Expander.Importance
import StyleExpansion.Proofs.Expander.Reexpansion
import StyleExpansion.Proofs.Expander.Renaming
import StyleExpansion.Proofs.Expander.SelectorLists
import StyleExpansion.Proofs.Expander.Settings
import StyleExpansion.Proofs.Expander.TypeSelectors
import StyleExpansion.Proofs.Expansion.AnyOrder
import StyleExpansion.Proofs.Expansion.Backgrounds
import StyleExpansion.Proofs.Expansion.Commas
import StyleExpansion.Proofs.Expansion.Fields
import StyleExpansion.Proofs.Expansion.Filled
import StyleExpansion.Proofs.Expansion.Folding
import StyleExpansion.Proofs.Expansion.FontParts
import StyleExpansion.Proofs.Expansion.FontShares
import StyleExpansion.Proofs.Expansion.GridSides
import StyleExpansion.Proofs.Expansion.Layers
import StyleExpansion.Proofs.Expansion.Literals
import StyleExpansion.Proofs.Expansion.Names
import StyleExpansion.Proofs.Expansion.Origins
import StyleExpansion.Proofs.Expansion.Parts
import StyleExpansion.Proofs.Expansion.Placements
import StyleExpansion.Proofs.Expansion.PositionOrder
import StyleExpansion.Proofs.Expansion.Positions
import StyleExpansion.Proofs.Expansion.Slices
import StyleExpansion.Proofs.Expansion.Spaced
import StyleExpansion.Proofs.Expansion.Typed
import StyleExpansion.Proofs.Expansion.Unlayered
import StyleExpansion.Proofs.Matching
import StyleExpansion.Proofs.Matching.Greedy
import StyleExpansion.Proofs.Matching.InTurn
import StyleExpansion.Proofs.Matching.Kinds
import StyleExpansion.Proofs.Pattern.Arguments
import StyleExpansion.Proofs.Pattern.Cover
import StyleExpansion.Proofs.Pattern.Derivation
import StyleExpansion.Proofs.Pattern.Dictionary
import StyleExpansion.Proofs.Pattern.Exact
import StyleExpansion.Proofs.Pattern.Extent
import StyleExpansion.Proofs.Pattern.Fits
import StyleExpansion.Proofs.Pattern.Folding
import StyleExpansion.Proofs.Pattern.Heads
import StyleExpansion.Proofs.Pattern.Locality
import StyleExpansion.Proofs.Pattern.Notation
import StyleExpansion.Proofs.Pattern.Picked
import StyleExpansion.Proofs.Pattern.Places
import StyleExpansion.Proofs.Pattern.Reader
import StyleExpansion.Proofs.Pattern.Signs
import StyleExpansion.Proofs.Pattern.Substitutions
import StyleExpansion.Proofs.Pattern.Words
import StyleExpansion.Proofs.PropertyName
import StyleExpansion.Proofs.Record.Table
import StyleExpansion.Proofs.Selector.Language
import StyleExpansion.Proofs.Selector.Scan
import StyleExpansion.Proofs.Session
import StyleExpansion.Proofs.Session.Lines
import StyleExpansion.Proofs.Sheet.Filler
import StyleExpansion.Proofs.Sheet.Groups
import StyleExpansion.Proofs.Sheet.Joined
import StyleExpansion.Proofs.Sheet.Rounds
import StyleExpansion.Proofs.Sheet.SingleRule
import StyleExpansion.Proofs.Sheet.SkippedRules
import StyleExpansion.Proofs.Sheet.Turns
import StyleExpansion.Proofs.Sheet.Walk
import StyleExpansion.Proofs.Text.Case
import StyleExpansion.Proofs.Text.Json
import StyleExpansion.Proofs.Token.Follows
import StyleExpansion.Proofs.Token.Kinds
import StyleExpansion.Proofs.Token.Locality
import StyleExpansion.Proofs.Token.Scanners
import StyleExpansion.Proofs.Token.Sealed
import StyleExpansion.Proofs.Token.Spelled
import StyleExpansion.Proofs.Trace
import StyleExpansion.Proofs.Value.Folding
import StyleExpansion.Proofs.Value.Fractions
import StyleExpansion.Proofs.Value.Importance
import StyleExpansion.Proofs.Value.Integers
import StyleExpansion.Proofs.Value.Plain
import StyleExpansion.Proofs.Value.Reader
import StyleExpansion.Proofs.Value.Segments
import StyleExpansion.Proofs.Value.Spaced
import StyleExpansion.Proofs.Value.Steady
import StyleExpansion.Proofs.Value.Writer
import StyleExpansion.Proofs.Value.Written
import StyleExpansion.PropertyName
import StyleExpansion.Recogniser.AtRule
import StyleExpansion.Recogniser.Attribute
import StyleExpansion.Recogniser.Declaration
import StyleExpansion.Recogniser.Fault
import StyleExpansion.Recogniser.Index
import StyleExpansion.Recogniser.Intact
import StyleExpansion.Recogniser.Prelude
import StyleExpansion.Recogniser.Pseudo
import StyleExpansion.Recogniser.Query
import StyleExpansion.Recogniser.Selector
import StyleExpansion.Recogniser.Sheet
import StyleExpansion.Record
import StyleExpansion.Record.Table
import StyleExpansion.Selector
import StyleExpansion.Session
import StyleExpansion.Sheet
import StyleExpansion.Shorthand
import StyleExpansion.Text.Blank
import StyleExpansion.Text.Case
import StyleExpansion.Text.Place
import StyleExpansion.Text.Printable
import StyleExpansion.Text.Quoted
import StyleExpansion.Token
import StyleExpansion.Token.Lexer
import StyleExpansion.Token.Name
import StyleExpansion.Token.Number
import StyleExpansion.Token.Text
import StyleExpansion.Trace
import StyleExpansion.Value
import StyleExpansion.Value.Equality
import StyleExpansion.Value.Importance
import StyleExpansion.Value.Reader
import StyleExpansion.Value.Segments
import StyleExpansion.Value.Types
import StyleExpansion.Value.Writer
