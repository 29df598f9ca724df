import LiveMarkup.Config.Basic
import LiveMarkup.Config.Toml
import LiveMarkup.Decimal.Binary64
import LiveMarkup.Decimal.Layout
import LiveMarkup.Decimal.Shortest
import LiveMarkup.Event
import LiveMarkup.Markup.CharacterReference
import LiveMarkup.Markup.DocumentStart
import LiveMarkup.Markup.Error
import LiveMarkup.Markup.Lexeme
import LiveMarkup.Markup.Names
import LiveMarkup.Markup.Parse
import LiveMarkup.Markup.Report
import LiveMarkup.Markup.Span
import LiveMarkup.Markup.StartTag
import LiveMarkup.Markup.TagToken
import LiveMarkup.Markup.Token
import LiveMarkup.Part.Attribute
import LiveMarkup.Part.Basic
import LiveMarkup.Part.Bind
import LiveMarkup.Part.Flush
import LiveMarkup.Part.Patch
import LiveMarkup.Proofs.Markup.Building
import LiveMarkup.Proofs.Markup.Draft
import LiveMarkup.Proofs.Markup.Kinds
import LiveMarkup.Proofs.Markup.Spelling
import LiveMarkup.Proofs.Part.Attribute
import LiveMarkup.Proofs.Part.Bind
import LiveMarkup.Proofs.Part.Filling
import LiveMarkup.Proofs.Part.Fits
import LiveMarkup.Proofs.Part.Flushing
import LiveMarkup.Proofs.Part.Listing
import LiveMarkup.Proofs.Part.Nesting
import LiveMarkup.Proofs.Part.Outcome
import LiveMarkup.Proofs.Part.Patching
import LiveMarkup.Proofs.Part.Reading
import LiveMarkup.Proofs.Part.Remembering
import LiveMarkup.Proofs.Part.Region
import LiveMarkup.Proofs.Part.Standing
import LiveMarkup.Proofs.Render.Host
import LiveMarkup.Proofs.Render.Html
import LiveMarkup.Proofs.Render.Regions
import LiveMarkup.Proofs.Render.Rerendering
import LiveMarkup.Proofs.Render.Root
import LiveMarkup.Proofs.Render.Settling
import LiveMarkup.Proofs.Template.History
import LiveMarkup.Proofs.Template.Joining
import LiveMarkup.Proofs.Template.Keeping
import LiveMarkup.Proofs.Template.Pattern
import LiveMarkup.Proofs.Template.Recompiling
import LiveMarkup.Proofs.Template.Sound
import LiveMarkup.Proofs.Tree.Arena
import LiveMarkup.Proofs.Tree.Changes
import LiveMarkup.Proofs.Tree.Copying
import LiveMarkup.Proofs.Tree.Dissolving
import LiveMarkup.Proofs.Tree.Freeing
import LiveMarkup.Proofs.Tree.Holding
import LiveMarkup.Proofs.Tree.Leaves
import LiveMarkup.Proofs.Tree.Planting
import LiveMarkup.Proofs.Tree.Reading
import LiveMarkup.Proofs.Tree.Siblings
import LiveMarkup.Proofs.Tree.Stretch
import LiveMarkup.Proofs.Tree.View
import LiveMarkup.Proofs.Value.Denotation
import LiveMarkup.Proofs.Value.Faithful
import LiveMarkup.Proofs.Value.Foresight
import LiveMarkup.Proofs.Value.Replacing
import LiveMarkup.Proofs.Value.Writing
import LiveMarkup.Render.Error
import LiveMarkup.Render.Renderer
import LiveMarkup.Session.Basic
import LiveMarkup.Session.Named
import LiveMarkup.Session.Rendering
import LiveMarkup.Template.Cache
import LiveMarkup.Template.Compile
import LiveMarkup.Template.Hole
import LiveMarkup.Template.Kind
import LiveMarkup.Template.Strings
import LiveMarkup.Text.Ascii
import LiveMarkup.Text.Blank
import LiveMarkup.Text.Columns
import LiveMarkup.Text.Extending
import LiveMarkup.Text.Quoted
import LiveMarkup.Text.Ranges
import LiveMarkup.Text.Unseen
import LiveMarkup.Toml.Document
import LiveMarkup.Toml.Scalar
import LiveMarkup.Toml.Text
import LiveMarkup.Tree.Basic
import LiveMarkup.Tree.Branch
import LiveMarkup.Tree.Html
import LiveMarkup.Tree.Import
import LiveMarkup.Tree.Move
import LiveMarkup.Tree.Node
import LiveMarkup.Tree.Position
import LiveMarkup.Tree.Remove
import LiveMarkup.Value.Basic
import LiveMarkup.Value.Deferred
import LiveMarkup.Value.Directive
import LiveMarkup.Value.Kind
import LiveMarkup.Value.Literal
import LiveMarkup.Value.Primitive
import LiveMarkup.Proofs.Template.Walking
import LiveMarkup.Proofs.Markup.Letters
import LiveMarkup.Proofs.Markup.Lexed
import LiveMarkup.Proofs.Template.Finding
import LiveMarkup.Proofs.Template.Placed
import LiveMarkup.Proofs.Template.Agreeing
import LiveMarkup.Proofs.Part.Awaiting
import LiveMarkup.Proofs.Part.Waiting
import LiveMarkup.Proofs.Render.Outstanding
import LiveMarkup.Proofs.Render.Sparing
import LiveMarkup.Proofs.Render.Confining
import LiveMarkup.Proofs.Render.Repeating
import LiveMarkup.Proofs.Tree.Editing
import LiveMarkup.Proofs.Tree.Linked
import LiveMarkup.Proofs.Tree.Sparing
import LiveMarkup.Proofs.Markup.Escaping
import LiveMarkup.Proofs.Markup.OpenTag
import LiveMarkup.Proofs.Markup.Scanning
import LiveMarkup.Proofs.Markup.Canonical
import LiveMarkup.Proofs.Markup.Roundtrip
import LiveMarkup.Proofs.Text.Separators
import LiveMarkup.Proofs.Part.Bound
import LiveMarkup.Proofs.Markup.TextContent
import LiveMarkup.Proofs.Markup.VoidContent
import LiveMarkup.Proofs.Markup.Faults
import LiveMarkup.Proofs.Markup.Wrapping
import LiveMarkup.Proofs.Template.Matching
import LiveMarkup.Proofs.Template.Ranges
import LiveMarkup.Proofs.Markup.Landmarks
import LiveMarkup.Proofs.Template.Tracing
import LiveMarkup.Proofs.Markup.Written
import LiveMarkup.Proofs.Template.Owning
import LiveMarkup.Proofs.Template.Inert
import LiveMarkup.Proofs.Template.Landing
import LiveMarkup.Proofs.Value.Leading
import LiveMarkup.Proofs.Part.Likeness
import LiveMarkup.Proofs.Part.Ending
import LiveMarkup.Proofs.Render.Ending
import LiveMarkup.Proofs.Render.Fulfilled
import LiveMarkup.Proofs.Value.Echoing
import LiveMarkup.Proofs.Render.Staying
import LiveMarkup.Proofs.Render.Relisting
import LiveMarkup.Proofs.Render.Reconciling
import LiveMarkup.Proofs.Render.Refusing
import LiveMarkup.Proofs.Render.Origin
import LiveMarkup.Proofs.Render.Unread
import LiveMarkup.Proofs.Markup.Tiling
import LiveMarkup.Proofs.Markup.SourceOrder
import LiveMarkup.Proofs.Markup.Shape
import LiveMarkup.Proofs.Markup.TagGrammar
import LiveMarkup.Proofs.Markup.Decoding
import LiveMarkup.Proofs.Decimal.Digits
import LiveMarkup.Proofs.Decimal.Numeral
import LiveMarkup.Proofs.Decimal.Rounding
import LiveMarkup.Proofs.Decimal.Shortest
import LiveMarkup.Proofs.Value.NumberText
import LiveMarkup.Proofs.Tree.Subtree
import LiveMarkup.Proofs.Tree.Tied
import LiveMarkup.Proofs.Tree.Importing
import LiveMarkup.Proofs.Tree.Removing
import LiveMarkup.Proofs.Tree.Inserting
import LiveMarkup.Proofs.Tree.Counting
import LiveMarkup.Proofs.Tree.Hintless
import LiveMarkup.Proofs.Tree.Hints
import LiveMarkup.Proofs.Markup.DocumentStart
import LiveMarkup.Proofs.Markup.Skeleton
import LiveMarkup.Proofs.Markup.Legible
import LiveMarkup.Proofs.Markup.Guarded
import LiveMarkup.Proofs.Template.Texts
import LiveMarkup.Proofs.Render.Texts
