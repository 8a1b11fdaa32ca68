import StyleBook.Ambient
import StyleBook.Catalog.Basic
import StyleBook.Catalog.Build
import StyleBook.Catalog.Standard
import StyleBook.Category
import StyleBook.Color
import StyleBook.Config
import StyleBook.Conversion.Convert
import StyleBook.Conversion.Recipe
import StyleBook.Dict
import StyleBook.Engine.Activate
import StyleBook.Engine.Basic
import StyleBook.Engine.Construct
import StyleBook.Engine.Definition
import StyleBook.Engine.Merge
import StyleBook.Engine.Naming
import StyleBook.Engine.Process
import StyleBook.Engine.Serialize
import StyleBook.Engine.Session
import StyleBook.Error
import StyleBook.Event
import StyleBook.Name.Naming
import StyleBook.Name.Ref
import StyleBook.Number.Basic
import StyleBook.Number.Shortest
import StyleBook.Number.Text
import StyleBook.NumericFamily
import StyleBook.Proofs.Conversion.ArgumentForms
import StyleBook.Proofs.Conversion.CatalogChecks
import StyleBook.Proofs.Conversion.ColorTexts
import StyleBook.Proofs.Conversion.ConversionErrors
import StyleBook.Proofs.Conversion.Conversions
import StyleBook.Proofs.Conversion.Converters
import StyleBook.Proofs.Conversion.Descents
import StyleBook.Proofs.Conversion.Opacity
import StyleBook.Proofs.Conversion.Operands
import StyleBook.Proofs.Conversion.Questions
import StyleBook.Proofs.Conversion.Registrations
import StyleBook.Proofs.Conversion.SuppliedArguments
import StyleBook.Proofs.Engine.Activation
import StyleBook.Proofs.Engine.Computation
import StyleBook.Proofs.Engine.Constructing
import StyleBook.Proofs.Engine.Declaring
import StyleBook.Proofs.Engine.Discarding
import StyleBook.Proofs.Engine.Frames
import StyleBook.Proofs.Engine.Links
import StyleBook.Proofs.Engine.Merging
import StyleBook.Proofs.Engine.Naming
import StyleBook.Proofs.Engine.Processing
import StyleBook.Proofs.Engine.Scopes
import StyleBook.Proofs.Name.FreshNames
import StyleBook.Proofs.Name.HandedDown
import StyleBook.Proofs.Name.InheritedNames
import StyleBook.Proofs.Name.KeptCells
import StyleBook.Proofs.Name.Labels
import StyleBook.Proofs.Name.NameCredits
import StyleBook.Proofs.Name.NameOrigins
import StyleBook.Proofs.Name.NameSources
import StyleBook.Proofs.Name.NamingCalls
import StyleBook.Proofs.Name.PlainNames
import StyleBook.Proofs.Name.RuleNames
import StyleBook.Proofs.Name.SlotNames
import StyleBook.Proofs.Name.Slots
import StyleBook.Proofs.Number.ReadingNumbers
import StyleBook.Proofs.Number.Rounding
import StyleBook.Proofs.Order.Ages
import StyleBook.Proofs.Order.Extending
import StyleBook.Proofs.Order.Lockstep
import StyleBook.Proofs.Order.Orders
import StyleBook.Proofs.Order.Seclusion
import StyleBook.Proofs.Rule.Clones
import StyleBook.Proofs.Rule.Contributions
import StyleBook.Proofs.Rule.Handles
import StyleBook.Proofs.Rule.Inheritance
import StyleBook.Proofs.Rule.OwnEntries
import StyleBook.Proofs.Rule.Parents
import StyleBook.Proofs.Rule.RuleKeys
import StyleBook.Proofs.Rule.Stylesets
import StyleBook.Proofs.Scope.Integrity
import StyleBook.Proofs.Scope.Layers
import StyleBook.Proofs.Scope.Lookups
import StyleBook.Proofs.Scope.Vacancies
import StyleBook.Proofs.Scope.Walks
import StyleBook.Proofs.Script.Attempts
import StyleBook.Proofs.Script.Barriers
import StyleBook.Proofs.Script.Confined
import StyleBook.Proofs.Script.Endings
import StyleBook.Proofs.Script.Extensions
import StyleBook.Proofs.Script.FailedDefinitions
import StyleBook.Proofs.Script.FailedGroups
import StyleBook.Proofs.Script.Onwards
import StyleBook.Proofs.Script.Runs
import StyleBook.Proofs.Script.Scripts
import StyleBook.Proofs.Script.SpentNames
import StyleBook.Proofs.Script.Spots
import StyleBook.Proofs.Script.Stepwise
import StyleBook.Proofs.Sheet.Overlays
import StyleBook.Proofs.Sheet.Spellings
import StyleBook.Proofs.Sheet.Writes
import StyleBook.Proofs.Sink.Chronicles
import StyleBook.Proofs.Sink.Inserting
import StyleBook.Proofs.Sink.Journals
import StyleBook.Proofs.Sink.Precedence
import StyleBook.Proofs.Sink.RollingBack
import StyleBook.Proofs.Sink.Sinks
import StyleBook.Proofs.Sink.Users
import StyleBook.Proofs.Sink.Uses
import StyleBook.Proofs.Text.AlikeConversions
import StyleBook.Proofs.Text.AlikeTexts
import StyleBook.Proofs.Text.Likeness
import StyleBook.Proofs.Text.NestedTexts
import StyleBook.Proofs.Text.Omissions
import StyleBook.Proofs.Text.Pruning
import StyleBook.Proofs.Text.QuotedTexts
import StyleBook.Proofs.Text.Skipping
import StyleBook.Proofs.Text.StableTexts
import StyleBook.Proofs.Text.Templates
import StyleBook.Proofs.Text.TextErrors
import StyleBook.Rule.Basic
import StyleBook.Sheet.Selector
import StyleBook.Sheet.Sink
import StyleBook.Sheet.Styleset
import StyleBook.Text.Blank
import StyleBook.Text.DashCase
import StyleBook.Text.Quoted
import StyleBook.Text.Template
import StyleBook.Text.Unseen
import StyleBook.Toml.Document
import StyleBook.Toml.Reader
import StyleBook.Toml.Scalar
import StyleBook.Toml.Value
import StyleBook.Toml.Written
import StyleBook.Value.Basic
import StyleBook.Value.Debug
