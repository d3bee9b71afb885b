import ThriftIdl.Table
import ThriftIdl.Location
import ThriftIdl.Identifier
import ThriftIdl.Keyword
import ThriftIdl.Text.Integer
import ThriftIdl.Text.Lines
import ThriftIdl.Line.Cursor
import ThriftIdl.Token
import ThriftIdl.Document
import ThriftIdl.Document.Reading
import ThriftIdl.Model
import ThriftIdl.Json.Printing
import ThriftIdl.Json.Reading
import ThriftIdl.Model.Decoding
import ThriftIdl.Builder
import ThriftIdl.CommandLine
import ThriftIdl.Main
import ThriftIdl.Proofs.Json.RoundTrip
import ThriftIdl.Proofs.Json.Keys
import ThriftIdl.Proofs.Sorting
import ThriftIdl.Proofs.Merging
import ThriftIdl.Proofs.Resolution
import ThriftIdl.Proofs.Document.Reading
import ThriftIdl.Proofs.Parsing
import ThriftIdl.Proofs.Calls
import ThriftIdl.Proofs.Independence
import ThriftIdl.Proofs.Model.Records
import ThriftIdl.Proofs.Model.RoundTrip
import ThriftIdl.Proofs.Model.Carried
import ThriftIdl.Proofs.Model.Decoded
import ThriftIdl.Proofs.Grammar.Lines
import ThriftIdl.Proofs.Model.Parsed
import ThriftIdl.Proofs.Model.Recovery
import ThriftIdl.Proofs.Failure
import ThriftIdl.Proofs.Document.LineBreaks
import ThriftIdl.Proofs.Document.WellFormed
import ThriftIdl.Proofs.References
import ThriftIdl.Proofs.Canonical.Reading
import ThriftIdl.Proofs.Model.Listed
import ThriftIdl.Proofs.Model.Acceptance
import ThriftIdl.Proofs.Model.Members
import ThriftIdl.Proofs.Grammar.Violations
import ThriftIdl.Proofs.Document.Faults
import ThriftIdl.Proofs.Obstruction
import ThriftIdl.Proofs.Internal
import ThriftIdl.Proofs.Builds
import ThriftIdl.Proofs.Draining
import ThriftIdl.Proofs.Restriction
import ThriftIdl.Proofs.Document.Labels
import ThriftIdl.Proofs.Document.Cleaning
import ThriftIdl.Proofs.Cursor
import ThriftIdl.Proofs.Document.Delivery
import ThriftIdl.Proofs.Document.Concatenation
import ThriftIdl.Proofs.Clashes
import ThriftIdl.Proofs.Files
import ThriftIdl.Proofs.CommandLine
import ThriftIdl.Proofs.Grammar.Braces
import ThriftIdl.Proofs.Grammar.Blocks
import ThriftIdl.Proofs.Grammar.Counting
import ThriftIdl.Proofs.Grammar.EnumItems
import ThriftIdl.Proofs.Document.Names
import ThriftIdl.Proofs.Document.Misplaced
import ThriftIdl.Proofs.Grammar.Groups
import ThriftIdl.Proofs.Trimming
import ThriftIdl.Proofs.Document.Lists
import ThriftIdl.Proofs.Cursor.Bookmark
import ThriftIdl.Proofs.Keyword.Suggestion
import ThriftIdl.Proofs.Document.Placement
import ThriftIdl.Proofs.Grammar.Exceptions
import ThriftIdl.Proofs.Excerpts
import ThriftIdl.Proofs.Document.Stems
import ThriftIdl.Proofs.Model.Complaints
import ThriftIdl.Proofs.Model.Places
import ThriftIdl.Proofs.Walk
import ThriftIdl.Proofs.Paths
import ThriftIdl.Proofs.Sources
import ThriftIdl.Proofs.FileBuilds
import ThriftIdl.Proofs.Grammar.SenumTexts
import ThriftIdl.Proofs.Text.Literal
import ThriftIdl.Proofs.HandOff
