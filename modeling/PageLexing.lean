import PageLexing.Automaton
import PageLexing.Binary64
import PageLexing.Byte
import PageLexing.Delimiter
import PageLexing.Document
import PageLexing.Fault
import PageLexing.Grammar
import PageLexing.Json
import PageLexing.Json.Reading
import PageLexing.Json.Record
import PageLexing.Language
import PageLexing.Listing
import PageLexing.Markup
import PageLexing.Nesting
import PageLexing.Page.Dialect
import PageLexing.Page.Encoding
import PageLexing.Page.Search
import PageLexing.Page.State
import PageLexing.Page.Vocabulary
import PageLexing.Proofs.Boundary
import PageLexing.Proofs.Comments
import PageLexing.Proofs.Composition
import PageLexing.Proofs.Delimiters
import PageLexing.Proofs.Editing
import PageLexing.Proofs.Exactness
import PageLexing.Proofs.Fitting
import PageLexing.Proofs.Frames
import PageLexing.Proofs.Lines
import PageLexing.Proofs.Locality
import PageLexing.Proofs.Newlines
import PageLexing.Proofs.Partition
import PageLexing.Proofs.Pending
import PageLexing.Proofs.Probing
import PageLexing.Proofs.Reading
import PageLexing.Proofs.Relocation
import PageLexing.Proofs.Restart
import PageLexing.Proofs.Retention
import PageLexing.Proofs.Resting
import PageLexing.Proofs.Resumption
import PageLexing.Proofs.Scanning
import PageLexing.Proofs.Searching
import PageLexing.Proofs.Sessions
import PageLexing.Proofs.Sublanguages
import PageLexing.Proofs.Whole
import PageLexing.Reader
import PageLexing.Scan
import PageLexing.Schedule
import PageLexing.Script
import PageLexing.Settings
import PageLexing.Settings.KeyPath
import PageLexing.Settings.Layers
import PageLexing.Settings.Toml
import PageLexing.Settings.Toml.Moment
import PageLexing.Settings.Toml.Scalar
import PageLexing.Settings.Toml.Tree
import PageLexing.Settings.Value
import PageLexing.Tag
import PageLexing.Text.Hex
import PageLexing.Text.Quoted
import PageLexing.Text.Unmarked
import PageLexing.Text.Utf8
import PageLexing.Token
import PageLexing.Vocabulary
import PageLexing.Proofs.Json
import PageLexing.Proofs.Encoding
import PageLexing.Proofs.Brackets
import PageLexing.Proofs.Deciding
import PageLexing.Proofs.Candidates
import PageLexing.Proofs.Transparency
import PageLexing.Proofs.Scripts
import PageLexing.Proofs.Bodies
import PageLexing.Proofs.Reporting
import PageLexing.Proofs.Naming
import PageLexing.Proofs.Terminators
import PageLexing.Proofs.Opacity
import PageLexing.Proofs.Enclosure
import PageLexing.Proofs.Openings
import PageLexing.Proofs.Fragments
import PageLexing.Proofs.CommentEnds
import PageLexing.Proofs.Quotes
import PageLexing.Proofs.Words
import PageLexing.Proofs.Validation
import PageLexing.Proofs.Symbols
import PageLexing.Proofs.TagErrors
import PageLexing.Proofs.Recovery
