import ApiSurface.Text.Letter
import ApiSurface.Text.Digit
import ApiSurface.Text.Blank
import ApiSurface.Token.Basic
import ApiSurface.Token.Numeral
import ApiSurface.Token.Scan
import ApiSurface.Model.Normal
import ApiSurface.Model.TypeParameter
import ApiSurface.Json.Printer
import ApiSurface.Json.Reader
import ApiSurface.Diagnostic
import ApiSurface.Json.Api
import ApiSurface.Xml.Api
import ApiSurface.Description
import ApiSurface.Settings.Json
import ApiSurface.Text.Utf8
import ApiSurface.Import.Batch
import ApiSurface.Settings.File
import ApiSurface.Archive.Checksum
import ApiSurface.Archive.Directory
import ApiSurface.Archive.Inflate
import ApiSurface.Archive.Contents
import ApiSurface.Files.Tree
import ApiSurface.Cli.Run
import ApiSurface.Main
import ApiSurface.Proofs.Grammar.Remainder
import ApiSurface.Proofs.Grammar.Scheme
import ApiSurface.Proofs.Grammar.Described
import ApiSurface.Proofs.Grammar.Derivation
import ApiSurface.Proofs.Grammar.Word
import ApiSurface.Proofs.Grammar.TypeRef
import ApiSurface.Proofs.Grammar.Noise
import ApiSurface.Proofs.Grammar.Body
import ApiSurface.Proofs.Grammar.BlockLanguage
import ApiSurface.Proofs.Grammar.BracketStack
import ApiSurface.Proofs.Grammar.Header
import ApiSurface.Proofs.Grammar.Callable
import ApiSurface.Proofs.Grammar.Declaration
import ApiSurface.Proofs.Grammar.File
import ApiSurface.Proofs.Model.Merge
import ApiSurface.Proofs.Model.Normal
import ApiSurface.Proofs.Text.Position
import ApiSurface.Proofs.Token.Tiling
import ApiSurface.Proofs.Model.Pieces
import ApiSurface.Proofs.Model.Lifting
import ApiSurface.Proofs.Import.Declarations
import ApiSurface.Proofs.Text.Boundary
import ApiSurface.Proofs.Token.Numeral
import ApiSurface.Proofs.Token.Lexeme
import ApiSurface.Proofs.Token.Lookahead
import ApiSurface.Proofs.Token.CommentFree
import ApiSurface.Proofs.Token.Culprit
import ApiSurface.Proofs.Token.LineBreaks
import ApiSurface.Proofs.Token.LongestNumeral
import ApiSurface.Proofs.Xml.Element
import ApiSurface.Proofs.Xml.Api
import ApiSurface.Proofs.Json.Api
import ApiSurface.Proofs.Grammar.Layout
import ApiSurface.Proofs.Grammar.TypeCanonical
import ApiSurface.Proofs.Grammar.ConstantArguments
import ApiSurface.Proofs.Grammar.WellFormed
import ApiSurface.Proofs.Import.FirstFailure
import ApiSurface.Proofs.Import.Framework
import ApiSurface.Proofs.Import.EntryOrder
import ApiSurface.Proofs.Grammar.TypeParameter
import ApiSurface.Proofs.Model.DistinctNames
import ApiSurface.Proofs.Model.Lookup
import ApiSurface.Proofs.Model.FirstOccurrence
import ApiSurface.Proofs.Xml.Parameters
import ApiSurface.Proofs.Grammar.FailurePlace
import ApiSurface.Proofs.Grammar.HeaderFlags
import ApiSurface.Proofs.Grammar.Program
import ApiSurface.Proofs.Grammar.Progress
