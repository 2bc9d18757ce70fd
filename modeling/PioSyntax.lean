import PioSyntax.Main
import PioSyntax.Proofs.Classification.BlockComment
import PioSyntax.Proofs.Classification.Comments
import PioSyntax.Proofs.Classification.ForeignBody
import PioSyntax.Proofs.Classification.Keywords
import PioSyntax.Proofs.Classification.LetterCase
import PioSyntax.Proofs.Classification.RuleOrder
import PioSyntax.Proofs.Classification.Statements
import PioSyntax.Proofs.CommandLine.Ending
import PioSyntax.Proofs.CommandLine.Precedence
import PioSyntax.Proofs.Diagnostic
import PioSyntax.Proofs.Dump
import PioSyntax.Proofs.Html.Document
import PioSyntax.Proofs.Html.TextContent
import PioSyntax.Proofs.Pattern.Keyword
import PioSyntax.Proofs.SemanticTokens.Column
import PioSyntax.Proofs.SemanticTokens.LineEnding
import PioSyntax.Proofs.SemanticTokens.Stream
import PioSyntax.Proofs.Style.Look
