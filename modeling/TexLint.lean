import TexLint.Main
import TexLint.Proofs.Knowledge.LoadClosure
import TexLint.Proofs.Source.Acceptance
import TexLint.Proofs.Document.Correspondence
import TexLint.Proofs.Document.Delimiters
import TexLint.Proofs.Text.Splitting
import TexLint.Proofs.Manuscript.ImportComments
import TexLint.Proofs.Manuscript.Fingerprint
import TexLint.Proofs.Check.FixRun
import TexLint.Proofs.Check.Resolution
import TexLint.Proofs.Check.AliasClosure
import TexLint.Proofs.Check.AliasUpdates
import TexLint.Proofs.Source.Shape
import TexLint.Proofs.Check.ReferencePlaces
import TexLint.Proofs.Check.ImportFrame
import TexLint.Proofs.Machine.Pipeline
import TexLint.Proofs.Check.Monotone
import TexLint.Proofs.Text.Coverage
import TexLint.Proofs.Manuscript.StarredDefinition
import TexLint.Proofs.Check.ConflictRun
import TexLint.Proofs.Knowledge.Reload
import TexLint.Proofs.Knowledge.Overlays
import TexLint.Proofs.Check.FoundPackages
import TexLint.Proofs.Knowledge.Persistence
import TexLint.Proofs.Manuscript.SameFile
import TexLint.Proofs.Check.IndexProgram
import TexLint.Proofs.Check.EnvironmentNames
import TexLint.Proofs.Check.LeastAliases
import TexLint.Proofs.Check.ReportOrder
import TexLint.Proofs.Document.Nesting
import TexLint.Proofs.Text.Commas
import TexLint.Proofs.Knowledge.IndexGrowth
import TexLint.Proofs.Document.Contents
import TexLint.Proofs.Source.Concatenation
import TexLint.Proofs.Document.Concatenation
import TexLint.Proofs.Source.Tokenization
import TexLint.Proofs.Document.Options
import TexLint.Proofs.Document.RequiredTexts
import TexLint.Proofs.Knowledge.StyleComments
