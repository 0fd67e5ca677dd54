import Reckoner.Expr
import Reckoner.Main
import Reckoner.Session
import Reckoner.Proofs.Evaluation
import Reckoner.Proofs.SyntaxErrors
import Reckoner.Proofs.Rendering
import Reckoner.Proofs.LexicalGrammar
import Reckoner.Proofs.Separators
import Reckoner.Proofs.ErrorPlaces
import Reckoner.Proofs.FinalErrors
import Reckoner.Proofs.Composition
import Reckoner.Proofs.Blanks
import Reckoner.Proofs.LosslessLexing
import Reckoner.Proofs.Sessions
import Reckoner.Proofs.FunctionTables
import Reckoner.Proofs.NumberLexemes
import Reckoner.Proofs.Batches
import Reckoner.Proofs.Nesting
import Reckoner.Proofs.CanonicalText
import Reckoner.Proofs.OnePass
