import PathRules.Description
import PathRules.Proofs.BottomUp
import PathRules.Proofs.Comparisons
import PathRules.Proofs.Distinctness
import PathRules.Proofs.EditLaws
import PathRules.Proofs.FixedPoint
import PathRules.Proofs.FormEncoding
import PathRules.Proofs.Grouping
import PathRules.Proofs.Integers
import PathRules.Proofs.LeastOrder
import PathRules.Proofs.Listing
import PathRules.Proofs.PathFaults
import PathRules.Proofs.PathGrammar
import PathRules.Proofs.Precedence
import PathRules.Proofs.Relocation
import PathRules.Proofs.Replacements
import PathRules.Proofs.SizeBounds
import PathRules.Proofs.Stopping
import PathRules.Proofs.Templates
import PathRules.Proofs.Timeouts
import PathRules.Proofs.TreeDocuments
