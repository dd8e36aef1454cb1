import EditableGrammar.Main
import EditableGrammar.Grammar.Draft
import EditableGrammar.Proofs.Language.Enumeration
import EditableGrammar.Proofs.Grammar.Removal
import EditableGrammar.Proofs.Grammar.Refinement
import EditableGrammar.Proofs.Recursion.Content
import EditableGrammar.Proofs.Language.Independence
import EditableGrammar.Proofs.Recursion.Ways
import EditableGrammar.Proofs.Language.Straight
import EditableGrammar.Proofs.Language.Rewriting
import EditableGrammar.Proofs.Language.Drawing
import EditableGrammar.Proofs.Language.Period
import EditableGrammar.Proofs.Language.Sampling
import EditableGrammar.Proofs.Format.Listed
import EditableGrammar.Proofs.Format.Reported
import EditableGrammar.Proofs.Format.JsonRules
import EditableGrammar.Proofs.Recursion.Discovery
import EditableGrammar.Proofs.Grammar.Chronicle
import EditableGrammar.Proofs.Grammar.Refusal
import EditableGrammar.Proofs.Grammar.StartSymbol
import EditableGrammar.Proofs.Grammar.Commuting
import EditableGrammar.Proofs.Language.Substitution
import EditableGrammar.Proofs.Recursion.Shrinking
import EditableGrammar.Proofs.Format.Joined
import EditableGrammar.Proofs.Language.Choices
import EditableGrammar.Proofs.Grammar.Adoption
import EditableGrammar.Proofs.Text.Unescape
import EditableGrammar.Proofs.Language.Fairness
import EditableGrammar.Proofs.Format.Unclosed
import EditableGrammar.Proofs.Format.JsonDocuments
import EditableGrammar.Proofs.Grammar.Pruning
import EditableGrammar.Proofs.Format.RuleText
import EditableGrammar.Proofs.Language.ExpansionRun
import EditableGrammar.Proofs.Recursion.DepthFirst
import EditableGrammar.Proofs.Recursion.Walks
import EditableGrammar.Proofs.Format.Scanning
