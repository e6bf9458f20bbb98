import FormalGrammar.Document
import FormalGrammar.Grammar.Comparison
import FormalGrammar.Grammar.Derivation
import FormalGrammar.Grammar.Request
import FormalGrammar.Parsing
import FormalGrammar.Properties
import FormalGrammar.Term.Assembly
import FormalGrammar.Term.WellFormed
import FormalGrammar.Proofs.References
import FormalGrammar.Proofs.Walk
import FormalGrammar.Proofs.WalkRounds
import FormalGrammar.Proofs.ProductionGraph
import FormalGrammar.Proofs.Outcome
import FormalGrammar.Proofs.ClosedGrammar
import FormalGrammar.Proofs.Derivations
import FormalGrammar.Proofs.Pruning
import FormalGrammar.Proofs.Equality
import FormalGrammar.Proofs.FixedPoint
import FormalGrammar.Proofs.Erasure
import FormalGrammar.Proofs.Closing
import FormalGrammar.Proofs.OptionAgreement
import FormalGrammar.Proofs.Rearrangement
import FormalGrammar.Proofs.UnusedCycles
import FormalGrammar.Proofs.Exclusions
import FormalGrammar.Proofs.Splicing
import FormalGrammar.Proofs.AddedNodes
import FormalGrammar.Proofs.Evaluation
import FormalGrammar.Proofs.FlatTerms
import FormalGrammar.Proofs.Descent
import FormalGrammar.Proofs.ReferenceOrder
import FormalGrammar.Proofs.UndefinedReferences
import FormalGrammar.Proofs.Bracketing
import FormalGrammar.Proofs.SequenceLaws
import FormalGrammar.Proofs.ParserOptions
import FormalGrammar.Proofs.ChoiceLaws
import FormalGrammar.Proofs.Excluding
import FormalGrammar.Proofs.Refusals
import FormalGrammar.Proofs.ResolutionLog
import FormalGrammar.Proofs.Formatting
import FormalGrammar.Proofs.Attachments
import FormalGrammar.Proofs.Equivalence
import FormalGrammar.Proofs.Congruence
import FormalGrammar.Proofs.Interchange
import FormalGrammar.Proofs.PropertyWords
