import Generics.Text.Blank
import Generics.Text.Glyph
import Generics.Text.Identifier
import Generics.Text.Numeral
import Generics.Text.Quoted
import Generics.Type.Printer
import Generics.Type.Substitution
import Generics.Expr.Parser
import Generics.Catalog.Ancestors
import Generics.Catalog.Document
import Generics.Catalog.Standard
import Generics.Query.WellFormed
import Generics.Inference.Diamond
import Generics.Binding.Basic
import Generics.Binding.Resolver
import Generics.Journal
import Generics.Command.Run
import Generics.Main
import Generics.Proofs.Rebuilding
import Generics.Proofs.Lineages
import Generics.Proofs.Regularity
import Generics.Proofs.Scopes
import Generics.Proofs.Derivations
import Generics.Proofs.Tops
import Generics.Proofs.Realizations
import Generics.Proofs.Captures
import Generics.Proofs.Meetings
import Generics.Proofs.Decisions
import Generics.Proofs.Reductions
import Generics.Proofs.Marks
import Generics.Proofs.Solutions
import Generics.Proofs.Problems
import Generics.Proofs.Settlings
import Generics.Proofs.Searches
import Generics.Proofs.Depths
import Generics.Proofs.Solving
import Generics.Proofs.Ground
import Generics.Proofs.Bounding
import Generics.Proofs.Readings
import Generics.Proofs.Catalogs
import Generics.Proofs.Agreement
import Generics.Proofs.Answers
import Generics.Proofs.Checks
import Generics.Proofs.Inferring
import Generics.Proofs.Soundness
import Generics.Proofs.Fillings
import Generics.Proofs.Necessity
import Generics.Proofs.Aptness
import Generics.Proofs.Uniqueness
import Generics.Proofs.Instances
import Generics.Proofs.Determining
import Generics.Proofs.Exactness
import Generics.Proofs.Verdicts
import Generics.Proofs.Hierarchies
import Generics.Proofs.Ordering
import Generics.Proofs.Instantiation
import Generics.Proofs.Rising
import Generics.Proofs.Reflexivity
import Generics.Proofs.Nesting
import Generics.Proofs.Termination
import Generics.Proofs.Grammar
import Generics.Proofs.Lexing
import Generics.Proofs.Steps
import Generics.Proofs.Limits
import Generics.Proofs.Parsing
import Generics.Proofs.Printing
import Generics.Proofs.Renumbering
import Generics.Proofs.Mirroring
import Generics.Proofs.Namesakes
import Generics.Proofs.Independence
import Generics.Proofs.Hygiene
import Generics.Proofs.Realms
import Generics.Proofs.Composing
import Generics.Proofs.Confinement
import Generics.Proofs.Resolving
import Generics.Proofs.Sessions
import Generics.Proofs.Registries
import Generics.Proofs.Declaring
import Generics.Proofs.Arities
import Generics.Proofs.Thoroughness
import Generics.Proofs.Branches
import Generics.Proofs.Rounds
import Generics.Proofs.Budgets
import Generics.Proofs.Contradictions
import Generics.Proofs.Discipline
import Generics.Proofs.Climbing
import Generics.Proofs.Views
import Generics.Proofs.Erasing
import Generics.Proofs.Rechecking
import Generics.Proofs.Ancestry
import Generics.Proofs.Indexing
import Generics.Proofs.Lexemes
import Generics.Proofs.Replacing
import Generics.Proofs.Cycles
import Generics.Proofs.Registering
import Generics.Proofs.Alphabets
import Generics.Proofs.Provenance
import Generics.Proofs.Conformance
import Generics.Proofs.Acceptance
