import MiniScheme.Session.Bytes
import MiniScheme.Session.Command
import MiniScheme.Workbench
import MiniScheme.Proofs.Limit
import MiniScheme.Proofs.Code.Layout
import MiniScheme.Proofs.Code.Separation
import MiniScheme.Proofs.Code.Immutable
import MiniScheme.Proofs.NormalForm
import MiniScheme.Proofs.Holding
import MiniScheme.Proofs.Isolation.Matching
import MiniScheme.Proofs.Isolation.Embedding
import MiniScheme.Proofs.Isolation.Run
import MiniScheme.Proofs.Isolation.Sessions
import MiniScheme.Proofs.Grammar
import MiniScheme.Proofs.Tokenization
import MiniScheme.Proofs.Spellings
import MiniScheme.Proofs.Ranges.Evaluation
import MiniScheme.Proofs.Scope.Sessions
import MiniScheme.Proofs.Answers
import MiniScheme.Proofs.Stepwise.Evaluation
import MiniScheme.Proofs.Whole
import MiniScheme.Proofs.Stepwise.Whole
import MiniScheme.Proofs.Stepwise.Scenes
import MiniScheme.Proofs.Registration.Alive
import MiniScheme.Proofs.Registration.Tracked
import MiniScheme.Proofs.Registration.Evaluation
import MiniScheme.Proofs.Registration.Scenes
import MiniScheme.Proofs.Closing
import MiniScheme.Proofs.Naming
import MiniScheme.Proofs.Equality
import MiniScheme.Proofs.Unfolding
import MiniScheme.Proofs.Utf8
import MiniScheme.Proofs.Boundary
import MiniScheme.Proofs.Renaming.Code
import MiniScheme.Proofs.Renaming.Loading
import MiniScheme.Proofs.Renaming.Run
import MiniScheme.Proofs.Renaming.Sessions
import MiniScheme.Proofs.Scope.Visibility
import MiniScheme.Proofs.Refusals
import MiniScheme.Proofs.Mutation
import MiniScheme.Proofs.Isolation.Surroundings
import MiniScheme.Proofs.Binding.Forms
import MiniScheme.Proofs.Isolation.Agreement
import MiniScheme.Proofs.Binding.Calls
import MiniScheme.Proofs.Streams
import MiniScheme.Proofs.Applications
import MiniScheme.Proofs.Arithmetic
import MiniScheme.Proofs.Slices
import MiniScheme.Proofs.Stepwise.Guard
import MiniScheme.Proofs.Comparisons
import MiniScheme.Proofs.Shallow.Plot
import MiniScheme.Proofs.Shallow.Run
