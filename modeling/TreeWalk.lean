import TreeWalk.Main
import TreeWalk.Proofs.Grammar.RoundTrip.Programs
import TreeWalk.Proofs.Run.Receivers
import TreeWalk.Proofs.Run.References
import TreeWalk.Proofs.Run.Returns
import TreeWalk.Proofs.Scope.Acceptance
import TreeWalk.Proofs.Scope.Distances
import TreeWalk.Proofs.Scope.Traceless
import TreeWalk.Proofs.Lexis.Pieces
import TreeWalk.Proofs.Lexis.Longest
import TreeWalk.Proofs.Lexis.Scanning
import TreeWalk.Proofs.Lexis.Resuming
import TreeWalk.Proofs.Counterparts.Concatenation
import TreeWalk.Proofs.Run.Extending
import TreeWalk.Proofs.Run.Sequels
import TreeWalk.Proofs.Run.Globals
import TreeWalk.Proofs.Run.Links
import TreeWalk.Proofs.Run.Passing
import TreeWalk.Proofs.Grammar.Arguments.Separating
import TreeWalk.Proofs.Grammar.Lists.Limit
import TreeWalk.Proofs.CommandLine.Prompting
import TreeWalk.Proofs.Run.Restoring
import TreeWalk.Proofs.Run.Calling
import TreeWalk.Proofs.Run.Initializers
import TreeWalk.Proofs.Loops.Observing
import TreeWalk.Proofs.Lexis.Spacing
import TreeWalk.Proofs.Frames.Sharing
import TreeWalk.Proofs.Numbers.ReadingBack
import TreeWalk.Proofs.Rendering.Faithful
import TreeWalk.Proofs.Run.Settling
