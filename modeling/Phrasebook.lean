import Phrasebook.Main
import Phrasebook.Shell.Highlight
import Phrasebook.Shell.History
import Phrasebook.Shell.Tab
import Phrasebook.Trie.Numbered
import Phrasebook.Proofs.Trie.Paths
import Phrasebook.Proofs.Trie.Spelling
import Phrasebook.Proofs.Dictionary.Calls
import Phrasebook.Proofs.Dictionary.Stored
import Phrasebook.Proofs.Dictionary.Derivation
import Phrasebook.Proofs.Dictionary.LeftRecursion
import Phrasebook.Proofs.Suggestion.Continuation
import Phrasebook.Proofs.Walk.Reading
import Phrasebook.Proofs.Walk.Finding
import Phrasebook.Proofs.Suggestion.Answers
import Phrasebook.Proofs.Lookahead.Filling
import Phrasebook.Proofs.Lookahead.Resolution
import Phrasebook.Proofs.Dictionary.Arrangement
import Phrasebook.Proofs.Arena.Layout
import Phrasebook.Proofs.Dictionary.Contents
import Phrasebook.Proofs.Grammar.Rebuilding
import Phrasebook.Proofs.Grammar.Documents
import Phrasebook.Proofs.Dictionary.Grafting
import Phrasebook.Proofs.Suggestion.Acceptance
import Phrasebook.Proofs.Suggestion.Persistence
import Phrasebook.Proofs.Suggestion.Narrowing
import Phrasebook.Proofs.Suggestion.Typing
import Phrasebook.Proofs.Guard
import Phrasebook.Proofs.Walk.Guard
import Phrasebook.Proofs.Lookahead.Guard
import Phrasebook.Proofs.Suggestion.Ending
import Phrasebook.Proofs.Detection
import Phrasebook.Proofs.Shell.Reloading
import Phrasebook.Proofs.Shell.Restarting
import Phrasebook.Proofs.CommandLine.StoredFormat
import Phrasebook.Proofs.Shell.Idling
import Phrasebook.Proofs.Dictionary.Editing
import Phrasebook.Proofs.Shell.Lanes
import Phrasebook.Proofs.Dictionary.Reordering
import Phrasebook.Proofs.Lookahead.Settling
import Phrasebook.Proofs.Lookahead.Stopping
import Phrasebook.Proofs.Pattern.Writing
import Phrasebook.Proofs.Grammar.Checking
import Phrasebook.Proofs.Walk.Ends
import Phrasebook.Proofs.Dictionary.Listing
import Phrasebook.Proofs.Shell.Offering
import Phrasebook.Proofs.Grammar.Truncation
import Phrasebook.Proofs.Shell.Selection
import Phrasebook.Proofs.Shell.Placing
import Phrasebook.Proofs.Shell.Colouring
import Phrasebook.Proofs.Trie.Filing
import Phrasebook.Proofs.Walk.Shape
