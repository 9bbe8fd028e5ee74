import Acceptors.Main
import Acceptors.Proofs.Automaton
import Acceptors.Proofs.Dfa.Build
import Acceptors.Proofs.Dfa.ClassNames
import Acceptors.Proofs.Dfa.Equivalence
import Acceptors.Proofs.Dfa.Fixed
import Acceptors.Proofs.Document.DocumentLayout
import Acceptors.Proofs.Document.FlowItem
import Acceptors.Proofs.Document.Outline
import Acceptors.Proofs.Findings
import Acceptors.Proofs.Grammar.Bodies
import Acceptors.Proofs.Grammar.Cells
import Acceptors.Proofs.Grammar.Choice
import Acceptors.Proofs.Grammar.Completion
import Acceptors.Proofs.Grammar.Leftmost
import Acceptors.Proofs.Grammar.Useless
import Acceptors.Proofs.Nfa.NamedPath
import Acceptors.Proofs.Nfa.Simulation
import Acceptors.Proofs.Regex.Compiled
import Acceptors.Proofs.Regex.Document
import Acceptors.Proofs.Regex.Partition
import Acceptors.Proofs.Regex.Redisplay
import Acceptors.Proofs.Source.Agreement
import Acceptors.Proofs.Source.Declared
import Acceptors.Proofs.Source.Unplaced
import Acceptors.Proofs.StateIndex
import Acceptors.Proofs.Turing.Bounds
import Acceptors.Proofs.Turing.Build
import Acceptors.Proofs.Turing.Chunks
import Acceptors.Proofs.Turing.Findings
import Acceptors.Proofs.Turing.Observed
import Acceptors.Proofs.Turing.Replay
import Acceptors.Proofs.Turing.Touched
