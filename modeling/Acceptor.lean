import Acceptor.Automaton.Language
import Acceptor.Check.Checker
import Acceptor.Payload
import Acceptor.PrefixTree
import Acceptor.Proofs.Aliasing
import Acceptor.Proofs.Conservation
import Acceptor.Proofs.Encoding
import Acceptor.Proofs.Epochs
import Acceptor.Proofs.Extension
import Acceptor.Proofs.Finiteness
import Acceptor.Proofs.Graft
import Acceptor.Proofs.Interleaving
import Acceptor.Proofs.Json.Atom
import Acceptor.Proofs.Json.Records
import Acceptor.Proofs.Json.Text
import Acceptor.Proofs.Language
import Acceptor.Proofs.Overruled
import Acceptor.Proofs.Permanence
import Acceptor.Proofs.PrefixTree
import Acceptor.Proofs.Rebuild
import Acceptor.Proofs.Refusal
import Acceptor.Proofs.Report
import Acceptor.Proofs.Restore
import Acceptor.Proofs.Resume
import Acceptor.Proofs.Rounds
import Acceptor.Proofs.RuleIdentity
import Acceptor.Proofs.Search
import Acceptor.Proofs.Shadow
import Acceptor.Proofs.Storage
import Acceptor.Proofs.TermChain
import Acceptor.Proofs.TermText
import Acceptor.Proofs.TreeShape
import Acceptor.Proofs.Verdict
import Acceptor.Run
import Acceptor.Snapshot.Restore
import Acceptor.Snapshot.Storage
import Acceptor.Term
