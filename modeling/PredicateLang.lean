import PredicateLang.KeyMap.Lemmas
import PredicateLang.Main
import PredicateLang.Proofs.Command.Channels
import PredicateLang.Proofs.Evaluation.Connectives
import PredicateLang.Proofs.Evaluation.Failure
import PredicateLang.Proofs.Evaluation.Insertion
import PredicateLang.Proofs.Evaluation.Origin
import PredicateLang.Proofs.Evaluation.Path
import PredicateLang.Proofs.Evaluation.Relaxation
import PredicateLang.Proofs.Evaluation.Variables
import PredicateLang.Proofs.Printing.Meaning
import PredicateLang.Proofs.Reading.Blame
import PredicateLang.Proofs.Reading.Faults
import PredicateLang.Proofs.Reading.Juxtaposition
import PredicateLang.Proofs.Reading.Layout
import PredicateLang.Proofs.Reading.Parallel
import PredicateLang.Proofs.Reading.Progress
import PredicateLang.Proofs.Scanning.Joining
import PredicateLang.Proofs.Scanning.Munch
import PredicateLang.Proofs.Scanning.Quotes
import PredicateLang.Proofs.Scanning.Tiling
import PredicateLang.Proofs.Value.Equality
import PredicateLang.Proofs.Value.Exactness
import PredicateLang.Proofs.Value.Exchange
import PredicateLang.Proofs.Value.Sameness
import PredicateLang.Token.Lemmas
import PredicateLang.Proofs.Number.Overflow
import PredicateLang.Proofs.Scanning.Numbers
import PredicateLang.Proofs.Command.Listing
import PredicateLang.Proofs.Reading.Counters
import PredicateLang.Proofs.Reading.Nesting
import PredicateLang.Proofs.Reading.Descent
import PredicateLang.Proofs.Reading.Interruption
