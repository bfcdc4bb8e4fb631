import LaxJson.Document
import LaxJson.Proofs.Document.Depth
import LaxJson.Proofs.Document.EndMark
import LaxJson.Proofs.Document.Equality
import LaxJson.Proofs.Document.Exact
import LaxJson.Proofs.Document.Faults
import LaxJson.Proofs.Document.Halting
import LaxJson.Proofs.Document.Keys
import LaxJson.Proofs.Document.Pruning
import LaxJson.Proofs.Document.Repeated
import LaxJson.Proofs.Scanner.Balance
import LaxJson.Proofs.Scanner.Conduct
import LaxJson.Proofs.Scanner.Counters
import LaxJson.Proofs.Scanner.EntryPoints
import LaxJson.Proofs.Scanner.Exhausted
import LaxJson.Proofs.Scanner.Fields
import LaxJson.Proofs.Scanner.Releasing
import LaxJson.Proofs.Scanner.Retracing
import LaxJson.Proofs.Scanner.Search
import LaxJson.Proofs.Scanner.Spelling
import LaxJson.Proofs.Scanner.Taking
import LaxJson.Proofs.Source.Retries
import LaxJson.Proofs.Source.Slices
import LaxJson.Proofs.Source.Tape
import LaxJson.Proofs.Text.Escape
import LaxJson.Proofs.Value.Classification
import LaxJson.Scanner.Describe
import LaxJson.Session
import LaxJson.Source.Script
