import StoreAudit.Command.Trial
import StoreAudit.Json.Parsing
import StoreAudit.Json.Reader
import StoreAudit.Main
import StoreAudit.Proofs.Consistency.Strong
import StoreAudit.Proofs.Generate.History
import StoreAudit.Proofs.Correlation.Observe
import StoreAudit.Proofs.Correlation.Pairing
import StoreAudit.Proofs.Correlation.Interleaving
import StoreAudit.Proofs.Grammar.Leaf
import StoreAudit.Proofs.Grammar.Phrase
import StoreAudit.Proofs.Log.Derivation
import StoreAudit.Proofs.Log.MessageLine
import StoreAudit.Proofs.Log.Token
import StoreAudit.Proofs.Text.Lines
import StoreAudit.Proofs.Log.MessageReader
import StoreAudit.Proofs.Log.Detection
import StoreAudit.Proofs.Command.Messages
import StoreAudit.Proofs.Generate.MessageLog
import StoreAudit.Proofs.Consistency.Acknowledgement
import StoreAudit.Proofs.Consistency.Streaming
import StoreAudit.Proofs.Correlation.Answered
import StoreAudit.Proofs.Consistency.OnePass
import StoreAudit.Proofs.Consistency.Arrangement
import StoreAudit.Proofs.Consistency.Keys
import StoreAudit.Proofs.Log.RecordLine
import StoreAudit.Proofs.Log.RecordReader
import StoreAudit.Proofs.Generate.RecordLog
import StoreAudit.Proofs.Correlation.Conservation
import StoreAudit.Proofs.Consistency.Prefixes
import StoreAudit.Proofs.Consistency.Deletion
import StoreAudit.Proofs.Consistency.Strictness
import StoreAudit.Proofs.Generate.Shape
import StoreAudit.Proofs.Log.Noise
import StoreAudit.Proofs.Grammar.Stop
import StoreAudit.Proofs.Log.Column
import StoreAudit.Proofs.Stats.Latency
import StoreAudit.Proofs.Stats.Workload
import StoreAudit.Proofs.Log.Lexing
