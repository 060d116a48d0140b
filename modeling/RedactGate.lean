import RedactGate.Desktop.ArchiveRewriting
import RedactGate.Properties.Anchoring
import RedactGate.Properties.AuditCommitment
import RedactGate.Properties.BatchIsolation
import RedactGate.Properties.CacheCoherence
import RedactGate.Properties.CheckDigits
import RedactGate.Properties.ConcurrentAnonymize
import RedactGate.Properties.ConcurrentAudit
import RedactGate.Properties.ConcurrentTokenize
import RedactGate.Properties.CsvCoverage
import RedactGate.Properties.CsvGrid
import RedactGate.Properties.CsvRoundTrip
import RedactGate.Properties.DecodeRoundTrip
import RedactGate.Properties.DetectionScore
import RedactGate.Properties.DictionaryFreshness
import RedactGate.Properties.DictionarySearch
import RedactGate.Properties.DocumentHistory
import RedactGate.Properties.EchoedTexts
import RedactGate.Properties.ForwardedAudit
import RedactGate.Properties.HardBlock
import RedactGate.Properties.IbanErrors
import RedactGate.Properties.ImmediateRestore
import RedactGate.Properties.KnownSurfaces
import RedactGate.Properties.LabelInsertion
import RedactGate.Properties.LabelReuse
import RedactGate.Properties.MergeOrder
import RedactGate.Properties.NewValues
import RedactGate.Properties.NodeRewriting
import RedactGate.Properties.NonInterference
import RedactGate.Properties.Normalization
import RedactGate.Properties.OfficeFiles
import RedactGate.Properties.OnePerson
import RedactGate.Properties.OverlapResolution
import RedactGate.Properties.PasswordChange
import RedactGate.Properties.ProjectIsolation
import RedactGate.Properties.PromptTexts
import RedactGate.Properties.Reinflation
import RedactGate.Properties.RemainingCopies
import RedactGate.Properties.RestoreAlignment
import RedactGate.Properties.Reversibility
import RedactGate.Properties.RoundTrip
import RedactGate.Properties.ServerRestore
import RedactGate.Properties.SessionIsolation
import RedactGate.Properties.Shadowing
import RedactGate.Properties.StreamChoices
import RedactGate.Properties.StreamFailure
import RedactGate.Properties.Streaming
import RedactGate.Properties.TamperEvidence
import RedactGate.Properties.TextFileRestore
import RedactGate.Properties.TokenStore
import RedactGate.Properties.UniqueIndex
import RedactGate.Properties.ValueLabels
import RedactGate.Properties.WalkCompleteness
import RedactGate.Properties.WalkLens
