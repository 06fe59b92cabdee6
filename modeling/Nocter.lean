import Nocter.TaskRuntime.SuspendRollback
import Nocter.BlockingRuntime.ServiceRuns
import Nocter.BlockingRuntime.RetirementRuns
import Nocter.Model.TypeAuthorityRuns
import Nocter.DurableStore.StoreGuarantees
import Nocter.Sync.ChannelRuns
import Nocter.Sync.Mutex
import Nocter.Sync.Cancellation
import Nocter.Http.Framing
import Nocter.Http.ResponseRoundTrip
import Nocter.HashTable.TableRuns
import Nocter.Archive.TarRuns
import Nocter.Buffering.ReaderRuns
import Nocter.Http.ServerRuns
import Nocter.Arm64.MemoryParallelCopy
import Nocter.Arm64.CodeControlFlow
import Nocter.Arm64.RegisterAllocationRuns
import Nocter.Source.LineIndexConversions
import Nocter.Json.NumberExactness
import Nocter.Machine.ContextPlan
import Nocter.Machine.DataflowLiveness
import Nocter.DurableStore.JournalRoundTrip
import Nocter.DurableStore.Checksum
import Nocter.Persistent.VectorRuns
import Nocter.Persistent.MapRuns
import Nocter.DurableStore.SlotStoreRuns
import Nocter.ConstantEvaluation.ScalarAgreement
import Nocter.Base64.Profiles
import Nocter.Http.RouterRuns
import Nocter.ConstantEvaluation.DecimalAgreement
import Nocter.Vectors.Runs
import Nocter.Checking.OwnershipRuns
import Nocter.Bytes.Variable
import Nocter.Http.QueryPairs
import Nocter.Lsp.Transport
import Nocter.Digest.Sha256
import Nocter.Num.Format
import Nocter.Random.Sampling
import Nocter.Arm64.FrameLayout
import Nocter.Mir.Validation
import Nocter.Text.Casing
import Nocter.Text.Splitting
import Nocter.Package.Resolution
import Nocter.ConstantEvaluation.BigNat
import Nocter.Http.Cookies
import Nocter.Buffering.Writers
import Nocter.Fs.RecursiveRemoval
