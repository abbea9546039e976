import MaltClient.BackupHistoryReads
import MaltClient.BackupPlansReads
import MaltClient.BranchNames
import MaltClient.BucketSyncRetries
import MaltClient.DeclaredSizes
import MaltClient.DeviceAuthRuns
import MaltClient.EncryptedFingerprint
import MaltClient.EncryptedLinks
import MaltClient.FilesystemReads
import MaltClient.FlatProjection
import MaltClient.HybridCas
import MaltClient.JournalIdentity
import MaltClient.JournalPruning
import MaltClient.MountRegistryRuns
import MaltClient.PayloadCacheView
import MaltClient.PlaintextConflicts
import MaltClient.PlannerWriters
import MaltClient.StagingReplay
import MaltClient.TrustReadback
import MaltClient.UploadIdentity
import MaltClient.WritebackReplay
