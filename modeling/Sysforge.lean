import Sysforge.State.BuildStateRuns
import Sysforge.State.Repair
import Sysforge.State.RepairRuns
import Sysforge.State.RevertRestore
import Sysforge.State.PipelineStateRuns
import Sysforge.Sentinel.ScopeRuns
import Sysforge.Aur.BuildOrder
import Sysforge.Pipeline.ResumeRuns
import Sysforge.Pipeline.PackagesStageRuns
import Sysforge.State.BuildStateSharedRuns
import Sysforge.Foundations.Worklist
import Sysforge.Foundations.TopologicalSorter
import Sysforge.Install.BatchOrder
import Sysforge.Install.BuiltArtifacts
import Sysforge.Install.BuiltArtifactRuns
import Sysforge.Aur.Refusal
import Sysforge.Profile.Extracted
import Sysforge.Profile.Preserved
import Sysforge.Kernel.KconfigBlock
import Sysforge.Install.InstallRuns
import Sysforge.Install.InstallAccounts
import Sysforge.Artifacts.RegistryRuns
import Sysforge.Boot.Bootable
import Sysforge.LocalRepo.SyncRuns
import Sysforge.Abi.SkewGate
import Sysforge.Update.OptOutRuns
import Sysforge.Update.Revert
import Sysforge.Update.RevertRuns
import Sysforge.Reconcile.SentinelFile
import Sysforge.Git.LocalWork
import Sysforge.Git.Preflight
import Sysforge.Toolchain.Rollback
import Sysforge.Toolchain.SonameGate
import Sysforge.Toolchain.LlvmTargets
import Sysforge.Toolchain.ConsumerGate
import Sysforge.Toolchain.BuildCacheRuns
import Sysforge.Kernel.FdoRounds
import Sysforge.Kernel.StageRuns
import Sysforge.Update.RecordChoice
import Sysforge.Makepkg.EmittedFlags
import Sysforge.Makepkg.BuildInputs
import Sysforge.Makepkg.BuildInputsRuns
import Sysforge.Makepkg.Retry
import Sysforge.Profile.Serialize
import Sysforge.Profile.AppendPairs
import Sysforge.Profile.BuildMode
import Sysforge.Profile.ToolchainSwap
import Sysforge.Makepkg.EmitAgree
import Sysforge.Makepkg.RecoverySwap
import Sysforge.Pkgbuild.Comments
import Sysforge.Pkgbuild.ArrayItems
import Sysforge.Pkgbuild.VarExpansionRuns
import Sysforge.Kernel.LsmodSnapshot
import Sysforge.Kernel.KconfigHistory
import Sysforge.Pkgbuild.ArchArrays
import Sysforge.Makepkg.JobCap
import Sysforge.LocalRepo.ChrootSection
import Sysforge.State.StageSentinel
import Sysforge.Makepkg.ArtifactLookup
import Sysforge.Version.Vercmp
import Sysforge.Toolchain.Bolt
import Sysforge.Sandbox.InstallClosure
import Sysforge.Pacman.Confined
import Sysforge.Kernel.KconfigFidelity
import Sysforge.Terminal.Chunking
import Sysforge.Toolchain.InstallMembers
import Sysforge.Sandbox.CanonicalSwap
import Sysforge.Kernel.FdoRefusal
import Sysforge.Toolchain.ProfdataReuse
import Sysforge.Toolchain.ProfrawMerge
import Sysforge.Setup.IgnoreGroupRestored
import Sysforge.Git.ShortCircuitRuns
import Sysforge.Sentinel.InterruptRuns
import Sysforge.Network.RateLimitRuns
import Sysforge.Review.ReviewGateRuns
import Sysforge.Storage.AtomicWriteRuns
import Sysforge.Git.SourceFreezeRuns
import Sysforge.Toolchain.ProfileStoreRuns
import Sysforge.Toolchain.InstallWindowRuns
import Sysforge.Toolchain.StagingPrefixRuns
