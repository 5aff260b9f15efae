import BootableRecovery.Theory.Memory
import BootableRecovery.Theory.System
import BootableRecovery.Theory.Durable
import BootableRecovery.Theory.Relational
import BootableRecovery.Theory.LittleEndian
import BootableRecovery.Theory.BlockDevice
import BootableRecovery.Theory.FileTree
import BootableRecovery.Theory.Regions
import BootableRecovery.Theory.EvalRules
import BootableRecovery.LibBase.Strings
import BootableRecovery.LibBase.Scanf
import BootableRecovery.LibBase.ScanMatch
import BootableRecovery.OtaUtil.RangeSet
import BootableRecovery.OtaUtil.SortedRangeSet
import BootableRecovery.OtaUtil.RangeText
import BootableRecovery.OtaUtil.Split
import BootableRecovery.OtaUtil.OffsetMapping
import BootableRecovery.OtaUtil.Insertions
import BootableRecovery.UpdateVerifier.ReadBlocks
import BootableRecovery.Updater.Device
import BootableRecovery.Updater.Blocks
import BootableRecovery.Updater.BlockImg
import BootableRecovery.Updater.Rules
import BootableRecovery.Updater.Sink
import BootableRecovery.Updater.Marks
import BootableRecovery.Updater.Keeps
import BootableRecovery.Updater.Loop
import BootableRecovery.Updater.Isolation
import BootableRecovery.Updater.DryRun
import BootableRecovery.Updater.HandedOver
import BootableRecovery.Updater.Independence
import BootableRecovery.Updater.Executions
import BootableRecovery.Updater.NewData
import BootableRecovery.Updater.Contents
import BootableRecovery.Updater.Scatter
import BootableRecovery.Updater.RangeWriter
import BootableRecovery.Updater.BrotliNewData
import BootableRecovery.Updater.Teardown
import BootableRecovery.Updater.Load
import BootableRecovery.Updater.SavedIndex
import BootableRecovery.Updater.Transfer
import BootableRecovery.Verifier.Asn1Decoder
import BootableRecovery.Verifier.VerifyFile
import BootableRecovery.Verifier.Der
import BootableRecovery.Verifier.WholeFile
import BootableRecovery.Verifier.Pkcs7
import BootableRecovery.Verifier.KeyFile
import BootableRecovery.Verifier.KeySoundness
import BootableRecovery.FuseSideload.Fuse
import BootableRecovery.FuseSideload.FirstRead
import BootableRecovery.FuseSideload.BlockCache
import BootableRecovery.FuseSideload.ReadCorrect
import BootableRecovery.BootloaderMessage.Message
import BootableRecovery.Recovery.Args
import BootableRecovery.ApplyPatch.Container
import BootableRecovery.ApplyPatch.ImgPatch
import BootableRecovery.ApplyPatch.ImgDiff
import BootableRecovery.ApplyPatch.Streams
import BootableRecovery.ApplyPatch.PatchSafety
import BootableRecovery.ApplyPatch.Tiling
import BootableRecovery.ApplyPatch.ImageMode
import BootableRecovery.ApplyPatch.Compaction
import BootableRecovery.ApplyPatch.Reconstruction
import BootableRecovery.ApplyPatch.ScanSafety
import BootableRecovery.ApplyPatch.ZipDiff
import BootableRecovery.ApplyPatch.Split
import BootableRecovery.ApplyPatch.ZipMode
import BootableRecovery.ApplyPatch.VerifiedWrite
import BootableRecovery.ApplyPatch.ZipChunks
import BootableRecovery.ApplyPatch.PieceSize
import BootableRecovery.ApplyPatch.SplitMode
import BootableRecovery.ApplyPatch.Partition
import BootableRecovery.ApplyPatch.CrashSafety
import BootableRecovery.ApplyPatch.Idempotence
import BootableRecovery.ApplyPatch.Flash
import BootableRecovery.ApplyPatch.FreeCache
import BootableRecovery.OtaUtil.SysUtil
import BootableRecovery.OtaUtil.MapLifetime
import BootableRecovery.Uncrypt.BlockMap
import BootableRecovery.Uncrypt.Fibmap
import BootableRecovery.Uncrypt.SetupBcb
import BootableRecovery.Para.ParaVariables
import BootableRecovery.Para.EnvBlock
import BootableRecovery.BootloaderMessage.MiscLayout
import BootableRecovery.Recovery.Retry
import BootableRecovery.VolumeManager.PublicVolume
import BootableRecovery.VolumeManager.BlockEvents
import BootableRecovery.Recovery.CommandPipe
import BootableRecovery.Bu.Restore
import BootableRecovery.Bu.Integrity
import BootableRecovery.SystemImage.Upgrader
import BootableRecovery.SystemImage.Authenticity
import BootableRecovery.Minui.Resources
import BootableRecovery.RecoveryL10n.Main
import BootableRecovery.RecoveryL10n.RoundTrip
import BootableRecovery.Edify.Expr
import BootableRecovery.Edify.Meaning
import BootableRecovery.Edify.Refinement
import BootableRecovery.Edify.Evaluation
import BootableRecovery.Edify.Grammar
import BootableRecovery.Edify.ArgumentSafety
import BootableRecovery.BootControl.Control
import BootableRecovery.BootControl.IndexSafety
import BootableRecovery.BootControl.Transitions
import BootableRecovery.Para.Tokenizer
import BootableRecovery.Para.AllOrNothing
import BootableRecovery.VolumeManager.PartitionScan
import BootableRecovery.Bu.Callbacks
import BootableRecovery.Bu.Backup
import BootableRecovery.Bu.HostileRestore
import BootableRecovery.Minui.RotatedDrawing
import BootableRecovery.RecoveryUI.Gestures
import BootableRecovery.RecoveryUI.Calibration
import BootableRecovery.ScreenUI.Selection
import BootableRecovery.ScreenUI.FileViewer
import BootableRecovery.Recovery.SessionLog
import BootableRecovery.Minui.LocaleTable
import BootableRecovery.Roots.FormatVolume
import BootableRecovery.Minui.SurfaceBounds
import BootableRecovery.Minui.HotPlug
import BootableRecovery.BootControl.Crc
import BootableRecovery.ApplyPatch.UsedBlocks
import BootableRecovery.ApplyPatch.PartitionPrefix
import BootableRecovery.ApplyPatch.Modes
import BootableRecovery.Recovery.AbPackage
import BootableRecovery.Recovery.Persist
import BootableRecovery.Theory.PathResolution
import BootableRecovery.OtaUtil.DirUnlink
import BootableRecovery.Updater.SetMetadata
import BootableRecovery.Theory.PathChanges
import BootableRecovery.OtaUtil.ExtractPackage
import BootableRecovery.OtaUtil.ExtractContained
import BootableRecovery.OtaUtil.ExtractEscape
import BootableRecovery.Edify.Extents
import BootableRecovery.Edify.Printing
import BootableRecovery.FuseSideload.AdbProgress
import BootableRecovery.RecoveryUI.Keys
import BootableRecovery.Updater.CrashResume
