import FactCore.Lib.Machine
import FactCore.Lib.Loop
import FactCore.Lib.Dependencies
import FactCore.Storage.DbInterfaceBackend
import FactCore.Storage.DbInterfaceAdmin
import FactCore.Storage.DeleteFirmware
import FactCore.Storage.Comments
import FactCore.Scheduler.AnalysisStatus
import FactCore.Scheduler.AnalysisProgress
import FactCore.Scheduler.AnalysisUpdate
import FactCore.Scheduler.AnalysisWorker
import FactCore.Intercom.DeleteFile
import FactCore.Scheduler.UnpackingBookkeeping
import FactCore.Scheduler.UnpackingScheduler
import FactCore.Scheduler.UnpackingInvariants
import FactCore.Scheduler.UnpackingEnds
import FactCore.Scheduler.UnpackingCancel
import FactCore.Scheduler.UnpackingTotals
import FactCore.Scheduler.UnpackingBooks
import FactCore.Scheduler.UnpackingOnce
import FactCore.Scheduler.UnpackingComplete
import FactCore.Scheduler.UnpackingShared
import FactCore.Scheduler.UnpackingDepth
import FactCore.Scheduler.TaskScheduler
import FactCore.Storage.AnalysisQueries
import FactCore.Storage.AnalysisTable
import FactCore.Scheduler.AnalysisScheduler
import FactCore.Scheduler.AnalysisSteps
import FactCore.Scheduler.AnalysisInvariants
import FactCore.Scheduler.AnalysisSafety
import FactCore.Scheduler.AnalysisResults
import FactCore.Scheduler.AnalysisDependencies
import FactCore.Scheduler.AnalysisConsistency
import FactCore.Scheduler.AnalysisStaleness
import FactCore.Scheduler.AnalysisQueue
import FactCore.Scheduler.Backend
import FactCore.Scheduler.UnpackingLocks
import FactCore.Lib.Paths
import FactCore.Storage.DbInterfaceCommon
import FactCore.ImportExport.FwImporter
import FactCore.Intercom.SingleFileTask
import FactCore.Scheduler.ComparisonScheduler
import FactCore.Lib.Join
import FactCore.Storage.RedisInterface
import FactCore.Storage.RedisClients
import FactCore.Storage.MigrationVfpTable
import FactCore.Lib.Json
import FactCore.Lib.Relation
import FactCore.Storage.QueryConversion
import FactCore.Storage.QueryMeaning
import FactCore.Lib.Text
import FactCore.Storage.EntryConversion
import FactCore.Storage.QuerySelection
import FactCore.Compare.ComparePlugins
import FactCore.Compare.FileCoverage
import FactCore.Compare.Software
import FactCore.Compare.SimilarFiles
import FactCore.Compare.SimilarityGroups
import FactCore.HelperFunctions.Uid
import FactCore.Lib.Coverage
import FactCore.Intercom.Listener
import FactCore.Analysis.QemuExec
import FactCore.Scheduler.TaskAvailability
import FactCore.Lib.KeyedTree
import FactCore.WebInterface.FileTree
import FactCore.Lib.Replace
import FactCore.WebInterface.Filter
import FactCore.WebInterface.UidLinks
import FactCore.Storage.DbInterfaceFrontend
import FactCore.Storage.ObjectsByUidList
import FactCore.Storage.AnalysisTags
import FactCore.Unpacker.GenerateObjects
import FactCore.Lib.Pep440
import FactCore.Plugins.CveLookup.CoerceVersion
import FactCore.Plugins.CveLookup.CveDatabase
import FactCore.Plugins.CveLookup.Lookup
import FactCore.Lib.Search
import FactCore.Plugins.CveLookup.BusyboxCveFilter
import FactCore.Lib.Lines
import FactCore.Lib.Outline
import FactCore.Plugins.FileConfig.ParseYaml
import FactCore.Plugins.FileConfig.CompareFunction
import FactCore.Storage.QueryDenotation
import FactCore.WebInterface.DatabaseRoutes
import FactCore.Plugins.CryptoMaterial.KeyBlocks
import FactCore.Analysis.QemuResults
import FactCore.Lib.Binary
import FactCore.Plugins.CryptoMaterial.KeyParser
import FactCore.Plugins.CryptoMaterial.CryptoMaterial
import FactCore.Lib.Regex
import FactCore.Lib.Base64
import FactCore.Plugins.UsersAndPasswords.CredentialsFinder
import FactCore.HelperFunctions.YaraBinarySearch
import FactCore.Plugins.FileConfig.ParseXml
import FactCore.Plugins.FileConfig.ParseConfig
import FactCore.Plugins.DeviceTree.DeviceTreeUtils
import FactCore.Plugins.KnownVulnerabilities.Rulebook
import FactCore.Lib.NestedDict
import FactCore.Statistic.TimeStats
import FactCore.Lib.RingBuffer
import FactCore.Scheduler.DurationStats
import FactCore.WebInterface.Charts
import FactCore.Plugins.IpcAnalyzer.SourceValues
import FactCore.Lib.SkippingLoop
import FactCore.HelperFunctions.Process
import FactCore.Lib.ComparisonSort
import FactCore.Storage.StatsSort
import FactCore.Lib.DictTree
import FactCore.WebInterface.ChangedFiles
import FactCore.WebInterface.VersionCompatible
import FactCore.Plugins.KernelConfig.KernelConfig
import FactCore.Lib.Numbered
import FactCore.Plugins.IpcAnalyzer.FormatStrings
import FactCore.Scheduler.ExtractionSafety
import FactCore.Intercom.RequestResponse
import FactCore.Lib.DepthFirst
import FactCore.Plugins.IpcAnalyzer.BackwardSlice
import FactCore.Compare.CompareExecution
import FactCore.Lib.Forest
import FactCore.HelperFunctions.ProcessTree
import FactCore.Plugins.FileSystemMetadata.FileSystemMetadata
import FactCore.ImportExport.FwExporter
import FactCore.ImportExport.RoundTrip
import FactCore.Lib.Runs
import FactCore.Plugins.Strings.Strings
import FactCore.Plugins.CveLookup.CveTables
import FactCore.Plugins.CveLookup.Vulnerabilities
import FactCore.Lib.PosixPaths
import FactCore.WebInterface.DependencyGraph
import FactCore.Storage.LinkTarget
