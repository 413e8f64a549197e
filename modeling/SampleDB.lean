import SampleDB.BeforeImage
import SampleDB.LogCrash
import SampleDB.LogSequence
import SampleDB.LogState
import SampleDB.Patches
import SampleDB.PoolCoherence
import SampleDB.RecordRoundTrip
import SampleDB.Rollback
import SampleDB.Serializability
import SampleDB.WriteAhead
import SampleDB.Recovery
import SampleDB.RecoveryPages
import SampleDB.RecoveryScan
import SampleDB.CrashInvariant
import SampleDB.CrashSteps
import SampleDB.CrashSafety
import SampleDB.Lexer
import SampleDB.SqlParser
import SampleDB.Grammar
import SampleDB.Acceptance
import SampleDB.CommandAcceptance
import SampleDB.Conformance
import SampleDB.Printing
import SampleDB.Reparsing
import SampleDB.Directory
import SampleDB.TempFiles
import SampleDB.DirtyReads
import SampleDB.Endings
import SampleDB.PageValues
import SampleDB.TableScans
import SampleDB.UpdatePlanner
import SampleDB.ModifyStatements
import SampleDB.IndexAgreement
import SampleDB.SqlStatements
import SampleDB.RecordPages
import SampleDB.StoredRecords
import SampleDB.StoredTables
import SampleDB.ScanRefinement
import SampleDB.RecordStore
import SampleDB.KeyOrder
import SampleDB.SortedLists
import SampleDB.BTreePages
import SampleDB.PageLists
import SampleDB.BTreeLeaves
import SampleDB.LeafInsertion
import SampleDB.BTreeDirs
import SampleDB.DirInsertion
import SampleDB.BTreeIndexes
import SampleDB.KeyRanges
import SampleDB.DirGrowth
import SampleDB.RootGrowth
import SampleDB.Routing
import SampleDB.IndexGrowth
import SampleDB.SparseLists
import SampleDB.FileMgrs
import SampleDB.BlockStores
import SampleDB.TableCatalogs
import SampleDB.CatalogRoundTrip
import SampleDB.UndoLogs
import SampleDB.DatabaseCreation
import SampleDB.Programs
import SampleDB.SharedLocks
import SampleDB.TwoDatabases
import SampleDB.AloneDatabase
import SampleDB.DatabaseLocks
import SampleDB.Interference
import SampleDB.UpdatePlanners
import SampleDB.PlannerAgreement
import SampleDB.Scans
import SampleDB.Plans
import SampleDB.TypedTables
import SampleDB.PlanSchemas
import SampleDB.SchemaAgreement
import SampleDB.SchemaSoundness
import SampleDB.Fuel
import SampleDB.Iterators
import SampleDB.TableRows
import SampleDB.SortOrder
import SampleDB.ExternalSort
import SampleDB.SortScans
import SampleDB.Grouping
import SampleDB.SavedPositions
import SampleDB.MergeJoins
import SampleDB.Products
import SampleDB.FileGrowth
import SampleDB.RootPaths
import SampleDB.PinBalance
import SampleDB.FieldWrites
import SampleDB.FreedSlots
import SampleDB.ExhaustedScans
import SampleDB.MissingColumns
import SampleDB.LoggedUpdates
import SampleDB.TableInsertion
import SampleDB.PlannedAggregates
import SampleDB.ExactUpdates
import SampleDB.FaithfulLiterals
import SampleDB.SubPredicates
import SampleDB.CheckedInts
import SampleDB.Estimates
import SampleDB.Statistics
import SampleDB.GuardedPages
import SampleDB.BufferLists
import SampleDB.PinAccounting
import SampleDB.SelectEstimates
import SampleDB.SlotLayouts
import SampleDB.PageWrites
import SampleDB.IndexPages
import SampleDB.IndexCells
import SampleDB.IndexSteps
import SampleDB.IndexFormats
import SampleDB.IndexSplits
import SampleDB.IndexForms
import SampleDB.IndexPageLists
import SampleDB.PageCells
import SampleDB.RowProperties
import SampleDB.GroupScans
import SampleDB.PlanMeanings
import SampleDB.PlanScans
import SampleDB.QueryAnswers
import SampleDB.WaitGraphs
import SampleDB.Deadlocks
import SampleDB.KeyedBags
import SampleDB.OverflowChains
import SampleDB.IndexBags
import SampleDB.SlotBags
import SampleDB.Relations
import SampleDB.SessionStates
import SampleDB.RecoveryCompletion
import SampleDB.Durability
import SampleDB.PageRefinement
