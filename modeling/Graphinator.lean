import Graphinator.Lib.Machine
import Graphinator.Completion
import Graphinator.Latch
import Graphinator.Trigger
import Graphinator.Consumers
import Graphinator.MarkerOrder
import Graphinator.Subscriptions
import Graphinator.CheckerRoutes
import Graphinator.Lib.Table
import Graphinator.Lib.PropertyGraph
import Graphinator.Lib.Footprint
import Graphinator.Lib.PyValue
import Graphinator.Lib.Aggregation
import Graphinator.Catalog
import Graphinator.Lib.Utf8
import Graphinator.Records
import Graphinator.Projection
import Graphinator.BatchProjection
import Graphinator.EntityProjection
import Graphinator.ProjectionStages
import Graphinator.CompletionRuns
import Graphinator.MaintenancePaging
import Graphinator.Updates
import Graphinator.CreditCounts
import Graphinator.ReleaseExpansion
import Graphinator.ArtistStats
import Graphinator.TaxonomyStats
import Graphinator.LabelStats
import Graphinator.ReleaseScope
import Graphinator.Acknowledged
import Graphinator.WritePaths
import Graphinator.NameOwnership
import Graphinator.Lib.ArcEffect
import Graphinator.Asserted
import Graphinator.PathAgreement
import Graphinator.Lib.PyInt
import Graphinator.StubNameBackfill
import Graphinator.CompanyIdentity
import Graphinator.Lib.Kleene
import Graphinator.ReleasePrunes
import Graphinator.CompanyNames
import Graphinator.MediaFamilies
import Graphinator.MasterSentinel
import Graphinator.NullLists
import Graphinator.StubCleanup
import Graphinator.Lib.Traced
import Graphinator.MessageHandler
import Graphinator.Lib.MatchedLinks
import Graphinator.Transactions
import Graphinator.TypeIndependence
import Graphinator.QueueOrder
import Graphinator.PersonNames
import Graphinator.PagingTermination
import Graphinator.DumpCompletion
import Graphinator.RecordAsserts
import Graphinator.ReleaseFrames
import Graphinator.HashSkip
import Graphinator.MaintenancePasses
import Graphinator.MaintenanceStamps
import Graphinator.CatalogSchema
import Graphinator.Aggregates
import Graphinator.StampedAggregates
import Graphinator.Lib.Receiver
import Graphinator.Redelivery
import Graphinator.FinalVersions
import Graphinator.Lib.Cuts
import Graphinator.BatchCuts
import Graphinator.Lib.AssertionLog
import Graphinator.CatalogLog
import Graphinator.NodeVersions
import Graphinator.Interleavings
import Graphinator.Lib.ChunkedDeletion
import Graphinator.SentinelCleanup
import Graphinator.FullLatch
import Graphinator.Pipeline
import Graphinator.HandlerSteps
import Graphinator.HandlerRuns
