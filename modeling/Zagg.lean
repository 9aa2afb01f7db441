import Zagg.Column.TornRead
import Zagg.Sweep.LeaseExclusion
import Zagg.Sweep.PartitionedSweep
import Zagg.Sweep.IncrementalSweep
import Zagg.Sweep.DenseFold
import Zagg.Sweep.MocFamily
import Zagg.Sweep.OverviewCascade
import Zagg.Stage.Pairing
import Zagg.Stage.OneGeneration
import Zagg.Stage.DigestLoop
import Zagg.Raster.LeafExact
import Zagg.Spill.FailedAppend
import Zagg.Streaming.Once
import Zagg.Spill.SingleBlock
import Zagg.Spill.MergedOutputs
import Zagg.Stats.KwayOrder
import Zagg.Stats.LossFree
import Zagg.Stats.Quantile
import Zagg.Stats.CompositionFloat
import Zagg.Stats.CompanionRefinement
import Zagg.Readers.Subtree
import Zagg.Windows.DispatchExact
import Zagg.Catalog.Assignment
import Zagg.Processing.PlanExact
import Zagg.Client.Outcomes
import Zagg.Client.Containment
import Zagg.Hive.CoverFixpoint
import Zagg.Hive.TemporalLaws
import Zagg.Hive.LeafPaths
import Zagg.Hive.IdentityGate
import Zagg.Hive.FrozenKeys
import Zagg.Hive.WriteTolerance
import Zagg.Hive.RootStrictness
import Zagg.Hive.CoverageBitmap
import Zagg.Hive.SectionHistory
import Zagg.Hive.ShardQuery
import Zagg.Hive.CoverDebris
import Zagg.Windows.ObservationWords
import Zagg.Catalog.ReprojectExact
import Zagg.Telemetry.MergeExact
import Zagg.Processing.PooledExact
import Zagg.Readers.Rasterize
import Zagg.Readers.ZRange
import Zagg.Content.RowExact
import Zagg.Readers.RawValues
import Zagg.Windows.RangeUnion
import Zagg.Catalog.NearestAcquisition
import Zagg.Catalog.ClosestObs
import Zagg.Catalog.ReferenceEpochs
import Zagg.Processing.SiblingJoin
import Zagg.Grids.ShardTiles
import Zagg.Catalog.IdentityGuard
import Zagg.Catalog.SiblingPairs
import Zagg.Spill.RoundTrip
import Zagg.Grids.MortonBox
import Zagg.Catalog.RefineExact
import Zagg.Lib.BlockArray
import Zagg.Processing.RaggedSlabs
import Zagg.Processing.Writers
import Zagg.Processing.SameContent
import Zagg.Processing.StoredCells
import Zagg.Processing.GridWriters
import Zagg.Readers.BlockTensors
