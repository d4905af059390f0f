import MeterMatch.Text.Blank
import MeterMatch.Text.Upper
import MeterMatch.Text.Quoted
import MeterMatch.Decimal.Shortest
import MeterMatch.Data.Node
import MeterMatch.Data.Read
import MeterMatch.Data.TextMap
import MeterMatch.Key
import MeterMatch.Object
import MeterMatch.Definition
import MeterMatch.Selector
import MeterMatch.Association
import MeterMatch.Config
import MeterMatch.Cache
import MeterMatch.Binary64
import MeterMatch.Limiter
import MeterMatch.Indexed
import MeterMatch.Queue.Delta
import MeterMatch.Queue.ChangeQueue
import MeterMatch.Engine.Error
import MeterMatch.Engine.Registry
import MeterMatch.Engine.Tracking
import MeterMatch.Engine.Propagation
import MeterMatch.Yaml.Scalar
import MeterMatch.Yaml.Flow
import MeterMatch.Yaml.Block
import MeterMatch.Yaml.Stream
import MeterMatch.Files
import MeterMatch.Loader
import MeterMatch.Loader.Reload
import MeterMatch.Snapshot
import MeterMatch.Worker.DotEnv
import MeterMatch.Worker.Options
import MeterMatch.Worker.Run
import MeterMatch.Main
import MeterMatch.Proofs.ChangeQueue
import MeterMatch.Proofs.Indexed
import MeterMatch.Proofs.Registry
import MeterMatch.Proofs.MatchCache
import MeterMatch.Proofs.RuleFeed
import MeterMatch.Proofs.Tracking
import MeterMatch.Proofs.Propagation
import MeterMatch.Proofs.Run
import MeterMatch.Proofs.RuleReferences
import MeterMatch.Proofs.FreshMatches
import MeterMatch.Proofs.AssociationFeed
import MeterMatch.Proofs.QueueModel
import MeterMatch.Proofs.FailedPop
import MeterMatch.Proofs.IndexRebuild
import MeterMatch.Proofs.TableIntegrity
import MeterMatch.Proofs.MemoisedMatches
import MeterMatch.Proofs.Reconciliation
import MeterMatch.Proofs.RetryProgress
import MeterMatch.Proofs.FreshBuckets
import MeterMatch.Proofs.ListingIndex
import MeterMatch.Proofs.OneShotRun
import MeterMatch.Proofs.IndexedRuns
import MeterMatch.Proofs.RejectedWrites
import MeterMatch.Proofs.Redelivery
import MeterMatch.Proofs.Relisting
import MeterMatch.Proofs.BucketRate
import MeterMatch.Proofs.Rescan
import MeterMatch.Proofs.HotReload
import MeterMatch.Proofs.BucketUpkeep
import MeterMatch.Proofs.InitialSync
import MeterMatch.Proofs.RegistryOrder
import MeterMatch.Proofs.SelectorSemantics
import MeterMatch.Proofs.WrittenKeys
import MeterMatch.Proofs.AtomicWrites
import MeterMatch.Proofs.DeletedBuckets
