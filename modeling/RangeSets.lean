import RangeSets.Scale.Binary.Laws
import RangeSets.Scale.Binary.Text
import RangeSets.Store
import RangeSets.Proofs.Scale.Stepping
import RangeSets.Proofs.Scale.Width
import RangeSets.Proofs.Chain.Consistent
import RangeSets.Proofs.Chain.Determined
import RangeSets.Proofs.Chain.Growth
import RangeSets.Proofs.Chain.Editing
import RangeSets.Proofs.Blocks
import RangeSets.Proofs.Blocks.Unique
import RangeSets.Proofs.Search
import RangeSets.Proofs.Runs
import RangeSets.Proofs.Runs.Once
import RangeSets.Proofs.Runs.Steps
import RangeSets.Proofs.Replay
import RangeSets.Proofs.RangeSet.Adding
import RangeSets.Proofs.RangeSet.Removing
import RangeSets.Proofs.RangeSet.Reachable
import RangeSets.Proofs.RangeSet.Membership
import RangeSets.Proofs.RangeSet.Neighbours
import RangeSets.Proofs.RangeSet.Changes
import RangeSets.Proofs.RangeSet.Climbing
import RangeSets.Proofs.RangeSet.Coverage
import RangeSets.Proofs.RangeSet.Locating
import RangeSets.Proofs.RangeSet.Counting
import RangeSets.Proofs.RangeSet.Idle
import RangeSets.Proofs.RangeSet.Trimming
import RangeSets.Proofs.RangeSet.Rollback
import RangeSets.Proofs.RangeSet.Slots
import RangeSets.Proofs.Store.Sharing
import RangeSets.Proofs.RangeSet.Lockstep
import RangeSets.Proofs.WorthMap.Table
import RangeSets.Proofs.WorthMap.Contents
import RangeSets.Proofs.WorthMap.Spreading
import RangeSets.Proofs.WorthMap.Tidying
import RangeSets.Proofs.WorthMap.Adding
import RangeSets.Proofs.WorthMap.Reachable
import RangeSets.Proofs.WorthMap.Totals
import RangeSets.Proofs.WorthMap.Pieces
import RangeSets.Proofs.Equality
import RangeSets.Proofs.Store.Telling
import RangeSets.Proofs.RangeSet.Algebra
import RangeSets.Proofs.WorthMap.Telling
import RangeSets.Proofs.Worth
import RangeSets.Proofs.WorthMap.Overflow
import RangeSets.Proofs.WorthMap.Merging
import RangeSets.Proofs.WorthMap.Uniform
import RangeSets.Proofs.WorthMap.Partition
import RangeSets.Proofs.WorthMap.Extremes
import RangeSets.Proofs.WorthMap.Differences
import RangeSets.Proofs.Stepwise.Search
import RangeSets.Proofs.Chain.Bounds
import RangeSets.Proofs.PointSet.Contents
import RangeSets.Proofs.PointSet.Updates
import RangeSets.Proofs.PointSet.Lockstep
import RangeSets.Proofs.PointSet.Reachable
import RangeSets.Proofs.PointSet.Refusals
import RangeSets.Proofs.WholeCalls
import RangeSets.Proofs.Reversed
import RangeSets.Proofs.Stepwise.Points
import RangeSets.Proofs.Stepwise.Offsets
import RangeSets.Proofs.PointSet.Universe
import RangeSets.Proofs.Stepwise.Adding
import RangeSets.Proofs.Stepwise.Removing
import RangeSets.Proofs.Stepwise.Mutation
import RangeSets.Proofs.Stepwise.Questions
import RangeSets.Proofs.Stepwise.Spreading
import RangeSets.Proofs.Stepwise.Tidying
import RangeSets.Proofs.Stepwise.Pieces
import RangeSets.Proofs.Stepwise.Raising
import RangeSets.Proofs.WorthMap.Faults
import RangeSets.Proofs.Stepwise.Building
import RangeSets.Proofs.Stepwise.Session
import RangeSets.Proofs.RangeSet.Laws
