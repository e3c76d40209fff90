import AbstractSets.Strength
import AbstractSets.Supply
import AbstractSets.Value
import AbstractSets.Comparer
import AbstractSets.Table.Index
import AbstractSets.Table.Basic
import AbstractSets.ValueSet.Basic
import AbstractSets.ValueSet.Split
import AbstractSets.ValueSet.Widen
import AbstractSets.Error
import AbstractSets.Limits
import AbstractSets.Text.Digest
import AbstractSets.Origin.Basic
import AbstractSets.Text.Unprintable
import AbstractSets.Text.Combining
import AbstractSets.Text.Quoted
import AbstractSets.Text.Outline
import AbstractSets.Description
import AbstractSets.Number.Binary64
import AbstractSets.Number.Shortest
import AbstractSets.Config.Json
import AbstractSets.Config.Error
import AbstractSets.Config.Decode
import AbstractSets.Workspace
import AbstractSets.Proofs.Contract
import AbstractSets.Proofs.TableInvariant
import AbstractSets.Proofs.SetInvariant
import AbstractSets.Proofs.Runs
import AbstractSets.Proofs.OriginLaws
import AbstractSets.Proofs.Placement
import AbstractSets.Proofs.Grouping
import AbstractSets.Proofs.Covering
import AbstractSets.Proofs.OrderIndependence
import AbstractSets.Proofs.Settling
import AbstractSets.Proofs.Joining
import AbstractSets.Proofs.WideningCover
import AbstractSets.Proofs.Allocation
import AbstractSets.Proofs.Sharing
import AbstractSets.Proofs.Tallies
import AbstractSets.Proofs.Membership
import AbstractSets.Proofs.Rekeying
import AbstractSets.Proofs.Conservation
import AbstractSets.Proofs.ChangeFlag
import AbstractSets.Proofs.MergeFlag
import AbstractSets.Proofs.Coarsening
import AbstractSets.Proofs.WideningLevels
import AbstractSets.Proofs.Splitting
import AbstractSets.Proofs.Ancestry
import AbstractSets.Proofs.Absorption
import AbstractSets.Proofs.IntervalHulls
import AbstractSets.Proofs.Lockstep
import AbstractSets.Proofs.TakingOver
import AbstractSets.Proofs.Instances
import AbstractSets.Proofs.Homonyms
import AbstractSets.Proofs.Matching
import AbstractSets.Proofs.Settings
import AbstractSets.Proofs.TallySums
import AbstractSets.Proofs.Replacing
