import RobinHood.GrowDict
import RobinHood.GrowSet
import RobinHood.Item.AffineHash
import RobinHood.Item.Datum
import RobinHood.Proofs.Batches
import RobinHood.Proofs.Bitmap.Writes
import RobinHood.Proofs.Bulk
import RobinHood.Proofs.CapacityOverflow
import RobinHood.Proofs.Conversions
import RobinHood.Proofs.Dicts
import RobinHood.Proofs.Displacement
import RobinHood.Proofs.Edits
import RobinHood.Proofs.Emptied
import RobinHood.Proofs.Equality
import RobinHood.Proofs.Frames
import RobinHood.Proofs.Growable.Amortized
import RobinHood.Proofs.Growable.Capacities
import RobinHood.Proofs.History
import RobinHood.Proofs.Insertions
import RobinHood.Proofs.LoadFactor
import RobinHood.Proofs.Lockstep
import RobinHood.Proofs.Lookups
import RobinHood.Proofs.Memoization
import RobinHood.Proofs.Overflows
import RobinHood.Proofs.Regions
import RobinHood.Proofs.Removals
import RobinHood.Proofs.Safety
import RobinHood.Proofs.Seating.Invariant
import RobinHood.Proofs.Sets
import RobinHood.Proofs.SmallContainers
import RobinHood.Proofs.Traversals
import RobinHood.Proofs.UnorderedHash
import RobinHood.Proofs.ValuesInPlace
