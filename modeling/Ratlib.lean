import Ratlib.Crc.Correctness
import Ratlib.Gen.Model
import Ratlib.Gen.Contract
import Ratlib.Gen.Correctness
import Ratlib.Library.Runs
import Ratlib.Arena.Correctness
import Ratlib.Alloc.Trace
import Ratlib.Dyn.Correctness
import Ratlib.Library.Paths
import Ratlib.Alloc.Relocation
import Ratlib.Rlist.Correctness
import Ratlib.Library.Buckets
import Ratlib.Library.Dictionary
import Ratlib.Alloc.Ledger
import Ratlib.Rmap.Correctness
import Ratlib.Library.Circle
import Ratlib.Rring.Correctness
import Ratlib.Library.Chunks
import Ratlib.Hash.HalfSip
import Ratlib.Hash.Correctness
import Ratlib.Dyn.Capacity
import Ratlib.Crc.Burst
import Ratlib.Pool.Correctness
import Ratlib.Tower.Refusal
import Ratlib.Tower.Alignment
import Ratlib.Library.Coverage
import Ratlib.Alloc.Usage
import Ratlib.Gen.Usage
import Ratlib.Arena.Usage
import Ratlib.Pool.Usage
import Ratlib.Rlist.Usage
import Ratlib.Tower.Counts
import Ratlib.Tower.Packing
import Ratlib.Alloc.Requests
import Ratlib.Arr.Search
import Ratlib.Crc.Polynomial
import Ratlib.Dyn.Growth
import Ratlib.Gen.Accounts
import Ratlib.Gen.Bounds
import Ratlib.Gen.Nesting
import Ratlib.Rlist.Sizes
import Ratlib.Rmap.Sizes
import Ratlib.Tower.Oversize
import Ratlib.Arr.Resizing
import Ratlib.Cmp.Model
import Ratlib.Cmp.Orders
import Ratlib.Dyn.Answers
import Ratlib.Rlist.Positions
import Ratlib.Tower.Sharing
import Ratlib.Alloc.Clients
import Ratlib.Clients.Allocators
import Ratlib.Clients.Sharing
import Ratlib.Tower.Confinement
import Ratlib.Gen.Room
import Ratlib.Alloc.Balance
import Ratlib.Clients.Ownership
import Ratlib.Crc.Algos
import Ratlib.Crc.Frames
import Ratlib.Order.Correctness
import Ratlib.Library.Amortized
import Ratlib.Rmap.Costs
import Ratlib.Cmp.Numbers
import Ratlib.Dyn.Costs
import Ratlib.Dyn.Sorted
import Ratlib.Arena.Space
import Ratlib.Pool.Space
import Ratlib.Bit.Correctness
