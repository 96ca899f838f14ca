import SliceDeque.Lib.Exec
import SliceDeque.Lib.Runs
import SliceDeque.Lib.Preserves
import SliceDeque.Lib.Lockstep
import SliceDeque.Lib.DoubleEnded
import SliceDeque.Lib.Rounding
import SliceDeque.Lib.Mirror
import SliceDeque.Lib.Ledger
import SliceDeque.Lib.AddressSpace
import SliceDeque.Lib.Claims
import SliceDeque.Lib.Sessions
import SliceDeque.Lib.Memory
import SliceDeque.Lib.Sieve
import SliceDeque.Lib.Growth
import SliceDeque.Lib.Partition
import SliceDeque.Platform
import SliceDeque.Buffer
import SliceDeque.Deque
import SliceDeque.Moves
import SliceDeque.Rotation
import SliceDeque.Effects
import SliceDeque.Ops
import SliceDeque.Insert
import SliceDeque.Owners
import SliceDeque.Retain
import SliceDeque.Bulk
import SliceDeque.Extend
import SliceDeque.ShrinkToFit
import SliceDeque.Iterators
import SliceDeque.IntoIter
import SliceDeque.Cloning
import SliceDeque.Halves
import SliceDeque.Recollect
import SliceDeque.Resize
import SliceDeque.Drain
import SliceDeque.Splice
import SliceDeque.Ranges
import SliceDeque.Replace
import SliceDeque.DrainFilter
import SliceDeque.Mirrored.Linux
import SliceDeque.Mirrored.Winapi
import SliceDeque.Mirrored.Sysv
import SliceDeque.Mirrored.Macos
import SliceDeque.Mirrored.Sessions
import SliceDeque.Program
import SliceDeque.Accounts
import SliceDeque.ProgramRuns
import SliceDeque.Twins
import SliceDeque.TwinPrograms
import SliceDeque.RawParts
import SliceDeque.Addresses
import SliceDeque.Settlement
import SliceDeque.Refusals
import SliceDeque.Requests
import SliceDeque.ListPrograms
import SliceDeque.Amortised
import SliceDeque.Ring
import SliceDeque.Dedup
import SliceDeque.Bytes
import SliceDeque.Contracts
import SliceDeque.Specification
import SliceDeque.Specialised
import SliceDeque.Literals
import SliceDeque.InPlace
import SliceDeque.Slices
import SliceDeque.Macros
import SliceDeque.Footprint
