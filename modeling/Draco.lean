import Draco.Lib.Run
import Draco.Lib.FirstCome
import Draco.Lib.Sensitive
import Draco.Lib.TwoRuns
import Draco.Lib.LinkedList
import Draco.Lib.HeapTrace
import Draco.Seccomp
import Draco.Profile
import Draco.BitMap
import Draco.HashTable
import Draco.Table
import Draco.Handler
import Draco.Kernel
import Draco.Cache
import Draco.Refinement
import Draco.FastPath
import Draco.Unprofiled
import Draco.Provenance
import Draco.Abi
import Draco.Staleness
import Draco.Isolation
import Draco.ProcessList
import Draco.Startup
import Draco.LifeCycle
import Draco.Registration
import Draco.Unload
import Draco.Metrics
import Draco.AppendOnly
import Draco.Locks
import Draco.AnyMask
import Draco.Stricter
import Draco.Libseccomp
import Draco.Collection
import Draco.Architectures
import Draco.Coverage
import Draco.MaskRoundTrip
import Draco.FailedCalls
import Draco.Threads
import Draco.Lib.LabelledCode
import Draco.Bpf
import Draco.RuleChain
import Draco.Lib.Probing
import Draco.BlockTable
import Draco.GenBpf
import Draco.BlockGraph
import Draco.GenChain
import Draco.GenArch
import Draco.GenTop
import Draco.Placement
import Draco.LongJumps
import Draco.Compile
import Draco.Reloading
import Draco.JumpRange
import Draco.Capacity
import Draco.References
import Draco.ForwardOrder
import Draco.Total
import Draco.RuleEntries
import Draco.Priorities
