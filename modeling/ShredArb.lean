import ShredArb.Dlmm.Kernel
import ShredArb.Dlmm.Arith
import ShredArb.Dlmm.NoFreeValue
import ShredArb.Pump.Kernel
import ShredArb.Dlmm.Cache
import ShredArb.Pump.ConstantProduct
import ShredArb.Dlmm.Agreement
import ShredArb.Dlmm.CacheRefinement
import ShredArb.Lib.Buckets
import ShredArb.Lib.Probe
import ShredArb.Lib.Intern
import ShredArb.Lib.Lanes
import ShredArb.Univ.Kernel
import ShredArb.Univ.Adjacency
import ShredArb.Univ.Cycles
import ShredArb.Univ.Compile
import ShredArb.Hot.Cycle
import ShredArb.Hot.Kernel
import ShredArb.Hot.Sizing
import ShredArb.Hot.Decide
import ShredArb.Hot.Faithful
import ShredArb.Paper.Kernel
import ShredArb.Paper.Faithful
import ShredArb.Hot.Commit
import ShredArb.Paper.Speculative
import ShredArb.State.Manager
import ShredArb.State.Sendable
import ShredArb.Hops.Program
import ShredArb.Hops.Safety
import ShredArb.Hops.Encode
import ShredArb.Hops.Calls
import ShredArb.Hops.Agreement
import ShredArb.Lib.Parse
import ShredArb.Tx.Wire
import ShredArb.Exec.Program
import ShredArb.Exec.Template
import ShredArb.Exec.Agreement
import ShredArb.Gates.Plane
import ShredArb.Gates.Loaders
import ShredArb.Gates.Fire
import ShredArb.Tx.Keys
import ShredArb.Tx.Overlay
import ShredArb.Orbit.Kernel
import ShredArb.Orbit.Fresh
import ShredArb.Orbit.Journal
import ShredArb.Orbit.OneState
import ShredArb.Tx.Frame
import ShredArb.Tx.Exact
import ShredArb.Paper.RouteCycle
import ShredArb.Dlmm.EconEq
import ShredArb.State.Recon
import ShredArb.Lib.Scan
import ShredArb.Tx.Framing
import ShredArb.Tx.Around
import ShredArb.Alt.Cache
import ShredArb.Alt.Persist
import ShredArb.Alt.Quarantine
import ShredArb.Alt.Lifecycle
import ShredArb.Trigger.Swapix
import ShredArb.Trigger.Eval
import ShredArb.Trigger.Resolve
import ShredArb.Lib.Mem
import ShredArb.Auth.Publish
import ShredArb.Auth.Reader
import ShredArb.Auth.Ring
import ShredArb.Auth.Agreement
import ShredArb.Shyft.Barrier
import ShredArb.Shyft.BarrierSound
import ShredArb.Shyft.BankEvidence
import ShredArb.Orbit.Drain
import ShredArb.Orbit.Shreds
import ShredArb.Orbit.Hold
import ShredArb.Orbit.Blob
import ShredArb.Ports.Dlmm
import ShredArb.Exec.Route0
import ShredArb.Exec.AltPlane
import ShredArb.Dlmm.Accounts
import ShredArb.Dlmm.Monotone
import ShredArb.Lib.Checked
import ShredArb.Pump.BuyChecked
import ShredArb.Hot.Optimal
import ShredArb.Pump.Slack
import ShredArb.Dlmm.Orders
import ShredArb.Dlmm.OrderTurn
import ShredArb.Dlmm.OrderPlain
import ShredArb.Shyft.Shadow
import ShredArb.Trigger.Decoders
import ShredArb.Lib.Snapshots
import ShredArb.Shyft.State008
import ShredArb.Shyft.Reflect
import ShredArb.Orbit.Gap
import ShredArb.Exec.Nonce
import ShredArb.Trigger.Seen
import ShredArb.Trigger.FromTx
import ShredArb.Pools.Kernel
import ShredArb.Paper.Adapter
import ShredArb.Pools.Map
import ShredArb.Trigger.Classify
import ShredArb.Tx.Layout
import ShredArb.Tx.DexPool
import ShredArb.Tx.DexPoolN
import ShredArb.Pools.Affected
import ShredArb.Exec.AltPack
import ShredArb.Exec.Legacy
import ShredArb.Gates.Funnel
import ShredArb.Gates.Embed
import ShredArb.Dlmm.Price
import ShredArb.Dlmm.Exact
import ShredArb.Dlmm.FeeRate
import ShredArb.Lib.Radix
import ShredArb.Exec.B58
import ShredArb.Ports.B58
import ShredArb.Lib.Spsc
import ShredArb.Feed.Ring
import ShredArb.Feed.Capture
