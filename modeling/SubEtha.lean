import SubEtha.Block.Tower
import SubEtha.Block.Hostile
import SubEtha.Compress.Exact
import SubEtha.Control.Compat
import SubEtha.Rlc.Channel
import SubEtha.Rlc.NoLoss
import SubEtha.Rlc.Start
import SubEtha.Rlc.Amplification
import SubEtha.Rlc.Admission
import SubEtha.Unified.Codes
import SubEtha.Mux.Delivery
import SubEtha.Ring.ShapeOrder
import SubEtha.Ring.Drain
import SubEtha.Ring.StampedCapacity
import SubEtha.Epochs.Compounds
import SubEtha.Epochs.Deaths
import SubEtha.Maps.LruRefinement
import SubEtha.Ring.Frame
import SubEtha.Maps.Membership
import SubEtha.Coord.Lease
import SubEtha.Coord.Fanout
import SubEtha.Epochs.SlabReads
import SubEtha.Epochs.Laned
import SubEtha.Unified.Handover
import SubEtha.Ring.BroadcastOrder
import SubEtha.Ring.Migration
import SubEtha.SpecC.Interop
import SubEtha.Arena.Collect
import SubEtha.Ring.Reorder
import SubEtha.Block.Interleave
import SubEtha.Unified.Controller
import SubEtha.Mux.NakScan
import SubEtha.Compress.Untrusted
import SubEtha.Maps.Handles
import SubEtha.Coord.FenceClock
import SubEtha.Wire.Socket
import SubEtha.Ring.PubSubLag
import SubEtha.Ring.Waker
import SubEtha.Maps.BitRanges
import SubEtha.Coord.Handshake
