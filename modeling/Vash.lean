import Vash.Store.Readers
import Vash.Store.Eviction
import Vash.Store.GroupCommit
import Vash.Store.RegistryRuns
import Vash.Node.Fetched
import Vash.Node.Refusals
import Vash.Store.Reclamation
import Vash.Proto.MemcachedStorage
import Vash.Memory.Listing
import Vash.Node.Listing
import Vash.Node.GuardedBatches
import Vash.Server.MetaCommands
import Vash.Server.Gossip
import Vash.Server.HotKeys
import Vash.Server.Lanes
import Vash.Server.Scan
import Vash.Proto.RespRefusals
import Vash.Server.RespBounds
import Vash.Server.RespExecute
import Vash.Server.Measure
import Vash.Server.VcpReply
