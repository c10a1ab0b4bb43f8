import Pringles.Control.Flooding
import Pringles.Control.RingSetup
import Pringles.Control.ShardConfig
import Pringles.P4.ClientFormat
import Pringles.P4.PktgenBatches
import Pringles.P4.PktgenLatency
import Pringles.P4.Reparse
import Pringles.Ring.AckBound
import Pringles.Ring.AckRounds
import Pringles.Ring.Drain
import Pringles.Ring.ViewChange
import Pringles.Software.AppendThreads
import Pringles.Software.BatchRoom
import Pringles.Software.FanOut
import Pringles.Software.LogTail
import Pringles.Software.MessageSlots
import Pringles.Software.RawPacket
import Pringles.Software.Replies
import Pringles.Software.ResponseBatch
import Pringles.Software.RoundRobin
import Pringles.Software.StreamShards
import Pringles.Software.SubscribeRequest
import Pringles.Software.Unbatch
import Pringles.Switch.Ack
import Pringles.Switch.Frame
import Pringles.Switch.OpenSlot
import Pringles.Switch.ViewReply
