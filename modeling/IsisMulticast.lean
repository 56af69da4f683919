import IsisMulticast.Lib.OrdSet
import IsisMulticast.Lib.Lts
import IsisMulticast.Lib.Firsts
import IsisMulticast.Lib.Fair
import IsisMulticast.Lib.Broadcast
import IsisMulticast.Lib.Stoi
import IsisMulticast.Lib.Text
import IsisMulticast.Message
import IsisMulticast.Codec
import IsisMulticast.HoldBackQueue
import IsisMulticast.QueueSpec
import IsisMulticast.QueueRuns
import IsisMulticast.Payload
import IsisMulticast.Udp
import IsisMulticast.SendWithAck
import IsisMulticast.Process
import IsisMulticast.Sender
import IsisMulticast.Traffic
import IsisMulticast.System
import IsisMulticast.History
import IsisMulticast.ServerInv
import IsisMulticast.SenderInv
import IsisMulticast.Runs
import IsisMulticast.Listener
import IsisMulticast.HeldBack
import IsisMulticast.Counter
import IsisMulticast.Optionals
import IsisMulticast.SysInv
import IsisMulticast.Callbacks
import IsisMulticast.Agreement
import IsisMulticast.Answers
import IsisMulticast.NoLoss
import IsisMulticast.Replays
import IsisMulticast.Ordered
import IsisMulticast.FinalNumbers
import IsisMulticast.TotalOrder
import IsisMulticast.AtMostOnce
import IsisMulticast.Completion
import IsisMulticast.Draws
import IsisMulticast.Sessions
import IsisMulticast.Completable
import IsisMulticast.Cost
import IsisMulticast.Liveness
import IsisMulticast.Refinement
import IsisMulticast.Blocked
import IsisMulticast.Crashes
import IsisMulticast.Listen
import IsisMulticast.Net
import IsisMulticast.Hostfile
import IsisMulticast.Clients
import IsisMulticast.Startup
import IsisMulticast.EndToEnd
