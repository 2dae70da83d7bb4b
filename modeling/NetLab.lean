import NetLab.Accelerator.Connection
import NetLab.Foundation.Pipe
import NetLab.Foundation.Sockets
import NetLab.Accelerator.Session
import NetLab.Accelerator.Polled
import NetLab.Accelerator.Interest
import NetLab.Accelerator.Ending
import NetLab.Accelerator.Batch
import NetLab.Accelerator.Wire
import NetLab.Accelerator.Stream
import NetLab.LineInput
import NetLab.Foundation.Scanf
import NetLab.Chat.Users
import NetLab.Chat.Server
import NetLab.Chat.Handlers
import NetLab.Chat.Effect
import NetLab.Chat.Loop
import NetLab.Chat.Calls
import NetLab.Chat.Sessions
import NetLab.Chat.Descriptors
import NetLab.Chat.Persistence
import NetLab.Chat.Accounts
import NetLab.Chat.Reload
import NetLab.Chat.Records
import NetLab.Chat.Pages
import NetLab.Foundation.Ring
import NetLab.Edunic.TxRing
import NetLab.Edunic.TxLedger
import NetLab.Edunic.TxPath
import NetLab.Edunic.TxSound
import NetLab.Foundation.Custody
import NetLab.SimpleNetdev.TxRing
import NetLab.SimpleNetdev.TxPath
import NetLab.Foundation.Gate
import NetLab.SimpleNetdev.Wakeup
import NetLab.SimpleNetdev.Interrupt
import NetLab.Edunic.Wakeup
import NetLab.Foundation.Sweep
import NetLab.Edunic.RxRing
import NetLab.Edunic.RxPath
import NetLab.Edunic.RxRuns
import NetLab.Edunic.RxSound
import NetLab.Edunic.RxRefill
import NetLab.Edunic.Card
import NetLab.Edunic.CardRuns
import NetLab.Edunic.Carrier
import NetLab.Edunic.Loopback
import NetLab.Edunic.Quiet
import NetLab.Edunic.Stranded
import NetLab.Accelerator.Forwarding
import NetLab.Accelerator.Progress
import NetLab.Foundation.Look
import NetLab.Foundation.Headers
import NetLab.Foundation.History
import NetLab.PacketCapture.Capture
import NetLab.PacketCapture.Decoding
import NetLab.PacketCapture.BlockRing
import NetLab.PacketCapture.BlockOrder
import NetLab.PacketCapture.Bounds
import NetLab.Netfilter.MacFirewall
import NetLab.SimpleNetdev.RxRing
import NetLab.SimpleNetdev.RxPath
import NetLab.Foundation.Room
import NetLab.GroupChat.Acts
import NetLab.GroupChat.Traces
import NetLab.GroupChat.Broadcast
import NetLab.GroupChat.Membership
import NetLab.Chat.Conversations
import NetLab.Foundation.Offers
import NetLab.SendAll
import NetLab.Foundation.Tagged
import NetLab.GroupChat.Authors
import NetLab.EpollServer.Server
import NetLab.EpollServer.Echo
import NetLab.Edunic.Holdings
import NetLab.Edunic.CardDeeds
import NetLab.Edunic.Stages
import NetLab.Edunic.LifecycleRuns
import NetLab.SimpleNetdev.LifecycleRuns
import NetLab.Accelerator.ProcessRuns
import NetLab.ChatClient.Screen
