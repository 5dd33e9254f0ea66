import Vakya.Library.Machine
import Vakya.Library.Transducer
import Vakya.Library.Link
import Vakya.Library.Messages
import Vakya.Syntax
import Vakya.Http
import Vakya.Reference
import Vakya.Decode
import Vakya.Framing
import Vakya.DecodeRefines
import Vakya.Fragmentation
import Vakya.Head
import Vakya.Error
import Vakya.Encode
import Vakya.RoundTrip
import Vakya.EncodeHead
import Vakya.HeadScan
import Vakya.Members
import Vakya.Validation
import Vakya.FramingPlan
import Vakya.HeadRoundTrip
import Vakya.Exchange
import Vakya.Fate
import Vakya.Upgrade
import Vakya.Ownership
import Vakya.Context
import Vakya.Informational
import Vakya.Pipe
import Vakya.Rendezvous
import Vakya.Wakeup
import Vakya.Incoming
import Vakya.Ending
import Vakya.CleanEnd
import Vakya.Recv
import Vakya.RecvQueue
import Vakya.Admission
import Vakya.Fairness
import Vakya.BodyIo
import Vakya.Delivery
import Vakya.Receiver
import Vakya.ClientDriver
import Vakya.DriverMoves
import Vakya.Receipts
import Vakya.Server
import Vakya.HeadEnd
import Vakya.Promise
import Vakya.Steady
import Vakya.Boundaries
import Vakya.Accounting
import Vakya.ChunkGrammar
import Vakya.ControlBytes
import Vakya.ChunkLimits
import Vakya.DecodeSafety
import Vakya.HeadPrefixes
import Vakya.HeaderCase
import Vakya.Collect
import Vakya.ReaderBody
import Vakya.LimitedHint
import Vakya.ListMembers
import Vakya.Shutdown
import Vakya.Send
import Vakya.SendBody
import Vakya.SentContent
import Vakya.Transfer
import Vakya.Tunnel
import Vakya.UpgradedIo
import Vakya.Drained
import Vakya.Response
import Vakya.ClientReceive
import Vakya.Heard
import Vakya.ReceiveLoop
import Vakya.Observation
import Vakya.WireOrder
import Vakya.ExchangeControl
import Vakya.ResponseTransfer
import Vakya.Upload
import Vakya.UploadRun
import Vakya.ClientExchange
import Vakya.Halves
import Vakya.Settlement
import Vakya.Exchanges
