import Fika.Lib.Run
import Fika.Lib.CharArray
import Fika.Lib.Ledger
import Fika.Lib.Outcome
import Fika.Lib.Handles
import Fika.Lib.Mailboxes
import Fika.Lib.Flow
import Fika.Lib.Shutdown
import Fika.Lib.Stopper
import Fika.Lib.Loop
import Fika.Lib.Files
import Fika.Lib.Publish
import Fika.Global.FileJob
import Fika.Global.QnRslv
import Fika.Global.Codec
import Fika.Global.Drain
import Fika.Qm.Qm
import Fika.Qm.Registry
import Fika.Qm.History
import Fika.Qm.Dispatch
import Fika.Detect.DetectService
import Fika.Detect.MagicHandle
import Fika.Parse.ParseService
import Fika.Parse.PdfParser
import Fika.Ingestd.Ingestd
import Fika.Ingestd.Acknowledge
import Fika.Ingestd.JobIds
import Fika.Pipeline.Model
import Fika.Pipeline.Messages
import Fika.Pipeline.Routing
import Fika.Pipeline.Custody
import Fika.Pipeline.Payload
import Fika.Pipeline.Reference
import Fika.Pipeline.Recognised
import Fika.Pipeline.Termination
import Fika.Pipeline.Spool
import Fika.Lib.Fallible
import Fika.Supervisor.Worker
import Fika.Supervisor.Supervisor
import Fika.Supervisor.NullSafety
import Fika.Supervisor.Stop
import Fika.Supervisor.Monitor
import Fika.Supervisor.Pills
import Fika.Supervisor.Spawns
import Fika.Supervisor.Targeted
import Fika.Lib.NamedQueue
import Fika.Lib.Epochs
import Fika.Cli.Session
import Fika.Cli.Delivery
import Fika.Cli.Ping
import Fika.Supervisor.RunLoop
import Fika.Supervisor.Launches
import Fika.Util.PidFile
import Fika.Pipeline.Bounded
import Fika.Pipeline.Faults
import Fika.Pipeline.Refinement
import Fika.Pipeline.Outcomes
import Fika.Pipeline.StopOrder
import Fika.Pipeline.OrderlyStop
import Fika.Pipeline.StopWorkers
import Fika.Pipeline.Restart
import Fika.Pipeline.Concurrent
import Fika.Pipeline.Isolation
