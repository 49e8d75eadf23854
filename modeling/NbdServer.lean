import NbdServer.View.Updates
import NbdServer.View.Retirement
import NbdServer.View.ExtentCalls
import NbdServer.View.LastWriter
import NbdServer.View.Connected
import NbdServer.Wal.Crash
import NbdServer.Wal.Faults
import NbdServer.Wal.Ordered
import NbdServer.Wal.Scan
import NbdServer.Wal.PruneFaults
import NbdServer.Admission.Safety
import NbdServer.Admission.Liveness
import NbdServer.Engines.Memory
import NbdServer.Engines.Readers
import NbdServer.Engines.Clones
import NbdServer.Compaction.Content
import NbdServer.Export.Accounting
import NbdServer.Registry.Safety
import NbdServer.Connection.Replies
import NbdServer.Protocol.Option
