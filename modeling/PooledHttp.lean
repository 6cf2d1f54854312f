import PooledHttp.Log.Shared
import PooledHttp.Log.Waiting
import PooledHttp.Main
import PooledHttp.Queue.Waiting
import PooledHttp.Proofs.Queue.Ring
import PooledHttp.Proofs.Queue.Steps
import PooledHttp.Proofs.Queue.Order
import PooledHttp.Proofs.Queue.WakeUps
import PooledHttp.Proofs.Lock.Exclusion
import PooledHttp.Proofs.Lock.WakeUps
import PooledHttp.Proofs.Queue.Admission
import PooledHttp.Proofs.Request.Delivery
import PooledHttp.Proofs.Pool.Drain
import PooledHttp.Proofs.Log.Order
import PooledHttp.Proofs.Lock.Preference
import PooledHttp.Proofs.Queue.Closing
import PooledHttp.Proofs.Pool.Courses
import PooledHttp.Proofs.Server.Steps
import PooledHttp.Proofs.Server.Accounting
import PooledHttp.Proofs.Dialogue
import PooledHttp.Proofs.Handler.Respond
import PooledHttp.Proofs.Content.Confinement
import PooledHttp.Proofs.Handler.Account
import PooledHttp.Proofs.Handler.Status
import PooledHttp.Proofs.Office.Reports
import PooledHttp.Proofs.Log.Entry
import PooledHttp.Proofs.Office.Moves
import PooledHttp.Proofs.Office.Entries
import PooledHttp.Proofs.Handler.Framing
import PooledHttp.Proofs.Checked.Parsing
import PooledHttp.Proofs.Checked.Respond
import PooledHttp.Proofs.Lock.Overtaking
import PooledHttp.Proofs.Request.EscapedPath
import PooledHttp.Proofs.Log.Looks
import PooledHttp.Proofs.Request.BlankLine
import PooledHttp.Proofs.Content.Launch
import PooledHttp.Proofs.Log.Growth
import PooledHttp.Proofs.Handler.Overflow
import PooledHttp.Proofs.Log.Decoding
import PooledHttp.Proofs.Server.Pauses
import PooledHttp.Proofs.Http.Decoding
