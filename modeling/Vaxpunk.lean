import Vaxpunk.Ods.Proof.Path
import Vaxpunk.Ods.Proof.Glob
import Vaxpunk.Ods.Proof.DirBlock
import Vaxpunk.Ods.Proof.Text
import Vaxpunk.Ods.Proof.Keep
import Vaxpunk.Ods.Proof.Time
import Vaxpunk.Lock.Proof.Told
import Vaxpunk.Dns.Proof.Reply
import Vaxpunk.Lock.Proof.Reason
import Vaxpunk.Lock.Proof.Deadlock
import Vaxpunk.Lock.Proof.Order
import Vaxpunk.Lock.Proof.WellFormed
import Vaxpunk.Mem.Proof.Accounts
import Vaxpunk.Obj.Proof.Refer
import Vaxpunk.Obj.Proof.Gst
import Vaxpunk.Obj.Proof.LibraryFile
import Vaxpunk.Link.Proof.Refs
import Vaxpunk.Link.Proof.Search
import Vaxpunk.Link.Proof.Places
import Vaxpunk.Vasm.Proof.Expr
import Vaxpunk.Vasm.Proof.Encode
import Vaxpunk.Vasm.Proof.Move
import Vaxpunk.Rms.Proof.Order
import Vaxpunk.Rms.Proof.Build
import Vaxpunk.Sched.Proof.Swtimint
