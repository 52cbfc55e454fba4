import Xv6.Pipe.Wakeup
import Xv6.Log.Crash
import Xv6.Log.Space
import Xv6.Bio.Coherence
import Xv6.Ptable.Order
import Xv6.Ptable.Ledger
import Xv6.Ptable.Wait
import Xv6.Ptable.Locking
import Xv6.Zip.Files
import Xv6.Syscall.Buffer
import Xv6.Syscall.Procs
import Xv6.Sh.Terminate
import Xv6.Umalloc.Private
import Xv6.Console.Discipline
import Xv6.Ids.Interleave
import Xv6.Mkfs.Mount
import Xv6.Sysfile.Whole
import Xv6.Ids.Chown
import Xv6.Ids.Bounds
import Xv6.Grep.Chunks
import Xv6.Ide.Order
import Xv6.Vm.Copyout
import Xv6.Date
import Xv6.Memmove
import Xv6.Grep.Match
import Xv6.Printint
import Xv6.Sh.Builtin
