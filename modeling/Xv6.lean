import Xv6.Log.Space
import Xv6.Sched.Exclusion
import Xv6.Sched.Lottery
import Xv6.Sched.Life
import Xv6.Sched.History
import Xv6.Alarm.Pages
import Xv6.Fs.Dangling
import Xv6.Pipes.Wakeup
import Xv6.Alarm.Reuse
import Xv6.Buffers.Coherence
import Xv6.Vm.Table
import Xv6.Vm.Kalloc
import Xv6.Intr.Machine
import Xv6.Console.Stream
import Xv6.Virtio.Driver
import Xv6.Blocks.Reads
import Xv6.Mkfs.Agreement
import Xv6.Alarm.Handler
import Xv6.Wait.Reap
import Xv6.Wait.Kill
import Xv6.Sleep.Lock
import Xv6.Exec.Program
import Xv6.Strace
import Xv6.Grep.Match
