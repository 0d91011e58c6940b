import Xv6.Log.Crash
import Xv6.Fs.Coherence
import Xv6.Kernel.Delivery
import Xv6.Kernel.Kill
import Xv6.Kernel.Naps
import Xv6.Sh.Input
import Xv6.Sh.Processes
import Xv6.Virtio.Result
import Xv6.Vm.Copy
import Xv6.Vm.Objects
import Xv6.Dir.Recovery
import Xv6.Ftable.References
import Xv6.Dir.Dots
import Xv6.File.Budget
import Xv6.File.Lengths
import Xv6.Sys.Longest
import Xv6.Sys.Unchanged
import Xv6.User.Xargs
import Xv6.User.Memmove
import Xv6.User.Grep
