import Cerverus.FailedOperations
import Cerverus.FileExtensions
import Cerverus.TableSizes

/-!
# No callback faults

A step is refused where the kernel could not complete the operation, and where a callback has
no defined behaviour: it follows a bad pointer in the cache, finds no extension in a name,
writes past its locals, or reads a variable it has not assigned. As long as the cache is in
order none of the latter happens, except that `route_callback_test` cannot be resumed after its
response.
-/
namespace Cerverus.EventLoop
open FileExtensions FirstMatch GuardedRun Hash Http Lru Routing

/-- What the resumption counts on: a name that `async_io_open_file` has taken from the path has a
dot, and a file is sent by `route_callback_send_file`. -/
def Context.Resumable : Context → Prop
  | .openat pt | .statx pt => 46 ∈ pt.file.name
  | .spliceAll _ pt => pt.callback = .routeCallbackSendFile
  | _ => True

section
variable {rtr : Router} {s t : LoopState} {c : Completion} {ctx : Context} {pt : Coroutine}
  {label : OpenFileLabel}

end

/-! ## A server over a public directory -/

section
variable {files : List Bytes} {rtr : Router} {regs : List (Registration RouteCallback)}

end

end Cerverus.EventLoop
