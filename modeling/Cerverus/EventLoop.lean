import Cerverus.LruCache
import Cerverus.Receive
import Cerverus.Response
import Cerverus.RouteTrie
import Cerverus.SpliceAll

/-!
# The event loop

A step takes one operation out of those in flight, lets the kernel complete it, and runs its
completion callback. The kernel may pick any operation and any result it is allowed to give.
Each suspended protothread is known to exactly one pointer, the context of the operation it
awaits, so a context holds its protothread by value, and a child protothread its caller. A
step returns `none` where the kernel could not do that, or the C code has no defined
behaviour.
-/
namespace Cerverus.EventLoop
open Hash Lru Http SpliceAll

/-- The callbacks of the repository that take the locals the router hands to them. -/
inductive RouteCallback
  | routeCallbackSendFile
  | routeCallbackTest
  deriving DecidableEq, Repr

/-- A client descriptor and, for bookkeeping, the number of the connection it was accepted
for. -/
structure Client where
  fd : ℕ
  conn : ℕ
  deriving DecidableEq, Repr

structure FileT where
  fd : ℕ
  name : Bytes
  stxSize : UInt64
  deriving DecidableEq, Repr

/-- A route callback between two of its suspensions, with its locals. Where it is suspended is
told by the operation that holds it. -/
structure Coroutine where
  callback : RouteCallback
  client : Client
  path : Bytes
  file : FileT
  deriving DecidableEq, Repr

/-- A `logical_async_context`; `close` without a coroutine is that of an evicted file. -/
inductive Context
  | accept
  | recv (client : Client) (buffer : Sds)
  | openat (pt : Coroutine)
  | statx (pt : Coroutine)
  | send (buffer : Bytes) (pt : Coroutine)
  | spliceAll (ctx : SpliceAllContext) (pt : Coroutine)
  | close (fd : ℕ) (pt : Option Coroutine)
  deriving DecidableEq, Repr

inductive Handle
  | client (conn : ℕ)
  | file (path : Bytes)
  | pipe
  | other
  deriving DecidableEq, Repr

inductive Submission
  | send (conn : ℕ)
  | splice (conn : ℕ)
  | close (conn : ℕ)
  deriving DecidableEq, Repr

def Submission.conn : Submission → ℕ
  | .send n => n
  | .splice n => n
  | .close n => n

structure LoopState where
  fileCache : LruCache FileT
  inFlight : List Context
  opened : ℕ → Option Handle
  nextConn : ℕ
  log : List Submission

structure Router where
  publicDirectoryHmap : Hashmap Unit
  routingTable : HttpMethod → TrieNode RouteCallback

/-! ## Submissions -/

def Context.submission (opened : ℕ → Option Handle) : Context → Option Submission
  | .send _ pt => some (.send pt.client.conn)
  | .spliceAll _ pt => some (.splice pt.client.conn)
  | .close _ (some pt) => some (.close pt.client.conn)
  | .close fd none =>
    match opened fd with
    | some (.client n) => some (.close n)
    | _ => none
  | _ => none

def submit (s : LoopState) (ctx : Context) : LoopState :=
  { s with
    inFlight := s.inFlight ++ [ctx]
    log := s.log ++ (ctx.submission s.opened).toList }

def handleAcceptSubmission (s : LoopState) : LoopState := submit s .accept

def handleRecvSubmission (s : LoopState) (client : Client) (buffer : Sds) : LoopState :=
  submit s (.recv client (Http.handleRecvSubmission buffer))

def handleOpenatSubmission (s : LoopState) (pt : Coroutine) : LoopState := submit s (.openat pt)

def handleStatxSubmission (s : LoopState) (pt : Coroutine) : LoopState := submit s (.statx pt)

def handleSendSubmission (s : LoopState) (buffer : Bytes) (pt : Coroutine) : LoopState :=
  submit s (.send buffer pt)

def handleSpliceAllSubmission (s : LoopState) (ctx : SpliceAllContext) (pt : Coroutine) :
    LoopState :=
  submit s (.spliceAll ctx pt)

def handleCloseSubmission (s : LoopState) (fd : ℕ) (pt : Option Coroutine) : LoopState :=
  submit s (.close fd pt)

def fileEvictionHandler (s : LoopState) (file : FileT) : LoopState :=
  handleCloseSubmission s file.fd none

/-! ## The coroutines -/

/-- From the end of `async_io_open_file` to the suspension in `async_io_send_buffer`. -/
def afterOpenFile (s : LoopState) (pt : Coroutine) : Option LoopState := do
  let res ← fileResponse pt.file.name pt.file.stxSize
  some (handleSendSubmission s (responseSerialize res) pt)

/-- The entry of `async_io_sendfile`; a failed `pipe2` leaves zeros. -/
def asyncIoSendfile (s : LoopState) (pt : Coroutine) (pipe : Option (ℕ × ℕ)) : LoopState :=
  let opened := match pipe with
    | none => s.opened
    | some (a, b) => Function.update (Function.update s.opened a (some .pipe)) b (some .pipe)
  handleSpliceAllSubmission { s with opened := opened }
    (sendfileContext pt.file.fd pt.client.fd pt.file.stxSize (pipe.getD (0, 0))) pt

/-- From the end of `async_io_send_buffer`: `route_callback_test` reads `send_buffer_state`, an
automatic variable that the resumed call has not assigned. -/
def afterSendBuffer (s : LoopState) (pt : Coroutine) (pipe : Option (ℕ × ℕ)) :
    Option LoopState :=
  match pt.callback with
  | .routeCallbackSendFile => some (asyncIoSendfile s pt pipe)
  | .routeCallbackTest => none

/-- From the end of `async_io_sendfile`, where `route_callback_test` would read
`sendfile_state` unassigned. -/
def afterSendfile (s : LoopState) (pt : Coroutine) : Option LoopState :=
  match pt.callback with
  | .routeCallbackSendFile => some (handleCloseSubmission s pt.client.fd (some pt))
  | .routeCallbackTest => none

/-- Where `async_io_open_file` is entered or resumed. -/
inductive OpenFileLabel
  | start
  | afterOpenat
  | afterStatx
  deriving DecidableEq, Repr

/-- `LRU_cache_add`, its eviction handler included. -/
def cacheFile (s : LoopState) (pt : Coroutine) : Option LoopState := do
  let r ← lruCacheAdd s.fileCache pt.path pt.file
  let s := match r.evicted with
    | none => s
    | some file => fileEvictionHandler s file
  some { s with fileCache := r.cache }

/-- `async_io_open_file` looks into the cache at every entry, also when it is resumed. -/
def asyncIoOpenFile (s : LoopState) (label : OpenFileLabel) (pt : Coroutine) :
    Option LoopState :=
  (lruCacheGet s.fileCache pt.path).bind fun r =>
    match r.1 with
    | some (_, file) => afterOpenFile { s with fileCache := r.2 } { pt with file := file }
    | none =>
      match label with
      | .start => do
        let name ← (sdssplitlen pt.path 47).getLast?
        some (handleOpenatSubmission { s with fileCache := r.2 }
          { pt with file := { pt.file with name := name } })
      | .afterOpenat => some (handleStatxSubmission { s with fileCache := r.2 } pt)
      | .afterStatx => do
        let s ← cacheFile { s with fileCache := r.2 } pt
        afterOpenFile s pt

/-- `assets/public`. -/
def publicRoot : Bytes := [97, 115, 115, 101, 116, 115, 47, 112, 117, 98, 108, 105, 99]

/-- `/index.html`. -/
def indexName : Bytes := [47, 105, 110, 100, 101, 120, 46, 104, 116, 109, 108]

/-- `/test.html`. -/
def testName : Bytes := [47, 116, 101, 115, 116, 46, 104, 116, 109, 108]

def prepRouteCallbackSendFile (s : LoopState) (client : Client) (path : Bytes) :
    Option LoopState :=
  asyncIoOpenFile s .start ⟨.routeCallbackSendFile, client, path, ⟨0, [], 0⟩⟩

/-- `route_callback_test` grows its locals with `realloc`; `memory` is what its `file` then
holds. -/
def routeCallbackTest (s : LoopState) (client : Client) (memory : FileT) : Option LoopState :=
  asyncIoOpenFile s .start ⟨.routeCallbackTest, client, publicRoot ++ testName, memory⟩

/-! ## The router -/

/-- The loop of `router_create` over the listing. -/
def listPublic (hmap : Hashmap Unit) : List Bytes → Option (Hashmap Unit)
  | [] => some hmap
  | file :: files => (hashmapSet hmap file ()).bind fun r => listPublic r.2 files

def routerCreate (publicFiles : List Bytes) : Option Router :=
  (listPublic (hashmapCreate publicFiles.length loadPoint67 hashFnv1a) publicFiles).map fun hmap =>
    { publicDirectoryHmap := hmap, routingTable := Routing.trieCreate }

def routerAddRoute (rtr : Router) (rt : Route RouteCallback) : Router :=
  { rtr with routingTable := Routing.trieAddRoute rtr.routingTable rt }

/-- The test of the public directory; `none` where the table has no slots. -/
def publicHit (rtr : Router) (request : Request) : Option Bool :=
  if request.method = .get ∧ (memchr request.uri 46).isSome then
    (hashmapGet rtr.publicDirectoryHmap request.uri).map Option.isSome
  else some false

def handlerOf (rtr : Router) (request : Request) : Option RouteCallback :=
  Routing.trieFindHandler rtr.routingTable request.method request.uri

def sendIndex (s : LoopState) (request : Request) (client : Client) : Option LoopState :=
  if request.uri = [47] then prepRouteCallbackSendFile s client (publicRoot ++ indexName)
  else some s

def sendPublic (rtr : Router) (s : LoopState) (request : Request) (client : Client) :
    Option LoopState :=
  (publicHit rtr request).bind fun hit =>
    if hit then prepRouteCallbackSendFile s client (publicRoot ++ request.uri) else some s

/-- `route_callback_send_file` writes past the locals the router hands to a handler. -/
def runHandler (rtr : Router) (s : LoopState) (request : Request) (client : Client)
    (memory : FileT) : Option LoopState :=
  match handlerOf rtr request with
  | none => some s
  | some .routeCallbackTest => routeCallbackTest s client memory
  | some .routeCallbackSendFile => none

/-- The three cases run one after the other: none of the first two returns. -/
def routerHandleRequest (rtr : Router) (s : LoopState) (request : Request) (client : Client)
    (memory : FileT) : Option LoopState := do
  let s ← sendIndex s request client
  let s ← sendPublic rtr s request client
  runHandler rtr s request client memory

/-! ## Completions -/

/-- One completion: the operation, `cqe->res`, and what else the kernel and the allocator
contribute to the callback. -/
structure Completion where
  index : ℕ
  res : ℤ
  bytes : Bytes
  stxSize : UInt64
  pipe : Option (ℕ × ℕ)
  memory : FileT
  deriving DecidableEq, Repr

def handleAcceptCompletion (s : LoopState) (c : Completion) : LoopState :=
  if c.res < 0 then s
  else
    let client : Client := ⟨c.res.toNat, s.nextConn⟩
    let s := { s with
      opened := Function.update s.opened client.fd (some (.client client.conn))
      nextConn := s.nextConn + 1 }
    handleAcceptSubmission (handleRecvSubmission s client sdsempty)

def handleRecvCompletion (rtr : Router) (s : LoopState) (client : Client) (buffer : Sds)
    (c : Completion) : Option LoopState :=
  if c.res ≤ 0 then some s
  else
    match Http.handleRecvCompletion buffer c.bytes with
    | .waiting buffer => some (submit s (.recv client buffer))
    | .rejected => some s
    | .routed request => routerHandleRequest rtr s request client c.memory

/-- After an error the coroutine is resumed all the same. -/
def handleOpenatCompletion (s : LoopState) (pt : Coroutine) (c : Completion) :
    Option LoopState :=
  if c.res < 0 then asyncIoOpenFile s .afterOpenat pt
  else
    asyncIoOpenFile
      { s with opened := Function.update s.opened c.res.toNat (some (.file pt.path)) }
      .afterOpenat { pt with file := { pt.file with fd := c.res.toNat } }

/-- On success the kernel has written `statx_buff`. -/
def statxResult (pt : Coroutine) (c : Completion) : Coroutine :=
  { pt with file := { pt.file with
      stxSize := if c.res < 0 then pt.file.stxSize else c.stxSize } }

def handleStatxCompletion (s : LoopState) (pt : Coroutine) (c : Completion) :
    Option LoopState :=
  asyncIoOpenFile s .afterStatx (statxResult pt c)

def handleSendCompletion (s : LoopState) (buffer : Bytes) (pt : Coroutine) (c : Completion) :
    Option LoopState :=
  if c.res < 0 then afterSendBuffer s pt c.pipe
  else
    let buffer := buffer.drop c.res.toNat
    if buffer ≠ [] then some (handleSendSubmission s buffer pt)
    else afterSendBuffer s pt c.pipe

def handleSpliceAllCompletion (s : LoopState) (ctx : SpliceAllContext) (pt : Coroutine)
    (c : Completion) : Option LoopState :=
  let next := SpliceAll.handleSpliceAllCompletion c.res ctx
  if next.2 then afterSendfile s pt else some (handleSpliceAllSubmission s next.1 pt)

/-- The coroutine that waited ends. The kernel has released the descriptor. -/
def handleCloseCompletion (s : LoopState) (fd : ℕ) : LoopState :=
  { s with opened := Function.update s.opened fd none }

/-- What the kernel may answer: descriptors that are not open, and no more than was asked. -/
def Allows (opened : ℕ → Option Handle) (ctx : Context) (c : Completion) : Prop :=
  match ctx with
  | .accept | .openat _ => 0 ≤ c.res → opened c.res.toNat = none
  | .recv _ buffer => 0 < c.res → c.res = c.bytes.length ∧ c.bytes.length ≤ sdsavail buffer
  | .send buffer _ => c.res ≤ buffer.length ∧
      ∀ p ∈ c.pipe, p.1 ≠ p.2 ∧ opened p.1 = none ∧ opened p.2 = none
  | .spliceAll ctx _ => c.res ≤ (SpliceAll.handleSpliceAllSubmission ctx).nbytes.toNat
  | .statx _ | .close _ _ => True

instance decidableAllows (opened : ℕ → Option Handle) (ctx : Context) (c : Completion) :
    Decidable (Allows opened ctx c) := by
  cases ctx <;> unfold Allows <;> infer_instance

def complete (rtr : Router) (s : LoopState) (ctx : Context) (c : Completion) :
    Option LoopState :=
  match ctx with
  | .accept => some (handleAcceptCompletion s c)
  | .recv client buffer => handleRecvCompletion rtr s client buffer c
  | .openat pt => handleOpenatCompletion s pt c
  | .statx pt => handleStatxCompletion s pt c
  | .send buffer pt => handleSendCompletion s buffer pt c
  | .spliceAll ctx pt => handleSpliceAllCompletion s ctx pt c
  | .close fd _ => some (handleCloseCompletion s fd)

def step (rtr : Router) (s : LoopState) (c : Completion) : Option LoopState :=
  match s.inFlight[c.index]? with
  | none => none
  | some ctx =>
    if Allows s.opened ctx c then
      complete rtr { s with inFlight := s.inFlight.eraseIdx c.index } ctx c
    else none

/-- `server_run` has submitted its eight accepts; `others` are the descriptors open by then. -/
def serverStart (others : List ℕ) : LoopState :=
  { fileCache := lruCacheCreate 16
    inFlight := List.replicate 8 .accept
    opened := fun fd => if fd ∈ others then some .other else none
    nextConn := 0
    log := [] }

end Cerverus.EventLoop
