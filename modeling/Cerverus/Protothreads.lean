import Cerverus.EventLoop
import Cerverus.Lifecycle

/-!
# Protothreads on the heap

The coroutines that send a file, with the pointers that `Cerverus.EventLoop` does without: a
protothread is an object of its own, contexts and children point to it, and it is called through
its function pointer. Every call of a protothread is the last thing its caller does, so a
callback is a chain of activations, each one going on with the call that the one before ended
with. Submissions and allocations always succeed. The trace is for bookkeeping.
-/
namespace Cerverus.Protothread
open Hash Lru Http SpliceAll Lifecycle
open EventLoop (FileT)

/-- The functions that `self` points to. -/
inductive PtFn
  | routeCallbackSendFile
  | asyncIoOpenFile
  | asyncIoSendBuffer
  | asyncIoSendfile
  deriving DecidableEq, Repr

/-- One label for each `PT_WAIT`: four in `route_callback_send_file`, two in
`async_io_open_file`, one in each of the others. -/
inductive Label
  | openFile
  | sendBuffer
  | sendfile
  | close
  | openat
  | statx
  | send
  | spliceAll
  deriving DecidableEq, Repr

/-- A `file_t *` is the `file` in the locals of the protothread with that address. -/
structure OpenFileLocals where
  path : Bytes
  file : ℕ
  deriving DecidableEq, Repr

structure SendBufferLocals where
  buffer : Bytes
  clientFd : ℕ
  deriving DecidableEq, Repr

structure SendfileLocals where
  clientFd : ℕ
  file : ℕ
  spliceCtx : Option SpliceAllContext
  deriving DecidableEq, Repr

structure SendFileLocals where
  clientFd : ℕ
  path : Bytes
  file : FileT
  rawRes : Bytes
  openFileState : Option ℕ
  sendBufferState : Option ℕ
  sendfileState : Option ℕ
  deriving DecidableEq, Repr

inductive Locals
  | openFile (locals : OpenFileLocals)
  | sendBuffer (locals : SendBufferLocals)
  | sendfile (locals : SendfileLocals)
  | route (locals : SendFileLocals)
  deriving DecidableEq, Repr

/-- The locals are freed with the protothread, or before it. -/
structure ProtothreadState where
  resumeLabel : Option Label
  self : Option PtFn
  caller : Option ℕ
  locals : Option Locals
  deriving DecidableEq, Repr

/-- What is submitted: the fields that the completion reads. -/
inductive Operation
  | openat (file : ℕ)
  | statx (file : ℕ)
  | send (buffer : Bytes) (clientFd : ℕ)
  | spliceAll (ctx : SpliceAllContext)
  | close (fd : ℕ)
  deriving DecidableEq, Repr

structure Context where
  op : Operation
  pt : Option ℕ
  deriving DecidableEq, Repr

abbrev Heap := ℕ → Option ProtothreadState

structure State where
  heap : Heap
  fresh : ℕ
  inFlight : List Context
  fileCache : LruCache FileT
  trace : List (Event ℕ)

/-- `protothread`: a null or freed protothread is used, or locals or a label that are not those
of the function. `unfinished`: the chain of activations goes on longer than the model follows
it. `outside`: a null or freed node of the cache is used, after a hit on the last of several
files; a path is empty or a name without an extension; or there is no such operation. -/
inductive Fault
  | protothread
  | unfinished
  | outside
  deriving DecidableEq, Repr

abbrev Result := Except Fault

structure Call where
  fn : PtFn
  pt : ℕ
  deriving DecidableEq, Repr

/-! ## The heap -/

def load (s : State) (p : ℕ) : Result ProtothreadState :=
  (s.heap p).elim (.error .protothread) .ok

def State.write (s : State) (p : ℕ) (st : ProtothreadState) : State :=
  { s with heap := Function.update s.heap p (some st) }

/-- `cmem_new(protothread_state, .caller = .., .locals = ..)`. -/
def State.create (s : State) (caller : Option ℕ) (locals : Locals) : State :=
  { s with
    heap := Function.update s.heap s.fresh (some ⟨none, none, caller, some locals⟩)
    fresh := s.fresh + 1 }

/-- `cmem_free(pt->locals); cmem_free(pt);` -/
def destroy (s : State) (pt : Option ℕ) : Result State := do
  let p ← pt.elim (.error .protothread) .ok
  let _ ← load s p
  .ok { s with heap := Function.update s.heap p none }

def State.log (s : State) (e : Event ℕ) : State := { s with trace := s.trace ++ [e] }

def State.submit (s : State) (op : Operation) (pt : Option ℕ) : State :=
  { s with inFlight := s.inFlight ++ [⟨op, pt⟩] }

def routeLocals (st : ProtothreadState) : Result SendFileLocals :=
  match st.locals with
  | some (.route locals) => .ok locals
  | _ => .error .protothread

def openFileLocals (st : ProtothreadState) : Result OpenFileLocals :=
  match st.locals with
  | some (.openFile locals) => .ok locals
  | _ => .error .protothread

def sendBufferLocals (st : ProtothreadState) : Result SendBufferLocals :=
  match st.locals with
  | some (.sendBuffer locals) => .ok locals
  | _ => .error .protothread

def sendfileLocals (st : ProtothreadState) : Result SendfileLocals :=
  match st.locals with
  | some (.sendfile locals) => .ok locals
  | _ => .error .protothread

def getFile (s : State) (file : ℕ) : Result FileT := do
  let st ← load s file
  let locals ← routeLocals st
  .ok locals.file

def setFile (s : State) (file : ℕ) (f : FileT → FileT) : Result State := do
  let st ← load s file
  let locals ← routeLocals st
  .ok (s.write file { st with locals := some (.route { locals with file := f locals.file }) })

def defined {α : Type} (a : Option α) : Result α := a.elim (.error .outside) .ok

/-! ## The macros -/

/-- `pt->self(pt)`. -/
def callSelf (s : State) (pt : Option ℕ) : Result Call := do
  let p ← pt.elim (.error .protothread) .ok
  let st ← load s p
  let fn ← st.self.elim (.error .protothread) .ok
  .ok ⟨fn, p⟩

/-- `PT_WAIT` up to what it submits. -/
def ptWait (s : State) (p : ℕ) (st : ProtothreadState) (label : Label) : State :=
  (s.write p { st with resumeLabel := some label }).log (.waited p)

def ptEnd (s : State) (p : ℕ) (st : ProtothreadState) : Result (State × Option Call) :=
  let s := (s.write p { st with resumeLabel := none }).log (.ended p)
  match st.caller with
  | none => .ok (s, none)
  | some caller => do
    let call ← callSelf s (some caller)
    .ok (s, some call)

/-! ## The functions -/

/-- From the start to the first `PT_WAIT`. -/
def sendFileStart (s : State) (p : ℕ) (st : ProtothreadState) (locals : SendFileLocals) :
    Result (State × Option Call) :=
  let child := s.fresh
  let s := s.create (some p) (.openFile ⟨locals.path, p⟩)
  let locals := { locals with openFileState := some child }
  .ok (ptWait s p { st with locals := some (.route locals) } .openFile,
    some ⟨.asyncIoOpenFile, child⟩)

/-- From the first `PT_WAIT` to the second. -/
def sendFileOpened (s : State) (p : ℕ) (st : ProtothreadState) (locals : SendFileLocals) :
    Result (State × Option Call) := do
  let s ← destroy s locals.openFileState
  let res ← defined (fileResponse locals.file.name locals.file.stxSize)
  let raw := responseSerialize res
  let child := s.fresh
  let s := s.create (some p) (.sendBuffer ⟨raw, locals.clientFd⟩)
  let locals := { locals with rawRes := raw, sendBufferState := some child }
  .ok (ptWait s p { st with locals := some (.route locals) } .sendBuffer,
    some ⟨.asyncIoSendBuffer, child⟩)

/-- From the second to the third. -/
def sendFileSent (s : State) (p : ℕ) (st : ProtothreadState) (locals : SendFileLocals) :
    Result (State × Option Call) := do
  let s ← destroy s locals.sendBufferState
  let child := s.fresh
  let s := s.create (some p) (.sendfile ⟨locals.clientFd, p, none⟩)
  let locals := { locals with sendfileState := some child }
  .ok (ptWait s p { st with locals := some (.route locals) } .sendfile,
    some ⟨.asyncIoSendfile, child⟩)

/-- From the third to the last. -/
def sendFileSpliced (s : State) (p : ℕ) (st : ProtothreadState) (locals : SendFileLocals) :
    Result (State × Option Call) := do
  let s ← destroy s locals.sendfileState
  .ok ((ptWait s p st .close).submit (.close locals.clientFd) (some p), none)

def routeCallbackSendFile (s : State) (p : ℕ) : Result (State × Option Call) := do
  let st ← load s p
  let locals ← routeLocals st
  let st := { st with self := some .routeCallbackSendFile }
  match st.resumeLabel with
  | none => sendFileStart s p st locals
  | some .openFile => sendFileOpened s p st locals
  | some .sendBuffer => sendFileSent s p st locals
  | some .sendfile => sendFileSpliced s p st locals
  | some .close => ptEnd s p { st with locals := none }
  | _ => .error .protothread

/-- The end of `async_io_open_file`. -/
def openFileEnd (s : State) (p : ℕ) (st : ProtothreadState) (locals : OpenFileLocals) :
    Result (State × Option Call) := do
  let file ← getFile s locals.file
  let r ← defined (lruCacheAdd s.fileCache locals.path file)
  let s := { s with fileCache := r.cache }
  let s := r.evicted.elim s fun file => s.submit (.close file.fd) none
  ptEnd s p st

/-- `async_io_open_file` after its look into the cache. -/
def openFileMiss (s : State) (p : ℕ) (st : ProtothreadState) (locals : OpenFileLocals) :
    Result (State × Option Call) :=
  let st := { st with self := some .asyncIoOpenFile }
  match st.resumeLabel with
  | none => do
    let name ← defined (sdssplitlen locals.path 47).getLast?
    let s ← setFile s locals.file fun file => { file with name := name }
    .ok ((ptWait s p st .openat).submit (.openat locals.file) (some p), none)
  | some .openat => .ok ((ptWait s p st .statx).submit (.statx locals.file) (some p), none)
  | some .statx => openFileEnd s p st locals
  | _ => .error .protothread

/-- The cached file is handed to the caller, which is called in place of `PT_BEGIN`. -/
def openFileHit (s : State) (p : ℕ) (st : ProtothreadState) (locals : OpenFileLocals)
    (file : FileT) : Result (State × Option Call) := do
  let s ← setFile s locals.file fun _ => file
  let s := s.log (.passed p)
  let call ← callSelf s st.caller
  .ok (s, some call)

def asyncIoOpenFile (s : State) (p : ℕ) : Result (State × Option Call) := do
  let st ← load s p
  let locals ← openFileLocals st
  let r ← defined (lruCacheGet s.fileCache locals.path)
  let s := { s with fileCache := r.2 }
  match r.1 with
  | some (_, file) => openFileHit s p st locals file
  | none => openFileMiss s p st locals

def asyncIoSendBuffer (s : State) (p : ℕ) : Result (State × Option Call) := do
  let st ← load s p
  let locals ← sendBufferLocals st
  let st := { st with self := some .asyncIoSendBuffer }
  match st.resumeLabel with
  | none =>
    .ok ((ptWait s p st .send).submit (.send locals.buffer locals.clientFd) (some p), none)
  | some .send => ptEnd s p st
  | _ => .error .protothread

/-- A `pipe2` that fails leaves zeros. -/
def asyncIoSendfile (pipe : Option (ℕ × ℕ)) (s : State) (p : ℕ) :
    Result (State × Option Call) := do
  let st ← load s p
  let locals ← sendfileLocals st
  let st := { st with self := some .asyncIoSendfile }
  match st.resumeLabel with
  | none => do
    let file ← getFile s locals.file
    let ctx := sendfileContext file.fd locals.clientFd file.stxSize (pipe.getD (0, 0))
    let st := { st with locals := some (.sendfile { locals with spliceCtx := some ctx }) }
    .ok ((ptWait s p st .spliceAll).submit (.spliceAll ctx) (some p), none)
  | some .spliceAll => ptEnd s p st
  | _ => .error .protothread

def activate (pipe : Option (ℕ × ℕ)) (s : State) (call : Call) : Result (State × Option Call) :=
  let s := s.log (.called call.pt)
  match call.fn with
  | .routeCallbackSendFile => routeCallbackSendFile s call.pt
  | .asyncIoOpenFile => asyncIoOpenFile s call.pt
  | .asyncIoSendBuffer => asyncIoSendBuffer s call.pt
  | .asyncIoSendfile => asyncIoSendfile pipe s call.pt

def chain (pipe : Option (ℕ × ℕ)) : ℕ → State × Option Call → Result State
  | _, (s, none) => .ok s
  | 0, (_, some _) => .error .unfinished
  | n + 1, (s, some call) => (activate pipe s call).bind (chain pipe n)

/-- A coroutine starts with a cached file: `route_callback_send_file`, `async_io_open_file`,
`route_callback_send_file` again, `async_io_send_buffer`. There is no longer chain. -/
def chainLimit : ℕ := 4

/-! ## The callbacks -/

/-- One completion: the operation, `cqe->res`, and what else the kernel contributes. -/
structure Completion where
  index : ℕ
  res : ℤ
  stxSize : UInt64
  pipe : Option (ℕ × ℕ)
  deriving DecidableEq, Repr

def opExit (s : State) (ctx : Context) : Result (State × Option Call) :=
  match ctx.pt with
  | none => .ok (s, none)
  | some p => do
    let call ← callSelf s (some p)
    .ok (s, some call)

def handleOpenatCompletion (s : State) (ctx : Context) (file : ℕ) (c : Completion) :
    Result (State × Option Call) := do
  let s ← setFile s file fun file => { file with fd := c.res.toNat }
  let call ← callSelf s ctx.pt
  .ok (s, some call)

/-- The kernel has written `statx_buff`. -/
def handleStatxCompletion (s : State) (ctx : Context) (file : ℕ) (c : Completion) :
    Result (State × Option Call) := do
  let s ← setFile s file fun file => { file with stxSize := c.stxSize }
  let call ← callSelf s ctx.pt
  .ok (s, some call)

def handleSendCompletion (s : State) (ctx : Context) (buffer : Bytes) (clientFd : ℕ)
    (c : Completion) : Result (State × Option Call) :=
  let buffer := buffer.drop c.res.toNat
  if buffer ≠ [] then .ok (s.submit (.send buffer clientFd) ctx.pt, none) else opExit s ctx

def handleSpliceAllCompletion (s : State) (ctx : Context) (spliceAll : SpliceAllContext)
    (c : Completion) : Result (State × Option Call) :=
  let next := SpliceAll.handleSpliceAllCompletion c.res spliceAll
  if next.2 then do
    let call ← callSelf s ctx.pt
    .ok (s, some call)
  else .ok (s.submit (.spliceAll next.1) ctx.pt, none)

/-- `OP_CHECK` comes first in every handler. -/
def complete (s : State) (ctx : Context) (c : Completion) : Result (State × Option Call) :=
  if c.res < 0 then opExit s ctx
  else
    match ctx.op with
    | .openat file => handleOpenatCompletion s ctx file c
    | .statx file => handleStatxCompletion s ctx file c
    | .send buffer clientFd => handleSendCompletion s ctx buffer clientFd c
    | .spliceAll spliceAll => handleSpliceAllCompletion s ctx spliceAll c
    | .close _ => opExit s ctx

/-- `prep_route_callback_send_file`, called for a request, or a completion. -/
inductive Callback
  | start (clientFd : ℕ) (path : Bytes)
  | complete (c : Completion)
  deriving DecidableEq, Repr

def prepRouteCallbackSendFile (s : State) (clientFd : ℕ) (path : Bytes) : State × Option Call :=
  (s.create none (.route ⟨clientFd, path, ⟨0, [], 0⟩, [], none, none, none⟩),
    some ⟨.routeCallbackSendFile, s.fresh⟩)

def step (s : State) : Callback → Result State
  | .start clientFd path =>
    chain none chainLimit (prepRouteCallbackSendFile s clientFd path)
  | .complete c => do
    let ctx ← defined s.inFlight[c.index]?
    let r ← complete { s with inFlight := s.inFlight.eraseIdx c.index } ctx c
    chain c.pipe chainLimit r

def start (cache : LruCache FileT) : State := ⟨fun _ => none, 0, [], cache, []⟩

def run : State → List Callback → Result State
  | s, [] => .ok s
  | s, e :: es => (step s e).bind fun s => run s es

end Cerverus.Protothread
