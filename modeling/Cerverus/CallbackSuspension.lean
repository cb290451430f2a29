import Cerverus.Suspension

/-!
# The route callbacks across their waits

The three callbacks statement by statement: what each reads from automatic variables, what it
assigns, and where it waits. The parameter `state` is passed again at every call and is left
out; `slot` is `state->locals`, which every call loads into `locals` before it jumps to its
resume label.
-/
namespace Cerverus.Suspension

/-- The automatic variables; `tmp` holds the intermediate values of one statement. -/
inductive Var
  | locals
  | tmp
  | dot
  | type
  | h
  | sendBufferState
  | sendfileState
  deriving DecidableEq, Repr

/-- The members of the heap objects that the callbacks go through. -/
inductive Field
  | res
  | rawRes
  | clientFd
  | openFileState
  | sendBufferState
  | sendfileState
  | locals
  deriving DecidableEq, Repr

inductive Op
  | get (f : Field)
  | set (f : Field)
  | cmemRealloc
  | cmemFree
  | sdsfree
  | responseCreate
  | newOpenFileState
  | newSendBufferState
  | newSendfileState
  | setVersion
  | setStatusCode
  | setReasonPhrase
  | memrchrDot
  | logNoExtension
  | extension
  | contentType
  | contentLengthName
  | contentLengthValue
  | responseAddHeader
  | responseSerialize
  | asyncIoOpenFile
  | asyncIoSendBuffer
  | asyncIoSendfile
  | handleCloseSubmission
  | ptEnd
  deriving DecidableEq, Repr

abbrev Code := List (Stmt Var Op)

/-- `locals->f = op(..)`. -/
def storeField (f : Field) (op : Op) (args : List Var) : Code :=
  [.exec (some .tmp) op args, .exec none (.set f) [.locals, .tmp]]

/-- `op(locals->f)`. -/
def onField (op : Op) (f : Field) : Code :=
  [.exec (some .tmp) (.get f) [.locals], .exec none op [.tmp]]

/-- `PT_WAIT(state, op(locals->f))`. -/
def waitField (op : Op) (f : Field) : Code :=
  [.exec (some .tmp) (.get f) [.locals], .wait op [.tmp]]

/-- `cmem_free(locals->f->locals); cmem_free(locals->f);`. -/
def freeChildField (f : Field) : Code :=
  [.exec (some .tmp) (.get f) [.locals], .exec (some .tmp) (.get .locals) [.tmp],
    .exec none .cmemFree [.tmp]] ++ onField .cmemFree f

/-- `cmem_free(v->locals); cmem_free(v);`. -/
def freeChild (v : Var) : Code :=
  [.exec (some .tmp) (.get .locals) [v], .exec none .cmemFree [.tmp], .exec none .cmemFree [v]]

/-- The three members of `locals->res->status_line`. -/
def setStatusLine : Code :=
  onField .setVersion .res ++ onField .setStatusCode .res ++ onField .setReasonPhrase .res

/-- `response_add_header(locals->res, h)`. -/
def addHeader : Code :=
  [.exec (some .tmp) (.get .res) [.locals], .exec none .responseAddHeader [.tmp, .h]]

/-- `locals->raw_res = response_serialize(locals->res)`. -/
def serialize : Code :=
  .exec (some .tmp) (.get .res) [.locals] :: storeField .rawRes .responseSerialize [.tmp]

def contentLengthHeader : Code :=
  [.exec (some .h) .contentLengthName [.h], .exec (some .h) .contentLengthValue [.h, .locals]] ++
    addHeader

def routeCallbackSendFile : Code :=
  storeField .res .responseCreate [] ++
  storeField .openFileState .newOpenFileState [.locals] ++
  waitField .asyncIoOpenFile .openFileState ++
  freeChildField .openFileState ++
  setStatusLine ++
  [.exec (some .dot) .memrchrDot [.locals],
    .exec none .logNoExtension [.dot],
    .exec (some .type) .extension [.dot, .locals],
    .exec (some .h) .contentType [.type]] ++
  addHeader ++
  contentLengthHeader ++
  serialize ++
  storeField .sendBufferState .newSendBufferState [.locals] ++
  waitField .asyncIoSendBuffer .sendBufferState ++
  freeChildField .sendBufferState ++
  onField .sdsfree .rawRes ++
  storeField .sendfileState .newSendfileState [.locals] ++
  waitField .asyncIoSendfile .sendfileState ++
  freeChildField .sendfileState ++
  waitField .handleCloseSubmission .clientFd ++
  [.exec none .cmemFree [.locals], .exec none .ptEnd []]

def routeCallbackSend404 : Code :=
  storeField .res .responseCreate [] ++
  setStatusLine ++
  serialize ++
  [.exec (some .sendBufferState) .newSendBufferState [.locals],
    .wait .asyncIoSendBuffer [.sendBufferState]] ++
  freeChild .sendBufferState ++
  onField .sdsfree .rawRes ++
  waitField .handleCloseSubmission .clientFd ++
  [.exec none .cmemFree [.locals], .exec none .ptEnd []]

/-- Its first statement moves the locals, and stores where they are now. -/
def routeCallbackTest : Code :=
  [.load .tmp, .exec (some .locals) .cmemRealloc [.tmp], .store .locals] ++
  storeField .res .responseCreate [] ++
  storeField .openFileState .newOpenFileState [.locals] ++
  waitField .asyncIoOpenFile .openFileState ++
  freeChildField .openFileState ++
  setStatusLine ++
  [.exec (some .dot) .memrchrDot [.locals],
    .exec (some .h) .contentType [.dot, .locals]] ++
  addHeader ++
  contentLengthHeader ++
  serialize ++
  [.exec (some .sendBufferState) .newSendBufferState [.locals],
    .wait .asyncIoSendBuffer [.sendBufferState]] ++
  freeChild .sendBufferState ++
  onField .sdsfree .rawRes ++
  [.exec (some .sendfileState) .newSendfileState [.locals],
    .wait .asyncIoSendfile [.sendfileState]] ++
  freeChild .sendfileState ++
  [.exec none .cmemFree [.locals], .exec none .ptEnd []]

inductive Callback
  | sendFile
  | send404
  | test
  deriving DecidableEq, Repr

def Callback.code : Callback → Code
  | .sendFile => routeCallbackSendFile
  | .send404 => routeCallbackSend404
  | .test => routeCallbackTest

/-! ## What survives -/

theorem sendFile_defined (k : ℕ) :
    definedFor (fun _ => [Var.locals]) k [.locals] routeCallbackSendFile = true := by
  rcases k with _ | _ | _ | _ | k <;> rfl

theorem send404_defined (k : ℕ) :
    definedFor (fun _ => [Var.locals]) k [.locals] routeCallbackSend404 = decide (k = 0) := by
  rcases k with _ | k <;> rfl

theorem test_defined (k : ℕ) :
    definedFor (fun _ => [Var.locals]) k [.locals] routeCallbackTest = decide (k ≤ 1) := by
  rcases k with _ | _ | k <;> rfl

theorem code_defined (cb : Callback) (k : ℕ) : definedFor id k [.locals] cb.code = true := by
  cases cb with
  | sendFile => rcases k with _ | _ | _ | _ | k <;> rfl
  | send404 => rcases k with _ | _ | k <;> rfl
  | test => rcases k with _ | _ | _ | k <;> rfl

/-- `state->locals` is `locals` at every wait. -/
theorem code_synced (cb : Callback) : synced Var.locals true cb.code = true := by
  cases cb with
  | sendFile => rfl
  | send404 => rfl
  | test => rfl

/-- Whatever the called functions compute and whatever happens during the waits, a callback
carries out the same operations on the same values as without suspensions if and only if it
keeps everything in its locals, or is not resumed from the wait for its response. -/
theorem suspension_transparent_iff {D W : Type} (cb : Callback) (sem : Op → List D → W → D × W)
    (slot : D) (w : W) (envs : List (W → W)) :
    suspended sem .locals (entry .locals slot) slot w envs cb.code =
        straightLine sem (entry .locals slot) slot w envs cb.code ↔
      cb = .sendFile ∨ (cb = .send404 ∧ envs.length = 0) ∨ (cb = .test ∧ envs.length ≤ 1) := by
  rw [suspended_eq_iff envs (code_defined cb _) (code_synced cb)]
  cases cb with
  | sendFile => simp [Callback.code, sendFile_defined]
  | send404 => simp [Callback.code, send404_defined]
  | test => simp [Callback.code, test_defined]

/-- After its response has been sent, `route_callback_test` reads `send_buffer_state`, which the
resumed call has not assigned. -/
theorem test_reads_undefined :
    suspended (fun _ _ n => (n, n + 1)) .locals (entry .locals 0) 0 1 [id, id]
        Callback.test.code = (none : Option (List (Op × List ℕ))) ∧
      (straightLine (fun _ _ n => (n, n + 1)) (entry .locals 0) 0 1 [id, id]
        Callback.test.code : Option (List (Op × List ℕ))).isSome := by
  decide +kernel

end Cerverus.Suspension
