import Cerverus.Conversations
import Cerverus.FailedOperations
import Cerverus.FileTransfers
import Cerverus.OneResponse

/-!
# What a client receives

The whole way of a response: the header through `send`, the file through a pipe into the
socket. Kept beside the loop are the bytes in the pipes and on the connections. In a run in
which nothing fails and every splice moves all there is, a client gets the answer to its own
request and nothing else.
-/
namespace Cerverus.EventLoop
open Hash Lru Http SpliceAll GuardedRun

/-! ## The answer to a request -/

def servedPath (rtr : Router) (request : Request) : Option Bytes :=
  if request.uri = [47] then some (publicRoot ++ indexName)
  else if publicHit rtr request = some true then some (publicRoot ++ request.uri)
  else if (handlerOf rtr request).isSome then some (publicRoot ++ testName)
  else none

section
variable (rtr : Router) (contents : Bytes → Bytes)

/-- The header for a file, and the file; `contents` is what the paths hold. -/
def fileAnswer (path : Bytes) : Bytes :=
  match (sdssplitlen path 47).getLast?.bind fun name =>
    fileResponse name (UInt64.ofNat (contents path).length) with
  | none => []
  | some res => responseSerialize res ++ contents path

/-- What a client is owed that has sent these bytes. -/
def answerTo (bytes : Bytes) : Bytes :=
  match requestParse bytes with
  | .parsed _ request => ((servedPath rtr request).map (fileAnswer contents)).getD []
  | _ => []

/-! ## The bytes behind the operations -/

/-- The bytes in the pipes of the coroutines, and those sent to the connections. -/
structure Wire where
  piped : CoroutineId → Bytes
  sent : ℕ → Bytes

def Wire.pipe (w : Wire) (id : CoroutineId) (bytes : Bytes) : Wire :=
  { w with piped := Function.update w.piped id bytes }

def Wire.sendTo (opened : ℕ → Option Handle) (fd : ℕ) (bytes : Bytes) (w : Wire) : Wire :=
  match opened fd with
  | some (.client n) => { w with sent := Function.update w.sent n (w.sent n ++ bytes) }
  | _ => w

def readFrom (opened : ℕ → Option Handle) (fd off len : ℕ) : Bytes :=
  match opened fd with
  | some (.file path) => ((contents path).drop off).take len
  | _ => []

/-- What a completion has moved. After the last `send` the coroutine has a new pipe. -/
def wireContext (opened : ℕ → Option Handle) (ctx : Context) (c : Completion) (w : Wire) : Wire :=
  match ctx with
  | .send buffer pt =>
    let w := if c.res < 0 then w else w.sendTo opened pt.client.fd (buffer.take c.res.toNat)
    if SendOver buffer c then w.pipe pt.id [] else w
  | .spliceAll ctx pt =>
    let piped := w.piped pt.id
    if c.res < 0 then w
    else if ctx.isDraining then
      (w.pipe pt.id (piped.drop c.res.toNat)).sendTo opened ctx.fdOut (piped.take c.res.toNat)
    else w.pipe pt.id (piped ++ readFrom contents opened ctx.fdIn ctx.offIn.toNat c.res.toNat)
  | _ => w

def noteWire (s : LoopState) (c : Completion) (r : Conversations × Wire) : Conversations × Wire :=
  match s.inFlight[c.index]? with
  | none => r
  | some ctx => (noteContext ctx c r.1, wireContext contents s.opened ctx c r.2)

/-- A file is opened and has its length looked up, a `send` and the `pipe2` after it succeed, a
fill takes the whole file and a drain the whole pipe. -/
def Smooth (ctx : Context) (c : Completion) : Prop :=
  match ctx with
  | .openat _ => 0 ≤ c.res
  | .statx pt => 0 ≤ c.res ∧ c.stxSize = UInt64.ofNat (contents pt.path).length
  | .send buffer _ => 0 ≤ c.res ∧ (SendOver buffer c → c.pipe ≠ none)
  | .spliceAll ctx pt =>
    c.res = if ctx.isDraining then ctx.inPipe.toNat else (contents pt.path).length
  | _ => True

def RunsSmoothly (s : LoopState) (c : Completion) : Prop :=
  AnswersOnce rtr s c ∧ SparesTransfers s c ∧ ∀ ctx ∈ s.inFlight[c.index]?, Smooth contents ctx c

instance decidableSmooth (c : Completion) : (ctx : Context) → Decidable (Smooth contents ctx c)
  | .openat _ => inferInstanceAs (Decidable (0 ≤ c.res))
  | .statx _ => inferInstanceAs (Decidable (0 ≤ c.res ∧ _))
  | .send _ _ => inferInstanceAs (Decidable (0 ≤ c.res ∧ (_ → _)))
  | .spliceAll _ _ => inferInstanceAs (Decidable (c.res = _))
  | .accept | .recv _ _ | .close _ _ => inferInstanceAs (Decidable True)

instance decidableRunsSmoothly (s : LoopState) (c : Completion) :
    Decidable (RunsSmoothly rtr contents s c) :=
  inferInstanceAs (Decidable (_ ∧ _ ∧ ∀ ctx ∈ s.inFlight[c.index]?, Smooth contents ctx c))

/-! ## The invariant -/

/-- The entry of a file that the server has opened and looked up. -/
structure Described (path : Bytes) (file : FileT) : Prop where
  name : (sdssplitlen path 47).getLast? = some file.name
  size : file.stxSize = UInt64.ofNat (contents path).length

/-- What the cache says of its files is right. -/
def Describes (cache : LruCache FileT) : Prop :=
  ∀ x e, entryAt cache x = some e → Described contents e.hmapKey e.data

/-- The coroutine sends its connection what it is owed. -/
def Owes (r : Conversations) (pt : Coroutine) : Prop :=
  answerTo rtr contents (r.received pt.client.conn) = fileAnswer contents pt.path

/-- How far the answer to a connection has got. -/
def OnWire (r : Conversations) (w : Wire) : Context → Prop
  | .accept | .close _ none => True
  | .recv client _ => w.sent client.conn = []
  | .openat pt | .statx pt => Owes rtr contents r pt ∧ w.sent pt.client.conn = [] ∧
      (sdssplitlen pt.path 47).getLast? = some pt.file.name
  | .send buffer pt => Owes rtr contents r pt ∧ Described contents pt.path pt.file ∧
      w.sent pt.client.conn ++ buffer ++ contents pt.path = fileAnswer contents pt.path
  | .spliceAll ctx pt => Owes rtr contents r pt ∧ Described contents pt.path pt.file ∧
      w.sent pt.client.conn ++ contents pt.path = fileAnswer contents pt.path ∧
      ctx.fdOut = pt.client.fd ∧
      if ctx.isDraining then ctx.nbytes = 0 ∧ ctx.inPipe.toNat = (contents pt.path).length ∧
        w.piped pt.id = contents pt.path
      else ctx.offIn = 0 ∧ ctx.nbytes = pt.file.stxSize.toUInt32 ∧ ctx.inPipe = 0 ∧
        w.piped pt.id = []
  | .close _ (some pt) => Owes rtr contents r pt ∧
      w.sent pt.client.conn = fileAnswer contents pt.path

/-- The bytes of a coroutine go to its connection, the cache describes files as they are, and no
connection is sent anything but an initial part of what it is owed. -/
structure Answering (opened : ℕ → Option Handle) (cache : LruCache FileT) (r : Conversations)
    (w : Wire) (ctxs : List Context) : Prop where
  clients : ∀ ctx ∈ ctxs, ∀ pt ∈ ctx.response, opened pt.client.fd = some (.client pt.client.conn)
  cached : Describes contents cache
  each : ∀ ctx ∈ ctxs, OnWire rtr contents r w ctx
  owed : ∀ n, w.sent n <+: answerTo rtr contents (r.received n)

end

/-- The records say the same of a connection. -/
structure SameFor (r r' : Conversations) (w w' : Wire) (n : ℕ) : Prop where
  received : r'.received n = r.received n
  sent : w'.sent n = w.sent n
  piped : ∀ callback, w'.piped (n, callback) = w.piped (n, callback)

section
variable {rtr : Router} {contents : Bytes → Bytes} {r r' : Conversations} {w w' : Wire}
  {opened opened' : ℕ → Option Handle} {ctx : Context} {ctxs new : List Context}
  {cache cache' : LruCache FileT} {label : OpenFileLabel} {pt : Coroutine} {n : ℕ}

theorem OnWire.congr (h : OnWire rtr contents r w ctx)
    (hs : ∀ n ∈ ctx.conn, SameFor r r' w w' n) : OnWire rtr contents r' w' ctx := by
  cases ctx with
  | accept => trivial
  | recv client buffer => exact (hs client.conn rfl).sent.trans h
  | close fd pt =>
    cases pt with
    | none => trivial
    | some pt =>
      have hsame := hs pt.client.conn rfl
      simp only [OnWire, Owes, hsame.received, hsame.sent] at h ⊢
      exact h
  | spliceAll ctx pt =>
    have hsame := hs pt.client.conn rfl
    have hpiped : w'.piped pt.id = w.piped pt.id := hsame.piped pt.callback
    simp only [OnWire, Owes, hsame.received, hsame.sent, hpiped] at h ⊢
    exact h
  | openat pt =>
    have hsame := hs pt.client.conn rfl
    simp only [OnWire, Owes, hsame.received, hsame.sent] at h ⊢
    exact h
  | statx pt =>
    have hsame := hs pt.client.conn rfl
    simp only [OnWire, Owes, hsame.received, hsame.sent] at h ⊢
    exact h
  | send buffer pt =>
    have hsame := hs pt.client.conn rfl
    simp only [OnWire, Owes, hsame.received, hsame.sent] at h ⊢
    exact h

theorem Wire.sendTo_client {fd : ℕ} (h : opened fd = some (.client n)) (bytes : Bytes) (w : Wire) :
    w.sendTo opened fd bytes = { w with sent := Function.update w.sent n (w.sent n ++ bytes) } := by
  simp only [Wire.sendTo, h]

theorem sameFor_sendTo {fd m : ℕ} (h : opened fd = some (.client n)) (hne : m ≠ n) (bytes : Bytes)
    (w : Wire) : SameFor r r w (w.sendTo opened fd bytes) m := by
  rw [Wire.sendTo_client h]
  exact ⟨rfl, Function.update_of_ne hne _ _, fun _ => rfl⟩

theorem sameFor_pipe {id : CoroutineId} {m : ℕ} (hne : m ≠ id.1) (bytes : Bytes) (w : Wire) :
    SameFor r r w (w.pipe id bytes) m :=
  ⟨rfl, rfl, fun _ => Function.update_of_ne (fun he => hne (congrArg Prod.fst he)) _ _⟩

theorem SameFor.trans {r'' : Conversations} {w'' : Wire} (h : SameFor r r' w w' n)
    (h' : SameFor r' r'' w' w'' n) : SameFor r r'' w w'' n :=
  ⟨h'.received.trans h.received, h'.sent.trans h.sent,
    fun callback => (h'.piped callback).trans (h.piped callback)⟩

theorem sameFor_refl : SameFor r r w w n := ⟨rfl, rfl, fun _ => rfl⟩

theorem sameFor_wireContext {m : ℕ} (c : Completion) (hm : m ∉ ctx.conn)
    (hclient : ∀ pt ∈ ctx.response, opened pt.client.fd = some (.client pt.client.conn))
    (hctx : OnWire rtr contents r w ctx) :
    SameFor r (noteContext ctx c r) w (wireContext contents opened ctx c w) m := by
  cases ctx with
  | recv client buffer =>
    have hne : m ≠ client.conn := fun he => hm (he ▸ rfl)
    unfold noteContext
    dsimp only
    split_ifs
    · exact ⟨Function.update_of_ne hne _ _, rfl, fun _ => rfl⟩
    · exact sameFor_refl
  | send buffer pt =>
    have hne : m ≠ pt.client.conn := fun he => hm (he ▸ rfl)
    have hsent := fun bytes => sameFor_sendTo (r := r) (hclient pt rfl) hne bytes w
    unfold wireContext noteContext
    dsimp only
    split_ifs
    · exact sameFor_pipe hne _ _
    · exact (hsent _).trans (sameFor_pipe hne _ _)
    · exact sameFor_refl
    · exact hsent _
  | spliceAll ctx pt =>
    have hne : m ≠ pt.client.conn := fun he => hm (he ▸ rfl)
    obtain ⟨_, _, _, hout, _⟩ := hctx
    unfold wireContext noteContext
    dsimp only
    split_ifs
    · exact sameFor_refl
    · exact (sameFor_pipe hne _ _).trans
        (sameFor_sendTo (hout ▸ hclient pt rfl) hne _ _)
    · exact sameFor_pipe hne _ _
  | _ => exact sameFor_refl

/-! ## Opening a file -/

theorem answerTo_nil : answerTo rtr contents [] = [] := rfl

theorem fileAnswer_eq {path : Bytes} {file : FileT} {res : Response}
    (h : Described contents path file) (hres : fileResponse file.name file.stxSize = some res) :
    fileAnswer contents path = responseSerialize res ++ contents path := by
  rw [fileAnswer, h.name, Option.bind_some, ← h.size, hres]

theorem servedPath_of_answers {request : Request} (h : pt.Answers rtr request)
    (hone : Served rtr request → handlerOf rtr request = none) :
    servedPath rtr request = some pt.path := by
  unfold Coroutine.Answers at h
  unfold servedPath
  cases hcb : pt.callback with
  | routeCallbackSendFile =>
    rw [hcb] at h
    rcases h with ⟨huri, hpath⟩ | ⟨hhit, hpath⟩
    · rw [if_pos huri, hpath]
    · rw [if_neg (not_index_of_hit hhit), if_pos hhit, hpath]
  | routeCallbackTest =>
    rw [hcb] at h
    obtain ⟨hsome, hpath⟩ := h
    have hnot : ¬ Served rtr request := by
      intro hserved
      rw [hone hserved] at hsome
      cases hsome
    have hno := not_or.mp hnot
    rw [if_neg hno.1, if_neg hno.2, if_pos hsome, hpath]

theorem owes_of_parsed {request : Request} {consumed : ℕ}
    (hparse : requestParse (r.received pt.client.conn) = .parsed consumed request)
    (hpath : servedPath rtr request = some pt.path) : Owes rtr contents r pt := by
  simp only [Owes, answerTo, hparse, hpath, Option.map_some, Option.getD_some]

theorem describes_get {path : Bytes} {o : Option (ℕ × FileT)} (hw : Wired cache)
    (h : Describes contents cache) (hget : lruCacheGet cache path = some (o, cache')) :
    Wired cache' ∧ Describes contents cache' ∧
      ∀ x file, o = some (x, file) → Described contents path file := by
  obtain ⟨hw', hentries, hfound⟩ := wired_get hw hget
  refine ⟨hw', fun x e he => h x e (hentries ▸ he), fun x file ho => ?_⟩
  exact h x ⟨path, file⟩ (hfound x file ho)

theorem describes_add {path : Bytes} {file : FileT} {res : AddResult FileT} (hw : Wired cache)
    (h : Describes contents cache) (hfile : Described contents path file)
    (hadd : lruCacheAdd cache path file = some res) :
    Wired res.cache ∧ Describes contents res.cache := by
  obtain ⟨hw', _, hadded⟩ := wired_add hw hadd
  refine ⟨hw', fun x e he => ?_⟩
  cases hadded with
  | room hnone hentries =>
    rw [hentries] at he
    split_ifs at he
    · cases he
      exact hfile
    · exact h x e he
  | evicted tail k old hold hne htail hentries =>
    rw [hentries] at he
    split_ifs at he
    · cases he
      exact hfile
    · exact h x e he

theorem onWire_proceeds (hp : Proceeds cache label pt cache' new) (hw : Wired cache)
    (hcache : Describes contents cache) (howes : Owes rtr contents r pt)
    (hsent : w.sent pt.client.conn = [])
    (hname : label ≠ .start → (sdssplitlen pt.path 47).getLast? = some pt.file.name)
    (hfile : label = .afterStatx → Described contents pt.path pt.file) :
    Wired cache' ∧ Describes contents cache' ∧ ∀ x ∈ new, OnWire rtr contents r w x := by
  have hone : ∀ {x : Context}, OnWire rtr contents r w x → ∀ y ∈ [x], OnWire rtr contents r w y :=
    fun hx y hy => List.mem_singleton.mp hy ▸ hx
  have hsend : ∀ {file : FileT} {res : Response}, Described contents pt.path file →
      fileResponse file.name file.stxSize = some res →
      OnWire rtr contents r w (.send (responseSerialize res) { pt with file := file }) := by
    intro file res hdesc hres
    refine ⟨howes, hdesc, ?_⟩
    dsimp only
    rw [hsent, List.nil_append, fileAnswer_eq hdesc hres]
  cases hp with
  | hit hget hres =>
    obtain ⟨hw', hcache', hfound⟩ := describes_get hw hcache hget
    exact ⟨hw', hcache', hone (hsend (hfound _ _ rfl) hres)⟩
  | @start _ _ name hget hlast =>
    obtain ⟨hw', hcache', _⟩ := describes_get hw hcache hget
    have hopen : OnWire rtr contents r w
        (.openat { pt with file := { pt.file with name := name } }) := ⟨howes, hsent, hlast⟩
    exact ⟨hw', hcache', hone hopen⟩
  | opened hget =>
    obtain ⟨hw', hcache', _⟩ := describes_get hw hcache hget
    have hstatx : OnWire rtr contents r w (.statx pt) :=
      ⟨howes, hsent, hname fun hl => by cases hl⟩
    exact ⟨hw', hcache', hone hstatx⟩
  | @added _ _ res _ hget hadd hres =>
    obtain ⟨hw₁, hcache₁, _⟩ := describes_get hw hcache hget
    obtain ⟨hw', hcache'⟩ := describes_add hw₁ hcache₁ (hfile rfl) hadd
    have hsent' := hsend (hfile rfl) hres
    refine ⟨hw', hcache', fun x hx => ?_⟩
    rcases List.mem_append.mp hx with hx | hx
    · cases hev : res.evicted with
      | none =>
        rw [hev] at hx
        cases hx
      | some old =>
        rw [hev] at hx
        rw [List.mem_singleton.mp hx]
        trivial
    · exact hone hsent' x hx

theorem onWire_proceedAll {pts : List Coroutine} (hp : ProceedAll cache pts cache' new)
    (hw : Wired cache) (hcache : Describes contents cache)
    (hpts : ∀ pt ∈ pts, Owes rtr contents r pt ∧ w.sent pt.client.conn = []) :
    Wired cache' ∧ Describes contents cache' ∧ ∀ x ∈ new, OnWire rtr contents r w x := by
  induction hp with
  | nil => exact ⟨hw, hcache, by simp⟩
  | cons first _ ih =>
    obtain ⟨howes, hsent⟩ := hpts _ (List.mem_cons_self ..)
    obtain ⟨hw₁, hcache₁, heach⟩ := onWire_proceeds first hw hcache howes hsent (absurd rfl)
      fun hl => by cases hl
    obtain ⟨hw₂, hcache₂, heach'⟩ := ih hw₁ hcache₁ fun pt hpt =>
      hpts pt (List.mem_cons_of_mem _ hpt)
    refine ⟨hw₂, hcache₂, fun x hx => ?_⟩
    rcases List.mem_append.mp hx with hx | hx
    · exact heach x hx
    · exact heach' x hx

/-! ## The transfer -/

theorem onWire_fill {splice : SpliceAllContext} {c : Completion}
    (h : OnWire rtr contents r w (.spliceAll splice pt)) (hd : splice.isDraining = false)
    (hres : c.res = (contents pt.path).length)
    (hle : c.res ≤ (SpliceAll.handleSpliceAllSubmission splice).nbytes.toNat)
    (hopen : opened splice.fdIn = some (.file pt.path)) :
    (SpliceAll.handleSpliceAllCompletion c.res splice).2 = false ∧
      OnWire rtr contents r (wireContext contents opened (.spliceAll splice pt) c w)
        (.spliceAll (SpliceAll.handleSpliceAllCompletion c.res splice).1 pt) := by
  obtain ⟨howes, hdesc, hsent, hout, hphase⟩ := h
  simp only [hd, Bool.false_eq_true, if_false] at hphase
  obtain ⟨hoff, hnbytes, hempty, hpiped⟩ := hphase
  have hlen : (contents pt.path).length ≤ min splice.nbytes.toNat 65536 := by
    rw [hres] at hle
    simp only [SpliceAll.handleSpliceAllSubmission, hd, Bool.false_eq_true, if_false,
      fillLength_toNat, hempty, UInt64.toNat_zero, Nat.cast_le] at hle
    omega
  have hsize : splice.nbytes.toNat = (contents pt.path).length := by
    have hmod : splice.nbytes.toNat = (contents pt.path).length % 2 ^ 64 % 2 ^ 32 := by
      rw [hnbytes, hdesc.size, UInt64.toNat_toUInt32, UInt64.toNat_ofNat']
    omega
  have hnot : ¬ ((contents pt.path).length : ℤ) < 0 := by omega
  rw [hres, handleSpliceAllCompletion_fill _ hd]
  refine ⟨rfl, howes, hdesc, ?_, hout, ?_⟩
  · simp only [wireContext, hres, hnot, hd, Bool.false_eq_true, if_false, Wire.pipe]
    exact hsent
  · simp only [wireContext, hres, hnot, hd, Bool.false_eq_true, if_false, if_true, Wire.pipe,
      Function.update_self, hpiped, readFrom, hopen, hoff, Int.toNat_natCast, UInt64.toNat_zero,
      List.drop_zero, List.take_length, List.nil_append, hempty, zero_add]
    refine ⟨?_, ?_, trivial⟩
    · rw [← UInt32.toNat_inj, UInt32.toNat_sub, UInt32.toNat_ofNat', hsize, UInt32.toNat_zero]
      omega
    · rw [UInt64.toNat_ofNat']
      omega

/-- The drain sends it on, and the transfer is over. -/
theorem onWire_drain {splice : SpliceAllContext} {c : Completion}
    (h : OnWire rtr contents r w (.spliceAll splice pt)) (hd : splice.isDraining = true)
    (hres : c.res = splice.inPipe.toNat)
    (hclient : opened pt.client.fd = some (.client pt.client.conn)) :
    (SpliceAll.handleSpliceAllCompletion c.res splice).2 = true ∧
      (wireContext contents opened (.spliceAll splice pt) c w).sent pt.client.conn =
        fileAnswer contents pt.path := by
  obtain ⟨_, _, hsent, hout, hphase⟩ := h
  simp only [hd, if_true] at hphase
  obtain ⟨hnone, hfull, hpiped⟩ := hphase
  constructor
  · rw [hres, handleSpliceAllCompletion_drain _ hd]
    simp [hnone]
  · have hnot : ¬ ((contents pt.path).length : ℤ) < 0 := by omega
    rw [hfull] at hres
    simp only [wireContext, hres, hnot, hd, if_false, if_true, hout, Wire.sendTo_client hclient,
      Function.update_self, Wire.pipe, hpiped, Int.toNat_natCast, List.take_length]
    exact hsent

/-! ## Steps -/

theorem nil_of_owed (h : w.sent n <+: answerTo rtr contents (r.received n))
    (hnone : r.received n = []) : w.sent n = [] := by
  rw [hnone, answerTo_nil] at h
  exact List.prefix_nil.mp h

/-- What a context says of its connection bounds what that has been sent. -/
theorem OnWire.owed (h : OnWire rtr contents r w ctx) (hn : n ∈ ctx.conn) :
    w.sent n <+: answerTo rtr contents (r.received n) := by
  cases ctx with
  | accept => cases hn
  | recv client buffer =>
    have hsent : w.sent client.conn = [] := h
    cases hn
    rw [hsent]
    exact List.nil_prefix
  | openat pt =>
    cases hn
    rw [h.2.1]
    exact List.nil_prefix
  | statx pt =>
    cases hn
    rw [h.2.1]
    exact List.nil_prefix
  | send buffer pt =>
    obtain ⟨howes, _, hsplit⟩ := h
    cases hn
    rw [howes, ← hsplit, List.append_assoc]
    exact List.prefix_append _ _
  | spliceAll ctx pt =>
    obtain ⟨howes, _, hsplit, _⟩ := h
    cases hn
    rw [howes, ← hsplit]
    exact List.prefix_append _ _
  | close fd pt =>
    cases pt with
    | none => cases hn
    | some pt =>
      obtain ⟨howes, hall⟩ := h
      cases hn
      rw [howes, hall]

/-- What is noted and submitted for one completion, for the connections and for the cache. -/
structure Answered (rtr : Router) (contents : Bytes → Bytes) (cache : LruCache FileT)
    (r : Conversations) (w : Wire) (ctxs : List Context) : Prop where
  cached : Describes contents cache
  each : ∀ x ∈ ctxs, OnWire rtr contents r w x
  owed : ∀ n, w.sent n <+: answerTo rtr contents (r.received n)

/-- The operations of other connections stay as they are, so it is enough to look at the
connection of the completion. -/
theorem answered_of_own {c : Completion}
    (h : Answering rtr contents opened cache r w (ctxs ++ [ctx]))
    (hdistinct : ((ctxs ++ [ctx]).filterMap Context.conn).Nodup)
    (hcache : Describes contents cache')
    (hnew : ∀ x ∈ new,
      OnWire rtr contents (noteContext ctx c r) (wireContext contents opened ctx c w) x)
    (hown : ∀ n ∈ ctx.conn, (wireContext contents opened ctx c w).sent n <+:
      answerTo rtr contents ((noteContext ctx c r).received n)) :
    Answered rtr contents cache' (noteContext ctx c r) (wireContext contents opened ctx c w)
      (ctxs ++ new) := by
  have hlast : ctx ∈ ctxs ++ [ctx] := List.mem_append_right _ (List.mem_singleton_self _)
  have hsame : ∀ m ∉ ctx.conn,
      SameFor r (noteContext ctx c r) w (wireContext contents opened ctx c w) m :=
    fun m hm => sameFor_wireContext c hm (h.clients ctx hlast) (h.each ctx hlast)
  obtain ⟨_, hother⟩ := nodup_filterMap_snoc.mp hdistinct
  refine ⟨hcache, fun x hx => ?_, fun n => ?_⟩
  · rcases List.mem_append.mp hx with hx | hx
    · refine (h.each x (List.mem_append_left _ hx)).congr fun n hn => hsame n fun hctx => ?_
      exact hother n hctx (List.mem_filterMap.mpr ⟨x, hx, hn⟩)
    · exact hnew x hx
  · by_cases hn : n ∈ ctx.conn
    · exact hown n hn
    · have hs := hsame n hn
      rw [hs.sent, hs.received]
      exact h.owed n

/-- What the loop's other invariants say about the operation a completion answers. -/
structure Backing (rtr : Router) (contents : Bytes → Bytes) (opened : ℕ → Option Handle)
    (ctx : Context) (c : Completion) : Prop where
  fill : ∀ splice pt, ctx = .spliceAll splice pt → splice.isDraining = false →
    opened splice.fdIn = some (.file pt.path)
  once : ∀ client buffer, ctx = .recv client buffer → 0 < c.res →
    StartsOne rtr (Http.handleRecvCompletion buffer c.bytes)
  smooth : Smooth contents ctx c

theorem sent_of_spliced {splice : SpliceAllContext} {c : Completion}
    (hallow : Allows opened (.spliceAll splice pt) c)
    (hb : Backing rtr contents opened (.spliceAll splice pt) c)
    (h : OnWire rtr contents r w (.spliceAll splice pt))
    (hclient : opened pt.client.fd = some (.client pt.client.conn))
    (hdone : (SpliceAll.handleSpliceAllCompletion c.res splice).2 = true) :
    (wireContext contents opened (.spliceAll splice pt) c w).sent pt.client.conn =
      fileAnswer contents pt.path := by
  have hsmooth := hb.smooth
  cases hd : splice.isDraining with
  | false =>
    have hres : c.res = (contents pt.path).length := by simpa [Smooth, hd] using hsmooth
    have hmore := (onWire_fill h hd hres hallow (hb.fill splice pt rfl hd)).1
    rw [hdone] at hmore
    cases hmore
  | true =>
    have hres : c.res = splice.inPipe.toNat := by simpa [Smooth, hd] using hsmooth
    exact (onWire_drain h hd hres hclient).2

theorem answered_recv {client : Client} {buffer : Sds} {c : Completion}
    (hreply : Reply rtr n cache c (.recv client buffer) cache' new)
    (hb : Backing rtr contents opened (.recv client buffer) c) (hw : Wired cache)
    (htalk : Talking rtr r n (ctxs ++ [.recv client buffer]))
    (h : Answering rtr contents opened cache r w (ctxs ++ [.recv client buffer]))
    (hdistinct : ((ctxs ++ [Context.recv client buffer]).filterMap Context.conn).Nodup) :
    Answered rtr contents cache' (noteContext (.recv client buffer) c r)
      (wireContext contents opened (.recv client buffer) c w) (ctxs ++ new) := by
  have hlast : Context.recv client buffer ∈ ctxs ++ [.recv client buffer] :=
    List.mem_append_right _ (List.mem_singleton_self _)
  have hsent : w.sent client.conn = [] := h.each _ hlast
  have hown : ∀ m ∈ (Context.recv client buffer).conn, w.sent m <+:
      answerTo rtr contents ((noteContext (.recv client buffer) c r).received m) := by
    intro m hm
    cases hm
    rw [hsent]
    exact List.nil_prefix
  cases hreply with
  | dropped => exact answered_of_own h hdistinct h.cached (by simp) hown
  | recvMore hpos hout =>
    refine answered_of_own h hdistinct h.cached (fun x hx => ?_) hown
    rw [List.mem_singleton.mp hx]
    exact hsent
  | @routed _ _ request hit _ _ hpos hout hhit hall =>
    obtain ⟨_, hcontent, _⟩ := htalk.waiting client buffer hlast
    obtain ⟨consumed, hparse⟩ := parsed_of_routed hout
    have hone := hb.once client buffer rfl hpos
    rw [hout] at hone
    have hreceived : (noteContext (.recv client buffer) c r).received client.conn =
        buffer.content ++ c.bytes := by
      simp only [noteContext, hpos, if_true, noteBytes, Function.update_self, hcontent]
    have hpts : ∀ pt ∈ fileCoroutines request client hit ++
        handlerCoroutines rtr request client c.memory,
        Owes rtr contents (noteContext (.recv client buffer) c r) pt ∧
          w.sent pt.client.conn = [] := by
      intro pt hpt
      obtain ⟨hclient, hanswers⟩ := started_answers hhit pt hpt
      have hparse' : requestParse ((noteContext (.recv client buffer) c r).received
          pt.client.conn) = .parsed consumed request := by
        rw [hclient, hreceived, hparse]
      exact ⟨owes_of_parsed hparse' (servedPath_of_answers hanswers hone), by rw [hclient, hsent]⟩
    obtain ⟨_, hcache, heach⟩ := onWire_proceedAll hall hw h.cached hpts
    exact answered_of_own h hdistinct hcache heach hown

theorem answered_one {c : Completion} {x : Context}
    (h : Answering rtr contents opened cache r w (ctxs ++ [ctx]))
    (hdistinct : ((ctxs ++ [ctx]).filterMap Context.conn).Nodup) (hconn : x.conn = ctx.conn)
    (hwire : OnWire rtr contents (noteContext ctx c r) (wireContext contents opened ctx c w) x) :
    Answered rtr contents cache (noteContext ctx c r) (wireContext contents opened ctx c w)
      (ctxs ++ [x]) :=
  answered_of_own h hdistinct h.cached (fun _ hy => List.mem_singleton.mp hy ▸ hwire)
    fun _ hn => hwire.owed (hconn ▸ hn)

theorem answered_unsent {c : Completion}
    (h : Answering rtr contents opened cache r w (ctxs ++ [ctx]))
    (hdistinct : ((ctxs ++ [ctx]).filterMap Context.conn).Nodup)
    (hnote : noteContext ctx c r = r) (hwire : wireContext contents opened ctx c w = w)
    (hcache : Describes contents cache') (heach : ∀ x ∈ new, OnWire rtr contents r w x) :
    Answered rtr contents cache' (noteContext ctx c r) (wireContext contents opened ctx c w)
      (ctxs ++ new) := by
  have hlast : ctx ∈ ctxs ++ [ctx] := List.mem_append_right _ (List.mem_singleton_self _)
  refine answered_of_own h hdistinct hcache ?_ fun n hn => ?_
  · rwa [hnote, hwire]
  · rw [hnote, hwire]
    exact (h.each ctx hlast).owed hn

theorem onWire_sendMore {buffer : Bytes} {c : Completion}
    (h : OnWire rtr contents r w (.send buffer pt))
    (hclient : opened pt.client.fd = some (.client pt.client.conn)) (hres : 0 ≤ c.res)
    (hrest : buffer.drop c.res.toNat ≠ []) :
    OnWire rtr contents r (wireContext contents opened (.send buffer pt) c w)
      (.send (buffer.drop c.res.toNat) pt) := by
  obtain ⟨howes, hdesc, hsplit⟩ := h
  have hnot : ¬ SendOver buffer c := not_or.mpr ⟨not_lt.mpr hres, hrest⟩
  refine ⟨howes, hdesc, ?_⟩
  simp only [wireContext, not_lt.mpr hres, hnot, if_false, Wire.sendTo_client hclient,
    Function.update_self]
  rw [List.append_assoc (w.sent _), List.take_append_drop, hsplit]

theorem onWire_sent {buffer : Bytes} {c : Completion} {pipe : ℕ × ℕ}
    (h : OnWire rtr contents r w (.send buffer pt))
    (hclient : opened pt.client.fd = some (.client pt.client.conn)) (hres : 0 ≤ c.res)
    (hover : SendOver buffer c) :
    OnWire rtr contents r (wireContext contents opened (.send buffer pt) c w)
      (.spliceAll (sendfileContext pt.file.fd pt.client.fd pt.file.stxSize pipe) pt) := by
  obtain ⟨howes, hdesc, hsplit⟩ := h
  have hres' : ¬ c.res < 0 := not_lt.mpr hres
  have htake : buffer.take c.res.toNat = buffer := by
    have hcut := List.take_append_drop c.res.toNat buffer
    rwa [hover.resolve_left hres', List.append_nil] at hcut
  refine ⟨howes, hdesc, ?_, rfl, ?_⟩
  · simp only [wireContext, hres', hover, if_false, if_true, Wire.pipe,
      Wire.sendTo_client hclient, Function.update_self, htake]
    exact hsplit
  · simp only [sendfileContext, Bool.false_eq_true, if_false, wireContext, hover, if_true,
      Wire.pipe, Function.update_self]
    exact ⟨trivial, trivial, trivial, trivial⟩

theorem onWire_spliceMore {splice : SpliceAllContext} {c : Completion}
    (hallow : Allows opened (.spliceAll splice pt) c)
    (hb : Backing rtr contents opened (.spliceAll splice pt) c)
    (h : OnWire rtr contents r w (.spliceAll splice pt))
    (hclient : opened pt.client.fd = some (.client pt.client.conn))
    (hmore : (SpliceAll.handleSpliceAllCompletion c.res splice).2 = false) :
    OnWire rtr contents r (wireContext contents opened (.spliceAll splice pt) c w)
      (.spliceAll (SpliceAll.handleSpliceAllCompletion c.res splice).1 pt) := by
  have hsmooth := hb.smooth
  cases hd : splice.isDraining with
  | false =>
    have hres : c.res = (contents pt.path).length := by simpa [Smooth, hd] using hsmooth
    exact (onWire_fill h hd hres hallow (hb.fill splice pt rfl hd)).2
  | true =>
    have hres : c.res = splice.inPipe.toNat := by simpa [Smooth, hd] using hsmooth
    have hdone := (onWire_drain h hd hres hclient).1
    rw [hmore] at hdone
    cases hdone

/-- The step lemma, for each way a completion can go. -/
theorem answered_reply {c : Completion} (hreply : Reply rtr n cache c ctx cache' new)
    (hallow : Allows opened ctx c) (hb : Backing rtr contents opened ctx c) (hw : Wired cache)
    (htalk : Talking rtr r n (ctxs ++ [ctx]))
    (h : Answering rtr contents opened cache r w (ctxs ++ [ctx]))
    (hdistinct : ((ctxs ++ [ctx]).filterMap Context.conn).Nodup) :
    Answered rtr contents cache' (noteContext ctx c r) (wireContext contents opened ctx c w)
      (ctxs ++ new) := by
  have hlast : ctx ∈ ctxs ++ [ctx] := List.mem_append_right _ (List.mem_singleton_self _)
  have hctx := h.each ctx hlast
  have hclient := h.clients ctx hlast
  have hsmooth := hb.smooth
  cases hreply with
  | acceptFailed => exact answered_unsent h hdistinct rfl rfl h.cached (by simp)
  | accepted hres =>
    refine answered_unsent h hdistinct rfl rfl h.cached fun x hx => ?_
    rcases List.mem_pair.mp hx with rfl | rfl
    · exact nil_of_owed (h.owed n) (htalk.fresh n le_rfl)
    · trivial
  | dropped hout => exact answered_recv (.dropped hout) hb hw htalk h hdistinct
  | recvMore hpos hout => exact answered_recv (.recvMore hpos hout) hb hw htalk h hdistinct
  | routed hpos hout hhit hall =>
    exact answered_recv (.routed hpos hout hhit hall) hb hw htalk h hdistinct
  | openFailed hres hp => exact absurd hres (not_lt.mpr hsmooth)
  | opened hres hp =>
    obtain ⟨howes, hsent, hname⟩ := hctx
    obtain ⟨_, hcache, heach⟩ := onWire_proceeds hp hw h.cached howes hsent (fun _ => hname)
      fun hl => by cases hl
    exact answered_unsent h hdistinct rfl rfl hcache heach
  | @statx pt _ _ hp =>
    obtain ⟨howes, hsent, hname⟩ := hctx
    have hdesc : Described contents (statxResult pt c).path (statxResult pt c).file := by
      refine ⟨hname, ?_⟩
      simp only [statxResult, not_lt.mpr hsmooth.1, if_false]
      exact hsmooth.2
    obtain ⟨_, hcache, heach⟩ := onWire_proceeds hp hw h.cached howes hsent (fun _ => hname)
      fun _ => hdesc
    exact answered_unsent h hdistinct rfl rfl hcache heach
  | sendMore hres hrest =>
    exact answered_one h hdistinct rfl (onWire_sendMore hctx (hclient _ rfl) hres hrest)
  | sent hcb hover =>
    exact answered_one h hdistinct rfl (onWire_sent hctx (hclient _ rfl) hsmooth.1 hover)
  | spliceMore hmore =>
    exact answered_one h hdistinct rfl
      (onWire_spliceMore hallow hb hctx (hclient _ rfl) hmore)
  | splicedFile hdone hcb =>
    exact answered_one h hdistinct rfl
      ⟨hctx.1, sent_of_spliced hallow hb hctx (hclient _ rfl) hdone⟩
  | closed => exact answered_unsent h hdistinct rfl rfl h.cached (by simp)

theorem conn_of_response (h : ctx.response = some pt) : ctx.conn = some pt.client.conn := by
  cases ctx with
  | accept => cases h
  | recv client buffer => cases h
  | _ => exact congrArg (Option.map fun pt : Coroutine => pt.client.conn) h

theorem client_reply {c : Completion} (hreply : Reply rtr n cache c ctx cache' new) :
    ∀ x ∈ new, ∀ q ∈ x.response, (∃ buffer, ctx = .recv q.client buffer) ∨
      ∃ pt ∈ ctx.response, q.client = pt.client := by
  have hone : ∀ {x : Context} {pt : Coroutine}, pt ∈ ctx.response → x.response = some pt →
      ∀ y ∈ [x], ∀ q ∈ y.response, (∃ buffer, ctx = .recv q.client buffer) ∨
        ∃ pt ∈ ctx.response, q.client = pt.client := by
    intro x pt hpt hx y hy q hq
    rw [List.mem_singleton.mp hy, hx, Option.mem_some_iff] at hq
    exact Or.inr ⟨pt, hpt, hq ▸ rfl⟩
  have hopen : ∀ {label : OpenFileLabel} (pt : Coroutine),
      (∃ q ∈ ctx.response, q.client = pt.client) → Proceeds cache label pt cache' new →
      ∀ x ∈ new, ∀ q ∈ x.response,
        (∃ buffer, ctx = .recv q.client buffer) ∨ ∃ pt ∈ ctx.response, q.client = pt.client := by
    intro label pt hex hp x hx q hq
    obtain ⟨p, hpctx, hclient⟩ := hex
    exact Or.inr ⟨p, hpctx, ((response_proceeds hp x hx).2 q hq).1.trans hclient.symm⟩
  cases hreply with
  | acceptFailed => simp
  | accepted hres =>
    intro x hx q hq
    rcases List.mem_pair.mp hx with rfl | rfl <;> cases hq
  | dropped => simp
  | recvMore hpos hout =>
    intro x hx q hq
    rw [List.mem_singleton.mp hx] at hq
    cases hq
  | @routed client buffer request hit _ _ hpos hout hhit hall =>
    intro x hx q hq
    obtain ⟨pt, hpt, hclient, _⟩ := (response_proceedAll hall x hx).2 q hq
    rw [hclient, (started_answers hhit pt hpt).1]
    exact Or.inl ⟨buffer, rfl⟩
  | @openFailed pt _ _ hres hp => exact hopen pt ⟨pt, rfl, rfl⟩ hp
  | @opened pt _ _ hres hp =>
    exact hopen { pt with file := { pt.file with fd := c.res.toNat } } ⟨pt, rfl, rfl⟩ hp
  | @statx pt _ _ hp => exact hopen (statxResult pt c) ⟨pt, rfl, rfl⟩ hp
  | sendMore hres hrest => exact hone rfl rfl
  | sent hcb hover => exact hone rfl rfl
  | spliceMore hmore => exact hone rfl rfl
  | splicedFile hdone hcb => exact hone rfl rfl
  | closed => simp

/-- A descriptor stays what it is until it is closed. -/
theorem handle_kept {s t : LoopState} {c : Completion} {fd : ℕ} {handle : Handle}
    (heff : Effect rtr s c ctx t) (hopen : s.opened fd = some handle)
    (hclose : ∀ pt, ctx ≠ .close fd pt) : t.opened fd = some handle := by
  have hupdate : ∀ {a : ℕ} (x : Handle), s.opened a = none →
      Function.update s.opened a (some x) fd = some handle := by
    intro a x ha
    have hne : fd ≠ a := by
      rintro rfl
      rw [hopen] at ha
      cases ha
    rw [Function.update_of_ne hne, hopen]
  cases heff with
  | accepted fd' hfd => exact hupdate _ hfd
  | opened hfd hadv => exact hupdate _ hfd
  | sent hcb hpipe =>
    rcases hpipe with hsame | ⟨a, b, _, ha, hb, hpipe⟩
    · exact (congrFun hsame fd).trans hopen
    · have hne : fd ≠ b := by
        rintro rfl
        rw [hopen] at hb
        cases hb
      rw [← hupdate .pipe ha]
      exact (congrFun hpipe fd).trans (Function.update_of_ne hne _ _)
  | @closed fd' pt =>
    have hne : fd ≠ fd' := fun he => hclose pt (he ▸ rfl)
    exact (Function.update_of_ne hne _ _).trans hopen
  | _ => exact hopen

theorem clients_step {s t : LoopState} {c : Completion} (hs : step rtr s c = some t)
    (hd : DescriptorsOk s.opened s.inFlight)
    (hdistinct : (s.inFlight.filterMap Context.conn).Nodup)
    (h : ∀ ctx ∈ s.inFlight, ∀ pt ∈ ctx.response,
      s.opened pt.client.fd = some (.client pt.client.conn)) :
    ∀ ctx ∈ t.inFlight, ∀ pt ∈ ctx.response,
      t.opened pt.client.fd = some (.client pt.client.conn) := by
  obtain ⟨ctx, hctx, hperm, hallow, hcomplete⟩ := step_complete hs
  obtain ⟨cache', new, hreply, hleaves⟩ := complete_reply hcomplete
  have heff := complete_effect (s := { s with inFlight := s.inFlight.eraseIdx c.index }) hallow
    hcomplete
  have hin : ctx ∈ s.inFlight := List.mem_of_getElem? hctx
  intro x hx q hq
  rw [hleaves.inFlight] at hx
  rcases List.mem_append.mp hx with hx | hx
  · have hxs : x ∈ s.inFlight := List.eraseIdx_subset hx
    have hopen := h x hxs q hq
    refine handle_kept heff hopen fun pt hclose => ?_
    subst hclose
    have hback := hd.backed _ hin
    cases pt with
    | none =>
      obtain ⟨handle, hhandle, hno⟩ := hback
      rw [hopen, Option.mem_some_iff] at hhandle
      subst hhandle
      cases hno
    | some pt =>
      obtain ⟨_, hclient⟩ := hback
      rw [hopen, Option.some.injEq, Handle.client.injEq] at hclient
      have hconns := (hperm.filterMap Context.conn).nodup_iff.mp hdistinct
      obtain ⟨_, hother⟩ := nodup_filterMap_snoc.mp hconns
      exact hother pt.client.conn rfl
        (List.mem_filterMap.mpr ⟨x, hx, (conn_of_response hq).trans (congrArg some hclient)⟩)
  · have hnew : s.opened q.client.fd = some (.client q.client.conn) ∧
        ∀ pt, ctx ≠ .close q.client.fd pt := by
      rcases client_reply hreply x hx q hq with ⟨buffer, hrecv⟩ | ⟨pt, hpt, hclient⟩
      · have hback := hd.backed _ hin
        rw [hrecv] at hback
        exact ⟨hback, fun pt hclose => by rw [hrecv] at hclose; cases hclose⟩
      · rw [hclient]
        refine ⟨h ctx hin pt hpt, fun pt' hclose => ?_⟩
        subst hclose
        cases hreply
        cases hx
    exact handle_kept heff hnew.1 hnew.2

end

/-! ## Runs -/

section
variable {rtr : Router} {contents : Bytes → Bytes} {c : Completion}
  {w w' : LoopState × Conversations × Wire}

/-- The invariants of the loop that keep the answers on their way. -/
structure Serving (rtr : Router) (contents : Bytes → Bytes)
    (w : LoopState × Conversations × Wire) : Prop where
  descriptors : DescriptorsOk w.1.opened w.1.inFlight
  cache : CacheOk w.1.opened w.1.fileCache w.1.inFlight
  talking : Talking rtr w.2.1 w.1.nextConn w.1.inFlight
  turns : Turns w.1.log w.1.nextConn w.1.inFlight
  answering : Answering rtr contents w.1.opened w.1.fileCache w.2.1 w.2.2 w.1.inFlight

theorem Answering.perm {opened : ℕ → Option Handle} {cache : LruCache FileT} {r : Conversations}
    {v : Wire} {ctxs ctxs' : List Context} (h : Answering rtr contents opened cache r v ctxs)
    (hp : ctxs.Perm ctxs') : Answering rtr contents opened cache r v ctxs' :=
  ⟨fun ctx hmem => h.clients ctx (hp.mem_iff.mpr hmem), h.cached,
    fun ctx hmem => h.each ctx (hp.mem_iff.mpr hmem), h.owed⟩

theorem backing_of_serving {ctx : Context} (h : Serving rtr contents w)
    (hctx : w.1.inFlight[c.index]? = some ctx) (hsmooth : RunsSmoothly rtr contents w.1 c) :
    Backing rtr contents w.1.opened ctx c := by
  obtain ⟨honce, -, hall⟩ := hsmooth
  have hin : ctx ∈ w.1.inFlight := List.mem_of_getElem? hctx
  refine ⟨fun splice pt hsplice hd => ?_, fun client buffer hrecv => ?_, hall ctx hctx⟩
  · exact (transfersSafe_of_filesOk h.cache.2).fill splice pt (hsplice ▸ hin) hd
  · simpa [AnswersOnce, hctx, hrecv] using honce

theorem serving_step (hs : watched (step rtr) (noteWire contents) w c = some w')
    (hsmooth : RunsSmoothly rtr contents w.1 c) (h : Serving rtr contents w) :
    Serving rtr contents w' := by
  obtain ⟨hstep, hnote⟩ := watched_eq_some.mp hs
  obtain ⟨rest, ctx, new, hctx, hperm, hallow, hreply, hnew, hnext⟩ := step_reply hstep
  have hback := backing_of_serving h hctx hsmooth
  obtain ⟨honce, hspare, hall⟩ := hsmooth
  have hidle : EvictsIdle w.1 c := evictsIdle_of_cacheOk h.cache
  have hopens : OpensOrCached w.1 c := by
    rw [opensOrCached_iff, hctx]
    intro pt hpt
    cases ctx with
    | openat q => exact Or.inl (hall (.openat q) hctx)
    | _ => cases hpt
  have htalk := h.talking.perm hperm
  have hturns := turns_perm h.turns hperm
  have hanswered := answered_reply hreply hallow hback h.cache.1 htalk (h.answering.perm hperm)
    hturns.nodup
  have hrecord : w'.2 = (noteContext ctx c w.2.1, wireContext contents w.1.opened ctx c w.2.2) := by
    rw [hnote, noteWire, hctx]
  have hclients := clients_step hstep h.descriptors h.turns.nodup h.answering.clients
  refine ⟨descriptorsOk_step hstep h.descriptors hidle,
    cacheOk_step hstep h.descriptors h.cache hopens hspare, ?_,
    turns_step hstep h.turns honce hidle, ?_⟩
  · rw [hnext, hnew, hrecord]
    exact talking_reply hreply htalk
  · refine ⟨hclients, hanswered.cached, ?_, ?_⟩
    · rw [hnew, hrecord]
      exact hanswered.each
    · rw [hrecord]
      exact hanswered.owed

theorem serving_start (rtr : Router) (contents : Bytes → Bytes) (others : List ℕ) :
    Serving rtr contents (serverStart others, ⟨fun _ => [], []⟩, ⟨fun _ => [], fun _ => []⟩) := by
  have haccept : ∀ ctx ∈ (serverStart others).inFlight, ctx = .accept := fun ctx hmem =>
    List.eq_of_mem_replicate hmem
  refine ⟨descriptorsOk_start others, cacheOk_start others, talking_start rtr others,
    turns_start others, ⟨fun ctx hmem pt hpt => ?_, fun x e he => ?_, fun ctx hmem => ?_,
    fun n => List.nil_prefix⟩⟩
  · rw [haccept ctx hmem] at hpt
    cases hpt
  · cases he
  · rw [haccept ctx hmem]
    trivial

/-- In every run in which each request starts one coroutine, evictions spare the files in use,
nothing fails and every splice moves all there is, the bytes sent to a connection are always an
initial part of the answer to the request it has sent, header and file, and all of it by the
time the server closes the connection. -/
theorem clients_receive_answers (rtr : Router) (contents : Bytes → Bytes) (others : List ℕ)
    {cs : List Completion}
    (hg : Guarded (step rtr) (RunsSmoothly rtr contents) (serverStart others) cs) :
    Along (watched (step rtr) (noteWire contents))
      (fun w => (∀ n, w.2.2.sent n <+: answerTo rtr contents (w.2.1.received n)) ∧
        ∀ fd pt, .close fd (some pt) ∈ w.1.inFlight → w.2.2.sent pt.client.conn =
          answerTo rtr contents (w.2.1.received pt.client.conn))
      (serverStart others, ⟨fun _ => [], []⟩, ⟨fun _ => [], fun _ => []⟩) cs := by
  refine along_mono (fun w h => ⟨h.answering.owed, fun fd pt hmem => ?_⟩)
    (along_of_guarded (fun _ _ _ h hsmooth hs => serving_step hs hsmooth h)
      (serving_start rtr contents others) (guarded_watched.mpr hg))
  obtain ⟨howes, hall⟩ := h.answering.each _ hmem
  exact hall.trans howes.symm

/-- `hi!`. -/
def indexContents : Bytes → Bytes := fun _ => [104, 105, 33]

/-- The index page of three bytes, up to the `close`. -/
theorem clients_receive_indexPage :
    (run (step bareRouter) (serverStart baseDescriptors) indexPage).isSome ∧
      Along (watched (step bareRouter) (noteWire indexContents))
        (fun w => (∀ n, w.2.2.sent n <+: answerTo bareRouter indexContents (w.2.1.received n)) ∧
          ∀ fd pt, .close fd (some pt) ∈ w.1.inFlight → w.2.2.sent pt.client.conn =
            answerTo bareRouter indexContents (w.2.1.received pt.client.conn))
        (serverStart baseDescriptors, ⟨fun _ => [], []⟩, ⟨fun _ => [], fun _ => []⟩) indexPage :=
  ⟨by decide +kernel, clients_receive_answers bareRouter indexContents baseDescriptors
    (by decide +kernel)⟩

end

end Cerverus.EventLoop
