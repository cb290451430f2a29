import Cerverus.Receive
import Cerverus.SdsMemory

/-!
# The receive buffer in memory

The loop of `Receive` over the bytes of the string in memory: the kernel writes behind the
string, `sdsIncrLen` adds what it wrote, and `request_parse` reads the string back. `ok` says
whether an allocation, where there is one, succeeds; a null pointer would be dereferenced.
-/
namespace Cerverus.ReceiveMemory
open ByteBlock SdsMemory

def handleRecvSubmission (buffer : Sdshdr) (ok : Bool) : Option Sdshdr :=
  (sdsMakeRoomFor buffer Http.recvChunk ok).join

inductive RecvOutcome
  | waiting (buffer : Sdshdr)
  | rejected
  | routed (request : Request)
  deriving DecidableEq, Repr

def handleRecvCompletion (buffer : Sdshdr) (bytes : Bytes) (ok : Bool) : Option RecvOutcome := do
  let buf ← write buffer.buf (sdslen buffer) (bytes.map some)
  let buffer ← sdsIncrLen { buffer with buf := buf } bytes.length
  let raw ← bytesOf buffer
  let result := Http.requestParse raw
  if result = .invalid ∨ Http.maxRequest < sdslen buffer then some .rejected
  else
    match result with
    | .parsed _ request => some (.routed request)
    | _ => (handleRecvSubmission buffer ok).map .waiting

def receive (buffer : Sdshdr) : List (Bytes × Bool) → Option RecvOutcome
  | [] => some (.waiting buffer)
  | (bytes, ok) :: later => (handleRecvCompletion buffer bytes ok).bind fun outcome =>
    match outcome with
    | .waiting buffer => receive buffer later
    | outcome => some outcome

/-- `sdsempty` and the first room for it. -/
def firstBuffer : Option Sdshdr := (sdsempty true).join.bind fun s => handleRecvSubmission s true

/-- The string in memory is the buffer of the loop, with the room the loop counts on. -/
structure Holds (s : Sdshdr) (buffer : Http.Sds) : Prop where
  represents : Represents s buffer.content
  type : s.type = .type16
  alloc : s.alloc = buffer.alloc
  avail : sdsavail s = Http.sdsavail buffer

/-- The outcomes agree. A buffer in memory still has the size it got at first. -/
def Mirrors : RecvOutcome → Http.RecvOutcome → Prop
  | .waiting s, .waiting buffer => Holds s buffer ∧ s.buf.length = 2 * Http.recvChunk + 1
  | .rejected, .rejected => True
  | .routed request, .routed request' => request = request'
  | _, _ => False

/-- An outcome of the loop over byte strings, waiting with the string in memory. -/
def goOn (s : Sdshdr) (ok : Bool) : Http.RecvOutcome → Option RecvOutcome
  | .waiting _ => (handleRecvSubmission s ok).map .waiting
  | .rejected => some .rejected
  | .routed request => some (.routed request)

section
variable {s : Sdshdr} {buffer : Http.Sds} {bytes : Bytes}

theorem holds_of_represents (hr : Represents s buffer.content) (htype : s.type = .type16)
    (halloc : s.alloc = buffer.alloc) : Holds s buffer := by
  refine ⟨hr, htype, halloc, ?_⟩
  rw [sdsavail_eq hr, if_neg (by rw [htype]; decide), halloc]
  rfl

theorem Holds.hasRoom (h : Holds s buffer) (hfit : bytes.length ≤ Http.sdsavail buffer) :
    HasRoom s (buffer.content.length + bytes.length) := by
  have h5 : s.type ≠ .type5 := by rw [h.type]; decide
  have hlen := (h.represents.room h5).1
  have halloc := h.alloc
  refine (h.represents.hasRoom_alloc h5).mono ?_
  unfold Http.sdsavail at hfit
  omega

theorem received (h : Holds s buffer) (hfit : bytes.length ≤ Http.sdsavail buffer) :
    ∃ buf s', write s.buf (sdslen s) (bytes.map some) = some buf ∧
      sdsIncrLen { s with buf := buf } bytes.length = some s' ∧
      Holds s' ⟨buffer.content ++ bytes, buffer.alloc⟩ := by
  have hr := h.represents
  have hroom := h.hasRoom hfit
  obtain ⟨buf, hw⟩ := write_isSome s.buf (sdslen s) (bytes.map some) (by
    rw [List.length_map, sdslen, hr.len]
    exact (Nat.le_succ _).trans hroom.buf)
  have hw' := hw
  rw [sdslen, hr.len] at hw'
  have hfits := incrFits_of_room hr hroom fun h5 => by
    rw [h.type] at h5
    cases h5
  obtain ⟨s', hincr, hr'⟩ := sdsIncrLen_spec _ (t := buffer.content ++ bytes) hr hfits
    (by rw [List.length_append]; push_cast; rfl) (by rwa [List.length_append])
    (hr.holds.of_append.append hw') (length_write hw)
  obtain ⟨htype, halloc⟩ := sdsIncrLen_fields hincr
  exact ⟨buf, s', hw, hincr,
    holds_of_represents hr' (htype.trans h.type) (halloc.trans h.alloc)⟩

theorem holds_submission {ok : Bool} (h : Holds s buffer)
    (hroom : Http.recvChunk ≤ Http.sdsavail buffer) : handleRecvSubmission s ok = some s := by
  rw [handleRecvSubmission, sdsMakeRoomFor, if_pos (hroom.trans_eq h.avail.symm)]
  rfl

theorem completion_mirrors (ok : Bool) (h : Holds s buffer) (hw : Http.Waiting buffer)
    (hfit : bytes.length ≤ Http.sdsavail buffer) :
    ∃ outcome, handleRecvCompletion s bytes ok = some outcome ∧
      Mirrors outcome (Http.handleRecvCompletion buffer bytes) := by
  obtain ⟨buf, s', hwrite, hincr, h'⟩ := received h hfit
  have hlen : sdslen s' = (buffer.content ++ bytes).length := h'.represents.len
  have hbytes := bytesOf_eq h'.represents
  -- both sides run the same parser on the same bytes
  have hrun : handleRecvCompletion s bytes ok =
      goOn s' ok (Http.handleRecvCompletion buffer bytes) := by
    simp only [handleRecvCompletion, Http.handleRecvCompletion, hwrite, hincr, hbytes, hlen,
      Option.bind_eq_bind, Option.bind_some]
    split_ifs
    · rfl
    · cases Http.requestParse (buffer.content ++ bytes) <;> rfl
  rw [hrun]
  cases hout : Http.handleRecvCompletion buffer bytes with
  | rejected => exact ⟨_, rfl, trivial⟩
  | routed request => exact ⟨_, rfl, rfl⟩
  | waiting next =>
    have hw' := Http.waiting_completion hw hfit hout
    have hnext : next = ⟨buffer.content ++ bytes, buffer.alloc⟩ := by
      obtain ⟨content, alloc⟩ := next
      rw [← (Http.content_waiting hout).1, hw.alloc, ← hw'.alloc]
    rw [← hnext] at h'
    have hroom : Http.recvChunk ≤ Http.sdsavail next := by
      have hshort : next.content.length < Http.recvChunk := hw'.length
      rw [Http.sdsavail, hw'.alloc]
      omega
    have h5 : s'.type ≠ .type5 := by rw [h'.type]; decide
    refine ⟨.waiting s', by rw [goOn, holds_submission h' hroom]; rfl, h', ?_⟩
    rw [(h'.represents.room h5).2.2, h'.alloc, hw'.alloc]

theorem receive_mirrors (h : Holds s buffer) (hw : Http.Waiting buffer)
    {later : List (Bytes × Bool)} (hfits : Http.Fits buffer (later.map Prod.fst)) :
    ∃ outcome, receive s later = some outcome ∧
      Mirrors outcome (Http.receive buffer (later.map Prod.fst)) := by
  induction later generalizing s buffer with
  | nil =>
    have h5 : s.type ≠ .type5 := by rw [h.type]; decide
    refine ⟨.waiting s, rfl, h, ?_⟩
    rw [(h.represents.room h5).2.2, h.alloc, hw.alloc]
  | cons result later ih =>
    obtain ⟨bytes, ok⟩ := result
    obtain ⟨hfit, hnext⟩ := hfits
    obtain ⟨outcome, hout, hm⟩ := completion_mirrors ok h hw hfit
    simp only [receive, hout, Option.bind_some, List.map_cons, Http.receive]
    cases hmodel : Http.handleRecvCompletion buffer bytes with
    | rejected =>
      rw [hmodel] at hm
      cases outcome with
      | rejected => exact ⟨_, rfl, trivial⟩
      | waiting _ | routed _ => exact hm.elim
    | routed request =>
      rw [hmodel] at hm
      cases outcome with
      | routed _ => exact ⟨_, rfl, hm⟩
      | waiting _ | rejected => exact hm.elim
    | waiting next =>
      rw [hmodel] at hm hnext
      cases outcome with
      | rejected | routed _ => exact hm.elim
      | waiting s' => exact ih hm.1 (Http.waiting_completion hw hfit hmodel) hnext

/-- The string is empty and of type 8 at first, and moved behind a header of type 16. -/
theorem holds_firstBuffer : ∃ s, firstBuffer = some s ∧ Holds s Http.firstBuffer := by
  obtain ⟨e, he, hr⟩ := sdsnewlen_spec [] (by decide)
  have hfields : e.type = .type8 ∧ e.alloc = 0 := by
    have hconcrete : sdsnewlen [] true = some (some ⟨.type8, 0, 0, [some 0]⟩) := by decide
    rw [hconcrete] at he
    cases he
    exact ⟨rfl, rfl⟩
  have hlen : sdslen e = 0 := hr.len
  have havail : sdsavail e = 0 := by
    rw [sdsavail_eq hr, hfields.1, hfields.2]
    rfl
  have hreq : sdsReqType (2 * Http.recvChunk) = .type16 := by decide
  have hdouble : (if Http.recvChunk < sdsMaxPrealloc then Http.recvChunk * 2
      else Http.recvChunk + sdsMaxPrealloc) % 2 ^ 64 = 2 * Http.recvChunk := by decide
  obtain ⟨s, hmoved, hr', htype, halloc⟩ := moveTo_spec .type16
    (n := 2 * Http.recvChunk) hr (Nat.zero_le _) (by decide) (by decide)
  have hmake : sdsMakeRoomFor e Http.recvChunk true = some (some s) := by
    have hneed : ¬ Http.recvChunk ≤ 0 := by decide
    have hassert : ¬ (sdsHdrSize .type16 + 2 * Http.recvChunk + 1) % 2 ^ 64 ≤ Http.recvChunk := by
      decide
    have hmod : Http.recvChunk % 2 ^ 64 = Http.recvChunk := by decide
    simp only [sdsMakeRoomFor, havail, hneed, hlen, zero_add, hmod, hdouble, hreq, hassert,
      hfields.1, hmoved, reduceCtorEq, if_true, if_false, Option.map_some]
  refine ⟨s, ?_, holds_of_represents hr' htype ?_⟩
  · rw [firstBuffer, sdsempty, he]
    simp only [Option.join, Option.bind_some, handleRecvSubmission, hmake, id]
  · rw [halloc (by decide), Http.waiting_firstBuffer.alloc]

end

/-- However the kernel cuts a request into results that fit the room it is offered, the loop over
the string in memory fails no assertion, stays inside the block, and comes to the same verdict
with the same bytes as the loop over byte strings. The block has its size from the first two
allocations on: it is not moved any more, and no later allocation can fail. -/
theorem receive_in_memory (later : List (Bytes × Bool))
    (hfits : Http.Fits Http.firstBuffer (later.map Prod.fst)) :
    ∃ s outcome, firstBuffer = some s ∧ receive s later = some outcome ∧
      Mirrors outcome (Http.receive Http.firstBuffer (later.map Prod.fst)) := by
  obtain ⟨s, hfirst, h⟩ := holds_firstBuffer
  obtain ⟨outcome, hout, hm⟩ := receive_mirrors h Http.waiting_firstBuffer hfits
  exact ⟨s, outcome, hfirst, hout, hm⟩

theorem fits_last {buffer : Http.Sds} {bytes : Bytes} (hfit : bytes.length ≤ Http.sdsavail buffer) :
    Http.Fits buffer [bytes] := by
  refine ⟨hfit, ?_⟩
  cases Http.handleRecvCompletion buffer bytes <;> trivial

/-- `GET / HTTP/1.1` in two results. -/
theorem receive_in_memory_rootPage : ∃ s outcome, firstBuffer = some s ∧
    receive s [([71, 69, 84, 32, 47], false),
      ([32, 72, 84, 84, 80, 47, 49, 46, 49, 13, 10, 13, 10], false)] = some outcome ∧
    Mirrors outcome (Http.receive Http.firstBuffer [[71, 69, 84, 32, 47],
      [32, 72, 84, 84, 80, 47, 49, 46, 49, 13, 10, 13, 10]]) :=
  receive_in_memory [([71, 69, 84, 32, 47], false),
      ([32, 72, 84, 84, 80, 47, 49, 46, 49, 13, 10, 13, 10], false)]
    ⟨by decide, fits_last (by decide)⟩

end Cerverus.ReceiveMemory
