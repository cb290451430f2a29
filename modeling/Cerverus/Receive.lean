import Cerverus.Request

/-!
# Receiving a request

The loop of `handle_recv_submission` and `handle_recv_completion`: the buffer grows by what
the kernel returns and is parsed from its start after every result.
-/
namespace Cerverus.Http

def recvChunk : ℕ := 4 * 1024

def maxRequest : ℕ := 16 * 1024

def sdsMaxPrealloc : ℕ := 1024 * 1024

structure Sds where
  content : Bytes
  alloc : ℕ
  deriving DecidableEq, Repr

def sdsempty : Sds := ⟨[], 0⟩

def sdsavail (s : Sds) : ℕ := s.alloc - s.content.length

def sdsMakeRoomFor (s : Sds) (addlen : ℕ) : Sds :=
  if addlen ≤ sdsavail s then s
  else
    let newlen := s.content.length + addlen
    { s with alloc := if newlen < sdsMaxPrealloc then newlen * 2 else newlen + sdsMaxPrealloc }

/-- The buffer the next `recv` fills; the room it is offered is `sdsavail`. -/
def handleRecvSubmission (buffer : Sds) : Sds := sdsMakeRoomFor buffer recvChunk

inductive RecvOutcome
  | waiting (buffer : Sds)
  | rejected
  | routed (request : Request)
  deriving DecidableEq, Repr

/-- A positive result, which put `bytes` in the buffer. -/
def handleRecvCompletion (buffer : Sds) (bytes : Bytes) : RecvOutcome :=
  let buffer := { buffer with content := buffer.content ++ bytes }
  let result := requestParse buffer.content
  if result = .invalid ∨ maxRequest < buffer.content.length then .rejected
  else
    match result with
    | .parsed _ request => .routed request
    | _ => .waiting (handleRecvSubmission buffer)

/-- Successive results, until the request is routed or rejected. -/
def receive (buffer : Sds) : List Bytes → RecvOutcome
  | [] => .waiting buffer
  | bytes :: chunks =>
    match handleRecvCompletion buffer bytes with
    | .waiting buffer => receive buffer chunks
    | outcome => outcome

/-- `P` of the buffer, if the loop asks for more. -/
def RecvOutcome.Waits (P : Sds → Prop) : RecvOutcome → Prop
  | .waiting buffer => P buffer
  | _ => True

/-- The results fit the room offered, as long as the loop asks for more. -/
def Fits (buffer : Sds) : List Bytes → Prop
  | [] => True
  | bytes :: chunks => bytes.length ≤ sdsavail buffer ∧
    (handleRecvCompletion buffer bytes).Waits fun buffer => Fits buffer chunks

/-! ## Verdicts -/

inductive Verdict
  | waiting
  | rejected
  | routed (request : Request)
  deriving DecidableEq, Repr

def RecvOutcome.verdict : RecvOutcome → Verdict
  | .waiting _ => .waiting
  | .rejected => .rejected
  | .routed request => .routed request

def firstBuffer : Sds := handleRecvSubmission sdsempty

/-- `chunks` cuts the stream into successive results of `recv`. -/
structure Cuts (stream : Bytes) (chunks : List Bytes) : Prop where
  fits : Fits firstBuffer chunks
  nonempty : ∀ bytes ∈ chunks, bytes ≠ []
  flatten : chunks.flatten = stream

/-- The header block, if it is complete, ends past `MAX_HEADER_BYTES` but within the buffer,
and can be parsed. -/
def LongHeader (stream : Bytes) : Prop :=
  ∃ hdrEnd, memmem crlfcrlf stream = some hdrEnd ∧ maxHeaderBytes < hdrEnd + 4 ∧
    hdrEnd + 4 ≤ 2 * recvChunk ∧ (parseHeaderBlock (stream.take (hdrEnd + 2))).isSome

/-- The verdict on a stream that does not depend on how it is cut. -/
def verdictOf (stream : Bytes) : Verdict :=
  match memmem crlfcrlf stream with
  | none => if stream.length < maxHeaderBytes then .waiting else .rejected
  | some hdrEnd =>
    if hdrEnd + 4 ≤ maxHeaderBytes then
      match parseHeaderBlock (stream.take (hdrEnd + 2)) with
      | none => .rejected
      | some request => .routed request
    else .rejected

theorem handleRecvSubmission_eq {s : Sds} (h : recvChunk ≤ sdsavail s) :
    handleRecvSubmission s = s := if_pos h

/-- The state of the loop while it waits: the buffer has got its final size at once. -/
structure Waiting (buffer : Sds) : Prop where
  alloc : buffer.alloc = 2 * recvChunk
  length : buffer.content.length < maxHeaderBytes
  unfinished : memmem crlfcrlf buffer.content = none

theorem waiting_firstBuffer : Waiting firstBuffer := ⟨by decide, by decide, by decide⟩

theorem crlfcrlf_ne_nil : crlfcrlf ≠ [] := by decide

theorem handleRecvCompletion_cases {buffer : Sds} {bytes : Bytes} (hw : Waiting buffer)
    (hfit : bytes.length ≤ sdsavail buffer) (rest : Bytes) :
    let stream := buffer.content ++ bytes ++ rest
    let received := buffer.content.length + bytes.length
    (∃ hdrEnd, memmem crlfcrlf stream = some hdrEnd ∧ hdrEnd + 4 ≤ received ∧
        received ≤ 2 * recvChunk ∧
        handleRecvCompletion buffer bytes =
          match parseHeaderBlock (stream.take (hdrEnd + 2)) with
          | none => .rejected
          | some request => .routed request) ∨
      ((∀ hdrEnd, memmem crlfcrlf stream = some hdrEnd → received < hdrEnd + 4) ∧
        ((maxHeaderBytes ≤ received ∧ handleRecvCompletion buffer bytes = .rejected) ∨
          (received < maxHeaderBytes ∧
            ∃ buffer', handleRecvCompletion buffer bytes = .waiting buffer' ∧ Waiting buffer' ∧
              buffer'.content = buffer.content ++ bytes))) := by
  intro stream received
  have halloc := hw.alloc
  have hlen : (buffer.content ++ bytes).length = received := List.length_append
  have hmax : received ≤ 2 * recvChunk := by
    have := hw.length
    have hc : maxHeaderBytes = recvChunk := rfl
    rw [sdsavail, halloc] at hfit
    omega
  have htake : buffer.content ++ bytes = stream.take received := by
    rw [← hlen, List.take_left']
    rfl
  have hsmall : ¬ maxRequest < received := by
    have hc : maxRequest = 4 * recvChunk := rfl
    omega
  have hiff := fun hdrEnd => memmem_take (s := stream) (k := received) (i := hdrEnd) crlfcrlf_ne_nil
  rw [← htake] at hiff
  cases hm : memmem crlfcrlf (buffer.content ++ bytes) with
  | some hdrEnd =>
    obtain ⟨hs, hle⟩ := (hiff hdrEnd).mp hm
    have hle' : hdrEnd + 4 ≤ received := hle
    have hblock : (buffer.content ++ bytes).take (hdrEnd + 2) = stream.take (hdrEnd + 2) := by
      rw [htake, List.take_take, min_eq_left (by omega)]
    refine Or.inl ⟨hdrEnd, hs, hle', hmax, ?_⟩
    simp only [handleRecvCompletion, requestParse, hm, hblock, hlen, hsmall, or_false]
    cases parseHeaderBlock (stream.take (hdrEnd + 2)) with
    | none => rfl
    | some request => rfl
  | none =>
    refine Or.inr ⟨fun hdrEnd hs => ?_, ?_⟩
    · by_contra hle
      have := (hiff hdrEnd).mpr ⟨hs, Nat.le_of_not_lt hle⟩
      rw [hm] at this
      cases this
    · simp only [handleRecvCompletion, requestParse, hm, hlen, hsmall, or_false]
      by_cases hbig : maxHeaderBytes ≤ received
      · exact Or.inl ⟨hbig, by simp [hbig]⟩
      · have hroom : recvChunk ≤ 2 * recvChunk - (buffer.content ++ bytes).length := by
          have hc : maxHeaderBytes = recvChunk := rfl
          omega
        refine Or.inr ⟨Nat.lt_of_not_le hbig, ⟨buffer.content ++ bytes, buffer.alloc⟩, ?_,
          ⟨halloc, ?_, hm⟩, rfl⟩
        · simp only [hbig, if_false, reduceCtorEq]
          rw [handleRecvSubmission_eq]
          rw [sdsavail, halloc]
          exact hroom
        · rw [hlen]
          exact Nat.lt_of_not_le hbig

theorem waiting_completion {buffer next : Sds} {bytes : Bytes} (hw : Waiting buffer)
    (hfit : bytes.length ≤ sdsavail buffer)
    (hout : handleRecvCompletion buffer bytes = .waiting next) : Waiting next := by
  rcases handleRecvCompletion_cases hw hfit [] with
    ⟨hdrEnd, -, -, -, heq⟩ | ⟨-, ⟨-, heq⟩ | ⟨-, buffer', heq, hw', -⟩⟩
  · rw [hout] at heq
    split at heq <;> cases heq
  · rw [hout] at heq
    cases heq
  · rw [hout] at heq
    cases heq
    exact hw'

theorem content_waiting {buffer buffer' : Sds} {bytes : Bytes}
    (h : handleRecvCompletion buffer bytes = .waiting buffer') :
    buffer'.content = buffer.content ++ bytes ∧ buffer'.content.length < maxHeaderBytes := by
  unfold handleRecvCompletion at h
  dsimp only at h
  split_ifs at h with hbad
  split at h
  · cases h
  · rename_i hparse
    cases h
    have hcontent : (handleRecvSubmission ⟨buffer.content ++ bytes, buffer.alloc⟩).content =
        buffer.content ++ bytes := by
      unfold handleRecvSubmission sdsMakeRoomFor
      split_ifs <;> rfl
    refine ⟨hcontent, ?_⟩
    rw [hcontent]
    rw [not_or] at hbad
    cases hp : requestParse (buffer.content ++ bytes) with
    | invalid => exact absurd hp hbad.1
    | parsed consumed request => exact absurd hp (hparse consumed request)
    | unfinished =>
      unfold requestParse at hp
      split at hp
      · split_ifs at hp with hlen
        exact not_le.mp hlen
      · split at hp <;> cases hp

/-- Without a long header block, every way of cutting the stream leads to one verdict. -/
theorem receive_verdict {buffer : Sds} {chunks : List Bytes} (hw : Waiting buffer)
    (hfits : Fits buffer chunks) (hlong : ¬ LongHeader (buffer.content ++ chunks.flatten)) :
    (receive buffer chunks).verdict = verdictOf (buffer.content ++ chunks.flatten) := by
  induction chunks generalizing buffer with
  | nil => simp [receive, RecvOutcome.verdict, verdictOf, hw.unfinished, hw.length]
  | cons bytes chunks ih =>
    obtain ⟨hfit, hnext⟩ := hfits
    rw [List.flatten_cons, ← List.append_assoc] at hlong ⊢
    rw [receive]
    rcases handleRecvCompletion_cases hw hfit chunks.flatten with
      ⟨hdrEnd, hs, hle, hmax, hout⟩ | ⟨hno, ⟨hbig, hout⟩ | ⟨_, buffer', hout, hw', hcontent⟩⟩
    · rw [hout, verdictOf, hs]
      by_cases hshort : hdrEnd + 4 ≤ maxHeaderBytes
      · simp only [hshort, if_true]
        cases parseHeaderBlock _ with
        | none => rfl
        | some request => rfl
      · have hnone : parseHeaderBlock ((buffer.content ++ bytes ++ chunks.flatten).take
            (hdrEnd + 2)) = none := by
          by_contra hsome
          exact hlong ⟨hdrEnd, hs, Nat.lt_of_not_le hshort, by omega,
            Option.isSome_iff_ne_none.mpr hsome⟩
        simp only [hshort, if_false, hnone]
        rfl
    · rw [hout, verdictOf]
      cases hs : memmem crlfcrlf (buffer.content ++ bytes ++ chunks.flatten) with
      | none =>
        have hlen : maxHeaderBytes ≤ (buffer.content ++ bytes ++ chunks.flatten).length := by
          simp only [List.length_append]
          omega
        simp only [not_lt.mpr hlen, if_false]
        rfl
      | some hdrEnd =>
        have := hno hdrEnd hs
        simp only [show ¬ hdrEnd + 4 ≤ maxHeaderBytes by omega, if_false]
        rfl
    · rw [hout] at hnext ⊢
      rw [← hcontent] at hlong ⊢
      exact ih hw' hnext hlong

theorem receive_decided {stream bytes : Bytes} {chunks : List Bytes} {outcome : RecvOutcome}
    (hs : (bytes :: chunks).flatten = stream) (hne : ∀ c ∈ bytes :: chunks, c ≠ [])
    (hfit : bytes.length ≤ sdsavail firstBuffer)
    (hout : handleRecvCompletion firstBuffer bytes = outcome)
    (hdecided : ∀ buffer, outcome ≠ .waiting buffer) :
    Cuts stream (bytes :: chunks) ∧ receive firstBuffer (bytes :: chunks) = outcome := by
  cases outcome with
  | waiting buffer => exact absurd rfl (hdecided buffer)
  | rejected =>
    exact ⟨⟨⟨hfit, by rw [hout]; trivial⟩, hne, hs⟩, by simp only [receive, hout]⟩
  | routed request =>
    exact ⟨⟨⟨hfit, by rw [hout]; trivial⟩, hne, hs⟩, by simp only [receive, hout]⟩

section
variable {stream : Bytes} {hdrEnd : ℕ} {request : Request}

theorem length_take_of_le {k : ℕ} (hk : k ≤ stream.length) : (stream.take k).length = k := by
  rw [List.length_take, min_eq_left hk]

/-- A long header block is refused when the first result stops short of it. -/
theorem longHeader_short (hs : memmem crlfcrlf stream = some hdrEnd)
    (hlong : maxHeaderBytes < hdrEnd + 4) :
    handleRecvCompletion firstBuffer (stream.take maxHeaderBytes) = .rejected := by
  have hlen : hdrEnd + 4 ≤ stream.length := memmem_le hs
  have htake : (stream.take maxHeaderBytes).length = maxHeaderBytes :=
    length_take_of_le (by omega)
  have hfit : (stream.take maxHeaderBytes).length ≤ sdsavail firstBuffer := by
    rw [htake]
    decide
  have hcases := handleRecvCompletion_cases waiting_firstBuffer hfit (stream.drop maxHeaderBytes)
  simp only [show firstBuffer.content = [] from rfl, List.nil_append, List.take_append_drop,
    List.length_nil, htake, zero_add] at hcases
  rcases hcases with ⟨e, he, hle, _⟩ | ⟨_, ⟨_, hout⟩ | ⟨hlt, _⟩⟩
  · rw [hs] at he
    cases he
    omega
  · exact hout
  · exact absurd hlt (lt_irrefl _)

theorem longHeader_whole (hs : memmem crlfcrlf stream = some hdrEnd)
    (hmax : hdrEnd + 4 ≤ 2 * recvChunk)
    (hrequest : parseHeaderBlock (stream.take (hdrEnd + 2)) = some request) :
    handleRecvCompletion firstBuffer (stream.take (hdrEnd + 4)) = .routed request := by
  have hlen : hdrEnd + 4 ≤ stream.length := memmem_le hs
  have htake := length_take_of_le hlen
  have hfit : (stream.take (hdrEnd + 4)).length ≤ sdsavail firstBuffer := by
    rw [htake]
    exact hmax
  have hcases := handleRecvCompletion_cases waiting_firstBuffer hfit (stream.drop (hdrEnd + 4))
  simp only [show firstBuffer.content = [] from rfl, List.nil_append, List.take_append_drop,
    List.length_nil, htake, zero_add] at hcases
  rcases hcases with ⟨e, he, _, _, hout⟩ | ⟨hno, _⟩
  · rw [hs] at he
    cases he
    rw [hout, hrequest]
  · exact absurd (hno hdrEnd hs) (lt_irrefl _)

theorem exists_chunks (rest : Bytes) :
    ∃ chunks : List Bytes, chunks.flatten = rest ∧ ∀ c ∈ chunks, c ≠ [] := by
  by_cases h : rest = []
  · exact ⟨[], h.symm, by simp⟩
  · exact ⟨[rest], by simp, by simpa using h⟩

/-- What decides on an initial part of the stream decides on some cut of it. -/
theorem exists_cut {k : ℕ} {outcome : RecvOutcome} (hpos : 0 < k) (hk : k ≤ stream.length)
    (hroom : k ≤ 2 * recvChunk)
    (hout : handleRecvCompletion firstBuffer (stream.take k) = outcome)
    (hdecided : ∀ buffer, outcome ≠ .waiting buffer) :
    ∃ chunks, Cuts stream chunks ∧ receive firstBuffer chunks = outcome := by
  obtain ⟨chunks, hflat, hne⟩ := exists_chunks (stream.drop k)
  have htake := length_take_of_le hk
  refine ⟨stream.take k :: chunks, receive_decided ?_ ?_ (by rw [htake]; exact hroom) hout hdecided⟩
  · rw [List.flatten_cons, hflat, List.take_append_drop]
  · intro c hc
    rcases List.mem_cons.mp hc with rfl | hc
    · intro he
      rw [he] at htake
      exact hpos.ne htake
    · exact hne c hc

theorem longHeader_two_cuts (h : LongHeader stream) :
    ∃ chunks chunks' request, Cuts stream chunks ∧ Cuts stream chunks' ∧
      receive firstBuffer chunks = .rejected ∧ receive firstBuffer chunks' = .routed request := by
  obtain ⟨hdrEnd, hs, hlong, hmax, hok⟩ := h
  obtain ⟨request, hrequest⟩ := Option.isSome_iff_exists.mp hok
  have hlen : hdrEnd + 4 ≤ stream.length := memmem_le hs
  obtain ⟨chunks, hcut, hout⟩ := exists_cut (by decide) (by omega) (by decide)
    (longHeader_short hs hlong) (by simp)
  obtain ⟨chunks', hcut', hout'⟩ := exists_cut (by omega) hlen hmax
    (longHeader_whole hs hmax hrequest) (by simp)
  exact ⟨chunks, chunks', request, hcut, hcut', hout, hout'⟩

end

/-- The verdict is the same however a stream is cut, exactly when its header block is not a
well-formed one that ends past `MAX_HEADER_BYTES` and within the first buffer. -/
theorem verdicts_agree_iff (stream : Bytes) :
    (∀ chunks chunks', Cuts stream chunks → Cuts stream chunks' →
      (receive firstBuffer chunks).verdict = (receive firstBuffer chunks').verdict) ↔
      ¬ LongHeader stream := by
  constructor
  · intro hall hlong
    obtain ⟨chunks, chunks', request, hcut, hcut', hout, hout'⟩ := longHeader_two_cuts hlong
    have hagree := hall chunks chunks' hcut hcut'
    rw [hout, hout'] at hagree
    cases hagree
  · intro hlong
    have hone : ∀ chunks, Cuts stream chunks →
        (receive firstBuffer chunks).verdict = verdictOf stream := by
      intro chunks hex
      obtain ⟨hfits, _, rfl⟩ := hex
      exact receive_verdict waiting_firstBuffer hfits hlong
    intro chunks chunks' h h'
    rw [hone chunks h, hone chunks' h']

/-- `GET uri HTTP/1.1`. -/
def getLine (uri : Bytes) : Bytes := [71, 69, 84] ++ 32 :: (uri ++ 32 :: httpVersion1p1Literal)

theorem parseStatusLine_getLine {uri : Bytes} (hne : uri ≠ []) (hsp : 32 ∉ uri) :
    parseStatusLine (getLine uri) = some (.get, uri, .v1p1) := by
  have h1 : memchr (getLine uri) 32 = some 3 := memchr_of_notMem (by decide)
  have h2 : memchr (uri ++ 32 :: httpVersion1p1Literal) 32 = some uri.length :=
    memchr_of_notMem hsp
  have hrest : (getLine uri).drop (3 + 1) = uri ++ 32 :: httpVersion1p1Literal := rfl
  have hmethod : (getLine uri).take 3 = [71, 69, 84] := rfl
  have hversion : (uri ++ 32 :: httpVersion1p1Literal).drop (uri.length + 1) =
      httpVersion1p1Literal := by
    rw [← List.drop_drop, List.drop_left']
    · rfl
    · rfl
  have hget : parseHttpMethod [71, 69, 84] = some .get := by decide
  have hv : parseHttpVersion httpVersion1p1Literal = some .v1p1 := by decide
  have hno : (memchr httpVersion1p1Literal 32).isSome = false := by decide
  have huri : (uri ++ 32 :: httpVersion1p1Literal).take uri.length = uri := List.take_left' rfl
  simp only [parseStatusLine, h1, Option.bind_eq_bind, Option.bind_some, hrest, h2, hmethod,
    huri, hversion, hne, hno, hget, hv]
  rfl

theorem notMem_getLine {uri : Bytes} (hcr : 13 ∉ uri) : 13 ∉ getLine uri := by
  simp [getLine, httpVersion1p1Literal, hcr]

theorem parseHeaderBlock_getLine {uri : Bytes} (hne : uri ≠ []) (hsp : 32 ∉ uri)
    (hcr : 13 ∉ uri) :
    parseHeaderBlock (getLine uri ++ crlf) = some ⟨.get, uri, .v1p1, []⟩ := by
  have hline : memmem crlf (getLine uri ++ crlf) = some (getLine uri).length := by
    have h := memmem_of_notMem (notMem_getLine hcr) [10] []
    rwa [List.append_nil] at h
  have htake : (getLine uri ++ crlf).take (getLine uri).length = getLine uri :=
    List.take_left' rfl
  have hdrop : (getLine uri ++ crlf).drop ((getLine uri).length + 2) = [] := by
    rw [← List.drop_drop, List.drop_left']
    · rfl
    · rfl
  have hheaders : parseHeaders [] = some [] := by
    rw [parseHeaders]
    rfl
  simp only [parseHeaderBlock, hline, Option.bind_eq_bind, Option.bind_some, htake,
    parseStatusLine_getLine hne hsp, hdrop, hheaders]

/-- `GET /aaa.. HTTP/1.1` with a target of 4096 bytes is refused when the first result is of
4096 bytes, routed when all 4113 come at once. -/
theorem longTarget_two_verdicts :
    let uri : Bytes := 47 :: List.replicate 4095 97
    let stream := getLine uri ++ crlfcrlf
    Cuts stream [stream.take maxHeaderBytes, stream.drop maxHeaderBytes] ∧ Cuts stream [stream] ∧
      (receive firstBuffer [stream.take maxHeaderBytes, stream.drop maxHeaderBytes]).verdict =
        .rejected ∧
      (receive firstBuffer [stream]).verdict = .routed ⟨.get, uri, .v1p1, []⟩ := by
  intro uri stream
  have hmem : ∀ c ∈ uri, c = 47 ∨ c = 97 := by
    intro c hc
    rcases List.mem_cons.mp hc with rfl | hc
    · exact Or.inl rfl
    · exact Or.inr (List.eq_of_mem_replicate hc)
  have hcr : 13 ∉ uri := fun h => absurd (hmem 13 h) (by decide)
  have hsp : 32 ∉ uri := fun h => absurd (hmem 32 h) (by decide)
  have huri : uri.length = 4096 := by
    rw [List.length_cons, List.length_replicate]
  have hlen : (getLine uri).length = 4109 := by
    simp only [getLine, httpVersion1p1Literal, List.length_append, List.length_cons,
      List.length_nil, huri]
  have hend : memmem crlfcrlf stream = some 4109 := by
    have h := memmem_of_notMem (notMem_getLine hcr) [10, 13, 10] []
    rwa [List.append_nil, hlen] at h
  have hstream : stream.length = 4113 := by
    rw [List.length_append, hlen]
    rfl
  have hblock : parseHeaderBlock (stream.take (4109 + 2)) = some ⟨.get, uri, .v1p1, []⟩ := by
    rw [← parseHeaderBlock_getLine (List.cons_ne_nil _ _) hsp hcr, ← hlen,
      List.take_length_add_append]
    rfl
  clear_value stream uri
  have hwhole := longHeader_whole hend (by decide) hblock
  rw [List.take_of_length_le hstream.le] at hwhole
  have hshort := longHeader_short hend (by decide)
  have htake : (stream.take maxHeaderBytes).length = 4096 :=
    length_take_of_le (by rw [hstream]; decide)
  have hdrop : (stream.drop maxHeaderBytes).length = 17 := by
    rw [List.length_drop, hstream]
    rfl
  have hne : ∀ {bytes : Bytes} {n : ℕ}, bytes.length = n + 1 → bytes ≠ [] := fun h he => by
    simp [he] at h
  have hflat : [stream.take maxHeaderBytes, stream.drop maxHeaderBytes].flatten = stream := by
    simp only [List.flatten_cons, List.flatten_nil, List.append_nil, List.take_append_drop]
  have hflat' : [stream].flatten = stream := by
    simp only [List.flatten_cons, List.flatten_nil, List.append_nil]
  obtain ⟨hcut, hout⟩ := receive_decided hflat (by
    intro c hc
    rcases List.mem_pair.mp hc with rfl | rfl
    · exact hne htake
    · exact hne hdrop) (by rw [htake]; decide) hshort (by simp)
  obtain ⟨hcut', hout'⟩ := receive_decided hflat' (by
    intro c hc
    rw [List.mem_singleton.mp hc]
    exact hne hstream) (by rw [hstream]; decide) hwhole (by simp)
  exact ⟨hcut, hcut', congrArg RecvOutcome.verdict hout, congrArg RecvOutcome.verdict hout'⟩

end Cerverus.Http
