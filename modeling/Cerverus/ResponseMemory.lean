import Cerverus.SdsMemory

/-!
# A response in memory

`response_serialize` prints the response into a string, `async_io_send_buffer` sends a copy of
it, and after each result `sdsrange` moves what is left of the copy to its front. There is
memory for every allocation here: the source does not look whether there is.
-/
namespace Cerverus.ResponseMemory
open ByteBlock GuardedRun SdsMemory

/-- `vsnprintf` into a buffer of `buflen` bytes, for a text it would take to print it all. -/
def vsnprintf (buflen : ℕ) (text : Bytes) : Option (Block UInt8) :=
  write (malloc buflen) 0 ((text.take (buflen - 1) ++ [0]).map some)

/-- The loop of `sdscatvprintf`: a buffer that was too short is given up for one of the length
that was asked for. -/
def printLoop (buflen : ℕ) (text : Bytes) : Option (Block UInt8) :=
  if 2 ^ 31 ≤ text.length then none
  else
    (vsnprintf buflen text).bind fun buf =>
      if buflen ≤ text.length then printLoop (text.length + 1) text else some buf
termination_by text.length + 1 - buflen

/-- The buffer on the stack is taken where twice the format fits it. -/
def sdscatvprintf (s : Sdshdr) (fmtlen : ℕ) (text : Bytes) : Option Sdshdr := do
  let buf ← printLoop (if 1024 < fmtlen * 2 then fmtlen * 2 else 1024) text
  let cells ← read buf 0 text.length
  let bytes ← cells.mapM id
  (sdscatlen s bytes true).join

/-- `%s %i %s\r\n`. -/
def statusFormat : Bytes := [37, 115, 32, 37, 105, 32, 37, 115, 13, 10]

/-- `%s: %s\r\n`. -/
def headerFormat : Bytes := [37, 115, 58, 32, 37, 115, 13, 10]

def statusText (res : Response) : Bytes :=
  Http.cString (Http.serializeHttpVersion res.version) ++ [32] ++ Http.decimal res.statusCode ++
    [32] ++ Http.cString res.reasonPhrase ++ Http.crlf

def responseSerialize (res : Response) : Option Sdshdr := do
  let raw ← (sdsempty true).join
  let raw ← sdscatvprintf raw statusFormat.length (statusText res)
  let raw ← res.headers.foldlM
    (fun raw h => sdscatvprintf raw headerFormat.length (Http.serializeHeader h)) raw
  let raw ← (sdscatlen raw Http.crlf true).join
  match res.body with
  | none => some raw
  | some body => (sdscatlen raw body true).join

/-- The copy in flight, and the bytes the kernel has taken. -/
structure SendState where
  inFlight : Option Sdshdr
  taken : Bytes

def sendStart (raw : Sdshdr) : Option SendState :=
  (sdsdup raw true).join.map fun buffer => ⟨some buffer, []⟩

/-- `handle_send_completion` after `res` bytes have been read from the front of the copy. -/
def sendStep (s : SendState) (res : ℕ) : Option SendState :=
  s.inFlight.bind fun buffer =>
    if 1 ≤ res ∧ res ≤ sdslen buffer then do
      let cells ← read buffer.buf 0 res
      let bytes ← cells.mapM id
      let buffer ← sdsrange buffer res (-1)
      some ⟨if 0 < sdslen buffer then some buffer else none, s.taken ++ bytes⟩
    else none

section
variable {h : Sdshdr} {s t text : Bytes} {buflen fmtlen n : ℕ}

theorem printLoop_spec (buflen : ℕ) (htext : text.length < 2 ^ 31) (hpos : 0 < buflen) :
    ∃ buf, printLoop buflen text = some buf ∧ StartsWith buf text := by
  have hint : ¬ 2 ^ 31 ≤ text.length := not_le.mpr htext
  have hprint : ∀ k, 0 < k → ∃ buf, vsnprintf k text = some buf ∧
      StartsWith buf (text.take (k - 1) ++ [0]) := by
    intro k hk
    obtain ⟨buf, hw⟩ := write_isSome (malloc k) 0
      ((text.take (k - 1) ++ [0]).map some) (by
        rw [List.length_map, List.length_append, List.length_take, List.length_singleton,
          length_malloc]
        omega)
    exact ⟨buf, hw, startsWith_write hw⟩
  -- a buffer that is long enough holds all of the text
  have hlong : ∀ k, text.length < k → ∃ buf, printLoop k text = some buf ∧ StartsWith buf text := by
    intro k hk
    obtain ⟨buf, hbuf, hstarts⟩ := hprint k (by omega)
    rw [List.take_of_length_le (by omega)] at hstarts
    refine ⟨buf, ?_, hstarts.of_append⟩
    rw [printLoop, if_neg hint, hbuf, Option.bind_some, if_neg (not_le.mpr hk)]
  by_cases hshort : buflen ≤ text.length
  · obtain ⟨buf, hbuf, -⟩ := hprint buflen hpos
    rw [printLoop, if_neg hint, hbuf, Option.bind_some, if_pos hshort]
    exact hlong _ (Nat.lt_succ_self _)
  · exact hlong _ (not_le.mp hshort)

theorem sdscatlen_true (hr : Represents h s) (hsize : Allocatable (s.length + t.length)) :
    ∃ h', (sdscatlen h t true).join = some h' ∧ Represents h' (s ++ t) := by
  rcases sdscatlen_spec true hr hsize with ⟨h', hcat, hr'⟩ | ⟨-, hok⟩
  · exact ⟨h', by rw [hcat]; rfl, hr'⟩
  · cases hok

theorem sdscatvprintf_spec (fmtlen : ℕ) (text : Bytes) (hr : Represents h s)
    (htext : text.length < 2 ^ 31) (hsize : Allocatable (s.length + text.length)) :
    ∃ h', sdscatvprintf h fmtlen text = some h' ∧ Represents h' (s ++ text) := by
  obtain ⟨buf, hprint, hstarts⟩ := printLoop_spec
    (if 1024 < fmtlen * 2 then fmtlen * 2 else 1024) htext (by split_ifs <;> omega)
  have hread : read buf 0 text.length = some (text.map some) := by
    rw [hstarts.read _ _ (Nat.zero_add _).le, List.drop_zero, List.take_length]
  obtain ⟨h', hcat, hr'⟩ := sdscatlen_true hr hsize
  refine ⟨h', ?_, hr'⟩
  simp only [sdscatvprintf, hprint, hread, mapM_known, hcat, Option.bind_eq_bind, Option.bind_some]

/-- Texts printed one after the other, as long as what there will be fits. -/
theorem prints_spec {α : Type} (fmtlen : ℕ) (textOf : α → Bytes) (as : List α) (hr : Represents h s)
    (hlen : s.length + (as.map textOf).flatten.length < 2 ^ 31) :
    ∃ h', as.foldlM (fun raw a => sdscatvprintf raw fmtlen (textOf a)) h = some h' ∧
      Represents h' (s ++ (as.map textOf).flatten) := by
  induction as generalizing h s with
  | nil => exact ⟨h, rfl, by rwa [List.map_nil, List.flatten_nil, List.append_nil]⟩
  | cons a as ih =>
    rw [List.map_cons, List.flatten_cons, List.length_append] at hlen
    obtain ⟨h₁, hprint, hr₁⟩ := sdscatvprintf_spec fmtlen (textOf a) hr
      (by omega) (by unfold Allocatable; omega)
    obtain ⟨h', hfold, hr'⟩ := ih hr₁ (by rw [List.length_append]; omega)
    refine ⟨h', ?_, ?_⟩
    · rw [List.foldlM_cons, hprint]
      exact hfold
    · rwa [List.map_cons, List.flatten_cons, ← List.append_assoc]

theorem responseSerialize_spec (res : Response)
    (hlen : (Http.responseSerialize res).length < 2 ^ 31) :
    ∃ raw, responseSerialize res = some raw ∧ Represents raw (Http.responseSerialize res) := by
  have hparts : Http.responseSerialize res = statusText res ++
      (res.headers.map Http.serializeHeader).flatten ++ Http.crlf ++ res.body.getD [] := rfl
  rw [hparts, List.length_append, List.length_append, List.length_append] at hlen
  obtain ⟨e, he, hr⟩ := sdsnewlen_spec [] (by decide)
  have hempty : (sdsempty true).join = some e := by
    rw [sdsempty, he]
    rfl
  obtain ⟨h₁, h₁eq, hr₁⟩ := sdscatvprintf_spec statusFormat.length
    (statusText res) hr (by omega) (by unfold Allocatable; rw [List.length_nil]; omega)
  rw [List.nil_append] at hr₁
  obtain ⟨h₂, h₂eq, hr₂⟩ := prints_spec headerFormat.length Http.serializeHeader
    res.headers hr₁ (by omega)
  obtain ⟨h₃, h₃eq, hr₃⟩ := sdscatlen_true (t := Http.crlf) hr₂ (by
    unfold Allocatable
    rw [List.length_append]
    omega)
  have hraw : responseSerialize res = match res.body with
      | none => some h₃
      | some body => (sdscatlen h₃ body true).join := by
    simp only [responseSerialize, hempty, h₁eq, h₂eq, h₃eq, Option.bind_eq_bind, Option.bind_some]
  rw [hraw, hparts]
  cases hbody : res.body with
  | none => exact ⟨h₃, rfl, by rwa [Option.getD_none, List.append_nil]⟩
  | some body =>
    rw [hbody, Option.getD_some] at hlen
    refine sdscatlen_true hr₃ ?_
    unfold Allocatable
    rw [List.length_append, List.length_append]
    omega

/-- The copy in flight is the string in flight, and the same bytes have been taken. -/
structure Mirrors {π : Type} (s : SendState) (t : PartialSends.SendState π) : Prop where
  sending : ∀ ctx, t.inFlight = some ctx → ∃ buffer, s.inFlight = some buffer ∧
    Represents buffer ctx.buffer
  done : t.inFlight = none → s.inFlight = none
  taken : s.taken = PartialSends.taken t.events

theorem sendStart_mirrors {π : Type} {raw : Sdshdr} (hr : Represents raw s)
    (hsize : s.length + 18 < 2 ^ 64) (clientFd : ℕ) (pt : π) :
    ∃ start, sendStart raw = some start ∧ Mirrors start (PartialSends.sendStart s clientFd pt) := by
  obtain ⟨buffer, hdup, hr'⟩ := sdsdup_spec hr hsize
  refine ⟨⟨some buffer, []⟩, by rw [sendStart, hdup]; rfl, fun ctx hctx => ?_, fun h => ?_, rfl⟩
  · cases hctx
    exact ⟨buffer, rfl, hr'⟩
  · cases h

theorem sendStep_mirrors {π : Type} {m : SendState} {u u' : PartialSends.SendState π} {res : ℕ}
    (hm : Mirrors m u) (hs : PartialSends.sendStep u res = some u') :
    ∃ m', sendStep m res = some m' ∧ Mirrors m' u' := by
  unfold PartialSends.sendStep at hs
  cases hctx : u.inFlight with
  | none => rw [hctx] at hs; cases hs
  | some ctx =>
    obtain ⟨buffer, hbuffer, hr⟩ := hm.sending ctx hctx
    rw [hctx] at hs
    dsimp only at hs
    split_ifs at hs with hres
    rw [PartialSends.handleSendCompletion_eq ctx hres.2] at hs
    have hlen : sdslen buffer = ctx.buffer.length := hr.len
    have hread : read buffer.buf 0 res = some ((ctx.buffer.take res).map some) := by
      rw [hr.holds.of_append.read _ _ (by omega), List.drop_zero]
    obtain ⟨buffer', hrange, hr'⟩ := sdsrange_spec hr res (-1)
    rw [PartialSends.sdsrange_from hres.2] at hr'
    have hstep : sendStep m res = some ⟨if 0 < sdslen buffer' then some buffer' else none,
        m.taken ++ ctx.buffer.take res⟩ := by
      simp only [sendStep, hbuffer, Option.bind_some, hlen, if_pos hres, hread, mapM_known, hrange,
        Option.bind_eq_bind]
    have hlen' : sdslen buffer' = (ctx.buffer.drop res).length := hr'.len
    refine ⟨_, hstep, ?_⟩
    by_cases hdrop : ctx.buffer.drop res = []
    · rw [if_pos hdrop] at hs
      cases hs
      have hempty : ¬ 0 < sdslen buffer' := by rw [hlen', hdrop, List.length_nil]; exact lt_irrefl 0
      rw [if_neg hempty]
      refine ⟨fun ctx h => (by cases h), fun _ => rfl, ?_⟩
      cases ctx.pt <;> simp [PartialSends.taken_append, PartialSends.taken, hm.taken]
    · rw [if_neg hdrop] at hs
      cases hs
      have hmore : 0 < sdslen buffer' := by rw [hlen']; exact List.length_pos_iff.mpr hdrop
      rw [if_pos hmore]
      refine ⟨fun ctx h => ?_, fun h => (by cases h), ?_⟩
      · cases h
        exact ⟨buffer', rfl, hr'⟩
      · simp [PartialSends.taken_append, PartialSends.taken, hm.taken]

theorem run_mirrors {π : Type} {m : SendState} {u u' : PartialSends.SendState π}
    {results : List ℕ} (hm : Mirrors m u) (hs : run PartialSends.sendStep u results = some u') :
    ∃ m', run sendStep m results = some m' ∧ Mirrors m' u' := by
  induction results generalizing m u with
  | nil =>
    cases hs
    exact ⟨m, rfl, hm⟩
  | cons res results ih =>
    cases hu : PartialSends.sendStep u res with
    | none => simp [run, hu] at hs
    | some v =>
      rw [run_cons results hu] at hs
      obtain ⟨m₁, hstep, hm₁⟩ := sendStep_mirrors hm hu
      obtain ⟨m', hrun, hm'⟩ := ih hm₁ hs
      exact ⟨m', (run_cons results hstep).trans hrun, hm'⟩

end

/-- From the response to the last byte the kernel takes, no string in memory is written or read
outside its block and no assertion fails; what is printed is the response, and after any results
of the sends the copy in flight holds the bytes that are left and the others have been taken. -/
theorem response_sent_in_memory {π : Type} (res : Response)
    (hlen : (Http.responseSerialize res).length < 2 ^ 31) (clientFd : ℕ) (pt : π)
    {results : List ℕ} {u : PartialSends.SendState π}
    (hrun : run PartialSends.sendStep
      (PartialSends.sendStart (Http.responseSerialize res) clientFd pt) results = some u) :
    ∃ raw start m, responseSerialize res = some raw ∧
      Represents raw (Http.responseSerialize res) ∧ sendStart raw = some start ∧
      run sendStep start results = some m ∧ Mirrors m u := by
  obtain ⟨raw, hraw, hr⟩ := responseSerialize_spec res hlen
  obtain ⟨start, hstart, hm⟩ := sendStart_mirrors hr (by omega) clientFd pt
  obtain ⟨m, hm', hmirrors⟩ := run_mirrors hm hrun
  exact ⟨raw, start, m, hraw, hr, hstart, hm', hmirrors⟩

/-- `HTTP/1.1 0` with no headers, in two results. -/
theorem emptyResponse_sent_in_memory : ∃ raw start m,
    responseSerialize Http.responseCreate = some raw ∧
    Represents raw (Http.responseSerialize Http.responseCreate) ∧ sendStart raw = some start ∧
    run sendStep start [8, 7] = some m ∧
    Mirrors m ⟨none, [.took [72, 84, 84, 80, 47, 49, 46, 49], .took [32, 48, 32, 13, 10, 13, 10],
      .resumed 9]⟩ :=
  response_sent_in_memory Http.responseCreate (by decide) 5 9
    (show run PartialSends.sendStep
      (PartialSends.sendStart (Http.responseSerialize Http.responseCreate) 5 9) [8, 7] =
        some ⟨none, [.took [72, 84, 84, 80, 47, 49, 46, 49], .took [32, 48, 32, 13, 10, 13, 10],
          .resumed 9]⟩ from rfl)

end Cerverus.ResponseMemory
