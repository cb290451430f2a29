import Cerverus.SpliceAll

/-!
# The file body a transfer delivers

The bytes behind the splices: a fill appends a range of the file to the pipe, a drain moves
the front of the pipe to the socket. `off_in` is passed to the kernel explicitly and no
completion advances it, so only a transfer of one fill and one drain delivers the file.
-/
namespace Cerverus.FileBody
open GuardedRun SpliceAll

/-- Pipe content and bytes delivered after one more splice. -/
def moveBytes (file : List UInt8) (b : List UInt8 × List UInt8) : Move → List UInt8 × List UInt8
  | .fill start len => (b.1 ++ (file.drop start).take len, b.2)
  | .drain len => (b.1.drop len, b.2 ++ b.1.take len)

def delivered (file : List UInt8) (moves : List Move) : List UInt8 :=
  (moves.foldl (moveBytes file) ([], [])).2

/-- Each fill starts where the fills before it ended. -/
def FillsConsecutive : ℕ → List Move → Prop
  | _, [] => True
  | off, .fill start len :: ms => start = off ∧ FillsConsecutive (off + len) ms
  | off, .drain _ :: ms => FillsConsecutive off ms

/-- The fills read the file front to back, the one in flight included, and the resumed
coroutine has delivered exactly the file. -/
structure Faithful (file : List UInt8) (s : Transfer) : Prop where
  completed : FillsConsecutive 0 s.moves
  inFlight : s.resumed = false → s.ctx.isDraining = false → s.ctx.offIn.toNat = s.filled
  body : s.resumed = true → delivered file s.moves = file

/-- One completion with a positive result. -/
def stepPositive (s : Transfer) (res : ℕ) : Option Transfer :=
  if res = 0 then none else step s res

def startFile (file : List UInt8) (fdIn fdOut : ℕ) (pipe : ℕ × ℕ) : Transfer :=
  start (sendfileContext fdIn fdOut (UInt64.ofNat file.length) pipe)

/-- Up to its first drain a transfer is always right; from there on the first fill must
have taken the whole file and the first drain all of the pipe. -/
def SingleRound (n : ℕ) : List ℕ → Prop
  | r₁ :: r₂ :: _ => r₁ = n ∧ r₂ = n
  | _ => True

theorem stepPositive_some {s t : Transfer} {r : ℕ} (h : stepPositive s r = some t) :
    0 < r ∧ step s r = some t := by
  unfold stepPositive at h
  split_ifs at h with hr
  exact ⟨Nat.pos_of_ne_zero hr, h⟩

section
variable {file : List UInt8} {fdIn fdOut : ℕ} {pipe : ℕ × ℕ}

theorem startFile_nbytes (h32 : file.length < 2 ^ 32) :
    (startFile file fdIn fdOut pipe).ctx.nbytes.toNat = file.length := by
  simp only [startFile, start, sendfileContext, UInt64.toNat_toUInt32, UInt64.toNat_ofNat']
  omega

theorem first_fill (h32 : file.length < 2 ^ 32) {t : Transfer} {r : ℕ}
    (h : stepPositive (startFile file fdIn fdOut pipe) r = some t) :
    0 < r ∧ r ≤ file.length ∧ t.resumed = false ∧ t.ctx.isDraining = true ∧
      t.ctx.offIn = 0 ∧ t.ctx.nbytes.toNat = file.length - r ∧ t.ctx.inPipe.toNat = r ∧
      t.moves = [.fill 0 r] := by
  obtain ⟨hr, hs⟩ := stepPositive_some h
  have hn := @startFile_nbytes file fdIn fdOut pipe h32
  have hz : (startFile file fdIn fdOut pipe).ctx.inPipe = 0 := rfl
  obtain ⟨hle, hres, hdr, hoff, hnb, hin, hm⟩ := step_fill hs rfl
  rw [fillLength_of_le (by simp [hz]), hn, hz] at hle
  have hb := (startFile file fdIn fdOut pipe).ctx.nbytes.toNat_lt
  refine ⟨hr, by omega, hres, hdr, hoff, ?_, ?_, hm⟩
  · rw [hnb, UInt32.toNat_sub, UInt32.toNat_ofNat', hn]
    omega
  · rw [hin, UInt64.toNat_add, UInt64.toNat_ofNat', hz]
    simp
    omega

/-- The first drain either finishes the transfer, having moved the whole file twice, or is
followed by a fill that starts at 0 again. -/
theorem first_drain (h32 : file.length < 2 ^ 32) {s t : Transfer} {r₁ r₂ : ℕ}
    (h₁ : stepPositive (startFile file fdIn fdOut pipe) r₁ = some s)
    (h₂ : stepPositive s r₂ = some t) :
    t.moves = [.fill 0 r₁, .drain r₂] ∧ t.ctx.offIn = 0 ∧
      (t.resumed = false → t.ctx.isDraining = false) ∧
      (t.resumed = true ↔ r₁ = file.length ∧ r₂ = file.length) := by
  obtain ⟨hr₁, hle, _, hdr, hoff, hnb, hin, hm⟩ := first_fill h32 h₁
  obtain ⟨hr₂, hs⟩ := stepPositive_some h₂
  obtain ⟨hle₂, hoff₂, hnb₂, hin₂, hm₂, hres, hfill⟩ := step_drain hs hdr
  refine ⟨by simp [hm₂, hm], hoff₂.trans hoff, hfill, ?_⟩
  have hin₂' : t.ctx.inPipe.toNat = r₁ - r₂ := by
    rw [hin₂, UInt64.toNat_sub, UInt64.toNat_ofNat', hin]
    omega
  have hnb₂' : t.ctx.nbytes.toNat = file.length - r₁ := by rw [hnb₂, hnb]
  rw [hres, ← UInt64.toNat_inj, ← UInt32.toNat_inj, hin₂', hnb₂']
  simp only [UInt64.toNat_zero, UInt32.toNat_zero]
  omega

theorem faithful_start : Faithful file (startFile file fdIn fdOut pipe) :=
  ⟨trivial, fun _ _ => rfl, by simp [startFile, start]⟩

theorem faithful_first_fill (h32 : file.length < 2 ^ 32) {t : Transfer} {r : ℕ}
    (h : stepPositive (startFile file fdIn fdOut pipe) r = some t) : Faithful file t := by
  obtain ⟨_, _, hres, hdr, _, _, _, hm⟩ := first_fill h32 h
  refine ⟨?_, by simp [hdr], by simp [hres]⟩
  rw [hm]
  exact ⟨rfl, trivial⟩

theorem faithful_first_drain (h32 : file.length < 2 ^ 32) {s t : Transfer} {r₁ r₂ : ℕ}
    (h₁ : stepPositive (startFile file fdIn fdOut pipe) r₁ = some s)
    (h₂ : stepPositive s r₂ = some t) :
    Faithful file t ↔ r₁ = file.length ∧ r₂ = file.length := by
  obtain ⟨hr₁, _⟩ := first_fill h32 h₁
  obtain ⟨hm, hoff, hfill, hres⟩ := first_drain h32 h₁ h₂
  rw [← hres]
  constructor
  · intro hf
    by_contra hne
    have hres' : t.resumed = false := by simpa using hne
    have hin := hf.inFlight hres' (hfill hres')
    simp [hoff, Transfer.filled, hm, Move.filled] at hin
    omega
  · intro ht
    obtain ⟨he₁, he₂⟩ := hres.mp ht
    refine ⟨by rw [hm]; exact ⟨rfl, trivial⟩, by simp [ht], fun _ => ?_⟩
    simp [hm, delivered, moveBytes, he₁, he₂]

end

/-- For every file of less than 4 GiB and every sequence of positive results, the fills read
the file in order and the socket receives exactly its bytes if and only if the transfer is
a single fill of the whole file followed by a single drain of all of it, or has not got
past its first drain. -/
theorem faithful_iff_singleRound (file : List UInt8) (fdIn fdOut : ℕ) (pipe : ℕ × ℕ)
    (rs : List ℕ) {t : Transfer} (h32 : file.length < 2 ^ 32)
    (hrun : run stepPositive (startFile file fdIn fdOut pipe) rs = some t) :
    Along stepPositive (Faithful file) (startFile file fdIn fdOut pipe) rs ↔
      SingleRound file.length rs := by
  cases rs with
  | nil => exact ⟨fun _ => trivial, fun _ => faithful_start⟩
  | cons r₁ rs =>
    cases rs with
    | nil =>
      refine ⟨fun _ => trivial, fun _ => ⟨faithful_start, ?_⟩⟩
      cases h : stepPositive (startFile file fdIn fdOut pipe) r₁ with
      | none => trivial
      | some s => exact faithful_first_fill h32 h
    | cons r₂ rest =>
      cases h₁ : stepPositive (startFile file fdIn fdOut pipe) r₁ with
      | none => simp [run, h₁] at hrun
      | some s =>
        rw [run_cons _ h₁] at hrun
        cases h₂ : stepPositive s r₂ with
        | none => simp [run, h₂] at hrun
        | some u =>
          rw [run_cons _ h₂] at hrun
          rw [along_cons _ h₁, along_cons _ h₂]
          have hiff := faithful_first_drain h32 h₁ h₂
          refine ⟨fun h => hiff.mp (along_head h.2.2), fun h => ?_⟩
          refine ⟨faithful_start, faithful_first_fill h32 h₁, ?_⟩
          have hdone : u.resumed = true := (first_drain h32 h₁ h₂).2.2.2.mpr h
          cases rest with
          | nil => exact hiff.mpr h
          | cons r₃ rest =>
            have hnone : stepPositive u r₃ = none := by simp [stepPositive, step, hdone]
            simp [run, hnone] at hrun

/-- A three-byte file moved in one round. -/
theorem faithful_three_bytes :
    Along stepPositive (Faithful [10, 20, 30]) (startFile [10, 20, 30] 5 6 (7, 8)) [3, 3] :=
  (faithful_iff_singleRound [10, 20, 30] 5 6 (7, 8) [3, 3] (by decide) rfl).mpr
    ⟨rfl, rfl⟩

/-- One byte past `SPLICE_MAX_SIZE`: the second fill starts at 0, not at 65536. -/
theorem not_faithful_second_fill :
    ¬ Along stepPositive (Faithful (List.replicate 65537 7))
      (startFile (List.replicate 65537 7) 5 6 (7, 8)) [65536, 65536] := by
  intro h
  have hs : startFile (List.replicate 65537 7) 5 6 (7, 8) =
      start (sendfileContext 5 6 65537 (7, 8)) := by
    rw [startFile, List.length_replicate]
    rfl
  rw [hs] at h
  have ht := along_run h (t := ⟨⟨5, 6, 0, (7, 8), 1, 0, false⟩, false,
    [.fill 0 65536, .drain 65536]⟩) rfl
  exact absurd (ht.inFlight rfl rfl) (by decide)

end Cerverus.FileBody
