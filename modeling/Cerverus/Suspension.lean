import Mathlib

/-!
# Functions suspended at waits

A straight-line function that waits between its statements: after each wait it goes on in a
fresh call, whose automatic variables are undefined until they are assigned. Everything else it
knows is in memory, or behind the pointer `slot` it is handed again at every call. What the
statements compute and what happens to memory during a wait is left open.
-/
namespace Cerverus.Suspension

/-- A statement by the automatic variables it reads and the one it assigns. -/
inductive Stmt (V O : Type*)
  | exec (dst : Option V) (op : O) (args : List V)
  | load (dst : V)
  | store (src : V)
  | wait (op : O) (args : List V)

variable {V O D W : Type*}

section
variable {ρ ρ' : V → Option D}

theorem mapM_isSome (args : List V) :
    (args.mapM ρ).isSome ↔ ∀ v ∈ args, (ρ v).isSome := by
  induction args with
  | nil => simp
  | cons a args ih =>
    rw [List.mapM_cons, List.forall_mem_cons, ← ih]
    cases ρ a with
    | none => simp
    | some d => cases args.mapM ρ <;> simp

theorem mapM_congr {args : List V} (h : ∀ u ∈ args, ρ' u = ρ u) : args.mapM ρ' = args.mapM ρ := by
  induction args with
  | nil => rfl
  | cons a args ih =>
    rw [List.mapM_cons, List.mapM_cons, h a List.mem_cons_self,
      ih fun u hu => h u (List.mem_cons_of_mem _ hu)]

end

variable [DecidableEq V]

def assign (ρ : V → Option D) (dst : Option V) (d : D) : V → Option D :=
  match dst with
  | none => ρ
  | some v => Function.update ρ v (some d)

/-- The automatic variables of a fresh call, which loads the slot into `v` first. -/
def entry (v : V) (slot : D) : V → Option D := Function.update (fun _ => none) v (some slot)

section
variable (sem : O → List D → W → D × W) (resume : (V → Option D) → D → V → Option D)

/-- The operations carried out and the values they were given; `none` when an undefined variable
is read. Each wait takes what happens during it from the list, and the run stops at a wait that
is not over. -/
def execute : (V → Option D) → D → W → List (W → W) → List (Stmt V O) → Option (List (O × List D))
  | _, _, _, _, [] => some []
  | ρ, slot, w, envs, .exec dst op args :: p =>
    (args.mapM ρ).bind fun xs =>
      (execute (assign ρ dst (sem op xs w).1) slot (sem op xs w).2 envs p).map ((op, xs) :: ·)
  | ρ, slot, w, envs, .load dst :: p => execute (Function.update ρ dst (some slot)) slot w envs p
  | ρ, _, w, envs, .store src :: p => (ρ src).bind fun d => execute ρ d w envs p
  | ρ, _, _, [], .wait op args :: _ => (args.mapM ρ).map fun xs => [(op, xs)]
  | ρ, slot, w, env :: envs, .wait op args :: p =>
    (args.mapM ρ).bind fun xs =>
      (execute (resume ρ slot) slot (env (sem op xs w).2) envs p).map ((op, xs) :: ·)

/-- Every operation waited for completes at once. -/
def straightLine : (V → Option D) → D → W → List (W → W) → List (Stmt V O) →
    Option (List (O × List D)) :=
  execute sem fun ρ _ => ρ

/-- Every wait ends in a fresh call. -/
def suspended (v : V) : (V → Option D) → D → W → List (W → W) → List (Stmt V O) →
    Option (List (O × List D)) :=
  execute sem fun _ slot => entry v slot

end

/-- No variable is read before it is assigned, in a run with the given number of resumptions;
`after` is what is left of the assigned variables after a wait. -/
def definedFor (after : List V → List V) : ℕ → List V → List (Stmt V O) → Bool
  | _, _, [] => true
  | k, vs, .exec dst _ args :: p => args.all (· ∈ vs) && definedFor after k (dst.toList ++ vs) p
  | k, vs, .load dst :: p => definedFor after k (dst :: vs) p
  | k, vs, .store src :: p => decide (src ∈ vs) && definedFor after k vs p
  | 0, vs, .wait _ args :: _ => args.all (· ∈ vs)
  | k + 1, vs, .wait _ args :: p => args.all (· ∈ vs) && definedFor after k (after vs) p

/-- At every wait the slot holds the variable a fresh call loads it into. -/
def synced (v : V) : Bool → List (Stmt V O) → Bool
  | _, [] => true
  | b, .exec dst _ _ :: p => synced v (b && decide (dst ≠ some v)) p
  | b, .load dst :: p => synced v (b || decide (dst = v)) p
  | _, .store src :: p => synced v (decide (src = v)) p
  | b, .wait _ _ :: p => b && synced v b p

section
variable {sem : O → List D → W → D × W} {resume : (V → Option D) → D → V → Option D}
  {after : List V → List V} {ρ ρ' : V → Option D} {vs : List V} {v : V} {slot : D} {w : W}

/-- The variables in the list are the defined ones. -/
def Defines (ρ : V → Option D) (vs : List V) : Prop := ∀ v, (ρ v).isSome ↔ v ∈ vs

theorem Defines.mapM (h : Defines ρ vs) (args : List V) :
    (args.mapM ρ).isSome = args.all (· ∈ vs) := by
  rw [Bool.eq_iff_iff, mapM_isSome, List.all_eq_true]
  exact forall₂_congr fun v _ => (h v).trans (decide_eq_true_iff).symm

theorem Defines.update (h : Defines ρ vs) (v : V) (d : D) :
    Defines (Function.update ρ v (some d)) (v :: vs) := by
  intro u
  by_cases hu : u = v
  · simp [hu]
  · rw [Function.update_of_ne hu, h u]
    simp [hu]

theorem Defines.assign (h : Defines ρ vs) (dst : Option V) (d : D) :
    Defines (assign ρ dst d) (dst.toList ++ vs) := by
  cases dst with
  | none => exact h
  | some v => exact h.update v d

theorem defines_entry : Defines (entry v slot) [v] := by
  intro u
  by_cases hu : u = v
  · simp [entry, hu]
  · simp [entry, hu]

/-- Whether a run reads an undefined variable does not depend on what the statements compute. -/
theorem execute_isSome
    (hresume : ∀ ρ slot vs, Defines ρ vs → Defines (resume ρ slot) (after vs))
    (p : List (Stmt V O)) (envs : List (W → W)) (h : Defines ρ vs) :
    (execute sem resume ρ slot w envs p).isSome = definedFor after envs.length vs p := by
  induction p generalizing ρ vs slot w envs with
  | nil => rfl
  | cons stmt p ih =>
    cases stmt with
    | exec dst op args =>
      rw [execute, definedFor, ← h.mapM args]
      cases args.mapM ρ with
      | none => rfl
      | some xs => simpa using ih envs (h.assign dst _)
    | load dst => exact ih envs (h.update dst slot)
    | store src =>
      rw [execute, definedFor]
      have hsrc := h src
      cases hd : ρ src with
      | none =>
        have hno : src ∉ vs := fun hmem => by simpa [hd] using hsrc.mpr hmem
        simp [hno]
      | some d =>
        have hmem : src ∈ vs := hsrc.mp (by simp [hd])
        simpa [hmem] using ih envs h
    | wait op args =>
      cases envs with
      | nil =>
        rw [execute, List.length_nil, definedFor, ← h.mapM args]
        cases args.mapM ρ <;> rfl
      | cons env envs =>
        rw [execute, List.length_cons, definedFor, ← h.mapM args]
        cases args.mapM ρ with
        | none => rfl
        | some xs => simpa using ih envs (hresume ρ slot vs h)

theorem straightLine_isSome (p : List (Stmt V O)) (envs : List (W → W)) (h : Defines ρ vs) :
    (straightLine sem ρ slot w envs p).isSome = definedFor id envs.length vs p :=
  execute_isSome (fun _ _ _ hd => hd) p envs h

theorem suspended_isSome (p : List (Stmt V O)) (envs : List (W → W)) (h : Defines ρ vs) :
    (suspended sem v ρ slot w envs p).isSome = definedFor (fun _ => [v]) envs.length vs p :=
  execute_isSome (fun _ _ _ _ => defines_entry) p envs h

/-- The slot is loaded into `v` at every call, so the list `[v]` survives a wait. -/
theorem suspended_eq_straightLine (p : List (Stmt V O)) (envs : List (W → W)) {b : Bool}
    (hdef : definedFor (fun _ => [v]) envs.length vs p = true) (hsync : synced v b p = true)
    (hslot : b = true → ρ v = some slot) (hagree : ∀ u ∈ vs, ρ' u = ρ u) :
    suspended sem v ρ' slot w envs p = straightLine sem ρ slot w envs p := by
  unfold suspended straightLine
  induction p generalizing ρ ρ' vs slot w envs b with
  | nil => rfl
  | cons stmt p ih =>
    cases stmt with
    | exec dst op args =>
      simp only [definedFor, Bool.and_eq_true, List.all_eq_true, decide_eq_true_eq] at hdef
      rw [execute, execute, mapM_congr fun u hu => hagree u (hdef.1 u hu)]
      refine congrArg _ (funext fun xs => ?_)
      rw [ih envs hdef.2 hsync (fun hb => ?_) fun u hu => ?_]
      · simp only [Bool.and_eq_true, decide_eq_true_eq] at hb
        cases dst with
        | none => exact hslot hb.1
        | some x =>
          have hx : v ≠ x := fun heq => hb.2 (congrArg some heq.symm)
          exact (Function.update_of_ne hx _ _).trans (hslot hb.1)
      · cases dst with
        | none => exact hagree u hu
        | some x =>
          by_cases hux : u = x
          · simp [assign, hux]
          · simp only [assign, Function.update_of_ne hux]
            exact hagree u ((List.mem_cons.mp hu).resolve_left hux)
    | load dst =>
      refine ih envs hdef hsync (fun hb => ?_) fun u hu => ?_
      · by_cases hv : v = dst
        · simp [hv]
        · rw [Function.update_of_ne hv]
          simp only [Bool.or_eq_true, decide_eq_true_eq] at hb
          exact hslot (hb.resolve_right fun heq => hv heq.symm)
      · by_cases hud : u = dst
        · simp [hud]
        · rw [Function.update_of_ne hud, Function.update_of_ne hud]
          exact hagree u ((List.mem_cons.mp hu).resolve_left hud)
    | store src =>
      simp only [definedFor, Bool.and_eq_true, decide_eq_true_eq] at hdef
      rw [execute, execute, hagree src hdef.1]
      cases hd : ρ src with
      | none => rfl
      | some d =>
        refine ih envs hdef.2 hsync (fun hb => ?_) hagree
        rw [← decide_eq_true_eq.mp hb, hd]
    | wait op args =>
      simp only [synced, Bool.and_eq_true] at hsync
      cases envs with
      | nil =>
        simp only [List.length_nil, definedFor, List.all_eq_true, decide_eq_true_eq] at hdef
        rw [execute, execute, mapM_congr fun u hu => hagree u (hdef u hu)]
      | cons env envs =>
        simp only [List.length_cons, definedFor, Bool.and_eq_true, List.all_eq_true,
          decide_eq_true_eq] at hdef
        rw [execute, execute, mapM_congr fun u hu => hagree u (hdef.1 u hu)]
        refine congrArg _ (funext fun xs => ?_)
        rw [ih envs hdef.2 hsync.2 hslot fun u hu => ?_]
        rw [List.mem_singleton.mp hu, hslot hsync.1, entry, Function.update_self]

theorem suspended_eq_iff {p : List (Stmt V O)} (envs : List (W → W))
    (hstraight : definedFor id envs.length [v] p = true) (hsync : synced v true p = true) :
    suspended sem v (entry v slot) slot w envs p = straightLine sem (entry v slot) slot w envs p ↔
      definedFor (fun _ => [v]) envs.length [v] p = true := by
  constructor
  · intro heq
    have hsome : (suspended sem v (entry v slot) slot w envs p).isSome = true := by
      rw [heq, straightLine_isSome p envs defines_entry, hstraight]
    rwa [suspended_isSome p envs defines_entry] at hsome
  · intro hdef
    exact suspended_eq_straightLine p envs hdef hsync (fun _ => by simp [entry]) fun _ _ => rfl

end

end Cerverus.Suspension
