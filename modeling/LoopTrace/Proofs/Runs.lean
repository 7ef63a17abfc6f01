import LoopTrace.Code.Routine
import Mathlib.Logic.Function.Basic
import Mathlib.Logic.Relation

/-!
# Runs of traces and of routines

What a trace means, and what a routine does. Both are said for any meaning of the operations, the
calls and the comparisons: an operation or a call takes the world and the values of its operands,
and of its frame, to the world after it and a result.

A trace is run in an environment that gives each value of the arena what it stands for: the prologue
once, and the body again and again, until a guard does not hold. Between two iterations all locals
that are read take their new values at once. A routine is run by a machine, one instruction at a
time, on a store that gives each slot its contents.
-/

namespace LoopTrace

/-- A meaning of what traces and routines leave open. -/
structure Meaning (W V : Type) where
  constant : Constant → V
  /-- What untracked values stand for. -/
  undefined : V
  operation : Operation → W → List V → W × V
  call : Callee → W → List V → Option (Frame V) → W × V
  holds : Kind → Comparator → V → V → Bool
  /-- The complement of a comparison holds exactly when the comparison does not. -/
  complement : ∀ kind comparator a b, holds kind (Comparator.complement comparator) a b =
    !holds kind comparator a b

variable {W V : Type}

namespace Trace

/-- How a trace is left: by which guard, and in which state of the interpreter. -/
structure Exit (V : Type) where
  site : ValueId
  frame : Option (Frame V)

/-- What running instructions comes to. -/
inductive Passage (W V : Type) where
  /-- All of them have run. -/
  | through (world : W) (env : ValueId → V)
  /-- A guard did not hold. -/
  | left (exit : Exit V) (world : W)

variable (M : Meaning W V) (t : Trace)

/-- What a value stands for. -/
def value (env : ValueId → V) (u : ValueId) : V :=
  match t.get? u with
  | some (.constant c) => M.constant c
  | some .untracked => M.undefined
  | _ => env u

/-- Runs an instruction that is no guard. Leaves have nothing to run, and calls to be spliced in
have no meaning of their own. -/
def execute (id : ValueId) (world : W) (env : ValueId → V) : Value → W × (ValueId → V)
  | .operation op operands =>
    let (world, result) := M.operation op world (operands.map (t.value M env))
    (world, Function.update env id result)
  | .call method operands frame =>
    let (world, result) := M.call (.method method) world (operands.map (t.value M env))
      (frame.map (Frame.map (t.value M env)))
    (world, Function.update env id result)
  | _ => (world, env)

/-- Runs instructions one after another, up to the first guard that does not hold. -/
def runStream : List ValueId → W → (ValueId → V) → Passage W V
  | [], world, env => .through world env
  | id :: rest, world, env =>
    match t.get? id with
    | some (.guard kind comparator left right frame) =>
      if M.holds kind comparator (t.value M env left) (t.value M env right) then
        runStream rest world env
      else .left ⟨id, frame.map (Frame.map (t.value M env))⟩ world
    | some v =>
      let (world, env) := t.execute M id world env v
      runStream rest world env
    | none => runStream rest world env

/-- The environment of the next iteration: every local that is read holds its tail value, all others
what they held. A local whose tail value is not tracked stays as it is. -/
def carry (env : ValueId → V) : ValueId → V := fun u =>
  match (t.entry.zip t.tail).lookup u with
  | some s =>
    if (t.flags? u).any LocalFlags.read ∧ t.get? s ≠ some .untracked then t.value M env s else env u
  | none => env u

/-- The world and the environment at the beginning of an iteration, counted from zero, if it is
reached. -/
def atHead (world : W) (env : ValueId → V) : Nat → Option (W × (ValueId → V))
  | 0 =>
    match t.runStream M t.prologue world env with
    | .through world env => some (world, env)
    | .left _ _ => none
  | n + 1 =>
    match atHead world env n with
    | some (world, env) =>
      match t.runStream M t.body world env with
      | .through world env => some (world, t.carry M env)
      | .left _ _ => none
    | none => none

/-- How the trace is left in an iteration, and the world then, if it is. -/
def leavesIn (world : W) (env : ValueId → V) (n : Nat) : Option (Exit V × W) :=
  match t.atHead M world env n with
  | some (world, env) =>
    match t.runStream M t.body world env with
    | .through _ _ => none
    | .left exit world => some (exit, world)
  | none => none

/-- How many places the interpreter keeps a local in. -/
def fillers (filler : V) (id : ValueId) : List V :=
  match t.get? id with
  | some v => if v.kind.isWide then [filler] else []
  | none => []

/-- What is handed to a routine: each local that lives on entry, wide ones with one more place. -/
def arguments (filler : V) (env : ValueId → V) : List V :=
  t.entry.flatMap fun id => env id :: t.fillers filler id

end Trace

/-! ### The machine -/

/-- What the instructions of a routine work on. -/
structure Memory (W V : Type) where
  store : Slot → V
  world : W
  /-- The state of the interpreter at the last guardpoint. -/
  frame : Option (Frame V) := none

/-- Where a machine stands in a routine. -/
structure Machine (W V : Type) where
  block : BlockId
  /-- The instructions of the block that are still to run. -/
  code : List Instruction
  memory : Memory W V
  /-- How often control has jumped back. -/
  laps : Nat

/-- What one step of a machine comes to. -/
inductive Status (W V : Type) where
  | running (m : Machine W V)
  | returned (value : V)
  /-- There is nowhere to go. -/
  | stuck

namespace Meaning

variable (M : Meaning W V)

/-- The value of an operand. -/
def operand (store : Slot → V) : Operand → V
  | .slot s => store s
  | .immediate c => M.constant c
  | .undefined => M.undefined

/-- The store once a result is in its slot, if it has one. -/
def put (store : Slot → V) : Option Slot → V → Slot → V
  | some s, result => Function.update store s result
  | none, _ => store

/-- Performs an instruction that does not end a block. -/
def perform : Instruction → Memory W V → Memory W V
  | .assign destination source, m =>
    { m with store := Function.update m.store destination (M.operand m.store source) }
  | .operate result op operands, m =>
    let (world, value) := M.operation op m.world (operands.map (M.operand m.store))
    { m with world, store := put m.store result value }
  | .call result callee _ operands frame, m =>
    let (world, value) := M.call callee m.world (operands.map (M.operand m.store))
      (frame.map (Frame.map (M.operand m.store)))
    { m with world, store := put m.store result value }
  | .guardpoint frame, m => { m with frame := frame.map (Frame.map (M.operand m.store)) }
  | _, m => m

/-- Performs instructions one after another. -/
def performAll (code : List Instruction) (m : Memory W V) : Memory W V :=
  code.foldl (fun m i => M.perform i m) m

/-- Where a branch goes. -/
def target (store : Slot → V) (kind : Kind) (comparator : Comparator) (tag : Operand)
    (candidates : List Operand) (targets : List BlockId) (otherwise : BlockId) : BlockId :=
  match (candidates.zip targets).find? fun (candidate, _) =>
      M.holds kind comparator (M.operand store tag) (M.operand store candidate) with
  | some (_, target) => target
  | none => otherwise

/-- The world once the runtime has been told which guard does not hold. -/
def report (world : W) (site : ValueId) : W :=
  let (world, _) := M.call (.stub .saveRegisters) world [] none
  (M.call (.stub .bailout) world [M.constant (.guardSite site.index)] none).1

end Meaning

namespace Routine

variable (M : Meaning W V) (r : Routine)

/-- The block that comes after another in execution order. -/
def next? (id : BlockId) : Option Block := ((r.blocks.dropWhile fun b => b.id ≠ id).tail).head?

/-- Control goes to a block. -/
def goto (id : BlockId) (m : Memory W V) (laps : Nat) : Status W V :=
  match r.block? id with
  | some b => .running ⟨id, b.code, m, laps⟩
  | none => .stuck

/-- The store once values have been put into slots, one after another. -/
def load (slots : List Slot) (values : List V) (store : Slot → V) : Slot → V :=
  (slots.zip values).foldl (fun store (slot, value) => Function.update store slot value) store

/-- The machine enters the routine with its arguments. -/
def start (arguments : List V) (store : Slot → V) (world : W) : Status W V :=
  match r.entry? with
  | some id => r.goto id { store := load r.parameters arguments store, world } 0
  | none => .stuck

/-- One step of the machine. At the end of a block without a terminator control falls into the next
block. -/
def step (m : Machine W V) : Status W V :=
  match m.code with
  | [] =>
    match r.next? m.block with
    | some b => .running ⟨b.id, b.code, m.memory, m.laps⟩
    | none => .stuck
  | .branch kind comparator tag candidates targets otherwise :: _ =>
    r.goto (M.target m.memory.store kind comparator tag candidates targets otherwise)
      m.memory m.laps
  | .jump (some target) :: _ => r.goto target m.memory (m.laps + 1)
  | .jump none :: _ => .stuck
  | .leave value :: _ => .returned (M.operand m.memory.store value)
  | i :: rest => .running { m with code := rest, memory := M.perform i m.memory }

/-- The machine gets from one place to another. -/
def Steps : Machine W V → Machine W V → Prop :=
  Relation.ReflTransGen fun m m' => r.step M m = .running m'

/-- Control has just come to a block that the routine jumps back to. -/
def AtLoopHead (m : Machine W V) : Prop :=
  (∃ b ∈ r.blocks, Instruction.jump (some m.block) ∈ b.code) ∧
    r.goto m.block m.memory m.laps = .running m

/-- The machine is about to return the tag of the guard by which a trace is left, the state of the
interpreter is that of the trace, and the runtime has been told. -/
structure LeavesBy (m : Machine W V) (exit : Trace.Exit V) (world : W) : Prop where
  value : r.step M m = .returned (M.constant (.guardSite exit.site.index))
  frame : m.memory.frame = exit.frame
  world : m.memory.world = M.report world exit.site

end Routine

/-! ### Runs of streams -/

namespace Trace

variable {M : Meaning W V} {t : Trace} {id : ValueId}

theorem runStream_cons {v : Value} (hv : t.get? id = some v)
    (hguard : ∀ kind comparator left right frame, v ≠ .guard kind comparator left right frame)
    (rest : List ValueId) (world : W) (env : ValueId → V) :
    t.runStream M (id :: rest) world env =
      t.runStream M rest (t.execute M id world env v).1 (t.execute M id world env v).2 := by
  rw [runStream, hv]
  cases v with
  | guard kind comparator left right frame => exact absurd rfl (hguard _ _ _ _ _)
  | _ => rfl

theorem runStream_guard {kind : Kind} {comparator : Comparator} {left right : ValueId}
    {frame : Option (Frame ValueId)}
    (hv : t.get? id = some (.guard kind comparator left right frame)) (rest : List ValueId)
    (world : W) (env : ValueId → V) :
    t.runStream M (id :: rest) world env =
      if M.holds kind comparator (t.value M env left) (t.value M env right) then
        t.runStream M rest world env
      else .left ⟨id, frame.map (Frame.map (t.value M env))⟩ world := by
  rw [runStream, hv]

theorem execute_of_isLeaf {v : Value} (hleaf : v.isLeaf = true) (world : W) (env : ValueId → V) :
    t.execute M id world env v = (world, env) := by
  cases v <;> first | rfl | cases hleaf

/-- An instruction changes at most what it stands for itself, and leaves change nothing. -/
theorem execute_of_ne {v : Value} {world : W} {env : ValueId → V} {u : ValueId}
    (hu : u = id → v.isLeaf = true) : (t.execute M id world env v).2 u = env u := by
  cases v with
  | operation op operands =>
    have hne : u ≠ id := fun he => by cases hu he
    exact Function.update_of_ne hne _ _
  | call method operands frame =>
    have hne : u ≠ id := fun he => by cases hu he
    exact Function.update_of_ne hne _ _
  | _ => rfl

/-- A stream leaves alone what it does not define. -/
theorem env_of_runStream {ids : List ValueId} {world world' : W} {env env' : ValueId → V}
    (h : t.runStream M ids world env = .through world' env') {u : ValueId}
    (hu : u ∈ ids → ∃ v, t.get? u = some v ∧ v.isLeaf = true) : env' u = env u := by
  induction ids generalizing world env with
  | nil =>
    obtain ⟨-, rfl⟩ := Passage.through.inj h
    rfl
  | cons id ids ih =>
    have hu' : u ∈ ids → ∃ v, t.get? u = some v ∧ v.isLeaf = true :=
      fun h => hu (List.mem_cons_of_mem _ h)
    cases hv : t.get? id with
    | none =>
      rw [runStream, hv] at h
      exact ih h hu'
    | some v =>
      by_cases hguard :
        ∃ kind comparator left right frame, v = .guard kind comparator left right frame
      · obtain ⟨kind, comparator, left, right, frame, rfl⟩ := hguard
        rw [runStream_guard hv] at h
        split at h
        · exact ih h hu'
        · cases h
      · rw [runStream_cons hv fun kind comparator left right frame he =>
          hguard ⟨_, _, _, _, _, he⟩] at h
        refine (ih h hu').trans (execute_of_ne fun he => ?_)
        obtain ⟨w, hw, hleaf⟩ := hu (he ▸ List.mem_cons_self)
        rw [he, hv] at hw
        exact Option.some.inj hw ▸ hleaf

/-! ### Iterations -/

section Iterations

variable {world w' : W} {env e' : ValueId → V} {n : Nat}

theorem atHead_zero_eq_some :
    t.atHead M world env 0 = some (w', e') ↔
      t.runStream M t.prologue world env = .through w' e' := by
  rw [atHead]
  cases t.runStream M t.prologue world env <;> simp

theorem atHead_succ_eq_some : t.atHead M world env (n + 1) = some (w', e') ↔
    ∃ w e e₁, t.atHead M world env n = some (w, e) ∧ t.runStream M t.body w e = .through w' e₁ ∧
      t.carry M e₁ = e' := by
  rw [atHead]
  constructor
  · intro h
    split at h
    · next w e hn =>
      split at h
      · next w₁ e₁ hrun =>
        obtain ⟨rfl, rfl⟩ := Prod.mk.inj (Option.some.inj h)
        exact ⟨w, e, e₁, hn, hrun, rfl⟩
      · cases h
    · cases h
  · rintro ⟨w, e, e₁, hn, hrun, rfl⟩
    simp only [hn, hrun]

theorem leavesIn_eq_some {exit : Exit V} : t.leavesIn M world env n = some (exit, w') ↔
    ∃ w e, t.atHead M world env n = some (w, e) ∧ t.runStream M t.body w e = .left exit w' := by
  rw [leavesIn]
  constructor
  · intro h
    split at h
    · next w e hn =>
      split at h
      · cases h
      · next exit₁ w₁ hrun =>
        obtain ⟨rfl, rfl⟩ := Prod.mk.inj (Option.some.inj h)
        exact ⟨w, e, hn, hrun⟩
    · cases h
  · rintro ⟨w, e, hn, hrun⟩
    simp only [hn, hrun]

/-- A trace that comes to its loop and is never left comes to every iteration. -/
theorem exists_atHead (hzero : ∃ w e, t.atHead M world env 0 = some (w, e))
    (hnever : ∀ k, t.leavesIn M world env k = none) (n : Nat) :
    ∃ w e, t.atHead M world env n = some (w, e) := by
  induction n with
  | zero => exact hzero
  | succ n ih =>
    obtain ⟨w, e, hn⟩ := ih
    cases hrun : t.runStream M t.body w e with
    | through w₁ e₁ => exact ⟨w₁, _, atHead_succ_eq_some.2 ⟨w, e, e₁, hn, hrun, rfl⟩⟩
    | left exit w₁ =>
      have hleaves := leavesIn_eq_some.2 ⟨w, e, hn, hrun⟩
      rw [hnever n] at hleaves
      cases hleaves

end Iterations

end Trace

/-! ### Runs of straight code -/

section Straight

variable (M : Meaning W V) {m : Memory W V}

theorem Meaning.performAll_append (code code' : List Instruction) (m : Memory W V) :
    M.performAll (code ++ code') m = M.performAll code' (M.performAll code m) := List.foldl_append

/-- A slot that an instruction does not write keeps its contents. -/
theorem Meaning.store_perform {i : Instruction} {s : Slot} (h : i.writes ≠ some s) :
    (M.perform i m).store s = m.store s := by
  have hput : ∀ {result : Option Slot} {value : V}, result ≠ some s →
      Meaning.put m.store result value s = m.store s := by
    intro result value hr
    cases result with
    | none => rfl
    | some d => exact Function.update_of_ne (fun he => hr (congrArg some he.symm)) _ _
  cases i with
  | assign destination source =>
    exact Function.update_of_ne (fun he => h (congrArg some he.symm)) _ _
  | operate result op operands => exact hput h
  | call result callee convention operands frame => exact hput h
  | _ => rfl

theorem Meaning.store_performAll {code : List Instruction} {s : Slot}
    (h : ∀ i ∈ code, i.writes ≠ some s) : (M.performAll code m).store s = m.store s := by
  induction code generalizing m with
  | nil => rfl
  | cons i code ih =>
    have hi := M.store_perform (m := m) (h i List.mem_cons_self)
    exact (ih fun k hk => h k (List.mem_cons_of_mem _ hk)).trans hi

variable {M} {r : Routine}

/-- Code without terminators is performed one instruction after another. -/
theorem Routine.steps_performAll {code rest : List Instruction}
    (h : ∀ i ∈ code, i.isTerminator = false) (id : BlockId) (m : Memory W V) (laps : Nat) :
    r.Steps M ⟨id, code ++ rest, m, laps⟩ ⟨id, rest, M.performAll code m, laps⟩ := by
  induction code generalizing m with
  | nil => exact .refl
  | cons i code ih =>
    have hi := h i List.mem_cons_self
    have hstep : r.step M ⟨id, i :: (code ++ rest), m, laps⟩ =
        .running ⟨id, code ++ rest, M.perform i m, laps⟩ := by
      cases i with
      | branch => cases hi
      | jump => cases hi
      | leave => cases hi
      | _ => rfl
    exact .head hstep (ih (fun k hk => h k (List.mem_cons_of_mem _ hk)) (M.perform i m))

/-- A machine has one way to go, so of two places that it gets to one comes after the other. -/
theorem Routine.Steps.total {m m₁ m₂ : Machine W V} (h₁ : r.Steps M m m₁) (h₂ : r.Steps M m m₂) :
    r.Steps M m₁ m₂ ∨ r.Steps M m₂ m₁ := by
  refine Relation.ReflTransGen.total_of_right_unique ?_ h₁ h₂
  intro a b c hb hc
  rw [hb] at hc
  exact Status.running.inj hc

/-- Where a machine has come to the end it stays. -/
theorem Routine.Steps.eq_of_not_running {m m' : Machine W V} (h : r.Steps M m m')
    (hm : ∀ m'', r.step M m ≠ .running m'') : m' = m := by
  rcases Relation.ReflTransGen.cases_head h with he | ⟨m'', hs, -⟩
  · exact he.symm
  · exact absurd hs (hm m'')

/-- The laps of a machine only grow. -/
theorem Routine.Steps.laps_le {m m' : Machine W V} (h : r.Steps M m m') : m.laps ≤ m'.laps := by
  induction h with
  | refl => exact Nat.le_refl _
  | @tail a b _ hs ih =>
    refine Nat.le_trans ih ?_
    have hgoto : ∀ {id : BlockId} {m : Memory W V} {laps : Nat}, r.goto id m laps = .running b →
        b.laps = laps := by
      intro id m laps hg
      rw [Routine.goto] at hg
      split at hg
      · cases hg
        rfl
      · cases hg
    rw [Routine.step] at hs
    split at hs
    · split at hs
      · cases hs
        exact Nat.le_refl _
      · cases hs
    · exact Nat.le_of_eq (hgoto hs).symm
    · rw [hgoto hs]
      exact Nat.le_succ _
    · cases hs
    · cases hs
    · cases hs
      exact Nat.le_refl _

end Straight

end LoopTrace
