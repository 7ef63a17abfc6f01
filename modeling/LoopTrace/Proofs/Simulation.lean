import LoopTrace.Proofs.Handover

/-!
# The lowered trace does what the trace means

The machine is entered with the locals in their parameters, runs the prologue, and begins one
iteration after the other with a memory that goes with the environment of the trace
(`Course.Opens`). So it comes to the beginning of an iteration exactly if the trace does, and it
returns exactly if the trace is left, in the same iteration and by the same guard (`lower_refines`).
-/

namespace LoopTrace

variable {W V : Type} {M : Meaning W V}

namespace Course

open Job

variable {t : Trace} {settings : Settings} {c : Course t settings}

/-! ### An iteration -/

theorem goto_header (h : t.Lowerable) (m : Memory W V) (laps : Nat) :
    c.routine.goto c.layout.header m laps = .running (c.place c.afterBody m laps) := by
  rw [Layout.header_eq (loop_layout h)]
  exact goto_place (loop_layout (c := c) h ▸ List.suffix_refl _) m laps

/-- The moves, and the jump back. -/
theorem steps_moves (h : t.Lowerable) (m : Memory W V) (laps : Nat) :
    c.routine.Steps M (c.place c.afterMoves m laps)
      (c.place c.afterBody (M.performAll (Move.stepCode c.steps) m) (laps + 1)) := by
  have hmoves : c.routine.Steps M (c.place c.afterMoves m laps)
      ⟨⟨1⟩, [.jump (some c.layout.header)], M.performAll (Move.stepCode c.steps) m, laps⟩ :=
    Routine.steps_performAll straight_moves _ m laps
  exact hmoves.tail (goto_header h _ _)

/-- The bailout. -/
theorem steps_bailout {m : Memory W V} {site : ValueId}
    (htag : m.store (ofTrace t settings).tagSlot = M.constant (.guardSite site.index))
    (laps : Nat) : ∃ m', c.routine.Steps M ⟨Layout.bailoutId, c.layout.bailout, m, laps⟩ m' ∧
      c.routine.LeavesBy M m' ⟨site, m.frame⟩ m.world ∧ m'.laps = laps := by
  have hcalls : Layout.Straight [settings.abi.callStub .saveRegisters [],
      settings.abi.callStub .bailout [.slot (ofTrace t settings).tagSlot]] := by
    intro i hi
    simp only [List.mem_cons, List.not_mem_nil, or_false] at hi
    rcases hi with rfl | rfl <;> rfl
  have hsteps : c.routine.Steps M ⟨Layout.bailoutId, c.layout.bailout, m, laps⟩ _ :=
    Routine.steps_performAll hcalls Layout.bailoutId m laps
  refine ⟨_, hsteps, ⟨?_, rfl, ?_⟩, rfl⟩
  · exact congrArg Status.returned htag
  · simp only [Meaning.report, ← htag]
    rfl

/-- **An iteration that the trace runs through**, the machine runs through as well, and begins the
next one. -/
theorem run_through (ht : t.Closed) {filler : V} {m : Memory W V}
    {env env' : ValueId → V} {world : W} (ho : c.Opens filler m env)
    (hrun : t.runStream M t.body m.world env = .through world env') (laps : Nat) :
    ∃ m' : Memory W V, c.routine.Steps M (c.place c.afterBody m laps)
      (c.place c.afterBody m' (laps + 1)) ∧
      m'.world = world ∧ c.Opens filler m' (t.carry M env') := by
  have harrives := run_body (M := M) ht.accepted ht.lowerable ho.agrees laps
  rw [hrun] at harrives
  cases harrives with
  | @through m₁ env₁ steps agrees unwritten =>
    have hopens := ho.carry ht agrees unwritten hrun
    exact ⟨_, steps.trans (steps_moves ht.lowerable m₁ laps),
      (Move.performAll_stepCode c.steps m₁).1, hopens⟩

/-- An iteration in which the trace is left, the machine leaves as well. -/
theorem run_left (ht : t.Closed) {filler : V} {m : Memory W V} {env : ValueId → V}
    {exit : Trace.Exit V} {world : W} (ho : c.Opens filler m env)
    (hrun : t.runStream M t.body m.world env = .left exit world) (laps : Nat) :
    ∃ m', c.routine.Steps M (c.place c.afterBody m laps) m' ∧ c.routine.LeavesBy M m' exit world ∧
      m'.laps = laps := by
  have harrives := run_body (M := M) ht.accepted ht.lowerable ho.agrees laps
  rw [hrun] at harrives
  cases harrives with
  | left steps tag =>
    obtain ⟨m', hsteps, hleaves, hlaps⟩ := steps_bailout (c := c) tag laps
    exact ⟨m', steps.trans hsteps, hleaves, hlaps⟩

/-! ### The prologue -/

/-- The front once the instructions `post` at the end of the prologue have been passed. -/
def beforeIn (c : Course t settings) (post : List ValueId) : Front :=
  (ofTrace t settings).passAll c.beforePrologue post

/-- The code of the prologue does what the prologue means, which is never to leave. -/
theorem run_prologue (ht : t.Closed) {m : Memory W V} {env : ValueId → V}
    (hag : c.final.pool.Agrees m.store env) :
    ∃ env', t.runStream M t.prologue m.world env =
      .through (M.performAll c.final.code m).world env' ∧
      c.afterBody.pool.Agrees (M.performAll c.final.code m).store env' := by
  have hacc := ht.accepted
  revert m env
  -- from any point of the prologue on, by induction on what is left of it
  refine passAll_induction (j := ofTrace t settings) (f := c.beforePrologue) hacc
    t.stream_eq_prologue (ready_afterBody hacc)
    (P := fun post => ∀ {m : Memory W V} {env : ValueId → V},
      (c.beforeIn post).pool.Agrees m.store env → ∃ env',
        t.runStream M post m.world env =
          .through (M.performAll (c.beforeIn post).code m).world env' ∧
          c.afterBody.pool.Agrees (M.performAll (c.beforeIn post).code m).store env')
    (fun {m env} hag => ⟨env, rfl, hag⟩) ?_
  intro a id post he hs hready ih m env hag
  have hmem : id ∈ t.prologue := by rw [he]; simp
  have hguard := ht.lowerable.prologue id hmem
  obtain ⟨v, hp⟩ := hacc.stream _ _ _ hs
  have hv : t.get? id = some v := hp.value
  rw [Trace.runStream_cons hv fun _ _ _ _ _ he => hguard ⟨_, _, _, _, _, he ▸ hv⟩]
  cases hleaf : v.isLeaf with
  | true =>
    have hpass : c.beforeIn (id :: post) = c.beforeIn post :=
      pass_of_isLeaf (j := ofTrace t settings) hv hleaf
    rw [hpass] at hag ⊢
    rw [Trace.execute_of_isLeaf hleaf]
    exact ih hag
  | false =>
    have hid := ht.lowerable.spliced_prologue id hmem
    have hpass : c.beforeIn (id :: post) = _ := pass_plain (j := ofTrace t settings) hv hleaf hguard
    rw [hpass] at hag ⊢
    obtain ⟨hworld, hag'⟩ := performAll_plainCode (j := ofTrace t settings) (M := M) hready hacc hs
      hv hleaf hid hguard hag
    obtain ⟨env', hrun, hagrees⟩ := ih hag'
    rw [M.performAll_append]
    rw [hworld] at hrun
    exact ⟨env', hrun, hagrees⟩

/-- The parameters hold what is put into them. -/
theorem map_load_arguments (ht : t.Closed) (filler : V) (env : ValueId → V) (store : Slot → V) :
    c.parameters.flatten.map (Routine.load c.parameters.flatten (t.arguments filler env) store) =
      t.arguments filler env :=
  Routine.map_load (c.enters.nodup ht.distinct fun _ _ => rfl).1
    (c.enters.length_eq ht.accepted.entry filler env) store

/-- A store that holds the arguments in the parameters agrees with the environment. -/
theorem agrees_arguments (ht : t.Closed) {filler : V} {store : Slot → V} {env : ValueId → V}
    (hargs : c.parameters.flatten.map store = t.arguments filler env) :
    c.final.pool.Agrees store env := by
  intro u s hs
  obtain ⟨n, kind, flags, hv⟩ := bound_final ht.accepted hs
  have hcar : t.Carried u := by
    rcases (kept_final ht.accepted ht.lowerable).live hs with hcar | ⟨hused, -⟩
    · exact hcar
    · exact ht.contained u hused n kind flags hv
  obtain ⟨s', hs', -⟩ := c.enters.read hcar.1 hcar.2
  have hfinal := lookup_final ht.accepted (c.lookup_written_of_entered hs') ⟨_, hv, rfl⟩
  obtain rfl : s' = s := Option.some.inj (hfinal.symm.trans hs)
  exact c.enters.store_eq ht.accepted.entry hargs hcar.1 hcar.2 hs'

/-- The prologue comes to the beginning of the first iteration. -/
theorem opens_prologue (ht : t.Closed) {filler : V} {m : Memory W V} {env : ValueId → V}
    (hargs : c.parameters.flatten.map m.store = t.arguments filler env) :
    ∃ env', t.runStream M t.prologue m.world env =
      .through (M.performAll c.final.code m).world env' ∧
      c.Opens filler (M.performAll c.final.code m) env' := by
  obtain ⟨env', hrun, hag⟩ := run_prologue (M := M) ht (agrees_arguments ht hargs)
  refine ⟨env', hrun, hag, map_parameters ht hargs hag ?_ ?_⟩
  · intro id hid hr
    obtain ⟨n, kind, flags, hv⟩ := ht.accepted.entry id hid
    exact Trace.env_of_runStream hrun fun _ => ⟨_, hv, rfl⟩
  · intro s hs
    exact M.store_performAll fun i hi => hs i (List.mem_append_left _ hi)

theorem next?_prologueBlock (h : t.Lowerable) (hp : c.layout.prologue ≠ []) :
    c.routine.next? ⟨c.layout.loop.length + 1⟩ =
      some (c.layout.loopBlock c.afterBody.code c.afterBody.later) := by
  rw [Routine.next?, routine, Layout.blocks_routine, Layout.blocks, Layout.prologueBlocks_eq,
    if_neg hp, loop_layout h, Layout.loopBlocks_cons]
  simp [Layout.prologueBlock, loop_layout h]

/-- The machine comes through the prologue to the loop. -/
theorem steps_prologue (h : t.Lowerable) (arguments : List V) (store : Slot → V) (world : W) :
    ∃ m₀, c.routine.start arguments store world = .running m₀ ∧
      c.routine.Steps M m₀ (c.place c.afterBody
        (M.performAll c.final.code
          { store := Routine.load c.parameters.flatten arguments store, world }) 0) := by
  have hloop : c.layout.loop ≠ [] := by rw [loop_layout h]; exact List.cons_ne_nil _ _
  have hentry := c.layout.entry?_routine t.anchor c.parameters.flatten c.final.pool.next hloop
  have hstart : ∀ {id}, Routine.entry? c.routine = some id → c.routine.start arguments store world =
      c.routine.goto id { store := Routine.load c.parameters.flatten arguments store, world } 0 :=
      fun he => by
    rw [Routine.start, he]
    rfl
  by_cases hp : c.layout.prologue = []
  · rw [if_pos hp] at hentry
    have hnil : c.final.code = [] := hp
    refine ⟨_, (hstart hentry).trans (goto_header h _ _), ?_⟩
    rw [hnil]
    exact .refl
  · rw [if_neg hp] at hentry
    have hblock := c.layout.block?_prologueBlock t.anchor c.parameters.flatten c.final.pool.next hp
    have hgoto : ∀ m : Memory W V, c.routine.goto ⟨c.layout.loop.length + 1⟩ m 0 =
        .running ⟨⟨c.layout.loop.length + 1⟩, c.final.code ++ [], m, 0⟩ := fun m => by
      rw [Routine.goto, routine, hblock, List.append_nil]
      rfl
    refine ⟨_, (hstart hentry).trans (hgoto _), ?_⟩
    refine (Routine.steps_performAll (shaped_layout h).prologue _ _ _).tail ?_
    rw [Routine.step]
    dsimp only
    rw [next?_prologueBlock h hp]
    rfl

/-! ### Whole runs -/

/-- **The machine comes to every iteration that the trace comes to**, after as many jumps back. -/
theorem steps_atHead (ht : t.Closed) {filler : V} {store : Slot → V} {world : W} {env : ValueId → V}
    {m₀ : Machine W V}
    (hstart : c.routine.start (t.arguments filler env) store world = .running m₀) {n : Nat} {w : W}
    {e : ValueId → V} (hn : t.atHead M world env n = some (w, e)) :
    ∃ m : Memory W V, c.routine.Steps M m₀ (c.place c.afterBody m n) ∧ m.world = w ∧
      c.Opens filler m e := by
  induction n generalizing w e with
  | zero =>
    have hrun := Trace.atHead_zero_eq_some.1 hn
    obtain ⟨m₁, hstart', hsteps⟩ :=
      steps_prologue (M := M) ht.lowerable (t.arguments filler env) store world
    obtain rfl := Status.running.inj (hstart.symm.trans hstart')
    obtain ⟨env', hrun', hopens⟩ := opens_prologue (M := M) (m := { store := _, world }) ht
      (map_load_arguments (c := c) ht filler env store)
    obtain ⟨hworld, rfl⟩ := Trace.Passage.through.inj (hrun'.symm.trans hrun)
    exact ⟨_, hsteps, hworld, hopens⟩
  | succ n ih =>
    obtain ⟨w₁, e₁, e₂, hn₁, hrun, rfl⟩ := Trace.atHead_succ_eq_some.1 hn
    obtain ⟨m, hsteps, rfl, hopens⟩ := ih hn₁
    obtain ⟨m', hsteps', hworld, hopens'⟩ := run_through ht hopens hrun n
    exact ⟨m', hsteps.trans hsteps', hworld, hopens'⟩

/-- The beginning of the body is where the routine jumps back to. -/
theorem atLoopHead_place (h : t.Lowerable) (m : Memory W V) (laps : Nat) :
    c.routine.AtLoopHead (c.place c.afterBody m laps) := by
  refine ⟨?_, goto_place (loop_layout (c := c) h ▸ List.suffix_refl _) m laps⟩
  have hone : 1 ≤ c.layout.loop.length := by rw [loop_layout h]; exact Nat.le_add_left _ _
  obtain ⟨pre, code, rest, he, hlen⟩ := c.layout.exists_suffix (Nat.le_refl 1) hone
  obtain rfl : rest = [] := List.length_eq_zero_iff.1 (Nat.succ.inj hlen)
  refine ⟨c.layout.loopBlock code [], ?_, ?_⟩
  · rw [routine, Layout.blocks_routine]
    exact c.layout.mem_blocks.2 (Or.inr (Or.inl ⟨pre, code, [], he, rfl⟩))
  · have hhead : c.layout.header = ⟨c.afterBody.later.length + 1⟩ :=
      Layout.header_eq (loop_layout h)
    rw [Layout.loopBlock, if_pos rfl, hhead]
    exact List.mem_append_right _ List.mem_cons_self

/-- **The machine returns where the trace is left**, by the same guard and after as many jumps
back. -/
theorem steps_leavesIn (ht : t.Closed) {filler : V} {store : Slot → V} {world : W}
    {env : ValueId → V} {m₀ : Machine W V}
    (hstart : c.routine.start (t.arguments filler env) store world = .running m₀) {n : Nat}
    {exit : Trace.Exit V} {w : W} (hn : t.leavesIn M world env n = some (exit, w)) :
    ∃ m, c.routine.Steps M m₀ m ∧ c.routine.LeavesBy M m exit w ∧ m.laps = n := by
  obtain ⟨w₁, e, hhead, hrun⟩ := Trace.leavesIn_eq_some.1 hn
  obtain ⟨m, hsteps, rfl, hopens⟩ := steps_atHead ht hstart hhead
  obtain ⟨m', hsteps', hleaves, hlaps⟩ := run_left ht hopens hrun n
  exact ⟨m', hsteps.trans hsteps', hleaves, hlaps⟩

/-- **Where the machine comes to an end**, the trace is left. -/
theorem leavesIn_of_not_running (ht : t.Closed) {filler : V} {store : Slot → V} {world : W}
    {env : ValueId → V} {m₀ : Machine W V}
    (hstart : c.routine.start (t.arguments filler env) store world = .running m₀) {m : Machine W V}
    (hm : c.routine.Steps M m₀ m) (hend : ∀ m', c.routine.step M m ≠ .running m') :
    ∃ exit w, t.leavesIn M world env m.laps = some (exit, w) ∧ c.routine.LeavesBy M m exit w := by
  by_cases hleaves : ∃ n exit w, t.leavesIn M world env n = some (exit, w)
  · obtain ⟨n, exit, w, hn⟩ := hleaves
    obtain ⟨m', hsteps, hby, hlaps⟩ := steps_leavesIn ht hstart hn
    have hend' : ∀ m'', c.routine.step M m' ≠ .running m'' := by
      intro m'' he
      rw [hby.value] at he
      cases he
    obtain rfl : m = m' := by
      rcases hm.total hsteps with hs | hs
      · exact (hs.eq_of_not_running hend).symm
      · exact hs.eq_of_not_running hend'
    exact ⟨exit, w, hlaps ▸ hn, hby⟩
  · -- a trace that is never left has more iterations than the machine has made jumps
    have hnever : ∀ k, t.leavesIn M world env k = none := by
      intro k
      cases hk : t.leavesIn M world env k with
      | none => rfl
      | some p => exact absurd ⟨k, p.1, p.2, hk⟩ hleaves
    have hzero : ∃ w e, t.atHead M world env 0 = some (w, e) := by
      obtain ⟨env', hrun, -⟩ := opens_prologue (M := M) (m := { store := _, world }) ht
        (map_load_arguments (c := c) ht filler env store)
      exact ⟨_, _, Trace.atHead_zero_eq_some.2 hrun⟩
    obtain ⟨w, e, hn⟩ := Trace.exists_atHead hzero hnever (m.laps + 1)
    obtain ⟨m', hsteps, -, -⟩ := steps_atHead ht hstart hn
    rcases hm.total hsteps with hs | hs
    · have hlaps := congrArg Machine.laps (hs.eq_of_not_running hend)
      exact absurd hlaps (Nat.succ_ne_self m.laps)
    · exact absurd hs.laps_le (Nat.not_succ_le_self m.laps)

end Course

namespace Trace

open Course

/-- **The lowered trace does what the trace means.** For any meaning of operations, calls and
comparisons, and any world and environment to begin with, the machine can be entered with the locals
in its parameters. It comes to the head of its loop for every iteration that the trace comes to,
with the world of the trace and the values of the locals in the parameters; where the trace is left
it returns, by the same guard and with the same state of the interpreter, after as many iterations;
and it ends nowhere else. -/
theorem lower_refines (t : Trace) (settings : Settings) (hcheck : t.check = .ok ())
    (hnd : t.entry.Nodup) (hself : t.SelfContained) {r : Routine} (hr : t.lower settings = .ok r)
    {W V : Type} (M : Meaning W V) (world : W) (env : ValueId → V) (filler : V) (store : Slot → V) :
    ∃ m₀, r.start (t.arguments filler env) store world = .running m₀ ∧
      (∀ n w e, t.atHead M world env n = some (w, e) → ∃ m, r.Steps M m₀ m ∧ r.AtLoopHead m ∧
        m.laps = n ∧ m.memory.world = w ∧ r.parameters.map m.memory.store = t.arguments filler e) ∧
      (∀ n exit w, t.leavesIn M world env n = some (exit, w) →
        ∃ m, r.Steps M m₀ m ∧ r.LeavesBy M m exit w ∧ m.laps = n) ∧
      ∀ m, r.Steps M m₀ m → (∀ m', r.step M m ≠ .running m') →
        ∃ exit w, t.leavesIn M world env m.laps = some (exit, w) ∧ r.LeavesBy M m exit w := by
  obtain ⟨h, c, rfl⟩ := exists_course_of_lower hcheck hr
  have ht : t.Closed := ⟨check_eq_ok_iff.1 hcheck, h, hself, hnd⟩
  obtain ⟨m₀, hstart, -⟩ := c.steps_prologue (M := M) h (t.arguments filler env) store world
  refine ⟨m₀, hstart, ?_, ?_, ?_⟩
  · intro n w e hn
    obtain ⟨m, hsteps, hworld, hopens⟩ := steps_atHead ht hstart hn
    exact ⟨_, hsteps, atLoopHead_place h m n, rfl, hworld, hopens.arguments⟩
  · intro n exit w hn
    exact steps_leavesIn ht hstart hn
  · intro m hm hend
    exact leavesIn_of_not_running ht hstart hm hend

/-- A meaning by integers that can be subtracted and compared. The world is the list of calls, the
last one first. -/
def integers : Meaning (List Callee) Int where
  constant
    | .int n => n.toInt
    | .guardSite site => site
    | _ => 0
  undefined := 0
  operation
    | .intSub, world, [a, b] => (world, a - b)
    | _, world, _ => (world, 0)
  call callee world _ _ := (callee :: world, 0)
  holds
    | _, .equal, a, b => a = b
    | _, .notEqual, a, b => a ≠ b
    | _, .lessThan, a, b => a < b
    | _, .lessEqual, a, b => a ≤ b
    | _, .greaterThan, a, b => b < a
    | _, .greaterEqual, a, b => b ≤ a
  complement _ comparator a b := by
    rw [Bool.eq_iff_iff]
    cases comparator <;> simp [Comparator.complement]

theorem lower_refines_countdown : ∃ r m₀ m, countdown.lower {} = .ok r ∧
    r.start [3] (fun _ => 0) [] = .running m₀ ∧ r.Steps integers m₀ m ∧
      r.LeavesBy integers m ⟨⟨3⟩, some ⟨countdown.anchor, 7, [0], []⟩⟩ [] ∧ m.laps = 2 := by
  have hok : (countdown.lower {}).isOk = true := by decide +kernel
  obtain ⟨r, hr⟩ : ∃ r, countdown.lower {} = .ok r := by
    cases hr : countdown.lower {} with
    | ok r => exact ⟨r, rfl⟩
    | error e =>
      rw [hr] at hok
      cases hok
  obtain ⟨m₀, hstart, -, hleaves, -⟩ :=
    lower_refines countdown {} rfl (by decide) selfContained_countdown hr integers []
    (fun _ => 3) 0 fun _ => 0
  obtain ⟨m, hsteps, hby, hlaps⟩ := hleaves 2 ⟨⟨3⟩, some ⟨countdown.anchor, 7, [0], []⟩⟩ [] rfl
  exact ⟨r, m₀, m, hr, hstart, hsteps, hby, hlaps⟩

end Trace

end LoopTrace
