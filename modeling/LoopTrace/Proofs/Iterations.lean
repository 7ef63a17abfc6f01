import LoopTrace.Proofs.Agreement
import LoopTrace.Proofs.Transfers
import LoopTrace.Proofs.Untouched

/-!
# One iteration of a lowered trace

From the beginning of an iteration the machine runs the code of the body as the body is run: it
comes to the moves with a store that agrees with the environment, or to the bailout, with the guard
that does not hold and the state of the interpreter there. The moves then set the locals to their
new values all at once, and the jump back finds a store that agrees with the next environment.
-/

namespace LoopTrace

variable {W V : Type} {M : Meaning W V}

namespace Job

variable {j : Job}

/-- The blocks that have been closed stay as they are. -/
theorem later_pass_suffix (f : Front) (id : ValueId) : f.later <:+ (j.pass f id).later := by
  rw [pass]
  cases j.trace.get? id with
  | none => exact List.suffix_refl _
  | some v =>
    cases v with
    | guard kind comparator left right frame => exact List.suffix_cons _ _
    | constant c => exact List.suffix_refl _
    | atEntry n kind flags => exact List.suffix_refl _
    | untracked => exact List.suffix_refl _
    | _ => exact List.suffix_refl _

theorem later_passAll_suffix (f : Front) (ids : List ValueId) :
    f.later <:+ (j.passAll f ids).later := by
  induction ids with
  | nil => exact List.suffix_refl _
  | cons id ids ih => exact ih.trans (later_pass_suffix _ id)

/-- The code of an instruction goes in front of what there is. -/
theorem straight_pass_suffix (f : Front) (id : ValueId) :
    f.straight <:+ (j.pass f id).straight := by
  cases hv : j.trace.get? id with
  | none =>
    have hpass : j.pass f id = f := by rw [pass, hv]
    simp only [hpass, List.suffix_refl]
  | some v =>
    cases hleaf : v.isLeaf with
    | true =>
      have hpass : j.pass f id = f := pass_of_isLeaf hv hleaf
      simp only [hpass, List.suffix_refl]
    | false =>
      rw [straight_pass hv hleaf]
      exact List.suffix_append _ _

theorem straight_passAll_suffix (f : Front) (ids : List ValueId) :
    f.straight <:+ (j.passAll f ids).straight := by
  induction ids with
  | nil => exact List.suffix_refl _
  | cons id ids ih => exact ih.trans (straight_pass_suffix _ id)

end Job

namespace Course

open Job

variable {t : Trace} {settings : Settings} (c : Course t settings)

/-- The front once the instructions `post` at the end of the body have been passed. -/
def before (post : List ValueId) : Front := (ofTrace t settings).passAll c.afterMoves post

/-- The code of the block that is being filled, once it is complete. -/
def blockCode (f : Front) : List Instruction :=
  if f.later = [] then f.code ++ [.jump (some c.layout.header)] else f.code

/-- The machine stands before the code of a front. -/
def place (f : Front) (m : Memory W V) (laps : Nat) : Machine W V :=
  ⟨⟨f.later.length + 1⟩, c.blockCode f, m, laps⟩

variable {c}

/-- The blocks of the loop are those that the body leaves. -/
theorem loop_layout (h : t.Lowerable) : c.layout.loop = c.afterBody.code :: c.afterBody.later :=
  (straight_passAll (j := ofTrace t settings) c.beforePrologue h.prologue fun _ hi =>
    absurd hi List.not_mem_nil).2

/-- The block that has been closed at some point of the body is a block of the routine. -/
theorem block?_place {f : Front} (hf : f.code :: f.later <:+ c.layout.loop) :
    c.routine.block? ⟨f.later.length + 1⟩ = some (c.layout.loopBlock f.code f.later) := by
  obtain ⟨pre, he⟩ := hf
  exact Layout.block?_loopBlock _ _ _ he.symm

theorem goto_place {f : Front} (hf : f.code :: f.later <:+ c.layout.loop) (m : Memory W V)
    (laps : Nat) : c.routine.goto ⟨f.later.length + 1⟩ m laps = .running (c.place f m laps) := by
  rw [Routine.goto, block?_place hf]
  rfl

/-! ### The body -/

/-- Where the machine gets to when the body is run from some point on. -/
inductive Arrives (c : Course t settings) (M : Meaning W V) (post : List ValueId) (m : Memory W V)
    (laps : Nat) : Trace.Passage W V → Prop where
  /-- It comes to the moves. -/
  | through {m' : Memory W V} {env' : ValueId → V}
      (steps : c.routine.Steps M (c.place (c.before post) m laps) (c.place c.afterMoves m' laps))
      (agrees : c.written.Agrees m'.store env')
      (unwritten : ∀ {s}, (∀ i ∈ (c.before post).straight, i.writes ≠ some s) →
        m'.store s = m.store s) :
      Arrives c M post m laps (.through m'.world env')
  /-- It comes to the bailout. -/
  | left {m' : Memory W V} {site : ValueId}
      (steps : c.routine.Steps M (c.place (c.before post) m laps)
        ⟨Layout.bailoutId, c.layout.bailout, m', laps⟩)
      (tag : m'.store (ofTrace t settings).tagSlot = M.constant (.guardSite site.index)) :
      Arrives c M post m laps (.left ⟨site, m'.frame⟩ m'.world)

theorem Arrives.after {post post' : List ValueId} {m m₁ : Memory W V} {laps : Nat}
    {passage : Trace.Passage W V} (hsteps : c.routine.Steps M (c.place (c.before post) m laps)
      (c.place (c.before post') m₁ laps))
    (hsub : ∀ i ∈ (c.before post').straight, i ∈ (c.before post).straight)
    (hunwritten : ∀ {s}, (∀ i ∈ (c.before post).straight, i.writes ≠ some s) →
      m₁.store s = m.store s)
    (h : c.Arrives M post' m₁ laps passage) : c.Arrives M post m laps passage := by
  cases h with
  | through steps agrees unwritten =>
    refine .through (hsteps.trans steps) agrees fun {s} hs => ?_
    exact (unwritten fun i hi => hs i (hsub i hi)).trans (hunwritten hs)
  | left steps tag => exact .left (hsteps.trans steps) tag

theorem before_cons (id : ValueId) (post : List ValueId) :
    c.before (id :: post) = (ofTrace t settings).pass (c.before post) id := rfl

/-- The code of a block goes on with what follows in it. -/
theorem place_prepend (f : Front) (p : Pool) (code : List Instruction) (m : Memory W V)
    (laps : Nat) :
    c.place ⟨p, code ++ f.code, f.later⟩ m laps =
      ⟨⟨f.later.length + 1⟩, code ++ c.blockCode f, m, laps⟩ := by
  rw [place, blockCode, blockCode]
  split
  · rw [List.append_assoc]
  · rfl

/-- An operation or a call of the body. -/
theorem run_plain (hacc : t.Accepted) {f : Front} {id : ValueId} {v : Trace.Value}
    {pre rest : List ValueId} (hs : t.stream = pre ++ id :: rest)
    (hready : (ofTrace t settings).Ready rest f.pool) (hv : t.get? id = some v)
    (hleaf : v.isLeaf = false) (hid : ¬ t.Inlines id) (hguard : ¬ t.Guards id) {m : Memory W V}
    {env : ValueId → V} (hag : ((ofTrace t settings).pass f id).pool.Agrees m.store env)
    (laps : Nat) :
    ∃ m₁ : Memory W V, c.routine.Steps M (c.place ((ofTrace t settings).pass f id) m laps)
      (c.place f m₁ laps) ∧
      m₁.world = (t.execute M id m.world env v).1 ∧
        f.pool.Agrees m₁.store (t.execute M id m.world env v).2 ∧
      ∀ {s}, (∀ i ∈ ((ofTrace t settings).pass f id).straight, i.writes ≠ some s) →
        m₁.store s = m.store s := by
  rw [pass_plain (j := ofTrace t settings) hv hleaf hguard] at hag ⊢
  obtain ⟨hworld, hag'⟩ := performAll_plainCode (j := ofTrace t settings) (M := M) hready hacc hs hv
    hleaf hid hguard hag
  refine ⟨_, ?_, hworld, hag', fun {s} hw => M.store_performAll fun i hi => hw i ?_⟩
  · rw [place_prepend]
    exact Routine.steps_performAll (straight_plainCode _ _ _) _ _ _
  · exact List.mem_append_left _ (List.mem_append_left _ hi)

/-- A guard of the body. -/
theorem run_guard (hacc : t.Accepted) {f : Front} {id : ValueId} {pre rest : List ValueId}
    (hs : t.stream = pre ++ id :: rest) (hready : (ofTrace t settings).Ready rest f.pool)
    (htag : f.pool.Reserved (ofTrace t settings).tagSlot)
    (hsuffix : f.code :: f.later <:+ c.layout.loop) {kind : Kind} {comparator : Comparator}
    {left right : ValueId} {frame : Option (Frame ValueId)}
    (hv : t.get? id = some (.guard kind comparator left right frame)) {m : Memory W V}
    {env : ValueId → V} (hag : ((ofTrace t settings).pass f id).pool.Agrees m.store env)
    (laps : Nat) : ∃ m₁ : Memory W V, m₁.world = m.world ∧
      (M.holds kind comparator (t.value M env left) (t.value M env right) = true →
        c.routine.Steps M (c.place ((ofTrace t settings).pass f id) m laps) (c.place f m₁ laps) ∧
          f.pool.Agrees m₁.store env ∧
          ∀ {s}, (∀ i ∈ ((ofTrace t settings).pass f id).straight, i.writes ≠ some s) →
            m₁.store s = m.store s) ∧
      (M.holds kind comparator (t.value M env left) (t.value M env right) = false →
        c.routine.Steps M (c.place ((ofTrace t settings).pass f id) m laps)
            ⟨Layout.bailoutId, c.layout.bailout, m₁, laps⟩ ∧
          m₁.frame = frame.map (Frame.map (t.value M env)) ∧
          m₁.store (ofTrace t settings).tagSlot = M.constant (.guardSite id.index)) := by
  rw [pass_guard (j := ofTrace t settings) hv] at hag ⊢
  generalize hq : (ofTrace t settings).taken f.pool id
    (.guard kind comparator left right frame) = q at hag ⊢
  obtain ⟨hworld, hframe, htagged, hag', htarget⟩ := performAll_exitSetup (j := ofTrace t settings)
    (M := M) hready hacc hs hv htag hq.symm hag (f.later.length + 1)
  have hsetup : Layout.Straight (exitSetup q id frame (ofTrace t settings)) := by
    intro i hi
    simp only [exitSetup, List.mem_cons, List.not_mem_nil, or_false] at hi
    rcases hi with rfl | rfl <;> rfl
  -- the exit is performed up to its branch, which goes to one of two blocks
  have hsteps : c.routine.Steps M
      (c.place ⟨q, (ofTrace t settings).exitCode q id kind comparator left right frame
      (f.later.length + 1),
        f.code :: f.later⟩ m laps)
      ⟨⟨f.later.length + 2⟩, [.branch kind comparator.complement
        ((ofTrace t settings).operand q left)
        [(ofTrace t settings).operand q right] [Layout.bailoutId] ⟨f.later.length + 1⟩],
        M.performAll (exitSetup q id frame (ofTrace t settings)) m, laps⟩ :=
    Routine.steps_performAll hsetup _ m laps
  refine ⟨_, hworld, fun hholds => ?_, fun hfails => ?_⟩
  · have htarget := htarget.trans (if_pos hholds)
    refine ⟨hsteps.tail ?_, hag', fun {s} hw => M.store_performAll fun i hi => hw i ?_⟩
    · show c.routine.goto (M.target _ _ _ _ _ _ _) _ _ = _
      rw [htarget]
      exact goto_place hsuffix _ _
    · refine List.mem_append_left _ ?_
      rw [exitCode_eq]
      exact List.mem_append_left _ hi
  · have htarget := htarget.trans (if_neg (Bool.eq_false_iff.1 hfails))
    refine ⟨hsteps.tail ?_, hframe, htagged⟩
    show c.routine.goto (M.target _ _ _ _ _ _ _) _ _ = _
    rw [htarget, Routine.goto, routine, Layout.block?_bailoutBlock]
    rfl

/-- A block that a guard of the body closes is a block of the loop. -/
theorem suffix_before (h : t.Lowerable) {pre post : List ValueId} {id : ValueId}
    (he : t.body = pre ++ id :: post) (hguard : t.Guards id) :
    (c.before post).code :: (c.before post).later <:+ c.layout.loop := by
  obtain ⟨kind, comparator, left, right, frame, hv⟩ := hguard
  have hlater : (c.before (id :: post)).later = (c.before post).code :: (c.before post).later := by
    rw [before_cons, pass_guard (j := ofTrace t settings) hv]
  have hall : (ofTrace t settings).passAll (c.before (id :: post)) pre = c.afterBody := by
    rw [before, ← passAll_append, ← he]
    rfl
  have hsuffix := later_passAll_suffix (j := ofTrace t settings) (c.before (id :: post)) pre
  rw [hall, hlater] at hsuffix
  rw [loop_layout h]
  exact hsuffix.trans (List.suffix_cons _ _)

/-- **The code of the body does what the body means.** -/
theorem run_body (hacc : t.Accepted) (h : t.Lowerable) {m : Memory W V} {env : ValueId → V}
    (hag : c.afterBody.pool.Agrees m.store env) (laps : Nat) :
    c.Arrives M t.body m laps (t.runStream M t.body m.world env) := by
  revert m env
  -- from any point of the body on, by induction on what is left of it
  refine passAll_induction (j := ofTrace t settings) hacc t.stream_eq_body (c.ready_afterMoves hacc)
    (P := fun post => ∀ {m : Memory W V} {env : ValueId → V}, (c.before post).pool.Agrees
    m.store env →
      c.Arrives M post m laps (t.runStream M post m.world env))
      (fun hag => .through .refl hag fun _ => rfl) ?_
  intro a id post he hs hready ih m env hag
  have hsub : ∀ i ∈ (c.before post).straight, i ∈ (c.before (id :: post)).straight :=
    fun i hi => (straight_pass_suffix (j := ofTrace t settings) _ id).subset hi
  obtain ⟨v, hp⟩ := hacc.stream _ _ _ hs
  have hv : t.get? id = some v := hp.value
  by_cases hguard : t.Guards id
  · obtain ⟨kind, comparator, left, right, frame, hg⟩ := hguard
    have hs' : t.stream = (t.prologue ++ a ++ [id]) ++ post ++ [] := by
      rw [t.stream_eq_body, he]; simp
    have htag := reserved_passAll (j := ofTrace t settings) hacc hs' (c.ready_afterMoves hacc)
      c.kept_afterMoves.tag
    obtain ⟨m₁, hworld, hholds, hfails⟩ :=
      run_guard hacc hs hready htag (suffix_before h he ⟨_, _, _, _, _, hg⟩) hg hag laps
    rw [Trace.runStream_guard hg, ← hworld]
    split
    · next hb =>
      obtain ⟨hsteps, hag₁, hun⟩ := hholds hb
      exact (ih hag₁).after hsteps hsub hun
    · next hb =>
      obtain ⟨hsteps, hframe, htagged⟩ := hfails (Bool.eq_false_iff.2 hb)
      rw [← hframe]
      exact .left hsteps htagged
  · rw [Trace.runStream_cons hv fun _ _ _ _ _ he => hguard ⟨_, _, _, _, _, he ▸ hv⟩]
    cases hleaf : v.isLeaf with
    | true =>
      have hpass : c.before (id :: post) = c.before post :=
        pass_of_isLeaf (j := ofTrace t settings) hv hleaf
      rw [Trace.execute_of_isLeaf hleaf]
      rw [hpass] at hag
      refine (ih hag).after ?_ hsub fun _ => rfl
      rw [hpass]
      exact .refl
    | false =>
      have hid : ¬ t.Inlines id := h.spliced_body id (by rw [he]; simp)
      obtain ⟨m₁, hsteps, hworld, hag₁, hun⟩ :=
        run_plain hacc hs hready hv hleaf hid hguard hag laps
      have hrest := ih hag₁
      rw [hworld] at hrest
      exact hrest.after hsteps hsub hun

end Course

end LoopTrace
