import LoopTrace.Lowering.Session
import LoopTrace.Proofs.Kept
import LoopTrace.Proofs.Phases
import LoopTrace.Proofs.Shape

/-!
# The course of a lowering

A lowering of an accepted trace goes one way: parameters, moves, body, prologue. A `Course` is what
it goes through, and the routine that comes out is a function of it. Three things can keep the
routine from coming out: a local that carries nothing is to be kept in a slot, the trace holds
something that cannot be lowered yet, or the routine is verified and reads a local that is not
handed to it.
-/

namespace LoopTrace

/-- The lowering of a trace. -/
def Job.ofTrace (t : Trace) (settings : Settings) : Job :=
  ⟨t, settings, t.invariants, (Session.opening settings).1⟩

namespace Session

theorem opening_eq (settings : Settings) :
    opening settings = (⟨.reference, 0⟩, ⟨settings.reuse, 1, [], [], []⟩) := rfl

/-- Where the walk begins. -/
def openingFront (settings : Settings) : Front := ⟨(opening settings).2, [], []⟩

variable {t : Trace} {settings : Settings}

theorem walk_waiting : (⟨settings, .waiting⟩ : Session).walk t =
    (Job.ofTrace t settings).lower.run.run { pool := (opening settings).2 } := rfl

/-- A new session that turns a trace away stays as it was. -/
theorem lower_turnedAway {why : Trace.Malformed} (hcheck : t.check = .error why) :
    (⟨settings, .waiting⟩ : Session).lower t =
      (.error (.invalidTrace why), ⟨settings, .waiting⟩, []) := by
  have hstart : (⟨settings, .waiting⟩ : Session).phase = .start := rfl
  rw [lower, if_pos hstart]
  simp only [hcheck]

/-- What becomes of a new session that is handed a trace, if the trace is accepted. -/
theorem lower_waiting (hcheck : t.check = .ok ()) {result : Except Fault Routine} {w : Walk}
    (hw : (⟨settings, .waiting⟩ : Session).walk t = (result, w)) :
    (⟨settings, .waiting⟩ : Session).lower t = (result.map fun _ => (),
      ⟨settings, (opening settings).1, w, result.toOption⟩, w.journal.toList) := by
  have hstart : (⟨settings, .waiting⟩ : Session).phase = .start := rfl
  rw [lower, if_pos hstart]
  simp only [hcheck, hw]
  rfl

/-- A session whose walk has failed has no routine. -/
theorem routine_of_none (tagSlot : Slot) (w : Walk) :
    (⟨settings, tagSlot, w, none⟩ : Session).routine = .error (.breach (.noRoutine w.phase)) := by
  rw [routine, phase]
  cases w.phase <;> rfl

/-- A session whose walk has succeeded has the routine. -/
theorem routine_of_walk {r : Routine} {w : Walk}
    (hw : (⟨settings, .waiting⟩ : Session).walk t = (.ok r, w)) (tagSlot : Slot) :
    (⟨settings, tagSlot, w, some r⟩ : Session).routine = .ok r := by
  have hphase := (Job.ofTrace t settings).lower_phased { pool := (opening settings).2 } rfl
  rw [← walk_waiting, hw] at hphase
  rw [routine, phase, hphase]

end Session

namespace Trace

variable {t : Trace} {settings : Settings}

/-- A trace that is turned away. -/
theorem lower_of_check_error {why : Malformed} (hcheck : t.check = .error why) :
    t.lower settings = .error (.invalidTrace why) := by
  rw [lower, lowerTraced, Session.lower_turnedAway hcheck]

/-- Only traces that are accepted are lowered. -/
theorem check_of_lower {r : Routine} (hr : t.lower settings = .ok r) : t.check = .ok () := by
  cases hcheck : t.check with
  | ok u => rfl
  | error why =>
    rw [lower_of_check_error hcheck] at hr
    cases hr

/-- An accepted trace is walked. -/
theorem lower_eq_walk (hcheck : t.check = .ok ()) :
    t.lower settings = ((⟨settings, .waiting⟩ : Session).walk t).1 := by
  rcases hw : (⟨settings, .waiting⟩ : Session).walk t with ⟨e | r, w⟩ <;>
    simp only [lower, lowerTraced, Session.lower_waiting hcheck hw]
  · rfl
  · exact Session.routine_of_walk hw _

theorem lower_eq_of_gives (hcheck : t.check = .ok ()) {r : Routine} {g : Front}
    (h : (Job.ofTrace t settings).lower.Gives (Session.openingFront settings) r g) :
    t.lower settings = .ok r := by
  obtain ⟨w', h', -⟩ := h { pool := (Session.opening settings).2 } rfl
  exact (lower_eq_walk hcheck).trans (congrArg Prod.fst h')

theorem lower_eq_of_fails (hcheck : t.check = .ok ()) {E : Fault → Prop}
    (h : (Job.ofTrace t settings).lower.Fails (Session.openingFront settings) E) :
    ∃ e, t.lower settings = .error e ∧ E e := by
  obtain ⟨e, w', h', he⟩ := h { pool := (Session.opening settings).2 } rfl
  exact ⟨e, (lower_eq_walk hcheck).trans (congrArg Prod.fst h'), he⟩

end Trace

namespace Session

/-- What a trace leaves of a new session. -/
def leftBy (settings : Settings) (t : Trace) : Session :=
  ((⟨settings, .waiting⟩ : Session).lower t).2.1

/-- What an accepted trace leaves of a new session is left by the walk over it. -/
theorem exists_walk {t : Trace} (hcheck : t.check = .ok ()) (settings : Settings) : ∃ w : Walk,
    (⟨settings, .waiting⟩ : Session).walk t = (t.lower settings, w) ∧
      (⟨settings, .waiting⟩ : Session).lower t =
        ((t.lower settings).map fun _ => (), leftBy settings t, w.journal.toList) ∧
      leftBy settings t = ⟨settings, (opening settings).1, w, (t.lower settings).toOption⟩ := by
  rcases hw : (⟨settings, .waiting⟩ : Session).walk t with ⟨result, w⟩
  have hresult : t.lower settings = result := by rw [Trace.lower_eq_walk hcheck, hw]
  have hlower := lower_waiting hcheck hw
  have hleft : leftBy settings t = ⟨settings, (opening settings).1, w, result.toOption⟩ := by
    rw [leftBy, hlower]
  exact ⟨w, by rw [hresult], by rw [hlower, hresult, hleft], by rw [hresult, hleft]⟩

end Session

/-- What a lowering goes through before the body. -/
structure Course (t : Trace) (settings : Settings) where
  parameters : List (List Slot)
  /-- The pool once there are parameters. -/
  entered : Pool
  /-- The steps of the moves into the next iteration. -/
  steps : List Move.Step
  /-- The pool once there are moves. -/
  written : Pool
  enters : (Job.ofTrace t settings).Enters (Session.opening settings).2 t.entry parameters entered
  writable : ∀ write ∈ t.writes, (Job.ofTrace t settings).Writable write
  writes : (Job.ofTrace t settings).WritesBack entered steps written

namespace Job

variable {t : Trace} {settings : Settings}

theorem fits_opening : (ofTrace t settings).Fits (Session.opening settings).2 where
  sound := by
    rw [Session.opening_eq]
    refine ⟨List.nodup_nil, List.nodup_nil, List.nodup_nil, fun s hs => absurd hs List.not_mem_nil,
      fun s hs => ?_, fun v hv => absurd hv List.not_mem_nil⟩
    exact hs.elim (fun h => absurd h List.not_mem_nil) fun h => absurd h List.not_mem_nil
  bound {v s} hv := by
    rw [Session.opening_eq] at hv
    cases hv

theorem reserved_tagSlot : Pool.Reserved (Session.opening settings).2
    (ofTrace t settings).tagSlot where
  bound := List.not_mem_nil
  free := List.not_mem_nil
  minted := Nat.zero_lt_one

end Job

namespace Job

variable {j : Job}

/-! ### The shape of the code -/

theorem straight_plainCode (q : Pool) (id : ValueId) (v : Trace.Value) :
    Layout.Straight (j.plainCode q id v) := by
  intro i hi
  cases v <;> simp [plainCode] at hi <;> subst hi <;> rfl

theorem chained_pass (f : Front) (id : ValueId) (h : Layout.Chained j.tagSlot (f.code :: f.later)) :
    Layout.Chained j.tagSlot ((j.pass f id).code :: (j.pass f id).later) := by
  rw [pass]
  cases j.trace.get? id with
  | none => exact h
  | some v =>
    cases v with
    | guard kind comparator left right frame =>
      have hnil : Layout.Straight [] := fun i hi => absurd hi List.not_mem_nil
      exact .guarded hnil _ h
    | constant c => exact h
    | atEntry n kind flags => exact h
    | untracked => exact h
    | _ => exact h.prepend (straight_plainCode _ _ _)

theorem chained_passAll (f : Front) (ids : List ValueId)
    (h : Layout.Chained j.tagSlot (f.code :: f.later)) :
    Layout.Chained j.tagSlot ((j.passAll f ids).code :: (j.passAll f ids).later) := by
  induction ids with
  | nil => exact h
  | cons id ids ih => exact chained_pass _ id ih

/-- Without guards there are no further blocks. -/
theorem straight_passAll (f : Front) {ids : List ValueId} (hids : ∀ id ∈ ids, ¬ j.trace.Guards id)
    (h : Layout.Straight f.code) :
    Layout.Straight (j.passAll f ids).code ∧ (j.passAll f ids).later = f.later := by
  induction ids with
  | nil => exact ⟨h, rfl⟩
  | cons id ids ih =>
    obtain ⟨hs, hl⟩ := ih fun u hu => hids u (List.mem_cons_of_mem _ hu)
    have hid := hids id List.mem_cons_self
    rw [passAll_cons, pass]
    cases hv : j.trace.get? id with
    | none => exact ⟨hs, hl⟩
    | some v =>
      cases v with
      | guard kind comparator left right frame => exact absurd ⟨_, _, _, _, _, hv⟩ hid
      | constant c => exact ⟨hs, hl⟩
      | atEntry n kind flags => exact ⟨hs, hl⟩
      | untracked => exact ⟨hs, hl⟩
      | _ => exact ⟨(straight_plainCode _ _ _).append hs, hl⟩

end Job

namespace Course

open Job

variable {t : Trace} {settings : Settings} (c : Course t settings)

/-- The front once the moves are there. -/
def afterMoves : Front := ⟨c.written, Move.stepCode c.steps, []⟩

/-- The front once the loop is there. -/
def afterBody : Front := (ofTrace t settings).passAll c.afterMoves t.body

/-- The front with a block opened for the prologue. -/
def beforePrologue : Front := ⟨c.afterBody.pool, [], c.afterBody.code :: c.afterBody.later⟩

/-- The front once all code is there. -/
def final : Front := (ofTrace t settings).passAll c.beforePrologue t.prologue

/-- The code of the routine. -/
def layout : Layout := ⟨c.final.code, c.final.later, settings.abi.bailoutCode
    (ofTrace t settings).tagSlot⟩

/-- The routine that comes out. -/
def routine : Routine := c.layout.routine t.anchor c.parameters.flatten c.final.pool.next

/-! ### What the walk keeps to on its course -/

theorem fits_entered : (ofTrace t settings).Fits c.entered := c.enters.fits fits_opening

theorem released_entered : c.entered.released = [] := c.enters.extension.released

theorem lookup_written (u : ValueId) : c.written.lookup u =
      ((ofTrace t settings).written c.entered).lookup u := by
  rw [Pool.lookup, Pool.lookup, c.writes.bindings]

theorem operand_written (u : ValueId) : (ofTrace t settings).operand c.written u =
    (ofTrace t settings).operand ((ofTrace t settings).written c.entered) u := by
  rw [operand, operand, c.lookup_written]

theorem written_takes : (ofTrace t settings).Takes c.entered t.writeUses
    ((ofTrace t settings).written c.entered) :=
  Job.written_takes c.fits_entered c.released_entered c.writable

/-- What has a slot once there are parameters keeps it. -/
theorem lookup_written_of_entered {u : ValueId} {s : Slot} (hs : c.entered.lookup u = some s) :
    c.written.lookup u = some s := by
  rw [c.lookup_written]
  exact c.written_takes.extension.kept hs

/-- The destinations of writes are locals on entry that are read, and their sources are defined
somewhere. -/
theorem carried_of_mem_writes {write : Trace.Write} (hw : write ∈ t.writes) :
    t.Carried write.destination ∧ write.source ∈ t.tail := by
  obtain ⟨hz, -, hr⟩ := Trace.mem_writes.1 ⟨write, hw, rfl, rfl⟩
  exact ⟨⟨(List.of_mem_zip hz).1, hr⟩, (List.of_mem_zip hz).2⟩

/-- Before the body only what is carried around the loop is bound, and what locals take at the
tail. -/
theorem bound_written {v : ValueId} {s : Slot} (h : c.written.lookup v = some s) :
    t.Carried v ∨ ∃ write ∈ t.writes, write.source = v := by
  by_cases huse : v ∈ t.writeUses
  · obtain ⟨write, hw, hv⟩ := List.mem_flatMap.1 huse
    simp only [Trace.Write.ends, List.mem_cons, List.not_mem_nil, or_false] at hv
    rcases hv with rfl | rfl
    · exact Or.inr ⟨write, hw, rfl⟩
    · exact Or.inl (carried_of_mem_writes hw).1
  · rw [c.lookup_written, c.written_takes.others huse] at h
    by_cases hv : v ∈ t.entry ∧ t.Reads v
    · exact Or.inl hv
    · rw [c.enters.others hv] at h
      cases h

/-- Every local that is carried has a slot, which is the first parameter for it. -/
theorem exists_parameter {v : ValueId} (h : t.Carried v) :
    ∃ s, c.written.lookup v = some s ∧ c.parameters.flatten[t.parameterAt v]? = some s := by
  obtain ⟨s, hs, hp⟩ := c.enters.read h.1 h.2
  exact ⟨s, c.lookup_written_of_entered hs, hp⟩

theorem ready_afterMoves (hacc : t.Accepted) : (ofTrace t settings).Ready [] c.afterMoves.pool where
  fits := c.writes.fits
  released v hv := by
    rw [show c.afterMoves.pool.released = [] from c.writes.released] at hv
    exact absurd hv List.not_mem_nil
  pending {v s} hv := by
    rcases c.bound_written hv with ⟨he, -⟩ | ⟨write, hw, rfl⟩
    · obtain ⟨n, kind, flags, hv⟩ := hacc.entry v he
      exact Or.inl ⟨_, hv, rfl⟩
    · obtain ⟨w, hw, hdef⟩ := hacc.tail write.source (carried_of_mem_writes hw).2
      exact hdef.imp (fun hl => ⟨w, hw, hl⟩) fun hs => ⟨hs, List.not_mem_nil⟩

theorem below_backMoves : Move.Below ((ofTrace t settings).written c.entered).next
    ((ofTrace t settings).backMoves ((ofTrace t settings).written c.entered)) :=
  fun m hm => below_moves c.written_takes.fits m (List.mem_of_mem_filter hm)

/-- The move for a write whose new value is tracked and not in the slot already. -/
theorem mem_backMoves {write : Trace.Write} (hw : write ∈ t.writes) {d : Slot}
    (hd : c.written.lookup write.destination = some d)
    (hsource : (ofTrace t settings).operand c.written write.source ≠ .undefined)
    (hne : (ofTrace t settings).operand c.written write.source ≠ .slot d) :
    (⟨d, (ofTrace t settings).operand c.written write.source⟩ : Move) ∈
      (ofTrace t settings).backMoves ((ofTrace t settings).written c.entered) := by
  rw [c.operand_written] at hsource hne ⊢
  rw [c.lookup_written] at hd
  refine List.mem_filter.2 ⟨List.mem_filterMap.2 ⟨write, hw, ?_⟩, decide_eq_true hne⟩
  rw [moveIn, operand_of_lookup c.written_takes.fits hd]
  exact if_neg hsource

theorem kept_afterMoves : (ofTrace t settings).Kept c.afterMoves where
  tag := c.writes.reserved (c.enters.extension.reserved reserved_tagSlot)
  bound s hs := by
    have hs : s ∈ Block.liveBefore (Move.stepCode c.steps ++ []) [] := hs
    rw [List.append_nil] at hs
    obtain ⟨m, hm, he⟩ := c.writes.ordered.mem_liveBefore hs
    obtain ⟨write, -, -, hsource, -⟩ := mem_filterMap_moveIn (List.mem_of_mem_filter hm)
    have hl := mem_bound_of_operand
      (by rw [← hsource, he]; rfl : (Job.operand _ _ write.source).slot? = some s)
    rw [← c.lookup_written] at hl
    exact Pool.mem_bound_of_lookup hl
  live {v s} hv := by
    have hv : c.written.lookup v = some s := hv
    by_cases hcar : t.Carried v
    · exact Or.inl hcar
    · rcases c.bound_written hv with h | ⟨write, hw, rfl⟩
      · exact Or.inl h
      · refine Or.inr ⟨Or.inr ⟨write, hw, rfl⟩, ?_⟩
        show s ∈ Block.liveBefore (Move.stepCode c.steps ++ []) []
        rw [List.append_nil]
        -- no move writes the slot of a value that is not carried
        have hother : ∀ {u d}, t.Carried u → c.written.lookup u = some d → d ≠ s := by
          rintro u d hu hd rfl
          exact hcar (c.writes.fits.sound.lookup_inj hd hv ▸ hu)
        obtain ⟨d, hd, -⟩ := c.exists_parameter (carried_of_mem_writes hw).1
        have hop := operand_of_lookup c.writes.fits hv
        have hne : Operand.slot s ≠ .slot d := fun he =>
          hother (carried_of_mem_writes hw).1 hd (Operand.slot.inj he).symm
        have hm := c.mem_backMoves hw hd (by simp [hop]) (hop ▸ hne)
        refine c.writes.ordered.source_mem_liveBefore c.below_backMoves hm hop fun m' hm' => ?_
        obtain ⟨write', hw', hd', -, -⟩ := mem_filterMap_moveIn (List.mem_of_mem_filter hm')
        rw [← c.lookup_written] at hd'
        exact hother (carried_of_mem_writes hw').1 hd'

/-! ### The routine -/

section Routine

variable {c}

theorem straight_moves : Layout.Straight (Move.stepCode c.steps) := by
  intro i hi
  obtain ⟨step, -, rfl⟩ := List.mem_map.1 hi
  rfl

/-- The bailout reads the slot for the tag, and no other. -/
theorem eq_of_mem_reads_bailoutCode {abi : Abi} {tagSlot s : Slot} {i : Instruction}
    (hi : i ∈ abi.bailoutCode tagSlot) (hs : s ∈ i.reads) : s = tagSlot := by
  simp only [Abi.bailoutCode, List.mem_cons, List.not_mem_nil, or_false] at hi
  rcases hi with rfl | rfl | rfl
  · exact absurd hs List.not_mem_nil
  · exact List.mem_singleton.1 hs
  · exact List.mem_singleton.1 hs

theorem shaped_layout (h : t.Lowerable) : c.layout.Shaped (ofTrace t settings).tagSlot := by
  have hloop := chained_passAll (j := ofTrace t settings) c.afterMoves t.body (.last straight_moves)
  obtain ⟨hcode, hlater⟩ := straight_passAll (j := ofTrace t settings) c.beforePrologue h.prologue
    fun i hi => absurd hi List.not_mem_nil
  refine ⟨hcode, ?_, by simp [layout, Abi.bailoutCode], fun i hi => ?_,
    fun i hi s hs => eq_of_mem_reads_bailoutCode hi hs⟩
  · have : c.layout.loop = c.afterBody.code :: c.afterBody.later := hlater
    rw [this]
    exact hloop
  · simp only [layout, Abi.bailoutCode, List.mem_cons, List.not_mem_nil, or_false] at hi
    rcases hi with rfl | rfl | rfl <;> exact ⟨rfl, by simp [Abi.callStub]⟩

theorem ready_afterBody (hacc : t.Accepted) :
    (ofTrace t settings).Ready t.body c.afterBody.pool := by
  have h := (c.ready_afterMoves hacc).passAll (j := ofTrace t settings) hacc t.stream_eq_body
  rwa [List.append_nil] at h

theorem ready_final (hacc : t.Accepted) : (ofTrace t settings).Ready t.stream c.final.pool :=
  Ready.passAll (j := ofTrace t settings) (f := c.beforePrologue) hacc t.stream_eq_prologue
    (ready_afterBody hacc)

theorem kept_body (hacc : t.Accepted) {pre passed : List ValueId} (h : pre ++ passed = t.body)
    (hids : ∀ id ∈ passed, ¬ t.Inlines id) :
    (ofTrace t settings).Kept ((ofTrace t settings).passAll c.afterMoves passed) :=
  Kept.passAll (j := ofTrace t settings) hacc (Trace.stream_of_body h) (c.ready_afterMoves hacc)
    hids c.kept_afterMoves

theorem kept_afterBody (hacc : t.Accepted) (h : t.Lowerable) :
    (ofTrace t settings).Kept c.afterBody :=
  kept_body hacc (List.nil_append t.body) h.spliced_body

theorem kept_prologue (hacc : t.Accepted) (hbody : ∀ id ∈ t.body, ¬ t.Inlines id)
    {pre passed : List ValueId} (h : pre ++ passed = t.prologue)
    (hids : ∀ id ∈ passed, ¬ t.Inlines id) :
    (ofTrace t settings).Kept ((ofTrace t settings).passAll c.beforePrologue passed) := by
  have hk := kept_body (c := c) hacc (List.nil_append t.body) hbody
  have hk' : (ofTrace t settings).Kept c.beforePrologue := ⟨hk.tag, hk.bound, hk.live⟩
  exact Kept.passAll (j := ofTrace t settings) hacc (Trace.stream_of_prologue h)
    (ready_afterBody hacc) hids hk'

theorem kept_final (hacc : t.Accepted) (h : t.Lowerable) : (ofTrace t settings).Kept c.final :=
  kept_prologue hacc h.spliced_body (List.nil_append t.prologue) h.spliced_prologue

/-- A slot that is never bound before the moves is never bound. -/
theorem reserved_afterBody (hacc : t.Accepted) {s : Slot} (hs : c.entered.Reserved s) :
    c.afterBody.pool.Reserved s :=
  reserved_passAll (j := ofTrace t settings) hacc t.stream_eq_body (c.ready_afterMoves hacc)
    (c.writes.reserved hs)

theorem reserved_final (hacc : t.Accepted) {s : Slot} (hs : c.entered.Reserved s) :
    c.final.pool.Reserved s :=
  reserved_passAll (j := ofTrace t settings) (f := c.beforePrologue) hacc t.stream_eq_prologue
    (ready_afterBody hacc) (reserved_afterBody hacc hs)

/-- What is bound at the end is a local. -/
theorem bound_final (hacc : t.Accepted) {v : ValueId} {s : Slot}
    (hs : c.final.pool.lookup v = some s) :
    ∃ n kind flags, t.get? v = some (.atEntry n kind flags) := by
  have hready := ready_final (c := c) hacc
  obtain ⟨w, hw, hn, -⟩ := hready.fits.bound hs
  rcases hready.pending hs with ⟨w', hw', hleaf⟩ | ⟨hm, hno⟩
  · obtain rfl := Option.some.inj (hw.symm.trans hw')
    obtain ⟨n, kind, flags, rfl⟩ := Trace.Value.eq_atEntry_of_needsSlot hleaf hn
    exact ⟨n, kind, flags, hw⟩
  · exact absurd hm hno

/-- A leaf that is bound before the body keeps its slot. -/
theorem lookup_afterBody (hacc : t.Accepted) {v : ValueId} {s : Slot}
    (hs : c.written.lookup v = some s) (hleaf : ∃ w, t.get? v = some w ∧ w.isLeaf = true) :
    c.afterBody.pool.lookup v = some s :=
  lookup_passAll (j := ofTrace t settings) (f := c.afterMoves) hacc t.stream_eq_body
    (c.ready_afterMoves hacc) hs fun _ => hleaf

theorem lookup_final (hacc : t.Accepted) {v : ValueId} {s : Slot} (hs : c.written.lookup v = some s)
    (hleaf : ∃ w, t.get? v = some w ∧ w.isLeaf = true) : c.final.pool.lookup v = some s :=
  lookup_passAll (j := ofTrace t settings) (f := c.beforePrologue) hacc t.stream_eq_prologue
    (ready_afterBody hacc) (lookup_afterBody hacc hs hleaf) fun _ => hleaf

theorem carried_isLeaf (hacc : t.Accepted) {v : ValueId} (h : t.Carried v) :
    ∃ w, t.get? v = some w ∧ w.isLeaf = true := by
  obtain ⟨n, kind, flags, hv⟩ := hacc.entry v h.1
  exact ⟨_, hv, rfl⟩

/-- The slots of carried locals are parameters, at the end as well. -/
theorem mem_parameters_of_carried (hacc : t.Accepted) {v : ValueId} (h : t.Carried v) {s : Slot}
    (hs : c.final.pool.lookup v = some s) : s ∈ c.parameters.flatten := by
  obtain ⟨s', hs', hp⟩ := c.exists_parameter h
  have := lookup_final hacc hs' (carried_isLeaf hacc h)
  rw [hs] at this
  exact Option.some.inj this ▸ List.mem_of_getElem? hp

/-- Every other parameter is a slot without a value at the end. -/
theorem carried_of_mem_parameters (hacc : t.Accepted) {v : ValueId} {s : Slot}
    (hs : c.final.pool.lookup v = some s) (hp : s ∈ c.parameters.flatten) : t.Carried v := by
  rcases c.enters.parameters hp with hres | ⟨id, hid, hl⟩
  · exact absurd (Pool.mem_bound_of_lookup hs) (reserved_final hacc hres).bound
  · have hcar : t.Carried id := by
      by_contra hno
      rw [c.enters.others hno] at hl
      cases hl
    have hfinal := lookup_final hacc (c.lookup_written_of_entered hl) (carried_isLeaf hacc hcar)
    exact (ready_final (c := c) hacc).fits.sound.lookup_inj hfinal hs ▸ hcar

/-- A local that is used has a slot at the end. -/
theorem exists_lookup_final (hacc : t.Accepted) {u : ValueId} (hu : t.Used u) {n : Nat}
    {kind : Kind} {flags : LocalFlags} (hv : t.get? u = some (.atEntry n kind flags)) :
    ∃ s, c.final.pool.lookup u = some s := by
  have hneeds : ∀ {w}, t.get? u = some w → (w.kind = .void → w = .untracked) →
      w.needsSlot = true := by
    intro w hw hvoid
    rw [hv] at hw
    cases hw
    exact decide_eq_true fun hk => by cases hvoid hk
  rcases hu with ⟨id, hid, v, hval, huse⟩ | ⟨write, hw, rfl⟩
  · obtain ⟨a, b, he⟩ := List.append_of_mem hid
    obtain ⟨v', hplaced⟩ := hacc.stream a id b he
    obtain rfl : v = v' := Option.some.inj (hval.symm.trans hplaced.value)
    obtain ⟨w, hw, hvoid, -⟩ := hplaced.uses u huse
    have hn := hneeds hw hvoid
    obtain rfl : w = .atEntry n kind flags := Option.some.inj (hw.symm.trans hv)
    rcases List.mem_append.1 hid with hid | hid
    · exact exists_lookup_passAll (j := ofTrace t settings) (f := c.beforePrologue) hacc
        t.stream_eq_prologue (ready_afterBody hacc) hid hval huse hv rfl hn
    · obtain ⟨s, hs⟩ := exists_lookup_passAll (j := ofTrace t settings) (f := c.afterMoves) hacc
        t.stream_eq_body (c.ready_afterMoves hacc) hid hval huse hv rfl hn
      exact ⟨s, lookup_passAll (j := ofTrace t settings) (f := c.beforePrologue) hacc
        t.stream_eq_prologue (ready_afterBody hacc) hs fun _ => ⟨_, hv, rfl⟩⟩
  · obtain ⟨w, hw', hvoid⟩ := (c.writable write hw).source
    have hmem : write.source ∈ t.writeUses :=
      List.mem_flatMap.2 ⟨write, hw, by simp [Trace.Write.ends]⟩
    obtain ⟨s, hs⟩ := c.written_takes.served hmem hw' (hneeds hw' hvoid)
    rw [← c.lookup_written] at hs
    exact ⟨s, lookup_final hacc hs ⟨_, hv, rfl⟩⟩

/-- **When the routine passes verification**: exactly if every local that is used is carried around
the loop, as only those are handed to the routine. -/
theorem verify_routine (hcheck : t.check = .ok ()) (h : t.Lowerable) :
    c.routine.verify = .ok () ↔
      ∀ u, t.Used u → ∀ n kind flags, t.get? u = some (.atEntry n kind flags) → t.Carried u := by
  have hacc := Trace.check_eq_ok_iff.1 hcheck
  have hkept := kept_final (c := c) hacc h
  have hready := ready_final (c := c) hacc
  rw [routine, Layout.verify_routine_iff _ _ _ (shaped_layout h)]
  have hstraight : c.layout.prologue ++ c.layout.loop.flatten = c.final.straight := rfl
  rw [hstraight]
  constructor
  · intro hlive u hu n kind flags hv
    obtain ⟨s, hs⟩ := exists_lookup_final (c := c) hacc hu hv
    rcases hkept.live hs with hcar | ⟨-, hl⟩
    · exact hcar
    · exact carried_of_mem_parameters hacc hs (hlive s hl)
  · intro hused s hs
    obtain ⟨v, hv⟩ := hready.fits.sound.exists_lookup (hkept.bound s hs)
    obtain ⟨n, kind, flags, hval⟩ := bound_final hacc hv
    have hcar : t.Carried v := (hkept.live hv).elim (fun h => h) fun h =>
      hused v h.1 n kind flags hval
    exact mem_parameters_of_carried hacc hcar hv

end Routine

end Course

end LoopTrace
