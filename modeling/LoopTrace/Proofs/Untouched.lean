import LoopTrace.Proofs.Course

/-!
# Slots that the loop leaves alone

The slot of a value that the prologue defines holds it in every iteration, although the walk binds
it only at the last use: such a value takes a slot that is new at that use, and all code after it
was made with older ones. Parameters that no value is bound to are not written anywhere.
-/

namespace LoopTrace

namespace Job

variable {j : Job}

/-- What becomes of slots along the walk, as far as values are concerned that are the same in every
iteration: a slot that such a value has is one that it had before, or a new one. -/
structure Leads (j : Job) (p q : Pool) : Prop where
  next : p.next ≤ q.next
  slots : ∀ {u s}, u ∈ j.invariants → q.lookup u = some s → p.lookup u = some s ∨ p.next ≤ s.serial

theorem Leads.refl (p : Pool) : j.Leads p p := ⟨Nat.le_refl _, fun _ h => Or.inl h⟩

theorem Leads.trans {p q o : Pool} (h : j.Leads p q) (h' : j.Leads q o) : j.Leads p o where
  next := Nat.le_trans h.next h'.next
  slots {u s} hu hs := by
    rcases h'.slots hu hs with hs | hs
    · exact h.slots hu hs
    · exact Or.inr (Nat.le_trans h.next hs)

theorem Takes.leads {p q : Pool} {ids : List ValueId} (h : j.Takes p ids q) : j.Leads p q :=
  ⟨h.extension.next, fun hu hs => h.fresh (Or.inl hu) hs⟩

theorem leads_leave {q : Pool} (hq : j.Fits q) (id : ValueId) : j.Leads q (q.leave id) := by
  have h := Pool.leave_leaves hq.sound id
  refine ⟨Nat.le_of_eq h.next.symm, fun {u s} _ hs => Or.inl ?_⟩
  rw [h.lookup] at hs
  split at hs
  · cases hs
  · exact hs

theorem leads_pass (hacc : j.trace.Accepted) {pre rest : List ValueId} {id : ValueId}
    (hs : j.trace.stream = pre ++ id :: rest) {f : Front} (hready : j.Ready rest f.pool) :
    j.Leads f.pool (j.pass f id).pool := by
  obtain ⟨v, hp⟩ := hacc.stream pre id rest hs
  cases hleaf : v.isLeaf with
  | true =>
    rw [pass_of_isLeaf hp.value hleaf]
    exact .refl _
  | false =>
    have ht := hready.taken hacc hs hp.value
    rw [pool_pass hready hacc hs hp.value hleaf rfl]
    exact ht.leads.trans (leads_leave ht.fits id)

theorem leads_passAll (hacc : j.trace.Accepted) {pre ids rest : List ValueId}
    (hs : j.trace.stream = pre ++ ids ++ rest) {f : Front} (hready : j.Ready rest f.pool) :
    j.Leads f.pool (j.passAll f ids).pool := by
  refine passAll_induction hacc hs hready (P := fun ids => j.Leads f.pool (j.passAll f ids).pool)
    (.refl _) ?_
  intro a id passed _ hs' hready' ih
  exact ih.trans (leads_pass hacc hs' hready')

/-- The slot is that of an instruction of the stream while the walk passes it. -/
def Defines (j : Job) (f : Front) (ids : List ValueId) (s : Slot) : Prop :=
  ∃ a id b v, ids = a ++ id :: b ∧ j.trace.get? id = some v ∧ v.isLeaf = false ∧
    (j.taken (j.passAll f b).pool id v).lookup id = some s

theorem Defines.cons {f : Front} {ids : List ValueId} {s : Slot} (h : j.Defines f ids s)
    (id : ValueId) : j.Defines f (id :: ids) s := by
  obtain ⟨a, id', b, v, rfl, hv, hleaf, hl⟩ := h
  exact ⟨id :: a, id', b, v, rfl, hv, hleaf, hl⟩

/-- What the code of a stream writes: slots of the instructions themselves, and the one for the
tag. -/
theorem writes_passAll (hacc : j.trace.Accepted) {pre ids rest : List ValueId}
    (hs : j.trace.stream = pre ++ ids ++ rest) {f : Front} (hready : j.Ready rest f.pool)
    (hids : ∀ id ∈ ids, ¬ j.trace.Inlines id) {i : Instruction} {s : Slot}
    (hi : i ∈ (j.passAll f ids).straight) (hw : i.writes = some s) :
    i ∈ f.straight ∨ s = j.tagSlot ∨ j.Defines f ids s := by
  revert hi
  refine passAll_induction hacc hs hready
    (P := fun ids => i ∈ (j.passAll f ids).straight → i ∈ f.straight ∨ s = j.tagSlot ∨
    j.Defines f ids s) Or.inl ?_
  intro a id passed he hs' hready' ih hi
  have hid : ¬ j.trace.Inlines id := hids id (by rw [he]; simp)
  have hlater : i ∈ (j.passAll f passed).straight → i ∈ f.straight ∨ s = j.tagSlot ∨
      j.Defines f (id :: passed) s :=
    fun hi => (ih hi).imp_right fun h => h.imp_right fun h => h.cons id
  obtain ⟨v, hp⟩ := hacc.stream _ _ _ hs'
  rw [passAll_cons] at hi
  cases hleaf : v.isLeaf with
  | true =>
    rw [pass_of_isLeaf hp.value hleaf] at hi
    exact hlater hi
  | false =>
    rw [straight_pass hp.value hleaf] at hi
    rcases List.mem_append.1 hi with hi | hi
    · have ht := hready'.taken hacc hs' hp.value
      have hm := matches_codeOf ht.fits ((j.passAll f passed).later.length + 1) hp.value hleaf hid
      rcases hm.writes i hi s hw with hl | htag
      · exact Or.inr (Or.inr ⟨[], id, passed, v, rfl, hp.value, hleaf, hl⟩)
      · exact Or.inr (Or.inl htag)
    · exact hlater hi

/-- A slot that is never bound is that of no instruction. -/
theorem Defines.not_reserved (hacc : j.trace.Accepted) {pre ids rest : List ValueId}
    {f : Front} {s : Slot} (h : j.Defines f ids s) (hs : j.trace.stream = pre ++ ids ++ rest)
    (hready : j.Ready rest f.pool) : ¬ f.pool.Reserved s := by
  intro hres
  obtain ⟨a, id, b, v, rfl, hv, -, hl⟩ := h
  have hs₁ : j.trace.stream = (pre ++ a) ++ id :: (b ++ rest) := by rw [hs]; simp
  have hs₂ : j.trace.stream = (pre ++ a ++ [id]) ++ b ++ rest := by rw [hs]; simp
  have ht := (hready.passAll hacc hs₂).taken hacc hs₁ hv
  exact (ht.extension.reserved (reserved_passAll hacc hs₂ hready hres)).bound
    (Pool.mem_bound_of_lookup hl)

/-- A value that is the same in every iteration and is defined elsewhere has another slot once the
stream has been passed. -/
theorem Defines.not_lookup (hacc : j.trace.Accepted) {pre ids rest : List ValueId}
    {f : Front} {s : Slot} (h : j.Defines f ids s) (hs : j.trace.stream = pre ++ ids ++ rest)
    (hready : j.Ready rest f.pool) {u : ValueId} (hinv : u ∈ j.invariants) (hu : u ∉ ids) :
    (j.passAll f ids).pool.lookup u ≠ some s := by
  intro hl
  obtain ⟨a, id, b, v, rfl, hv, hleaf, hdef⟩ := h
  have hs₁ : j.trace.stream = (pre ++ a) ++ id :: (b ++ rest) := by rw [hs]; simp
  have hs₂ : j.trace.stream = (pre ++ a ++ [id]) ++ b ++ rest := by rw [hs]; simp
  have hs₃ : j.trace.stream = pre ++ a ++ (id :: b ++ rest) := by rw [hs]; simp
  have hready' := hready.passAll hacc hs₂
  have ht := hready'.taken hacc hs₁ hv
  have hpool : (j.passAll f (id :: b)).pool = (j.taken (j.passAll f b).pool id v).leave id :=
    pool_pass hready' hacc hs₁ hv hleaf rfl
  have hleads : j.Leads (j.taken (j.passAll f b).pool id v) (j.passAll f (a ++ id :: b)).pool := by
    rw [passAll_append]
    refine (leads_leave ht.fits id).trans ?_
    rw [← hpool]
    exact leads_passAll hacc hs₃ (Ready.pass hacc hs₁ hready')
  rcases hleads.slots hinv hl with hold | hnew
  · obtain rfl := ht.fits.sound.lookup_inj hold hdef
    exact hu (by simp)
  · exact absurd (ht.fits.sound.serial_lt hdef) (Nat.not_lt.2 hnew)

end Job

namespace Course

open Job

variable {t : Trace} {settings : Settings} {c : Course t settings}

/-- What the moves write: slots of locals that take another value, and temporaries. -/
theorem writes_moves {i : Instruction} {s : Slot} (hi : i ∈ c.afterMoves.straight)
    (hw : i.writes = some s) :
    (∃ write ∈ t.writes, c.written.lookup write.destination = some s) ∨
      ((ofTrace t settings).written c.entered).next ≤ s.serial ∧ s.serial < c.written.next := by
  have hi : i ∈ Move.stepCode c.steps ++ [] := hi
  rw [List.append_nil] at hi
  rcases c.writes.ordered.writes ⟨i, hi, hw⟩ with ⟨m, hm, hd⟩ | ht
  · obtain ⟨write, hw', hl, -, -⟩ := mem_filterMap_moveIn (List.mem_of_mem_filter hm)
    rw [← c.lookup_written, hd] at hl
    exact Or.inl ⟨write, hw', hl⟩
  · exact Or.inr (c.writes.ordered.temporaries.2 s ht)

/-- A slot that is bound once the moves are there is no temporary. -/
theorem serial_lt_of_lookup_written {u : ValueId} {s : Slot} (h : c.written.lookup u = some s) :
    s.serial < ((ofTrace t settings).written c.entered).next := by
  rw [c.lookup_written] at h
  exact c.written_takes.fits.sound.serial_lt h

/-- The moves do not write the slot of a value that is the same in every iteration, whether it has the
slot already or gets it later on. -/
theorem not_written_by_moves {u : ValueId} (hinv : u ∈ (ofTrace t settings).invariants)
    (hdest : ∀ write ∈ t.writes, write.destination ≠ u) {q : Pool}
    (hleads : (ofTrace t settings).Leads c.written q) {s : Slot} (hs : q.lookup u = some s) :
    ∀ i ∈ c.afterMoves.straight, i.writes ≠ some s := by
  intro i hi hw
  rcases hleads.slots hinv hs with hold | hnew
  · rcases writes_moves hi hw with ⟨write, hw', hl⟩ | ⟨hle, -⟩
    · exact hdest write hw' (c.writes.fits.sound.lookup_inj hl hold)
    · exact absurd (serial_lt_of_lookup_written hold) (Nat.not_lt.2 hle)
  · rcases writes_moves hi hw with ⟨write, -, hl⟩ | ⟨-, hlt⟩
    · exact absurd (c.writes.fits.sound.serial_lt hl) (Nat.not_lt.2 hnew)
    · exact absurd hlt (Nat.not_lt.2 hnew)

/-- Only locals take other values at the tail. -/
theorem destination_ne (hacc : t.Accepted) {write : Trace.Write} (hw : write ∈ t.writes)
    {u : ValueId} {v : Trace.Value} (hv : t.get? u = some v) (hleaf : v.isLeaf = false) :
    write.destination ≠ u := by
  rintro rfl
  obtain ⟨w, hw', hl⟩ := carried_isLeaf hacc (carried_of_mem_writes hw).1
  rw [Option.some.inj (hv.symm.trans hw'), hl] at hleaf
  cases hleaf

/-- **The loop leaves the slots of the prologue's values alone.** -/
theorem not_written_of_mem_prologue (hacc : t.Accepted) (h : t.Lowerable) {u : ValueId}
    (hu : u ∈ t.prologue) {w : Trace.Value} (hval : t.get? u = some w)
    (hleaf : w.isLeaf = false) {s : Slot} (hs : c.afterBody.pool.lookup u = some s) :
    ∀ i ∈ c.afterBody.straight, i.writes ≠ some s := by
  intro i hi hw
  have hinv : u ∈ (ofTrace t settings).invariants := List.mem_append_right _ hu
  rcases writes_passAll (j := ofTrace t settings) hacc t.stream_eq_body (c.ready_afterMoves hacc)
    h.spliced_body hi hw with hi | rfl | hdef
  · have hleads := leads_passAll (j := ofTrace t settings) hacc t.stream_eq_body
      (c.ready_afterMoves hacc)
    exact not_written_by_moves hinv (fun write hw' => destination_ne hacc hw' hval hleaf) hleads hs
      i hi hw
  · exact (kept_afterBody (c := c) hacc h).tag.bound (Pool.mem_bound_of_lookup hs)
  · have hbody : u ∉ t.body := fun hb => (List.nodup_append.1 hacc.nodup_stream).2.2 u hu u hb rfl
    exact hdef.not_lookup hacc t.stream_eq_body (c.ready_afterMoves hacc) hinv hbody hs

/-- Nothing writes a slot that the walk has handed out without a value, the one for the tag
apart. -/
theorem not_written_of_reserved (hacc : t.Accepted) (h : t.Lowerable) {s : Slot}
    (hres : c.entered.Reserved s) (htag : s ≠ (ofTrace t settings).tagSlot) :
    ∀ i ∈ c.final.straight, i.writes ≠ some s := by
  intro i hi hw
  rcases writes_passAll (j := ofTrace t settings) (f := c.beforePrologue) hacc t.stream_eq_prologue
    (ready_afterBody hacc) h.spliced_prologue hi hw with hi | he | hdef
  · rcases writes_passAll (j := ofTrace t settings) hacc t.stream_eq_body (c.ready_afterMoves hacc)
      h.spliced_body hi hw with hi | he | hdef
    · have hmoves : c.written.Reserved s := c.writes.reserved hres
      rcases writes_moves hi hw with ⟨write, -, hl⟩ | ⟨hle, -⟩
      · exact hmoves.bound (Pool.mem_bound_of_lookup hl)
      · exact absurd (Nat.lt_of_lt_of_le hres.minted c.written_takes.extension.next)
          (Nat.not_lt.2 hle)
    · exact htag he
    · exact hdef.not_reserved hacc t.stream_eq_body (c.ready_afterMoves hacc)
        (c.writes.reserved hres)
  · exact htag he
  · exact hdef.not_reserved hacc t.stream_eq_prologue (ready_afterBody hacc)
      (reserved_afterBody hacc hres)

end Course

end LoopTrace
