import LoopTrace.Proofs.Outline

/-!
# Where the code of a routine comes from

An instruction of a routine is the code of an operation or a call of the trace, part of the exit of a
guard, a step of the moves into the next iteration, the jump back, or part of the bailout. So what is
claimed of all instructions of a routine needs to be shown of these only (`Course.origin_of_mem`), and
code of each of them stands in some block (`Layout.exists_block_iff`).
-/

namespace LoopTrace

namespace Instruction

/-- The slots that an instruction mentions. -/
def slots (i : Instruction) : List Slot := i.reads ++ i.writes.toList

theorem mem_slots {i : Instruction} {s : Slot} : s ∈ i.slots ↔ s ∈ i.reads ∨ i.writes = some s := by
  rw [slots, List.mem_append, Option.mem_toList]

end Instruction

namespace Move

theorem mem_slots_instruction {m : Move} {s : Slot} :
    s ∈ m.instruction.slots ↔ m.source = .slot s ∨ m.destination = s := by
  rw [Instruction.mem_slots, mem_reads_instruction, instruction, Instruction.writes,
    Option.some.injEq]

/-- The steps mention slots of the kinds that the moves mention, since a temporary is of the kind of the
slot that is saved in it. -/
theorem Ordered.forall_kind {P : Kind → Prop} {n o : Nat} {pending : List Move} {steps : List Step}
    (h : Ordered n pending steps o) (hP : ∀ m ∈ pending, ∀ s ∈ m.instruction.slots, P s.kind) :
    ∀ i ∈ stepCode steps, ∀ s ∈ i.slots, P s.kind := by
  induction h with
  | done n => exact fun i hi => absurd hi List.not_mem_nil
  | @transfer n o a b ready steps unread rest ih =>
    intro i hi
    rcases List.mem_cons.1 hi with rfl | hi
    · exact hP ready (by simp)
    · exact ih (fun m hm => hP m ((sublist_middle a b ready).subset hm)) i hi
  | @save n o pending first steps mem read rest ih =>
    have hsaved : P first.destination.kind :=
      hP first mem _ (mem_slots_instruction.2 (Or.inr rfl))
    intro i hi
    rcases List.mem_cons.1 hi with rfl | hi
    · intro s hs
      rcases mem_slots_instruction.1 hs with he | rfl
      · obtain rfl := Operand.slot.inj he
        exact hsaved
      · exact hsaved
    · refine ih (fun m' hm' s hs => ?_) i hi
      obtain ⟨m, hm, hd, hsource⟩ := mem_redirect.1 hm'
      rcases mem_slots_instruction.1 hs with he | rfl
      · rw [hsource] at he
        split at he
        · obtain rfl := Operand.slot.inj he
          exact hsaved
        · exact hP m hm s (mem_slots_instruction.2 (Or.inl he))
      · rw [hd]
        exact hP m hm _ (mem_slots_instruction.2 (Or.inr rfl))

end Move

namespace Layout

variable {l : Layout}

theorem mem_code_loopBlock {code : List Instruction} {rest : List (List Instruction)}
    {i : Instruction} : i ∈ (l.loopBlock code rest).code ↔
      i ∈ code ∨ rest = [] ∧ i = .jump (some l.header) := by
  by_cases hr : rest = []
  · rw [hr, code_loopBlock_nil, List.mem_append, List.mem_singleton]
    simp
  · rw [code_loopBlock_of_ne_nil _ _ hr]
    simp [hr]

/-- What stands in the blocks of a layout. -/
theorem exists_block_iff {i : Instruction} : (∃ b ∈ l.blocks, i ∈ b.code) ↔
    i ∈ l.prologue ∨ i ∈ l.loop.flatten ∨ (l.loop ≠ [] ∧ i = .jump (some l.header)) ∨
      i ∈ l.bailout := by
  constructor
  · rintro ⟨b, hb, hi⟩
    rcases l.mem_blocks.1 hb with ⟨-, rfl⟩ | ⟨pre, code, rest, he, rfl⟩ | rfl
    · exact Or.inl hi
    · refine Or.inr ((mem_code_loopBlock.1 hi).imp (fun hi => ?_) fun hi => Or.inl ⟨?_, hi.2⟩)
      · rw [he, List.flatten_append, List.flatten_cons]
        exact List.mem_append_right _ (List.mem_append_left _ hi)
      · rw [he]
        simp
    · exact Or.inr (Or.inr (Or.inr hi))
  · rintro (hi | hi | ⟨hne, hi⟩ | hi)
    · exact ⟨l.prologueBlock, l.mem_blocks.2 (Or.inl ⟨List.ne_nil_of_mem hi, rfl⟩), hi⟩
    · obtain ⟨code, hcode, hi⟩ := List.mem_flatten.1 hi
      obtain ⟨pre, rest, he⟩ := List.append_of_mem hcode
      exact ⟨_, l.mem_blocks.2 (Or.inr (Or.inl ⟨pre, code, rest, he, rfl⟩)),
        mem_code_loopBlock.2 (Or.inl hi)⟩
    · obtain ⟨pre, last, he⟩ := (List.eq_nil_or_concat l.loop).resolve_left hne
      exact ⟨_, l.mem_blocks.2 (Or.inr (Or.inl ⟨pre, last, [], he.trans List.concat_eq_append, rfl⟩)),
        mem_code_loopBlock.2 (Or.inr ⟨rfl, hi⟩)⟩
    · exact ⟨l.bailoutBlock, l.mem_blocks.2 (Or.inr (Or.inr rfl)), hi⟩

end Layout

namespace Job

variable {j : Job} {place : Placement}

/-- Where an instruction comes from that stands in front of other code: from an operation or a call
among the given values, from a guard among them, or from that code. -/
inductive Origin (j : Job) (place : Placement) (ids : List ValueId) (back : List Instruction) :
    Instruction → Prop where
  | plain {id : ValueId} {i : Instruction} (mem : id ∈ ids)
      (code : j.instructionAt place id = some i) : j.Origin place ids back i
  | exit {id : ValueId} {g : GuardExit} {continuation : BlockId} {i : Instruction} (mem : id ∈ ids)
      (site : j.exitAt place id = some g)
      (code : i ∈ g.code j.tagSlot Layout.bailoutId continuation) : j.Origin place ids back i
  | later {i : Instruction} (mem : i ∈ back) : j.Origin place ids back i

theorem Origin.mono {ids ids' : List ValueId} {back : List Instruction} {i : Instruction}
    (h : j.Origin place ids back i) (hids : ids ⊆ ids') : j.Origin place ids' back i := by
  cases h with
  | plain mem code => exact .plain (hids mem) code
  | exit mem site code => exact .exit (hids mem) site code
  | later mem => exact .later mem

/-- What has code of its own is an instruction. -/
theorem exists_of_instructionAt {id : ValueId} {i : Instruction}
    (h : j.instructionAt place id = some i) :
    ∃ v, j.trace.get? id = some v ∧ v.isLeaf = false := by
  rw [instructionAt] at h
  split at h
  · next hv => exact ⟨_, hv, rfl⟩
  · next hv => exact ⟨_, hv, rfl⟩
  · cases h

/-- An operation or a call writes where its value is kept. -/
theorem writes_of_instructionAt {id : ValueId} {i : Instruction}
    (h : j.instructionAt place id = some i) : i.writes = place id := by
  rw [instructionAt] at h
  split at h <;> cases h <;> rfl

/-- The exit of a guard writes the slot for the tag. -/
theorem writes_of_mem_exit {g : GuardExit} {bailout continuation : BlockId} {i : Instruction}
    (hi : i ∈ g.code j.tagSlot bailout continuation) {s : Slot} (hw : i.writes = some s) :
    s = j.tagSlot := by
  simp only [GuardExit.code, List.mem_cons, List.not_mem_nil, or_false] at hi
  rcases hi with rfl | rfl | rfl
  · exact (Option.some.inj hw).symm
  · cases hw
  · cases hw

/-- An operation or a call reads what it uses. -/
theorem inputs_of_instructionAt {id : ValueId} {v : Trace.Value} (hv : j.trace.get? id = some v)
    {i : Instruction} (h : j.instructionAt place id = some i) :
    i.inputs = v.uses.map (j.operandAt place) := by
  rw [instructionAt, hv] at h
  cases v with
  | operation op operands =>
    obtain rfl := Option.some.inj h
    simp [Instruction.inputs, Trace.Value.uses, Trace.Value.operands, Trace.Value.frame?]
  | call method operands frame =>
    obtain rfl := Option.some.inj h
    rw [Instruction.inputs, contents_map_operand]
    simp [Trace.Value.uses, Trace.Value.operands, Trace.Value.frame?]
  | _ => cases h

/-- What is read for values is where they are kept. -/
theorem exists_place_of_mem_reads {i : Instruction} {ids : List ValueId}
    (hin : i.inputs = ids.map (j.operandAt place)) {s : Slot} (hs : s ∈ i.reads) :
    ∃ u, place u = some s := by
  rw [Instruction.reads, hin] at hs
  obtain ⟨o, ho, hs⟩ := List.mem_filterMap.1 hs
  obtain ⟨u, -, rfl⟩ := List.mem_map.1 ho
  exact ⟨u, place_of_slot? hs⟩

/-- The exit of a guard reads what the guard uses. -/
theorem exists_place_of_mem_exit {id : ValueId} {g : GuardExit} (hg : j.exitAt place id = some g)
    {bailout continuation : BlockId} {i : Instruction}
    (hi : i ∈ g.code j.tagSlot bailout continuation) {s : Slot} (hs : s ∈ i.reads) :
    ∃ u, place u = some s := by
  rw [exitAt] at hg
  split at hg
  · next kind comparator left right frame hv =>
    obtain rfl := Option.some.inj hg
    simp only [GuardExit.code, List.mem_cons, List.not_mem_nil, or_false] at hi
    rcases hi with rfl | rfl | rfl
    · cases hs
    · have hin : (Instruction.guardpoint (frame.map (Frame.map (j.operandAt place)))).inputs = _ :=
        contents_map_operand (j.operandAt place) frame
      exact exists_place_of_mem_reads hin hs
    · have hin : (Instruction.branch kind comparator.complement (j.operandAt place left)
          [j.operandAt place right] [bailout] continuation).inputs =
            [left, right].map (j.operandAt place) := rfl
      exact exists_place_of_mem_reads hin hs
  · cases hg

/-- What an instruction mentions: where values are kept, the slot for the tag, and what the code
mentions that it stands in front of. -/
theorem Origin.slots {ids : List ValueId} {back : List Instruction} {i : Instruction}
    (h : j.Origin place ids back i) {s : Slot} (hs : s ∈ i.slots) :
    (∃ u, place u = some s) ∨ s = j.tagSlot ∨ ∃ k ∈ back, s ∈ k.slots := by
  cases h with
  | plain mem code =>
    obtain ⟨v, hv, -⟩ := exists_of_instructionAt code
    refine Or.inl ((Instruction.mem_slots.1 hs).elim
      (exists_place_of_mem_reads (inputs_of_instructionAt hv code)) fun hw => ?_)
    exact ⟨_, (writes_of_instructionAt code).symm.trans hw⟩
  | exit mem site code =>
    rcases Instruction.mem_slots.1 hs with hr | hw
    · exact Or.inl (exists_place_of_mem_exit site code hr)
    · exact Or.inr (Or.inl (writes_of_mem_exit code hw))
  | later mem => exact Or.inr (Or.inr ⟨i, mem, hs⟩)

theorem origin_of_mem_rowBefore {id : ValueId} {row : List (List Instruction)} {i : Instruction}
    (hi : i ∈ (j.rowBefore place id row).flatten) : j.Origin place [id] row.flatten i := by
  rw [rowBefore] at hi
  cases hg : j.exitAt place id with
  | some g =>
    rw [hg] at hi
    rcases List.mem_append.1 hi with hi | hi
    · exact .exit List.mem_cons_self hg hi
    · exact .later hi
  | none =>
    rw [hg] at hi
    cases row with
    | nil => cases hi
    | cons code row =>
      rw [List.modifyHead_cons, List.flatten_cons, List.append_assoc, List.mem_append] at hi
      rcases hi with hi | hi
      · exact .plain List.mem_cons_self (Option.mem_toList.1 hi)
      · exact .later hi

/-- Where the code of a row of blocks comes from. -/
theorem origin_of_mem_rowAt {ids : List ValueId} {row : List (List Instruction)} {i : Instruction}
    (hi : i ∈ (j.rowAt place ids row).flatten) : j.Origin place ids row.flatten i := by
  induction ids with
  | nil => exact .later hi
  | cons id ids ih =>
    cases origin_of_mem_rowBefore hi with
    | plain mem code =>
      obtain rfl := List.mem_singleton.1 mem
      exact .plain List.mem_cons_self code
    | exit mem site code =>
      obtain rfl := List.mem_singleton.1 mem
      exact .exit List.mem_cons_self site code
    | later mem => exact (ih mem).mono (List.subset_cons_self _ _)

theorem flatten_subset_rowBefore {id : ValueId} {row : List (List Instruction)} :
    row.flatten ⊆ (j.rowBefore place id row).flatten := by
  intro i hi
  rw [rowBefore]
  cases j.exitAt place id with
  | some g => exact List.mem_append_right _ hi
  | none =>
    cases row with
    | nil => exact hi
    | cons code row =>
      rw [List.modifyHead_cons, List.flatten_cons, List.append_assoc]
      exact List.mem_append_right _ hi

theorem flatten_subset_rowAt (ids : List ValueId) (row : List (List Instruction)) :
    row.flatten ⊆ (j.rowAt place ids row).flatten := by
  induction ids with
  | nil => exact List.Subset.refl _
  | cons id ids ih => exact List.Subset.trans ih flatten_subset_rowBefore

end Job

namespace Course

open Job

variable {t : Trace} {settings : Settings} {c : Course t settings}

/-- Where the code of the loop comes from. -/
theorem origin_of_mem_loop (hacc : t.Accepted) (h : t.Lowerable) {i : Instruction}
    (hi : i ∈ c.layout.loop.flatten) :
    (ofTrace t settings).Origin c.placement t.body (Move.stepCode c.steps) i := by
  rw [layout_loop_eq hacc h] at hi
  have := origin_of_mem_rowAt hi
  rwa [List.flatten_singleton] at this

/-- Where the code of the prologue comes from. -/
theorem exists_instructionAt_of_mem_prologue (hacc : t.Accepted) (h : t.Lowerable) {i : Instruction}
    (hi : i ∈ c.layout.prologue) :
    ∃ id ∈ t.prologue, (ofTrace t settings).instructionAt c.placement id = some i := by
  rw [layout_prologue_eq hacc h] at hi
  exact List.mem_filterMap.1 hi

/-- Where the code of a routine comes from. -/
theorem origin_of_mem (hacc : t.Accepted) (h : t.Lowerable) {b : Block} (hb : b ∈ c.layout.blocks)
    {i : Instruction} (hi : i ∈ b.code) :
    (ofTrace t settings).Origin c.placement t.stream (Move.stepCode c.steps) i ∨
      i = .jump (some c.layout.header) ∨
      i ∈ settings.abi.bailoutCode (ofTrace t settings).tagSlot := by
  rcases Layout.exists_block_iff.1 ⟨b, hb, hi⟩ with hi | hi | ⟨-, hi⟩ | hi
  · obtain ⟨id, hid, hcode⟩ := exists_instructionAt_of_mem_prologue hacc h hi
    exact Or.inl (.plain (List.mem_append_left _ hid) hcode)
  · exact Or.inl ((origin_of_mem_loop hacc h hi).mono (List.subset_append_right _ _))
  · exact Or.inr (Or.inl hi)
  · exact Or.inr (Or.inr hi)

/-- What a write mentions is kept somewhere if it needs a slot. -/
theorem exists_placement_of_write (hacc : t.Accepted) {write : Trace.Write} (hw : write ∈ t.writes)
    {u : ValueId} (hu : u ∈ write.ends) {v : Trace.Value} (hv : t.get? u = some v)
    (hn : v.needsSlot = true) : ∃ s, c.placement u = some s ∧ s.kind = v.kind := by
  obtain ⟨s, hs⟩ := c.written_takes.served (List.mem_flatMap.2 ⟨write, hw, hu⟩) hv hn
  have hp : c.placement u = some s :=
    (placement_of_write hacc hw hu).trans ((c.lookup_written u).trans hs)
  obtain ⟨w, hw, -, hkind⟩ := (keeps_placement hacc).fits hp
  obtain rfl := Option.some.inj (hw.symm.trans hv)
  exact ⟨s, hp, hkind⟩

end Course

end LoopTrace
