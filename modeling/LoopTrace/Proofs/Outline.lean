import LoopTrace.Proofs.Assembled

/-!
# The outline of a routine

What code a lowering makes, block by block and told from the trace: the prologue's block, if the prologue
has any code, one block for each stretch of the body between guards, each but the last closed by the
exit of the guard after the stretch and the last one by the moves into the next iteration and the jump
back, and the bailout block. Every operation and every call of the trace stands there once, in the order
of the streams, and the blocks are those that an assembly is left with when it puts them together from
the last one to the first (`lower_outline`).
-/

namespace LoopTrace

namespace Trace

/-- The stretches of the body between guards. -/
def legs (t : Trace) : List (List ValueId) := t.body.splitOnP t.isGuard

end Trace

/-- The outline of a routine that a lowering makes. -/
structure Job.Outline (j : Job) (r : Routine) where
  /-- The prologue's block, if there is one. -/
  prologue : Option Block
  /-- The blocks of the loop. -/
  loop : List Block
  bailout : Block
  /-- Where the values are kept. -/
  place : Placement
  /-- The steps of the moves into the next iteration. -/
  steps : List Move.Step
  blocks_eq : r.blocks = prologue.toList ++ loop ++ [bailout]
  /-- There is a block for the prologue if it holds anything but leaves. -/
  prologue_isSome : prologue.isSome = true ↔
    ∃ id ∈ j.trace.prologue, ∃ v, j.trace.get? id = some v ∧ v.isLeaf = false
  /-- The loop has one block more than guards. -/
  loop_length : loop.length = j.trace.guards.length + 1
  /-- Serials go down by one from block to block, to zero. -/
  serial : ∀ i b, r.blocks[i]? = some b → b.serial = some (r.blocks.length - 1 - i)
  ids : (r.blocks.map Block.id).Nodup
  normal : ∀ b ∈ prologue.toList ++ loop, b.role = .normal
  synthetic : bailout.role = .synthetic
  /-- The prologue's block falls into the loop. -/
  prologue_block : ∀ b ∈ prologue, ∃ first, loop.head? = some first ∧
    b.code = j.codeAt place j.trace.prologue ∧ ∀ id, id ∈ b.successors ↔ id = first.id
  /-- A block that a guard closes goes on to the next one, or leaves. -/
  guard_block : ∀ i site, j.trace.guards[i]? = some site →
    ∃ b next leg g, loop[i]? = some b ∧ loop[i + 1]? = some next ∧ j.trace.legs[i]? = some leg ∧
      j.exitAt place site = some g ∧
      b.code = j.codeAt place leg ++
        [.assign j.tagSlot (.immediate (.guardSite site.index)), .guardpoint g.frame,
          .branch g.kind g.comparator.complement g.left [g.right] [bailout.id] next.id] ∧
      ∀ id, id ∈ b.successors ↔ id = next.id ∨ id = bailout.id
  /-- The last block jumps back to the first. -/
  last_block : ∃ b first leg, loop[j.trace.guards.length]? = some b ∧ loop.head? = some first ∧
    j.trace.legs[j.trace.guards.length]? = some leg ∧
    b.code = j.codeAt place leg ++ Move.stepCode steps ++ [.jump (some first.id)] ∧
    ∀ id, id ∈ b.successors ↔ id = first.id
  bailout_block : bailout.code = j.settings.abi.bailoutCode j.tagSlot ∧
    ∀ id, id ∉ bailout.successors
  /-- Predecessors are the converse of successors. -/
  predecessors : ∀ b ∈ r.blocks, ∀ id, id ∈ b.predecessors ↔
    ∃ b' ∈ r.blocks, b'.id = id ∧ b.id ∈ b'.successors
  /-- An instruction has code of its own exactly if it is neither a leaf nor a guard. -/
  one_each : ∀ id ∈ j.trace.stream, (j.instructionAt place id).isSome = true ↔
    (∃ v, j.trace.get? id = some v ∧ v.isLeaf = false) ∧ ¬ j.trace.Guards id
  /-- No instruction but the last one of a block ends it, and none ends the prologue's block. -/
  straight : ∀ b ∈ r.blocks, ∀ i ∈ b.code.dropLast, i.isTerminator = false
  prologue_straight : ∀ b ∈ prologue, ∀ i ∈ b.code, i.isTerminator = false
  /-- The steps carry out the moves for all locals that are read and take another value. -/
  ordered : ∃ n o, Move.Ordered n (j.movesAt place) steps o
  /-- The blocks can be put together by the calls for the trace, none of which is refused. -/
  assembled : ∃ a, Assembly.Builds {} (j.calls place steps) a ∧
    r = a.finish j.trace.anchor r.parameters r.slotCount

namespace Layout

variable (l : Layout)

/-! ### The blocks of a layout, by their places -/

theorem code_loopBlock_nil (code : List Instruction) :
    (l.loopBlock code []).code = code ++ [.jump (some l.header)] := by
  rw [loopBlock, if_pos rfl]

theorem code_loopBlock_of_ne_nil {rest : List (List Instruction)} (code : List Instruction)
    (h : rest ≠ []) : (l.loopBlock code rest).code = code := by
  rw [loopBlock, if_neg h]

theorem length_loopBlocks (cs : List (List Instruction)) : (l.loopBlocks cs).length = cs.length := by
  induction cs with
  | nil => rfl
  | cons code rest ih => rw [loopBlocks_cons, List.length_cons, List.length_cons, ih]

theorem getElem?_loopBlocks (cs : List (List Instruction)) (i : Nat) :
    (l.loopBlocks cs)[i]? = cs[i]?.map fun code => l.loopBlock code (cs.drop (i + 1)) := by
  induction cs generalizing i with
  | nil => rfl
  | cons code rest ih =>
    rw [loopBlocks_cons]
    cases i with
    | zero => rfl
    | succ i => exact ih i

theorem serial_eq {b : Block} (hb : b ∈ l.blocks) : b.serial = some b.id.index := by
  rcases l.mem_blocks.1 hb with ⟨-, rfl⟩ | ⟨pre, code, rest, -, rfl⟩ | rfl <;> rfl

theorem map_index_blocks :
    l.blocks.map (fun b => b.id.index) = (List.range l.blocks.length).reverse := by
  have hloop : (l.loopBlocks l.loop ++ [l.bailoutBlock]).map (fun b => b.id.index) =
      (List.range (l.loop.length + 1)).reverse := by
    rw [List.map_append, map_index_loopBlocks, List.range_eq_range', List.range'_succ,
      List.reverse_cons]
    rfl
  have hlen : (l.loopBlocks l.loop ++ [l.bailoutBlock]).length = l.loop.length + 1 := by
    rw [List.length_append, length_loopBlocks]
    rfl
  rw [blocks, List.append_assoc, prologueBlocks_eq]
  by_cases h : l.prologue = []
  · rw [if_pos h, List.nil_append, hloop, hlen]
  · rw [if_neg h, List.singleton_append, List.map_cons, hloop, List.length_cons, hlen,
      List.range_succ (n := l.loop.length + 1), List.reverse_append]
    rfl

theorem serial_getElem? {i : Nat} {b : Block} (hb : l.blocks[i]? = some b) :
    b.serial = some (l.blocks.length - 1 - i) := by
  obtain ⟨hi, -⟩ := List.getElem?_eq_some_iff.1 hb
  have hmap : (l.blocks.map fun b => b.id.index)[i]? = some b.id.index := by
    rw [List.getElem?_map, hb]
    rfl
  rw [map_index_blocks, List.getElem?_reverse (by rwa [List.length_range]), List.length_range,
    List.getElem?_range (by omega)] at hmap
  rw [l.serial_eq (List.mem_of_getElem? hb), Option.some.inj hmap]

end Layout

namespace Job

variable {j : Job} {place : Placement}

/-! ### Stretches and guards -/

/-- The code of a stretch that a guard closes. -/
theorem getElem?_rowAt_guard (place : Placement) {ids : List ValueId} (back : List Instruction)
    {i : Nat} {site : ValueId} (h : (ids.filter j.trace.isGuard)[i]? = some site) :
    ∃ leg g, (ids.splitOnP j.trace.isGuard)[i]? = some leg ∧ j.exitAt place site = some g ∧
      (j.rowAt place ids [back])[i]? = some (j.codeAt place leg ++
        g.code j.tagSlot Layout.bailoutId ⟨(ids.filter j.trace.isGuard).length - i⟩) := by
  induction ids generalizing i with
  | nil => cases h
  | cons id ids ih =>
    rw [rowAt_cons, List.splitOnP_cons_eq_if_modifyHead]
    rw [List.filter_cons] at h ⊢
    cases hg : j.trace.isGuard id with
    | true =>
      obtain ⟨g, he⟩ := exists_exitAt place hg
      simp only [hg, if_true] at h ⊢
      have hlen : (j.rowAt place ids [back]).length = (ids.filter j.trace.isGuard).length + 1 := by
        rw [length_rowAt, List.length_singleton, Nat.add_comm]
      rw [rowBefore_guard he, hlen]
      cases i with
      | zero =>
        obtain rfl := Option.some.inj h
        exact ⟨[], g, rfl, he, rfl⟩
      | succ i =>
        obtain ⟨leg, g', hl, hg', hr⟩ := ih h
        rw [List.length_cons, Nat.add_sub_add_right]
        exact ⟨leg, g', hl, hg', hr⟩
    | false =>
      simp only [hg, Bool.false_eq_true, if_false] at h ⊢
      obtain ⟨leg, g, hl, he, hr⟩ := ih h
      rw [rowBefore_plain hg, List.getElem?_modifyHead, List.getElem?_modifyHead, hl, hr]
      by_cases hi : i = 0
      · refine ⟨id :: leg, g, by rw [if_pos hi]; rfl, he, ?_⟩
        rw [if_pos hi, Option.map_some, codeAt_cons, List.append_assoc]
      · exact ⟨leg, g, if_neg hi, he, if_neg hi⟩

/-- The code of the last stretch. -/
theorem getElem?_rowAt_last (place : Placement) (ids : List ValueId) (back : List Instruction) :
    ∃ leg, (ids.splitOnP j.trace.isGuard)[(ids.filter j.trace.isGuard).length]? = some leg ∧
      (j.rowAt place ids [back])[(ids.filter j.trace.isGuard).length]? =
        some (j.codeAt place leg ++ back) := by
  induction ids with
  | nil => exact ⟨[], rfl, rfl⟩
  | cons id ids ih =>
    obtain ⟨leg, hl, hr⟩ := ih
    rw [rowAt_cons, List.splitOnP_cons_eq_if_modifyHead, List.filter_cons]
    cases hg : j.trace.isGuard id with
    | true =>
      obtain ⟨g, he⟩ := exists_exitAt place hg
      simp only [if_true]
      rw [rowBefore_guard he]
      exact ⟨leg, hl, hr⟩
    | false =>
      simp only [Bool.false_eq_true, if_false]
      rw [rowBefore_plain hg, List.getElem?_modifyHead, List.getElem?_modifyHead, hl, hr]
      by_cases hi : (ids.filter j.trace.isGuard).length = 0
      · refine ⟨id :: leg, by rw [if_pos hi]; rfl, ?_⟩
        rw [if_pos hi, Option.map_some, codeAt_cons, List.append_assoc]
      · exact ⟨leg, if_neg hi, if_neg hi⟩

/-! ### Instructions with code of their own -/

theorem isSome_instructionAt_iff (place : Placement) {id : ValueId} (h : ¬ j.trace.Inlines id) :
    (j.instructionAt place id).isSome = true ↔
      (∃ v, j.trace.get? id = some v ∧ v.isLeaf = false) ∧ ¬ j.trace.Guards id := by
  rw [instructionAt]
  cases hv : j.trace.get? id with
  | none => simp
  | some v =>
    cases v with
    | inlinedCall method operands => exact absurd ⟨method, operands, hv⟩ h
    | _ => simp [Trace.Value.isLeaf, Trace.Guards, hv]

/-- A stretch without guards has code if it holds anything but leaves. -/
theorem codeAt_ne_nil_iff {ids : List ValueId} (hin : ∀ id ∈ ids, ¬ j.trace.Inlines id)
    (hg : ∀ id ∈ ids, ¬ j.trace.Guards id) : j.codeAt place ids ≠ [] ↔
      ∃ id ∈ ids, ∃ v, j.trace.get? id = some v ∧ v.isLeaf = false := by
  rw [codeAt, ne_eq, List.filterMap_eq_nil_iff]
  constructor
  · intro hno
    by_contra hall
    refine hno fun id hid => ?_
    rw [← Option.not_isSome_iff_eq_none, isSome_instructionAt_iff place (hin id hid)]
    exact fun h => hall ⟨id, hid, h.1⟩
  · rintro ⟨id, hid, hv⟩ hno
    have := (isSome_instructionAt_iff place (hin id hid)).2 ⟨hv, hg id hid⟩
    rw [hno id hid] at this
    cases this

theorem site_eq_of_exitAt {id : ValueId} {g : GuardExit} (h : j.exitAt place id = some g) :
    g.site = id := by
  rw [exitAt] at h
  split at h
  · exact (congrArg GuardExit.site (Option.some.inj h)).symm
  · cases h

end Job

/-! ### The routine of a course -/

namespace Layout

variable {l : Layout} {tagSlot : Slot}

/-- Only the last instruction of a block of the loop ends it. -/
theorem Chained.straight_dropLast {code : List Instruction} {rest : List (List Instruction)}
    (h : Chained tagSlot (code :: rest)) : Straight (l.loopBlock code rest).code.dropLast := by
  cases h with
  | last hs =>
    rw [code_loopBlock_nil, List.dropLast_concat]
    exact hs
  | @guarded code next rest hs g hc =>
    have hcode : (l.loopBlock (code ++ g.code tagSlot bailoutId ⟨rest.length + 1⟩)
        (next :: rest)).code = (code ++ [.assign tagSlot (.immediate g.tag), .guardpoint g.frame]) ++
          [.branch g.kind g.comparator.complement g.left [g.right] [bailoutId]
            ⟨rest.length + 1⟩] := by
      rw [code_loopBlock_of_ne_nil _ _ (List.cons_ne_nil _ _), GuardExit.code, List.append_assoc]
      rfl
    rw [hcode, List.dropLast_concat]
    refine hs.append fun i hi => ?_
    simp only [List.mem_cons, List.not_mem_nil, or_false] at hi
    rcases hi with rfl | rfl <;> rfl

/-- The edges of a layout are kept on both sides. -/
theorem mem_predecessors_iff (anchor : Signature) (parameters : List Slot) (n : Nat)
    (hloop : l.loop ≠ []) {b : Block} (hb : b ∈ l.blocks) {id : BlockId} :
    id ∈ b.predecessors ↔ ∃ b' ∈ l.blocks, b'.id = id ∧ b.id ∈ b'.successors := by
  have hown := l.ownIds_routine anchor parameters n
  have hblocks := l.blocks_routine anchor parameters n
  constructor
  · intro hid
    obtain ⟨b', hb', hs⟩ := listed_predecessors anchor parameters n hb hid
    exact ⟨b', hblocks ▸ Routine.mem_blocks_of_block? hb', Routine.id_of_block? hown hb', hs⟩
  · rintro ⟨b', hb', rfl, hs⟩
    obtain ⟨b'', hb'', hp⟩ := listed_successors anchor parameters n hloop hb' hs
    rw [l.block?_routine anchor parameters n hb] at hb''
    exact Option.some.inj hb'' ▸ hp

end Layout

namespace Course

open Job

variable {t : Trace} {settings : Settings} {c : Course t settings}

/-- A block of the loop, by its place. -/
theorem getElem?_loop {i : Nat} {code : List Instruction} (h : c.layout.loop[i]? = some code) :
    (c.layout.loopBlocks c.layout.loop)[i]? =
      some (c.layout.loopBlock code (c.layout.loop.drop (i + 1))) := by
  rw [Layout.getElem?_loopBlocks, h, Option.map_some]

theorem length_loop (hacc : t.Accepted) (h : t.Lowerable) :
    c.layout.loop.length = t.guards.length + 1 := by
  rw [layout_loop_eq hacc h, length_rowAt (j := ofTrace t settings), List.length_singleton,
    Nat.add_comm]
  rfl

theorem exists_first (hacc : t.Accepted) (h : t.Lowerable) :
    ∃ first, (c.layout.loopBlocks c.layout.loop).head? = some first ∧
      first.id = c.layout.header := by
  have hlen := length_loop (c := c) hacc h
  obtain ⟨code, rest, he⟩ := List.exists_cons_of_length_pos (l := c.layout.loop) (by omega)
  exact ⟨c.layout.loopBlock code rest, by rw [he, Layout.loopBlocks_cons]; rfl,
    (Layout.header_eq he).symm⟩

theorem guard_block (hacc : t.Accepted) (h : t.Lowerable) {i : Nat} {site : ValueId}
    (hi : t.guards[i]? = some site) :
    ∃ b next leg g, (c.layout.loopBlocks c.layout.loop)[i]? = some b ∧
      (c.layout.loopBlocks c.layout.loop)[i + 1]? = some next ∧ t.legs[i]? = some leg ∧
      (ofTrace t settings).exitAt c.placement site = some g ∧
      b.code = (ofTrace t settings).codeAt c.placement leg ++
        [.assign (ofTrace t settings).tagSlot (.immediate (.guardSite site.index)),
          .guardpoint g.frame,
          .branch g.kind g.comparator.complement g.left [g.right] [c.layout.bailoutBlock.id]
            next.id] ∧
      ∀ id, id ∈ b.successors ↔ id = next.id ∨ id = c.layout.bailoutBlock.id := by
  have hlen := length_loop (c := c) hacc h
  obtain ⟨hlt, -⟩ := List.getElem?_eq_some_iff.1 hi
  obtain ⟨leg, g, hleg, hexit, hrow⟩ := getElem?_rowAt_guard (j := ofTrace t settings)
    c.placement (Move.stepCode c.steps) hi
  have hloop : c.layout.loop[i]? = some ((ofTrace t settings).codeAt c.placement leg ++
      g.code (ofTrace t settings).tagSlot Layout.bailoutId ⟨t.guards.length - i⟩) := by
    rw [layout_loop_eq hacc h]
    exact hrow
  have hnext : c.layout.loop[i + 1]? = some c.layout.loop[i + 1] :=
    List.getElem?_eq_getElem (by omega)
  have hrest : c.layout.loop.drop (i + 1) ≠ [] := by
    rw [ne_eq, List.drop_eq_nil_iff]
    omega
  have hid : (⟨(c.layout.loop.drop (i + 1)).length⟩ : BlockId) =
      ⟨(c.layout.loop.drop (i + 2)).length + 1⟩ := by
    rw [List.length_drop, List.length_drop, BlockId.mk.injEq]
    omega
  have hid' : (⟨t.guards.length - i⟩ : BlockId) =
      ⟨(c.layout.loop.drop (i + 2)).length + 1⟩ := by
    rw [List.length_drop, BlockId.mk.injEq]
    omega
  refine ⟨_, _, leg, g, getElem?_loop hloop, getElem?_loop hnext, hleg, hexit, ?_, fun id => ?_⟩
  · rw [Layout.code_loopBlock_of_ne_nil _ _ hrest, GuardExit.code, GuardExit.tag,
      site_eq_of_exitAt hexit, hid']
    rfl
  · rw [Layout.mem_successors_loopBlock, if_neg hrest, hid]
    rfl

theorem last_block (hacc : t.Accepted) (h : t.Lowerable) :
    ∃ b first leg, (c.layout.loopBlocks c.layout.loop)[t.guards.length]? = some b ∧
      (c.layout.loopBlocks c.layout.loop).head? = some first ∧
      t.legs[t.guards.length]? = some leg ∧
      b.code = (ofTrace t settings).codeAt c.placement leg ++ Move.stepCode c.steps ++
        [.jump (some first.id)] ∧
      ∀ id, id ∈ b.successors ↔ id = first.id := by
  have hlen := length_loop (c := c) hacc h
  obtain ⟨leg, hleg, hrow⟩ := getElem?_rowAt_last (j := ofTrace t settings) c.placement t.body
    (Move.stepCode c.steps)
  have hloop : c.layout.loop[t.guards.length]? =
      some ((ofTrace t settings).codeAt c.placement leg ++ Move.stepCode c.steps) := by
    rw [layout_loop_eq hacc h]
    exact hrow
  have hrest : c.layout.loop.drop (t.guards.length + 1) = [] := by
    rw [List.drop_eq_nil_iff]
    omega
  obtain ⟨first, hfirst, hid⟩ := exists_first (c := c) hacc h
  refine ⟨_, first, leg, getElem?_loop hloop, hfirst, hleg, ?_, fun id => ?_⟩
  · rw [hrest, Layout.code_loopBlock_nil, hid]
  · rw [Layout.mem_successors_loopBlock, if_pos hrest, hid]

/-- Only the last instruction of a block ends it. -/
theorem straight_dropLast (h : t.Lowerable) {b : Block} (hb : b ∈ c.layout.blocks) :
    Layout.Straight b.code.dropLast := by
  have hshaped := c.shaped_layout h
  rcases c.layout.mem_blocks.1 hb with ⟨-, rfl⟩ | ⟨pre, code, rest, he, rfl⟩ | rfl
  · exact fun i hi => hshaped.prologue i (List.dropLast_subset _ hi)
  · have hsuffix : Layout.Chained (ofTrace t settings).tagSlot (code :: rest) :=
      hshaped.loop.suffix he
    exact hsuffix.straight_dropLast
  · intro i hi
    have hi : i ∈ [settings.abi.callStub .saveRegisters [],
        settings.abi.callStub .bailout [.slot (ofTrace t settings).tagSlot]] := hi
    simp only [List.mem_cons, List.not_mem_nil, or_false] at hi
    rcases hi with rfl | rfl <;> rfl

/-- The outline of the routine of a course. -/
def outline (c : Course t settings) (hacc : t.Accepted) (h : t.Lowerable) :
    (ofTrace t settings).Outline c.routine :=
  have hblocks : c.routine.blocks = c.layout.blocks := c.layout.blocks_routine _ _ _
  have hprologue : c.layout.prologue ≠ [] ↔
      ∃ id ∈ t.prologue, ∃ v, t.get? id = some v ∧ v.isLeaf = false := by
    rw [layout_prologue_eq hacc h]
    exact codeAt_ne_nil_iff (j := ofTrace t settings) h.spliced_prologue h.prologue
  have hmem : ∀ {b}, b ∈ (if c.layout.prologue = [] then none else some c.layout.prologueBlock) →
      b = c.layout.prologueBlock := fun {b} hb => by
    split at hb
    · cases hb
    · exact (Option.some.inj hb).symm
  have hlist : (if c.layout.prologue = [] then none else some c.layout.prologueBlock).toList =
      c.layout.prologueBlocks := by
    rw [Layout.prologueBlocks_eq]
    split <;> rfl
  {
    prologue := if c.layout.prologue = [] then none else some c.layout.prologueBlock
    loop := c.layout.loopBlocks c.layout.loop
    bailout := c.layout.bailoutBlock
    place := c.placement
    steps := c.steps
    blocks_eq := by rw [hblocks, hlist]; rfl
    prologue_isSome := by
      refine Iff.trans ?_ hprologue
      by_cases hp : c.layout.prologue = [] <;> simp [hp]
    loop_length := by rw [Layout.length_loopBlocks]; exact length_loop hacc h
    serial := fun i b hb => by
      rw [hblocks] at hb ⊢
      exact c.layout.serial_getElem? hb
    ids := by rw [hblocks]; exact c.layout.nodup_ids
    normal := fun b hb => by
      rcases List.mem_append.1 hb with hb | hb
      · rw [hmem (Option.mem_toList.1 hb)]
        rfl
      · obtain ⟨pre, code, rest, -, rfl⟩ := c.layout.mem_loopBlocks.1 hb
        rfl
    synthetic := rfl
    prologue_block := fun b hb => by
      obtain ⟨first, hfirst, hid⟩ := exists_first (c := c) hacc h
      rw [hmem hb]
      refine ⟨first, hfirst, layout_prologue_eq hacc h, fun id => ?_⟩
      rw [Layout.prologueBlock, BlockSet.mem_ofList, List.mem_singleton, hid]
    guard_block := fun i site hi => guard_block hacc h hi
    last_block := last_block hacc h
    bailout_block := ⟨rfl, fun id hid => absurd hid List.not_mem_nil⟩
    predecessors := fun b hb id => by
      rw [hblocks] at hb ⊢
      exact Layout.mem_predecessors_iff t.anchor [] 0 (c.shaped_layout h).loop.ne_nil hb
    one_each := fun id hid => isSome_instructionAt_iff _ (h.spliced id hid)
    straight := fun b hb => straight_dropLast h (hblocks ▸ hb)
    prologue_straight := fun b hb => by
      rw [hmem hb]
      exact (c.shaped_layout h).prologue
    ordered := ⟨_, _, backMoves_eq hacc ▸ c.writes.ordered⟩
    assembled := assembled hacc h }

end Course

namespace Trace

theorem exists_of_isOk {ε α : Type} {x : Except ε α} (h : x.isOk = true) : ∃ a, x = .ok a := by
  cases x with
  | ok a => exact ⟨a, rfl⟩
  | error e => cases h

/-- **The code of a lowered trace**: whatever comes out of a lowering has the outline that the trace
tells. -/
theorem lower_outline (t : Trace) (settings : Settings) (r : Routine)
    (hr : t.lower settings = .ok r) : Nonempty ((Job.ofTrace t settings).Outline r) := by
  have hcheck := check_of_lower hr
  obtain ⟨h, c, rfl⟩ := exists_course_of_lower hcheck hr
  exact ⟨c.outline (check_eq_ok_iff.1 hcheck) h⟩

theorem lower_outline_countdown : ∃ r, countdown.lower {} = .ok r ∧
    Nonempty ((Job.ofTrace countdown {}).Outline r) := by
  have hok : (countdown.lower {}).isOk = true := by decide +kernel
  obtain ⟨r, hr⟩ := exists_of_isOk hok
  exact ⟨r, hr, lower_outline countdown {} r hr⟩

end Trace

end LoopTrace
