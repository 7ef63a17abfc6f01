import LoopTrace.Proofs.Entry
import LoopTrace.Proofs.Passes

/-!
# What the walk keeps

The slots that the code reads before it writes them are always bound, and a value that is bound is
read by the code, unless it is a local that is carried around the loop (`Kept`). The moves establish
this, and every instruction that is passed preserves it: its code reads exactly what it uses, and
writes its own slot and at most the one for the tag.
-/

namespace LoopTrace

namespace Trace

variable (t : Trace)

/-- Some instruction of the streams uses the value, or a local takes it at the tail. -/
def Used (u : ValueId) : Prop :=
  (∃ id ∈ t.stream, ∃ v, t.get? id = some v ∧ u ∈ v.uses) ∨ ∃ write ∈ t.writes, write.source = u

/-- The value is a local on entry that is read. -/
def Carried (u : ValueId) : Prop := u ∈ t.entry ∧ t.Reads u

end Trace

namespace Job

variable (j : Job)

/-- The code of an instruction, in front of `n` blocks. -/
def codeOf (q : Pool) (id : ValueId) (n : Nat) : Trace.Value → List Instruction
  | .guard kind comparator left right frame => j.exitCode q id kind comparator left right frame n
  | v => j.plainCode q id v

/-- How the code of an instruction goes with what the instruction uses and defines. -/
structure Matches (q : Pool) (id : ValueId) (v : Trace.Value) (code : List Instruction) : Prop where
  reads : ∀ i ∈ code, ∀ s ∈ i.reads, ∃ u ∈ v.uses, q.lookup u = some s
  covers : ∀ u ∈ v.uses, ∀ s, q.lookup u = some s → ∃ i ∈ code, s ∈ i.reads
  writes : ∀ i ∈ code, ∀ s, i.writes = some s → q.lookup id = some s ∨ s = j.tagSlot
  result : ∀ s, q.lookup id = some s → ∃ i ∈ code, i.writes = some s

variable {j}

theorem straight_pass {f : Front} {id : ValueId} {v : Trace.Value} (hv : j.trace.get? id = some v)
    (hleaf : v.isLeaf = false) :
    (j.pass f id).straight = j.codeOf (j.taken f.pool id v) id (f.later.length + 1)
    v ++ f.straight := by
  rw [pass, hv]
  cases v with
  | guard kind comparator left right frame => rfl
  | constant c => cases hleaf
  | atEntry n kind flags => cases hleaf
  | untracked => cases hleaf
  | _ => exact List.append_assoc _ _ _

/-- The slots that operands read are those of the values. -/
theorem mem_slots_operands {q : Pool} (hq : j.Fits q) {ids : List ValueId} {s : Slot} :
    s ∈ (ids.map (j.operand q)).filterMap Operand.slot? ↔ ∃ u ∈ ids, q.lookup u = some s := by
  rw [List.mem_filterMap]
  constructor
  · rintro ⟨o, ho, hs⟩
    obtain ⟨u, hu, rfl⟩ := List.mem_map.1 ho
    exact ⟨u, hu, mem_bound_of_operand hs⟩
  · rintro ⟨u, hu, hs⟩
    exact ⟨_, List.mem_map_of_mem hu, by rw [operand_of_lookup hq hs]; rfl⟩

/-- Code of one instruction with the given inputs and result. -/
theorem Matches.of_single {q : Pool} (hq : j.Fits q) {id : ValueId} {v : Trace.Value}
    {i : Instruction} (hin : i.inputs = v.uses.map (j.operand q)) (hout : i.writes = q.lookup id) :
    j.Matches q id v [i] where
  reads := by
    intro i' hi' s hs
    obtain rfl := List.mem_singleton.1 hi'
    rw [Instruction.reads, hin] at hs
    exact (mem_slots_operands hq).1 hs
  covers := by
    intro u hu s hs
    refine ⟨i, List.mem_singleton_self i, ?_⟩
    rw [Instruction.reads, hin]
    exact (mem_slots_operands hq).2 ⟨u, hu, hs⟩
  writes := by
    intro i' hi' s hs
    obtain rfl := List.mem_singleton.1 hi'
    exact Or.inl (hout ▸ hs)
  result := fun s hs => ⟨i, List.mem_singleton_self i, hout.trans hs⟩

theorem contents_map_operand (f : ValueId → Operand) (frame : Option (Frame ValueId)) :
    ((frame.map (Frame.map f)).map Frame.contents).getD [] =
      ((frame.map Frame.contents).getD []).map f := by
  cases frame <;> simp

theorem matches_codeOf {q : Pool} (hq : j.Fits q) {id : ValueId} {v : Trace.Value} (n : Nat)
    (hv : j.trace.get? id = some v) (hleaf : v.isLeaf = false) (hid : ¬ j.trace.Inlines id) :
    j.Matches q id v (j.codeOf q id n v) := by
  cases v with
  | operation op operands =>
    refine .of_single hq ?_ rfl
    simp [Instruction.inputs, Trace.Value.uses, Trace.Value.operands, Trace.Value.frame?]
  | call method operands frame =>
    refine .of_single hq ?_ rfl
    rw [Instruction.inputs, contents_map_operand]
    simp [Trace.Value.uses, Trace.Value.operands, Trace.Value.frame?]
  | guard kind comparator left right frame =>
    have hnone : q.lookup id = none := (leave_of_not_needsSlot hq hv rfl).1
    have hframe : ∀ s, s ∈ (Instruction.guardpoint (frame.map (Frame.map (j.operand q)))).reads ↔
        ∃ u ∈ (frame.map Frame.contents).getD [], q.lookup u = some s := fun s => by
      rw [Instruction.reads, Instruction.inputs, contents_map_operand]
      exact mem_slots_operands hq
    have hbranch : ∀ s, s ∈ (Instruction.branch kind comparator.complement (j.operand q left)
        [j.operand q right]
        [Layout.bailoutId] ⟨n⟩).reads ↔ ∃ u ∈ [left, right], q.lookup u = some s := fun s =>
      @mem_slots_operands j q hq [left, right] s
    refine ⟨fun i hi s hs => ?_, fun u hu s hs => ?_, fun i hi s hs => ?_, fun s hs => ?_⟩
    · simp only [codeOf, exitCode, GuardExit.code, List.mem_cons, List.not_mem_nil, or_false] at hi
      rcases hi with rfl | rfl | rfl
      · exact absurd hs List.not_mem_nil
      · obtain ⟨u, hu, hs⟩ := (hframe s).1 hs
        exact ⟨u, List.mem_append_right _ hu, hs⟩
      · obtain ⟨u, hu, hs⟩ := (hbranch s).1 hs
        exact ⟨u, List.mem_append_left _ hu, hs⟩
    · rcases List.mem_append.1 hu with hu | hu
      · exact ⟨_, by simp [codeOf, exitCode, GuardExit.code], (hbranch s).2 ⟨u, hu, hs⟩⟩
      · exact ⟨_, by simp [codeOf, exitCode, GuardExit.code], (hframe s).2 ⟨u, hu, hs⟩⟩
    · simp only [codeOf, exitCode, GuardExit.code, List.mem_cons, List.not_mem_nil, or_false] at hi
      rcases hi with rfl | rfl | rfl
      · exact Or.inr (Option.some.inj hs).symm
      · cases hs
      · cases hs
    · rw [hnone] at hs
      cases hs
  | inlinedCall method operands => exact absurd ⟨method, operands, hv⟩ hid
  | _ => cases hleaf

/-- The code of an instruction does not write the slot of another value, so that the slot stays live
before it. -/
theorem Matches.mem_liveBefore {q : Pool} {id u : ValueId} {v : Trace.Value}
    {code rest : List Instruction} {s : Slot} (hm : j.Matches q id v code) (hq : j.Fits q)
    (htag : q.Reserved j.tagSlot) (hu : u ≠ id) (hs : q.lookup u = some s)
    (hlive : s ∈ Block.liveBefore rest [] ∨ u ∈ v.uses) :
    s ∈ Block.liveBefore (code ++ rest) [] := by
  have hw : ∀ i ∈ code, i.writes ≠ some s := by
    intro i hi hw
    rcases hm.writes i hi s hw with h | rfl
    · exact hu (hq.sound.lookup_inj hs h)
    · exact htag.bound (Pool.mem_bound_of_lookup hs)
  rw [Block.mem_liveBefore_append]
  rcases hlive with hlive | huse
  · exact Or.inr ⟨hlive, hw⟩
  · obtain ⟨i, hi, hr⟩ := hm.covers u huse s hs
    obtain ⟨a, b, he⟩ := List.append_of_mem hi
    refine Or.inl ((Block.mem_liveBefore _ _).2 (Or.inl ⟨a, i, b, he, hr, fun k hk => hw k ?_⟩))
    rw [he]
    exact List.mem_append_left _ hk

/-- What the walk keeps of its pool and its code. -/
structure Kept (j : Job) (f : Front) : Prop where
  /-- The slot for the tag is never bound. -/
  tag : f.pool.Reserved j.tagSlot
  /-- What the code reads from before it is bound. -/
  bound : ∀ s ∈ Block.liveBefore f.straight [], s ∈ f.pool.bound
  /-- A bound value is carried around the loop, or it is used and the code reads it from before
  it. -/
  live : ∀ {v s}, f.pool.lookup v = some s →
    j.trace.Carried v ∨ j.trace.Used v ∧ s ∈ Block.liveBefore f.straight []

section Pass

variable {pre rest : List ValueId} {id : ValueId} {f : Front}

/-- An instruction that is passed keeps it up. -/
theorem Kept.pass (h : j.Kept f) (hacc : j.trace.Accepted) (hs : j.trace.stream = pre ++ id :: rest)
    (hready : j.Ready rest f.pool) (hid : ¬ j.trace.Inlines id) : j.Kept (j.pass f id) := by
  obtain ⟨v, hp⟩ := hacc.stream pre id rest hs
  have hv := hp.value
  cases hleaf : v.isLeaf with
  | true => rwa [pass_of_isLeaf hv hleaf]
  | false =>
    have ht := hready.taken hacc hs hv
    have hl := Pool.leave_leaves ht.fits.sound id
    have hm := matches_codeOf ht.fits (f.later.length + 1) hv hleaf hid
    have hpool := pool_pass hready hacc hs hv hleaf (f := f) rfl
    have hcode := straight_pass (f := f) hv hleaf
    have huses := hready.uses hacc hs hv
    have hq : (j.taken f.pool id v).Reserved j.tagSlot := ht.extension.reserved h.tag
    have hleave : ∀ {u s}, u ≠ id → (j.taken f.pool id v).lookup u = some s →
        ((j.taken f.pool id v).leave id).lookup u = some s := fun {u s} hu hs => by
      rw [hl.lookup, if_neg hu, hs]
    refine ⟨?_, fun s hs => ?_, fun {u s} hu => ?_⟩
    · rw [hpool]
      exact hl.reserved hq
    · rw [hcode, Block.mem_liveBefore_append] at hs
      rw [hpool]
      rcases hs with hs | ⟨hs, hw⟩
      · obtain ⟨i, hi, hr⟩ :
            ∃ i ∈ j.codeOf (j.taken f.pool id v) id (f.later.length + 1) v, s ∈ i.reads := by
          rcases (Block.mem_liveBefore _ _).1 hs with ⟨a, i, b, he, hr, -⟩ | ⟨hn, -⟩
          · exact ⟨i, by rw [he]; simp, hr⟩
          · exact absurd hn List.not_mem_nil
        obtain ⟨u, hu, hus⟩ := hm.reads i hi s hr
        exact Pool.mem_bound_of_lookup (hleave (huses u hu).2.2.1 hus)
      · obtain ⟨u, hu⟩ := hready.fits.sound.exists_lookup (h.bound s hs)
        have hu := ht.extension.kept hu
        refine Pool.mem_bound_of_lookup (hleave (fun he => ?_) hu)
        obtain ⟨i, hi, hwi⟩ := hm.result s (he ▸ hu)
        exact hw i hi hwi
    · rw [hpool, hl.lookup] at hu
      split at hu
      · cases hu
      · next hne =>
        rw [hcode]
        by_cases huse : u ∈ v.uses
        · have hmem : id ∈ j.trace.stream := by rw [hs]; simp
          exact Or.inr ⟨Or.inl ⟨id, hmem, v, hv, huse⟩,
            hm.mem_liveBefore ht.fits hq hne hu (Or.inr huse)⟩
        · have hold : f.pool.lookup u = some s := by
            rw [← hu]
            exact (ht.others (by simp [hne, huse])).symm
          exact (h.live hold).imp (fun h => h) fun ⟨hused, hlive⟩ =>
            ⟨hused, hm.mem_liveBefore ht.fits hq hne hu (Or.inl hlive)⟩

end Pass

/-- A stream that is passed keeps it up. -/
theorem Kept.passAll (hacc : j.trace.Accepted) {pre ids rest : List ValueId} {f : Front}
    (hs : j.trace.stream = pre ++ ids ++ rest) (hready : j.Ready rest f.pool)
    (hids : ∀ id ∈ ids, ¬ j.trace.Inlines id) (h : j.Kept f) : j.Kept (j.passAll f ids) := by
  refine passAll_induction hacc hs hready (P := fun ids => j.Kept (j.passAll f ids)) h ?_
  intro a id passed he hs' hready' ih
  have hid : id ∈ ids := by rw [he]; simp
  exact ih.pass hacc hs' hready' (hids id hid)

/-! ### Slots that stay -/

/-- A value keeps its slot until its definition is passed; a leaf keeps it for good. -/
theorem lookup_pass (hacc : j.trace.Accepted) {pre rest : List ValueId} {id : ValueId}
    (hs : j.trace.stream = pre ++ id :: rest) {f : Front} (hready : j.Ready rest f.pool)
    {u : ValueId} {s : Slot} (hu : f.pool.lookup u = some s)
    (hid : u = id → ∃ w, j.trace.get? u = some w ∧ w.isLeaf = true) :
    (j.pass f id).pool.lookup u = some s := by
  obtain ⟨v, hp⟩ := hacc.stream pre id rest hs
  cases hleaf : v.isLeaf with
  | true => rwa [pass_of_isLeaf hp.value hleaf]
  | false =>
    have ht := hready.taken hacc hs hp.value
    have hne : u ≠ id := by
      intro he
      obtain ⟨w, hw, hl⟩ := hid he
      rw [he, hp.value] at hw
      rw [← Option.some.inj hw, hleaf] at hl
      cases hl
    rw [pool_pass hready hacc hs hp.value hleaf rfl,
      (Pool.leave_leaves ht.fits.sound id).lookup, if_neg hne]
    exact ht.extension.kept hu

theorem lookup_passAll (hacc : j.trace.Accepted) {pre ids rest : List ValueId}
    (hs : j.trace.stream = pre ++ ids ++ rest) {f : Front} (hready : j.Ready rest f.pool)
    {u : ValueId} {s : Slot} (hu : f.pool.lookup u = some s)
    (hids : u ∈ ids → ∃ w, j.trace.get? u = some w ∧ w.isLeaf = true) :
    (j.passAll f ids).pool.lookup u = some s := by
  refine passAll_induction hacc hs hready
    (P := fun ids => (j.passAll f ids).pool.lookup u = some s) hu ?_
  intro a id passed he hs' hready' ih
  refine lookup_pass hacc hs' hready' ih fun hid => hids ?_
  rw [he, hid]
  simp

/-- A slot that is never bound stays so. -/
theorem reserved_pass (hacc : j.trace.Accepted) {pre rest : List ValueId} {id : ValueId}
    (hs : j.trace.stream = pre ++ id :: rest) {f : Front} (hready : j.Ready rest f.pool) {s : Slot}
    (h : f.pool.Reserved s) : (j.pass f id).pool.Reserved s := by
  obtain ⟨v, hp⟩ := hacc.stream pre id rest hs
  cases hleaf : v.isLeaf with
  | true => rwa [pass_of_isLeaf hp.value hleaf]
  | false =>
    have ht := hready.taken hacc hs hp.value
    rw [pool_pass hready hacc hs hp.value hleaf rfl]
    exact (Pool.leave_leaves ht.fits.sound id).reserved (ht.extension.reserved h)

theorem reserved_passAll (hacc : j.trace.Accepted) {pre ids rest : List ValueId}
    (hs : j.trace.stream = pre ++ ids ++ rest) {f : Front} (hready : j.Ready rest f.pool) {s : Slot}
    (h : f.pool.Reserved s) : (j.passAll f ids).pool.Reserved s := by
  refine passAll_induction hacc hs hready (P := fun ids => (j.passAll f ids).pool.Reserved s) h ?_
  intro a id passed _ hs' hready' ih
  exact reserved_pass hacc hs' hready' ih

/-- A leaf that an instruction uses has its slot once the instruction has been passed. -/
theorem exists_lookup_passAll (hacc : j.trace.Accepted) {pre ids rest : List ValueId}
    (hs : j.trace.stream = pre ++ ids ++ rest) {f : Front} (hready : j.Ready rest f.pool)
    {id u : ValueId} {v w : Trace.Value} (hid : id ∈ ids) (hv : j.trace.get? id = some v)
    (hu : u ∈ v.uses) (hw : j.trace.get? u = some w) (hleaf : w.isLeaf = true)
    (hn : w.needsSlot = true) : ∃ s, (j.passAll f ids).pool.lookup u = some s := by
  obtain ⟨before, after, rfl⟩ := List.append_of_mem hid
  have hs₁ : j.trace.stream = (pre ++ before) ++ id :: (after ++ rest) := by rw [hs]; simp
  have hs₂ : j.trace.stream = (pre ++ before ++ [id]) ++ after ++ rest := by rw [hs]; simp
  have hs₃ : j.trace.stream = pre ++ before ++ (id :: after ++ rest) := by rw [hs]; simp
  have hready' := hready.passAll hacc hs₂
  have huses := hready'.uses hacc hs₁ hv u hu
  have hvleaf : v.isLeaf = false := by
    cases v <;> first
      | rfl
      | exact absurd hu (by simp [Trace.Value.uses, Trace.Value.operands, Trace.Value.frame?])
  have ht := hready'.taken hacc hs₁ hv
  obtain ⟨s, hs'⟩ := ht.served (List.mem_cons_of_mem _ hu) hw hn
  have hpassed : (j.passAll f (id :: after)).pool.lookup u = some s := by
    rw [passAll_cons, pool_pass hready' hacc hs₁ hv hvleaf rfl,
      (Pool.leave_leaves ht.fits.sound id).lookup, if_neg huses.2.2.1, hs']
  rw [passAll_append]
  exact ⟨s, lookup_passAll hacc hs₃ (Ready.pass hacc hs₁ hready') hpassed fun _ => ⟨w, hw, hleaf⟩⟩

end Job

end LoopTrace
