import LoopTrace.Proofs.Origins

/-!
# The kinds of generated code

An instruction is kind correct if what it reads and writes is of the kinds that it is made for. The
operands of operations, calls and guards are, since the check of a trace compares them with the kinds
that they must have, and a slot is of the kind of the values kept in it. The check does not compare what
a local takes at the tail with the local. So it is the moves into the next iteration on which it depends
whether a routine is kind correct: it is exactly if each local that is written takes a value of its own
kind, or one that is not tracked (`lower_kindCorrect_iff`).
-/

namespace LoopTrace

/-- The operand is of a kind. A value that is not tracked passes for every kind. -/
def Operand.OfKind (kind : Kind) : Operand → Prop
  | .slot s => s.kind = kind
  | .immediate c => c.kind = kind
  | .undefined => True

/-- There is a slot of a kind for a result, and none exactly if the kind is void. -/
def Kind.Receives (kind : Kind) : Option Slot → Prop
  | some s => s.kind = kind ∧ kind ≠ .void
  | none => kind = .void

/-- What the instruction reads and writes is of the kinds that it is made for. -/
def Instruction.KindCorrect : Instruction → Prop
  | .assign destination source => source.OfKind destination.kind
  | .operate result op operands =>
    operands.length = op.arity ∧ List.Forall₂ Operand.OfKind op.operands operands ∧
      op.result.Receives result
  | .call result (.method method) _ arguments _ =>
    List.Forall₂ Operand.OfKind method.parameters arguments ∧ method.result.Receives result
  | .branch kind _ tag candidates _ _ => tag.OfKind kind ∧ ∀ o ∈ candidates, o.OfKind kind
  | _ => True

/-- Every instruction of the routine is kind correct. -/
def Routine.KindCorrect (r : Routine) : Prop := ∀ b ∈ r.blocks, ∀ i ∈ b.code, i.KindCorrect

namespace Trace

variable {t : Trace}

/-- A local that is written takes a value of its own kind, or one that is not tracked. -/
def KeepsKinds (t : Trace) : Prop :=
  ∀ write ∈ t.writes, ∀ v w, t.get? write.source = some v → t.get? write.destination = some w →
    v = .untracked ∨ v.kind = w.kind

/-- A check that has passed has found what it looked for. -/
theorem of_ite_eq_ok {p : Prop} [Decidable p] {why : Malformed}
    (h : (if p then Except.ok () else .error why) = .ok ()) : p := by
  by_contra hn
  rw [if_neg hn] at h
  cases h

/-- The operands that the check has passed are of their kinds. -/
theorem forall₂_of_checkKinds {user : ValueId} {place : Nat} {ids : List ValueId} {kinds : List Kind}
    (h : t.checkKinds user place ids kinds = .ok ()) (hlen : ids.length = kinds.length) :
    List.Forall₂ (fun kind id => ∃ v, t.get? id = some v ∧ (v = .untracked ∨ v.kind = kind))
      kinds ids := by
  induction ids generalizing place kinds with
  | nil =>
    obtain rfl := List.length_eq_zero_iff.1 hlen.symm
    exact .nil
  | cons id ids ih =>
    cases kinds with
    | nil => cases hlen
    | cons kind kinds =>
      rw [checkKinds, fetch] at h
      cases hv : t.get? id with
      | none => simp [hv, bind, Except.bind] at h
      | some v =>
        by_cases hk : v = .untracked ∨ v.kind = kind
        · simp only [hv, bind, Except.bind, if_pos hk] at h
          exact .cons ⟨v, hv, hk⟩ (ih h (Nat.succ.inj hlen))
        · simp [hv, bind, Except.bind, hk] at h

end Trace

namespace Job

variable {j : Job} {p : Pool} {place : Placement}

/-! ### Operands and results -/

theorem ofKind_operandAt (hk : j.Keeps p place) {u : ValueId} {v : Trace.Value} {kind : Kind}
    (hv : j.trace.get? u = some v) (hkind : v = .untracked ∨ v.kind = kind) :
    (j.operandAt place u).OfKind kind := by
  have hplace : ∀ o, (match place u with
      | some s => Operand.slot s
      | none => .undefined) = o → o.OfKind kind := by
    intro o ho
    cases hp : place u with
    | none =>
      rw [hp] at ho
      exact ho ▸ trivial
    | some s =>
      rw [hp] at ho
      obtain ⟨w, hw, hn, hs⟩ := hk.fits hp
      obtain rfl := Option.some.inj (hv.symm.trans hw)
      have hne : v ≠ .untracked := fun he => by
        rw [he] at hn
        cases hn
      exact ho ▸ hs.trans (hkind.resolve_left hne)
  rw [operandAt, hv]
  cases v with
  | constant c => exact hkind.resolve_left (by simp)
  | _ => exact hplace _ rfl

theorem forall₂_operandAt (hk : j.Keeps p place) {ids : List ValueId} {kinds : List Kind}
    (h : List.Forall₂ (fun kind id => ∃ v, j.trace.get? id = some v ∧
      (v = .untracked ∨ v.kind = kind)) kinds ids) :
    List.Forall₂ Operand.OfKind kinds (ids.map (j.operandAt place)) := by
  rw [List.forall₂_map_right_iff]
  exact h.imp fun kind id ⟨v, hv, hkind⟩ => ofKind_operandAt hk hv hkind

theorem receives_place (hk : j.Keeps p place) {id : ValueId} {v : Trace.Value}
    (hv : j.trace.get? id = some v) (hleaf : v.isLeaf = false)
    (hplace : v.needsSlot = true → ∃ s, place id = some s) : v.kind.Receives (place id) := by
  cases hp : place id with
  | none =>
    by_contra hne
    obtain ⟨s, hs⟩ := hplace (Trace.Value.needsSlot_of_not_isLeaf hleaf hne)
    rw [hp] at hs
    cases hs
  | some s =>
    obtain ⟨w, hw, hn, hs⟩ := hk.fits hp
    obtain rfl := Option.some.inj (hv.symm.trans hw)
    exact ⟨hs, Trace.Value.kind_ne_void_of_needsSlot hn⟩

/-! ### The code of an instruction -/

section Placed

variable {seen : List ValueId} {id : ValueId} {v : Trace.Value}

/-- The instruction for an operation or a call of an accepted trace is kind correct. -/
theorem kindCorrect_instructionAt (hk : j.Keeps p place) (hp : j.trace.Placed seen id v)
    (hplace : v.needsSlot = true → ∃ s, place id = some s) {i : Instruction}
    (hi : j.instructionAt place id = some i) : i.KindCorrect := by
  have harity := hp.arity
  have hkinds := hp.kinds
  rw [instructionAt, hp.value] at hi
  cases v with
  | operation op operands =>
    have hlen : operands.length = op.arity := Trace.of_ite_eq_ok harity
    obtain rfl := Option.some.inj hi
    refine ⟨by rw [List.length_map, hlen], forall₂_operandAt hk ?_,
      receives_place hk hp.value rfl hplace⟩
    exact Trace.forall₂_of_checkKinds hkinds hlen
  | call method operands frame =>
    have hlen : operands.length = method.parameters.length := Trace.of_ite_eq_ok harity
    obtain rfl := Option.some.inj hi
    refine ⟨forall₂_operandAt hk ?_, receives_place hk hp.value rfl hplace⟩
    exact Trace.forall₂_of_checkKinds hkinds hlen
  | _ => cases hi

/-- The exit of a guard of an accepted trace is kind correct. -/
theorem kindCorrect_exitAt (hk : j.Keeps p place) (hp : j.trace.Placed seen id v)
    (htag : j.tagSlot.kind = .reference) {g : GuardExit} (hg : j.exitAt place id = some g)
    {bailout continuation : BlockId} {i : Instruction}
    (hi : i ∈ g.code j.tagSlot bailout continuation) : i.KindCorrect := by
  have hkinds := hp.kinds
  rw [exitAt, hp.value] at hg
  cases v with
  | guard kind comparator left right frame =>
    obtain rfl := Option.some.inj hg
    have hops : List.Forall₂ Operand.OfKind [kind, kind]
        ([left, right].map (j.operandAt place)) :=
      forall₂_operandAt hk (Trace.forall₂_of_checkKinds hkinds rfl)
    simp only [GuardExit.code, List.mem_cons, List.not_mem_nil, or_false] at hi
    rcases hi with rfl | rfl | rfl
    · exact htag.symm
    · trivial
    · rw [List.map_cons, List.forall₂_cons] at hops
      refine ⟨hops.1, fun o ho => ?_⟩
      obtain rfl := List.mem_singleton.1 ho
      exact (List.forall₂_cons.1 hops.2).1
  | _ => cases hg

end Placed

/-- An operand that is of a kind and stands for a value is of the kind of the value. -/
theorem kind_eq_of_ofKind (hk : j.Keeps p place) {u : ValueId} {v : Trace.Value} {kind : Kind}
    (hv : j.trace.get? u = some v) (h : (j.operandAt place u).OfKind kind)
    (hne : j.operandAt place u ≠ .undefined) : v.kind = kind := by
  have hslot : ∀ {s}, place u = some s → s.kind = v.kind := fun hs => by
    obtain ⟨w, hw, -, hs⟩ := hk.fits hs
    rw [Option.some.inj (hv.symm.trans hw), hs]
  rw [operandAt, hv] at h hne
  cases v with
  | constant c => exact h
  | _ =>
    cases hp : place u with
    | none =>
      rw [hp] at hne
      exact absurd rfl hne
    | some s =>
      rw [hp] at h
      exact (hslot hp).symm.trans h

end Job

/-! ### Moves -/

namespace Move

theorem kindCorrect_of_isRedundant {m : Move} (h : m.IsRedundant) : m.instruction.KindCorrect := by
  have hs : m.source = .slot m.destination := h
  rw [instruction, hs]
  rfl

/-- Steps are kind correct exactly if the moves are that they carry out: a temporary is of the kind of the
slot that is saved in it. -/
theorem Ordered.kindCorrect_iff {n o : Nat} {pending : List Move} {steps : List Step}
    (h : Ordered n pending steps o) : (∀ i ∈ stepCode steps, i.KindCorrect) ↔
      ∀ m ∈ pending, m.instruction.KindCorrect := by
  induction h with
  | done n => exact ⟨fun _ m hm => absurd hm List.not_mem_nil, fun _ i hi => absurd hi List.not_mem_nil⟩
  | @transfer n o a b ready steps unread rest ih =>
    have hcode : stepCode (.transfer ready :: steps) = ready.instruction :: stepCode steps := rfl
    rw [hcode, List.forall_mem_cons, ih]
    simp only [List.forall_mem_append, List.forall_mem_cons]
    tauto
  | @save n o pending first steps mem read rest ih =>
    have hcode : stepCode (.save first.destination ⟨first.destination.kind, n⟩ :: steps) =
        .assign ⟨first.destination.kind, n⟩ (.slot first.destination) :: stepCode steps := rfl
    have hsave : (Instruction.assign ⟨first.destination.kind, n⟩
        (.slot first.destination)).KindCorrect := rfl
    have hredirect : ∀ m : Move, (if m.source = .slot first.destination then
        { m with source := .slot ⟨first.destination.kind, n⟩ } else m).instruction.KindCorrect ↔
          m.instruction.KindCorrect := by
      intro m
      split
      · next hs =>
        rw [instruction, instruction, hs]
        exact Iff.rfl
      · exact Iff.rfl
    rw [hcode, List.forall_mem_cons, ih, redirect, List.forall_mem_map]
    simp only [hsave, true_and, hredirect]

end Move

namespace Course

open Job

variable {t : Trace} {settings : Settings} {c : Course t settings}

/-- The move for a write goes to a slot of the kind of the local. -/
theorem exists_moveAt (hacc : t.Accepted) {write : Trace.Write} (hw : write ∈ t.writes)
    {w : Trace.Value} (hv : t.get? write.destination = some w) : ∃ d : Slot, d.kind = w.kind ∧
      (ofTrace t settings).moveAt c.placement write =
        if (ofTrace t settings).operandAt c.placement write.source = .undefined then none
        else some ⟨d, (ofTrace t settings).operandAt c.placement write.source⟩ := by
  obtain ⟨w', hv', hn⟩ := (c.writable write hw).destination
  obtain rfl := Option.some.inj (hv.symm.trans hv')
  obtain ⟨d, hd, hkind⟩ := exists_placement_of_write (c := c) hacc hw
    (by simp [Trace.Write.ends]) hv hn
  refine ⟨d, hkind, ?_⟩
  rw [moveAt, operandAt_of_needsSlot (j := ofTrace t settings) hv hn hd]

/-- The move for a write is kind correct exactly if the local takes a value of its kind. -/
theorem kindCorrect_moveAt_iff (hacc : t.Accepted) {write : Trace.Write} (hw : write ∈ t.writes)
    {v w : Trace.Value} (hv : t.get? write.source = some v)
    (hv' : t.get? write.destination = some w) :
    (∀ m, (ofTrace t settings).moveAt c.placement write = some m → m.instruction.KindCorrect) ↔
      v = .untracked ∨ v.kind = w.kind := by
  have hk := keeps_placement (c := c) hacc
  obtain ⟨d, hkind, hmove⟩ := exists_moveAt (c := c) hacc hw hv'
  rw [hmove]
  constructor
  · intro hall
    by_cases hu : v = .untracked
    · exact Or.inl hu
    have hne : (ofTrace t settings).operandAt c.placement write.source ≠ .undefined := by
      obtain ⟨u, hu', hvoid⟩ := (c.writable write hw).source
      obtain rfl := Option.some.inj (hv.symm.trans hu')
      exact operandAt_ne_undefined hu' hvoid hu fun hn =>
        (exists_placement_of_write hacc hw (by simp [Trace.Write.ends]) hv hn).imp fun _ hs => hs.1
    have hcorrect := hall _ (if_neg hne)
    exact Or.inr ((kind_eq_of_ofKind hk hv hcorrect hne).trans hkind)
  · intro hkeeps m hm
    split at hm
    · cases hm
    · obtain rfl := Option.some.inj hm
      have hcorrect := ofKind_operandAt (j := ofTrace t settings) hk hv hkeeps
      rw [← hkind] at hcorrect
      exact hcorrect

/-- The moves are kind correct exactly if locals take values of their kinds. -/
theorem kindCorrect_movesAt_iff (hacc : t.Accepted) :
    (∀ m ∈ (ofTrace t settings).movesAt c.placement, m.instruction.KindCorrect) ↔ t.KeepsKinds := by
  constructor
  · intro hall write hw v w hv hv'
    refine (kindCorrect_moveAt_iff (c := c) hacc hw hv hv').1 fun m hm => ?_
    by_cases hred : m.IsRedundant
    · exact Move.kindCorrect_of_isRedundant hred
    · exact hall m (List.mem_filter.2 ⟨List.mem_filterMap.2 ⟨write, hw, hm⟩, decide_eq_true hred⟩)
  · intro hkeeps m hm
    obtain ⟨write, hw, hmove⟩ := List.mem_filterMap.1 (List.mem_of_mem_filter hm)
    obtain ⟨v, hv, -⟩ := (c.writable write hw).source
    obtain ⟨w, hv', -⟩ := (c.writable write hw).destination
    exact (kindCorrect_moveAt_iff hacc hw hv hv').2 (hkeeps write hw v w hv hv') m hmove

theorem kindCorrect_instruction (hacc : t.Accepted) {id : ValueId} (hid : id ∈ t.stream)
    {i : Instruction} (hi : (ofTrace t settings).instructionAt c.placement id = some i) :
    i.KindCorrect := by
  obtain ⟨pre, post, hs⟩ := List.append_of_mem hid
  obtain ⟨v, hp⟩ := hacc.stream pre id post hs
  refine kindCorrect_instructionAt (j := ofTrace t settings) (keeps_placement hacc) hp
    (fun hn => ?_) hi
  obtain ⟨v', hv', hleaf⟩ := exists_of_instructionAt hi
  obtain rfl : v' = v := Option.some.inj (hv'.symm.trans hp.value)
  exact exists_placement hacc hs hp.value hleaf List.mem_cons_self hp.value hn

theorem kindCorrect_exit (hacc : t.Accepted) {id : ValueId} (hid : id ∈ t.stream) {g : GuardExit}
    (hg : (ofTrace t settings).exitAt c.placement id = some g) {bailout continuation : BlockId}
    {i : Instruction} (hi : i ∈ g.code (ofTrace t settings).tagSlot bailout continuation) :
    i.KindCorrect := by
  obtain ⟨pre, post, hs⟩ := List.append_of_mem hid
  obtain ⟨v, hp⟩ := hacc.stream pre id post hs
  exact kindCorrect_exitAt (j := ofTrace t settings) (keeps_placement hacc) hp rfl hg hi

/-- Of the instructions of a routine only the moves into the next iteration may fail to be kind
correct. -/
theorem kindCorrect_or_mem_stepCode (hacc : t.Accepted) (h : t.Lowerable) {b : Block}
    (hb : b ∈ c.layout.blocks) {i : Instruction} (hi : i ∈ b.code) :
    i.KindCorrect ∨ i ∈ Move.stepCode c.steps := by
  rcases origin_of_mem hacc h hb hi with horigin | rfl | hi
  · cases horigin with
    | plain mem code => exact Or.inl (kindCorrect_instruction hacc mem code)
    | exit mem site code => exact Or.inl (kindCorrect_exit hacc mem site code)
    | later mem => exact Or.inr mem
  · exact Or.inl trivial
  · simp only [Abi.bailoutCode, List.mem_cons, List.not_mem_nil, or_false] at hi
    rcases hi with rfl | rfl | rfl <;> exact Or.inl trivial

theorem kindCorrect_routine_iff (hacc : t.Accepted) (h : t.Lowerable) :
    c.routine.KindCorrect ↔ t.KeepsKinds := by
  have hblocks : c.routine.blocks = c.layout.blocks := c.layout.blocks_routine _ _ _
  have hordered := c.writes.ordered
  rw [backMoves_eq hacc] at hordered
  rw [← kindCorrect_movesAt_iff (c := c) hacc, ← hordered.kindCorrect_iff, Routine.KindCorrect,
    hblocks]
  constructor
  · intro hall i hi
    have hloop : i ∈ c.layout.loop.flatten := by
      rw [layout_loop_eq hacc h]
      exact flatten_subset_rowAt (j := ofTrace t settings) _ _ (by simpa using hi)
    obtain ⟨b, hb, hib⟩ := Layout.exists_block_iff.2 (Or.inr (Or.inl hloop))
    exact hall b hb i hib
  · intro hsteps b hb i hi
    exact (kindCorrect_or_mem_stepCode hacc h hb hi).elim (fun hc => hc) (hsteps i)

end Course

namespace Trace

/-- **When a routine is kind correct**: all its instructions but copies are, and it is as a whole exactly
if each local that is written takes a value of its own kind, or one that is not tracked. -/
theorem lower_kindCorrect_iff (t : Trace) (settings : Settings) (r : Routine)
    (hr : t.lower settings = .ok r) :
    (∀ b ∈ r.blocks, ∀ i ∈ b.code, (∀ destination source, i ≠ .assign destination source) →
      i.KindCorrect) ∧ (r.KindCorrect ↔ t.KeepsKinds) := by
  have hcheck := check_of_lower hr
  have hacc := check_eq_ok_iff.1 hcheck
  obtain ⟨h, c, rfl⟩ := exists_course_of_lower hcheck hr
  refine ⟨fun b hb i hi hcopy => ?_, c.kindCorrect_routine_iff hacc h⟩
  have hblocks : c.routine.blocks = c.layout.blocks := c.layout.blocks_routine _ _ _
  refine (Course.kindCorrect_or_mem_stepCode hacc h (hblocks ▸ hb) hi).resolve_right fun hstep => ?_
  obtain ⟨step, -, rfl⟩ := List.mem_map.1 hstep
  exact hcopy _ _ rfl

/-- A loop that negates a local, which takes a long constant at the tail although it is an int. -/
def skewed : Trace where
  anchor := ⟨"Sample", "skewed", [.int], .void, .managed⟩
  position := 0
  values := #[.atEntry 0 .int ⟨true, true⟩, .operation .intNeg [⟨0⟩], .constant (.long 5)]
  prologue := []
  body := [⟨1⟩]
  entry := [⟨0⟩]
  tail := [⟨2⟩]

/-- The trace is accepted and lowered, and what comes out copies the constant into the slot of the
local, which is an int. -/
theorem not_kindCorrect_skewed : skewed.check = .ok () ∧ ∃ r, skewed.lower {} = .ok r ∧
    (∃ b ∈ r.blocks, .assign ⟨.int, 1⟩ (.immediate (.long 5)) ∈ b.code) ∧ ¬ r.KindCorrect := by
  have hcopy : (skewed.lower {}).toOption.any (fun r => r.blocks.any fun b =>
      b.code.contains (.assign ⟨.int, 1⟩ (.immediate (.long 5)))) = true := by decide +kernel
  cases hr : skewed.lower {} with
  | error e => simp [hr, Except.toOption] at hcopy
  | ok r =>
    simp only [hr, Except.toOption, Option.any_some, List.any_eq_true, List.contains_iff_mem] at hcopy
    refine ⟨check_of_lower hr, r, rfl, hcopy, fun hall => ?_⟩
    obtain ⟨b, hb, hi⟩ := hcopy
    exact absurd (hall b hb _ hi) (by simp [Instruction.KindCorrect, Operand.OfKind, Constant.kind])

/-- In the loop that counts a local down the local takes an int. -/
theorem lower_kindCorrect_countdown :
    ∃ r, countdown.lower {} = .ok r ∧ r.KindCorrect := by
  have hok : (countdown.lower {}).isOk = true := by decide +kernel
  obtain ⟨r, hr⟩ := exists_of_isOk hok
  refine ⟨r, hr, (lower_kindCorrect_iff countdown {} r hr).2.2 ?_⟩
  have hwrites : countdown.writes = [⟨0, ⟨2⟩, ⟨0⟩⟩] := by decide
  intro write hw v w hv hv'
  rw [hwrites, List.mem_singleton] at hw
  subst hw
  obtain rfl : .operation .intSub [⟨0⟩, ⟨1⟩] = v := Option.some.inj hv
  obtain rfl : .atEntry 0 .int ⟨true, true⟩ = w := Option.some.inj hv'
  exact Or.inr rfl

end Trace

end LoopTrace
