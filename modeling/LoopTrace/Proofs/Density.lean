import LoopTrace.Proofs.Minting

/-!
# No gaps among the slots

A routine says how many slots it has, and has no others than those numbered below that. The converse
holds as well: whatever path mints a slot, code that mentions the slot follows and is kept. The numbers
that a part of the walk uses up are a range (`Covers`), each part's range begins where the last one ended,
and so the ranges make up all numbers there are (`lower_numbers`).
-/

namespace LoopTrace

/-- The code mentions slots of all numbers from `n` on up to `o`. -/
def Covers (code : List Instruction) (n o : Nat) : Prop :=
  ∀ k, n ≤ k → k < o → ∃ i ∈ code, ∃ s ∈ i.slots, s.serial = k

theorem Covers.nil (code : List Instruction) (n : Nat) : Covers code n n :=
  fun _ hle hlt => absurd hlt (Nat.not_lt.2 hle)

theorem Covers.mono {code code' : List Instruction} {n o : Nat} (h : Covers code n o)
    (hc : code ⊆ code') : Covers code' n o := fun k hle hlt =>
  (h k hle hlt).imp fun _ hi => hi.imp_left fun hi => hc hi

theorem Covers.trans {code : List Instruction} {n m o : Nat} (h : Covers code n m)
    (h' : Covers code m o) : Covers code n o := fun k hle hlt =>
  (Nat.lt_or_ge k m).elim (h k hle) fun hm => h' k hm hlt

namespace Move

/-- What the moves mention, the steps that carry them out mention as well. -/
theorem Ordered.mem_slots {n o : Nat} {pending : List Move} {steps : List Step}
    (h : Ordered n pending steps o) {m : Move} (hm : m ∈ pending) {s : Slot}
    (hs : s ∈ m.instruction.slots) : ∃ i ∈ stepCode steps, s ∈ i.slots := by
  induction h generalizing m with
  | done n => exact absurd hm List.not_mem_nil
  | @transfer n o a b ready steps unread rest ih =>
    by_cases he : m = ready
    · exact ⟨_, List.mem_cons_self, he ▸ hs⟩
    · obtain ⟨i, hi, hs⟩ := ih (m := m) (by simpa [he] using hm) hs
      exact ⟨i, List.mem_cons_of_mem _ hi, hs⟩
  | @save n o pending first steps mem read rest ih =>
    -- the first step reads the saved slot; all else that the move mentions, its redirected form does
    by_cases he : s = first.destination
    · exact ⟨_, List.mem_cons_self, mem_slots_instruction.2 (Or.inl (congrArg _ he.symm))⟩
    · have hredirected : ∃ m' ∈ redirect first.destination ⟨first.destination.kind, n⟩ pending,
          s ∈ m'.instruction.slots := by
        refine ⟨⟨m.destination, if m.source = .slot first.destination then
          .slot ⟨first.destination.kind, n⟩ else m.source⟩, mem_redirect.2 ⟨m, hm, rfl, rfl⟩, ?_⟩
        refine mem_slots_instruction.2 ((mem_slots_instruction.1 hs).imp_left fun hsource => ?_)
        exact (if_neg fun h => he (Operand.slot.inj (hsource.symm.trans h))).trans hsource
      obtain ⟨m', hm', hs'⟩ := hredirected
      obtain ⟨i, hi, hs⟩ := ih hm' hs'
      exact ⟨i, List.mem_cons_of_mem _ hi, hs⟩

/-- The steps mention all their temporaries. -/
theorem Ordered.covers {n o : Nat} {pending : List Move} {steps : List Step}
    (h : Ordered n pending steps o) : Covers (stepCode steps) n o := by
  induction h with
  | done n => exact .nil _ n
  | transfer unread rest ih => exact ih.mono (List.subset_cons_self _ _)
  | @save n o pending first steps mem read rest ih =>
    refine Covers.trans (m := n + 1) (fun k hle hlt => ?_) (ih.mono (List.subset_cons_self _ _))
    exact ⟨_, List.mem_cons_self, ⟨first.destination.kind, n⟩,
      mem_slots_instruction.2 (Or.inr rfl), Nat.le_antisymm hle (Nat.le_of_lt_succ hlt)⟩

end Move

namespace Job

variable {j : Job}

/-! ### The streams -/

/-- Code that stands is kept. -/
theorem straight_subset_pass (f : Front) (id : ValueId) : f.straight ⊆ (j.pass f id).straight := by
  cases hv : j.trace.get? id with
  | none => rw [pass, hv]; exact List.Subset.refl _
  | some v =>
    cases hleaf : v.isLeaf with
    | true => rw [pass_of_isLeaf hv hleaf]; exact List.Subset.refl _
    | false =>
      rw [straight_pass hv hleaf]
      exact List.subset_append_right _ _

theorem straight_subset_passAll (f : Front) (ids : List ValueId) :
    f.straight ⊆ (j.passAll f ids).straight := by
  induction ids with
  | nil => exact List.Subset.refl _
  | cons id ids ih => exact List.Subset.trans ih (straight_subset_pass _ _)

/-- Every slot that is minted at an instruction is one for its result or for something that it uses, and
its code mentions that. -/
theorem covers_pass (hacc : j.trace.Accepted) {pre rest : List ValueId} {id : ValueId}
    (hs : j.trace.stream = pre ++ id :: rest) {f : Front} (h : j.Ready rest f.pool)
    (hid : ¬ j.trace.Inlines id) :
    Covers (j.pass f id).straight f.pool.next (j.pass f id).pool.next := by
  obtain ⟨v, hp⟩ := hacc.stream pre id rest hs
  cases hleaf : v.isLeaf with
  | true =>
    rw [pass_of_isLeaf hp.value hleaf]
    exact .nil _ _
  | false =>
    have ht := h.taken hacc hs hp.value
    have hm := matches_codeOf ht.fits (f.later.length + 1) hp.value hleaf hid
    rw [pool_pass h hacc hs hp.value hleaf rfl, (Pool.leave_leaves ht.fits.sound id).next,
      straight_pass hp.value hleaf]
    refine Covers.mono (fun k hle hlt => ?_) (List.subset_append_left _ _)
    obtain ⟨u, hu, s, hl, hk⟩ := ht.made hle hlt
    rcases List.mem_cons.1 hu with rfl | hu
    · obtain ⟨i, hi, hw⟩ := hm.result s hl
      exact ⟨i, hi, s, Instruction.mem_slots.2 (Or.inr hw), hk⟩
    · obtain ⟨i, hi, hr⟩ := hm.covers u hu s hl
      exact ⟨i, hi, s, Instruction.mem_slots.2 (Or.inl hr), hk⟩

theorem covers_passAll (hacc : j.trace.Accepted) {pre ids rest : List ValueId}
    (hs : j.trace.stream = pre ++ ids ++ rest) {f : Front} (h : j.Ready rest f.pool)
    (hids : ∀ id ∈ ids, ¬ j.trace.Inlines id) :
    Covers (j.passAll f ids).straight f.pool.next (j.passAll f ids).pool.next := by
  refine passAll_induction hacc hs h (P := fun passed =>
    Covers (j.passAll f passed).straight f.pool.next (j.passAll f passed).pool.next) (.nil _ _) ?_
  intro a id passed he hs' hready ih
  refine (ih.mono (straight_subset_pass _ id)).trans (covers_pass hacc hs' hready (hids id ?_))
  rw [he]
  simp

end Job

namespace Course

open Job

variable {t : Trace} {settings : Settings} {c : Course t settings}

/-- A slot that is minted for a write is read by the moves into the next iteration, or it is a
parameter. -/
theorem mem_of_write {write : Trace.Write} (hw : write ∈ t.writes) {u : ValueId}
    (hu : u ∈ write.ends) {s : Slot} (hs : c.written.lookup u = some s) :
    s ∈ c.parameters.flatten ∨ ∃ i ∈ Move.stepCode c.steps, s ∈ i.slots := by
  obtain ⟨d, hd, hp⟩ := c.exists_parameter (carried_of_mem_writes hw).1
  simp only [Trace.Write.ends, List.mem_cons, List.not_mem_nil, or_false] at hu
  rcases hu with rfl | rfl
  · have hop := operand_of_lookup c.writes.fits hs
    by_cases hne : s = d
    · exact Or.inl (hne ▸ List.mem_of_getElem? hp)
    · have hm := c.mem_backMoves hw hd (by simp [hop]) (by simpa [hop] using hne)
      exact Or.inr (c.writes.ordered.mem_slots hm (Move.mem_slots_instruction.2 (Or.inl hop)))
  · exact Or.inl (Option.some.inj (hd.symm.trans hs) ▸ List.mem_of_getElem? hp)

theorem mem_slots_routine_of_code {i : Instruction} (hi : i ∈ c.final.straight) {s : Slot}
    (hs : s ∈ i.slots) : s ∈ c.routine.slots := by
  refine Routine.mem_slots.2 (Or.inr ⟨i, ?_, hs⟩)
  have hblocks : c.routine.blocks = c.layout.blocks := Layout.blocks_routine _ _ _ _
  rw [hblocks, Layout.exists_block_iff]
  exact (List.mem_append.1 hi).imp_right Or.inl

theorem tagSlot_mem_slots_routine : (ofTrace t settings).tagSlot ∈ c.routine.slots := by
  refine Routine.mem_slots.2 (Or.inr ⟨.leave (.slot (ofTrace t settings).tagSlot), ?_, ?_⟩)
  · have hblocks : c.routine.blocks = c.layout.blocks := Layout.blocks_routine _ _ _ _
    rw [hblocks, Layout.exists_block_iff]
    exact Or.inr (Or.inr (Or.inr (by simp [layout, Abi.bailoutCode])))
  · exact Instruction.mem_slots.2 (Or.inl List.mem_cons_self)

/-- Slots of all numbers occur in the routine. -/
theorem exists_slot (hacc : t.Accepted) (h : t.Lowerable) {n : Nat}
    (hn : n < c.final.pool.next) : ∃ s ∈ c.routine.slots, s.serial = n := by
  have hmoves : Move.stepCode c.steps ⊆ c.afterBody.straight := by
    have := straight_subset_passAll (j := ofTrace t settings) c.afterMoves t.body
    rwa [Front.straight, show c.afterMoves.later.flatten = [] from rfl, List.append_nil] at this
  have hbody : c.afterBody.straight ⊆ c.final.straight :=
    straight_subset_passAll (j := ofTrace t settings) c.beforePrologue t.prologue
  have hcode : Covers c.final.straight ((ofTrace t settings).written c.entered).next
      c.final.pool.next :=
    ((c.writes.ordered.covers.mono (List.Subset.trans hmoves hbody)).trans
      ((covers_passAll (j := ofTrace t settings) (f := c.afterMoves) hacc t.stream_eq_body
        (c.ready_afterMoves hacc) h.spliced_body).mono hbody)).trans
      (covers_passAll (j := ofTrace t settings) (f := c.beforePrologue) hacc t.stream_eq_prologue
        (ready_afterBody hacc) h.spliced_prologue)
  by_cases hwritten : ((ofTrace t settings).written c.entered).next ≤ n
  · obtain ⟨i, hi, s, hs, hk⟩ := hcode n hwritten hn
    exact ⟨s, mem_slots_routine_of_code hi hs, hk⟩
  by_cases hentered : c.entered.next ≤ n
  · obtain ⟨u, hu, s, hl, hk⟩ := c.written_takes.made hentered (Nat.not_le.1 hwritten)
    obtain ⟨write, hw, hu⟩ := List.mem_flatMap.1 hu
    rw [← c.lookup_written] at hl
    refine ⟨s, ?_, hk⟩
    rcases mem_of_write hw hu hl with hp | ⟨i, hi, hs⟩
    · exact Routine.mem_slots.2 (Or.inl hp)
    · exact mem_slots_routine_of_code (hbody (hmoves hi)) hs
  by_cases hopening : 1 ≤ n
  · obtain ⟨s, hs, hk⟩ := c.enters.made hopening (Nat.not_le.1 hentered)
    exact ⟨s, Routine.mem_slots.2 (Or.inl hs), hk⟩
  · exact ⟨_, tagSlot_mem_slots_routine, by
      have : n = 0 := by omega
      exact this.symm⟩

end Course

/-- How the slots of a routine are numbered. -/
structure Routine.Numbers (r : Routine) (events : List Event) : Prop where
  /-- The numbers of the slots are those below their count. -/
  dense : ∀ n, (∃ s ∈ r.slots, s.serial = n) ↔ n < r.slotCount
  /-- A number stands for one slot. -/
  unambiguous : ∀ s ∈ r.slots, ∀ s' ∈ r.slots, s.serial = s'.serial → s = s'
  /-- The slots that were minted are those that occur. -/
  minted : ∀ s, .minted s ∈ events ↔ s ∈ r.slots

namespace Trace

/-- **Slots are numbered without gaps**: the slots that occur in a routine have all the numbers below
their count, each number is that of one slot, and no slot was minted in vain. The slots that the journal
says were minted are those that the requests which led to the pool of the session have minted. -/
theorem lower_numbers (t : Trace) (settings : Settings) (r : Routine)
    (hr : t.lower settings = .ok r) : r.Numbers (t.lowerTraced settings).2 ∧
      ∃ requests, t.Draws settings r requests := by
  refine ⟨?_, exists_draws_of_lower hr⟩
  have hcheck := check_of_lower hr
  obtain ⟨hserials, hslots⟩ := minted_of_lower hr
  obtain ⟨h, c, rfl⟩ := exists_course_of_lower hcheck hr
  let made := (t.lowerTraced settings).2.filterMap Event.minted?
  have hinj : ∀ {s s'}, s ∈ made → s' ∈ made → s.serial = s'.serial → s = s' :=
    fun hs hs' => List.inj_on_of_nodup_map (hserials ▸ List.nodup_range) hs hs'
  have hlt : ∀ {s}, s ∈ made → s.serial < c.routine.slotCount := fun hs =>
    List.mem_range.1 (hserials ▸ List.mem_map_of_mem hs)
  have hocc : ∀ {n}, n < c.routine.slotCount → ∃ s ∈ c.routine.slots, s.serial = n :=
    fun hn => Course.exists_slot (check_eq_ok_iff.1 hcheck) h hn
  refine ⟨fun n => ⟨fun ⟨s, hs, hn⟩ => hn ▸ hlt (hslots hs), hocc⟩,
    fun s hs s' hs' => hinj (hslots hs) (hslots hs'), fun s => ?_⟩
  rw [← Event.mem_minted]
  refine ⟨fun hs => ?_, fun hs => hslots hs⟩
  obtain ⟨s', hs', hn⟩ := hocc (hlt hs)
  exact hinj (hslots hs') hs hn ▸ hs'

/-- A loop that swaps two locals, does not read a wide one, and computes something that nobody uses. -/
def juggling : Trace where
  anchor := ⟨"Sample", "juggling", [.int, .int, .double], .void, .managed⟩
  position := 5
  values := #[.atEntry 0 .int ⟨true, true⟩, .atEntry 1 .int ⟨true, true⟩,
    .atEntry 2 .double ⟨false, false⟩, .operation .intNeg [⟨0⟩],
    .guard .int .greaterEqual ⟨0⟩ ⟨1⟩
      (some ⟨⟨"Sample", "juggling", [.int, .int, .double], .void, .managed⟩, 9, [⟨0⟩, ⟨1⟩], []⟩)]
  prologue := []
  body := [⟨3⟩, ⟨4⟩]
  entry := [⟨0⟩, ⟨1⟩, ⟨2⟩]
  tail := [⟨1⟩, ⟨0⟩, ⟨2⟩]

/-- Every slot in a place of its own: one for the tag, four parameters, a temporary, and a result. -/
theorem lower_numbers_juggling : ∃ r, juggling.lower .debug = .ok r ∧ r.slotCount = 7 ∧
    r.Numbers (juggling.lowerTraced .debug).2 ∧ ∃ requests, juggling.Draws .debug r requests := by
  have hcount : ((juggling.lower .debug).toOption.map Routine.slotCount) = some 7 := by decide +kernel
  cases hr : juggling.lower .debug with
  | error e => rw [hr] at hcount; cases hcount
  | ok r =>
    rw [hr] at hcount
    exact ⟨r, rfl, Option.some.inj hcount, lower_numbers juggling .debug r hr⟩

end Trace

end LoopTrace
