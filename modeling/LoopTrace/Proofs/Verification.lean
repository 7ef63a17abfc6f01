import LoopTrace.Flow.Verify
import LoopTrace.Proofs.Liveness

/-!
# What verification decides

The rules for a finished routine, said without the checks: those for its blocks one by one
(`WellBuilt`), and the one for its paths (`WritesReach`). Verification accepts a routine exactly if
it keeps them all (`verify_eq_ok_iff_rules`).
-/

namespace LoopTrace.Routine

/-- The rules for the blocks of a routine and the edges between them. -/
structure WellBuilt (r : Routine) : Prop where
  /-- Every block has code. -/
  code : ∀ b ∈ r.blocks, b.code ≠ []
  /-- Every block has a serial. -/
  emitted : ∀ b ∈ r.blocks, b.serial.isSome
  /-- No two blocks have the same serial. -/
  serials : (r.blocks.map Block.serial).Nodup
  /-- Every jump has a target. -/
  resolved : ∀ b ∈ r.blocks, .jump none ∉ b.code
  /-- Every target is a block of the routine, and a successor. -/
  targets : ∀ b ∈ r.blocks, ∀ i ∈ b.code, ∀ id ∈ i.targets, (∃ b', r.block? id = some b') ∧
    id ∈ b.successors
  /-- Every successor is a block of the routine that lists the block as a predecessor. -/
  successors : ∀ b ∈ r.blocks, ∀ id ∈ b.successors, ∃ b', r.block? id = some b' ∧
    b.id ∈ b'.predecessors
  /-- Every predecessor is a block of the routine that lists the block as a successor. -/
  predecessors : ∀ b ∈ r.blocks, ∀ id ∈ b.predecessors, ∃ b', r.block? id = some b' ∧
    b.id ∈ b'.successors

variable {r : Routine}

/-! ### One block after another -/

theorem checkSerial_eq_ok_iff {seen : List Nat} {b : Block} {n : Nat} :
    checkSerial seen b = .ok n ↔ b.code ≠ [] ∧ b.serial = some n ∧ n ∉ seen := by
  unfold checkSerial
  by_cases hc : b.code = []
  · simp [hc]
  · cases hs : b.serial with
    | none => simp [hc]
    | some m =>
      by_cases hm : m ∈ seen
      · simp only [List.isEmpty_iff, hc, if_false, hm, if_true, reduceCtorEq, false_iff]
        rintro ⟨-, he, hn⟩
        exact hn (Option.some.inj he ▸ hm)
      · simp only [List.isEmpty_iff, hc, if_false, hm, Except.ok.injEq, Option.some.injEq]
        exact ⟨fun h => ⟨hc, h, h ▸ hm⟩, fun h => h.2.1⟩

theorem checkTarget_eq_ok_iff {b : Block} {id : BlockId} :
    r.checkTarget b id = .ok () ↔ (∃ b', r.block? id = some b') ∧ id ∈ b.successors := by
  unfold checkTarget
  cases r.block? id with
  | none => simp
  | some b' => by_cases h : id ∈ b.successors <;> simp [h]

theorem checkInstruction_eq_ok_iff {b : Block} {i : Instruction} :
    r.checkInstruction b i = .ok () ↔
      i ≠ .jump none ∧ ∀ id ∈ i.targets, (∃ b', r.block? id = some b') ∧ id ∈ b.successors := by
  unfold checkInstruction
  by_cases h : i = .jump none
  · simp [h]
  · rw [if_neg h, forM_eq_ok_iff]
    simp only [checkTarget_eq_ok_iff, ne_eq, h, not_false_eq_true, true_and]

theorem checkSuccessor_eq_ok_iff {b : Block} {id : BlockId} :
    r.checkSuccessor b id = .ok () ↔ ∃ b', r.block? id = some b' ∧ b.id ∈ b'.predecessors := by
  unfold checkSuccessor
  cases r.block? id with
  | none => simp
  | some b' => by_cases h : b.id ∈ b'.predecessors <;> simp [h]

theorem checkPredecessor_eq_ok_iff {b : Block} {id : BlockId} :
    r.checkPredecessor b id = .ok () ↔ ∃ b', r.block? id = some b' ∧ b.id ∈ b'.successors := by
  unfold checkPredecessor
  cases r.block? id with
  | none => simp
  | some b' => by_cases h : b.id ∈ b'.successors <;> simp [h]

/-- What a block that is accepted after blocks with the serials of `seen` keeps, serial `n` being
its own. -/
structure Kept (r : Routine) (seen : List Nat) (b : Block) (n : Nat) : Prop where
  code : b.code ≠ []
  serial : b.serial = some n
  fresh : n ∉ seen
  instructions : ∀ i ∈ b.code, i ≠ .jump none ∧
    ∀ id ∈ i.targets, (∃ b', r.block? id = some b') ∧ id ∈ b.successors
  successors : ∀ id ∈ b.successors, ∃ b', r.block? id = some b' ∧ b.id ∈ b'.predecessors
  predecessors : ∀ id ∈ b.predecessors, ∃ b', r.block? id = some b' ∧ b.id ∈ b'.successors

theorem checkBlocks_cons_eq_ok_iff {seen : List Nat} {b : Block} {rest : List Block} :
    r.checkBlocks seen (b :: rest) = .ok () ↔
      ∃ n, r.Kept seen b n ∧ r.checkBlocks (n :: seen) rest = .ok () := by
  rw [checkBlocks]
  constructor
  · intro h
    cases h₁ : checkSerial seen b with
    | error e => simp [bind, Except.bind, h₁] at h
    | ok n =>
      cases h₂ : b.code.forM (r.checkInstruction b) with
      | error e => simp [bind, Except.bind, h₁, h₂] at h
      | ok u =>
        cases h₃ : b.successors.toList.forM (r.checkSuccessor b) with
        | error e => simp [bind, Except.bind, h₁, h₂, h₃] at h
        | ok u =>
          cases h₄ : b.predecessors.toList.forM (r.checkPredecessor b) with
          | error e => simp [bind, Except.bind, h₁, h₂, h₃, h₄] at h
          | ok u =>
            simp only [bind, Except.bind, h₁, h₂, h₃, h₄] at h
            obtain ⟨hc, hs, hn⟩ := checkSerial_eq_ok_iff.1 h₁
            refine ⟨n, ⟨hc, hs, hn, fun i hi => ?_, fun id hid => ?_, fun id hid => ?_⟩, h⟩
            · exact checkInstruction_eq_ok_iff.1 (forM_eq_ok_iff.1 h₂ i hi)
            · exact checkSuccessor_eq_ok_iff.1 (forM_eq_ok_iff.1 h₃ id hid)
            · exact checkPredecessor_eq_ok_iff.1 (forM_eq_ok_iff.1 h₄ id hid)
  · rintro ⟨n, hk, h⟩
    have h₁ : checkSerial seen b = .ok n := checkSerial_eq_ok_iff.2 ⟨hk.code, hk.serial, hk.fresh⟩
    have h₂ : b.code.forM (r.checkInstruction b) = .ok () :=
      forM_eq_ok_iff.2 fun i hi => checkInstruction_eq_ok_iff.2 (hk.instructions i hi)
    have h₃ : b.successors.toList.forM (r.checkSuccessor b) = .ok () :=
      forM_eq_ok_iff.2 fun id hid => checkSuccessor_eq_ok_iff.2 (hk.successors id hid)
    have h₄ : b.predecessors.toList.forM (r.checkPredecessor b) = .ok () :=
      forM_eq_ok_iff.2 fun id hid => checkPredecessor_eq_ok_iff.2 (hk.predecessors id hid)
    simpa only [bind, Except.bind, h₁, h₂, h₃, h₄] using h

theorem checkBlocks_eq_ok_iff {seen : List Nat} {bs : List Block} :
    r.checkBlocks seen bs = .ok () ↔
      (∀ b ∈ bs, ∃ n, r.Kept seen b n) ∧ (bs.map Block.serial).Nodup := by
  induction bs generalizing seen with
  | nil => simp [checkBlocks]
  | cons b bs ih =>
    rw [checkBlocks_cons_eq_ok_iff]
    constructor
    · rintro ⟨n, hk, h⟩
      obtain ⟨hall, hnd⟩ := ih.1 h
      refine ⟨fun b' hb' => ?_, ?_⟩
      · rcases List.mem_cons.1 hb' with rfl | hb'
        · exact ⟨n, hk⟩
        · obtain ⟨m, hm⟩ := hall b' hb'
          exact ⟨m, { hm with fresh := fun h => hm.fresh (List.mem_cons_of_mem _ h) }⟩
      · rw [List.map_cons, List.nodup_cons]
        refine ⟨fun hmem => ?_, hnd⟩
        obtain ⟨b', hb', he⟩ := List.mem_map.1 hmem
        obtain ⟨m, hm⟩ := hall b' hb'
        rw [hm.serial, hk.serial] at he
        exact hm.fresh (Option.some.inj he ▸ List.mem_cons_self)
    · rintro ⟨hall, hnd⟩
      obtain ⟨n, hk⟩ := hall b List.mem_cons_self
      rw [List.map_cons, List.nodup_cons] at hnd
      refine ⟨n, hk, ih.2 ⟨fun b' hb' => ?_, hnd.2⟩⟩
      obtain ⟨m, hm⟩ := hall b' (List.mem_cons_of_mem _ hb')
      refine ⟨m, { hm with fresh := fun h => ?_ }⟩
      rcases List.mem_cons.1 h with rfl | h
      · exact hnd.1 (List.mem_map.2 ⟨b', hb', by rw [hm.serial, hk.serial]⟩)
      · exact hm.fresh h

theorem checkBlocks_blocks_eq_ok_iff : r.checkBlocks [] r.blocks = .ok () ↔ r.WellBuilt := by
  rw [checkBlocks_eq_ok_iff]
  constructor
  · rintro ⟨hall, hnd⟩
    refine ⟨fun b hb => ?_, fun b hb => ?_, hnd, fun b hb hj => ?_,
      fun b hb i hi => ?_, fun b hb => ?_, fun b hb => ?_⟩ <;> obtain ⟨n, hk⟩ := hall b hb
    · exact hk.code
    · rw [hk.serial]; rfl
    · exact (hk.instructions _ hj).1 rfl
    · exact (hk.instructions i hi).2
    · exact hk.successors
    · exact hk.predecessors
  · intro h
    refine ⟨fun b hb => ?_, h.serials⟩
    obtain ⟨n, hn⟩ := Option.isSome_iff_exists.1 (h.emitted b hb)
    exact ⟨n, h.code b hb, hn, List.not_mem_nil,
      fun i hi => ⟨fun he => h.resolved b hb (he ▸ hi), h.targets b hb i hi⟩, h.successors b hb,
      h.predecessors b hb⟩

/-! ### The paths -/

theorem leastSlot?_eq_none_iff {l : List Slot} : leastSlot? l = none ↔ l = [] := by
  cases l with
  | nil => simp [leastSlot?]
  | cons s l =>
    rw [leastSlot?]
    split <;> simp

theorem checkSlots_eq_ok_iff (hown : r.OwnIds) : r.checkSlots = .ok () ↔ r.WritesReach := by
  rw [writesReach_iff hown, checkSlots]
  cases he : r.entry? with
  | none => simp
  | some id =>
    have hund : r.undefinedOnEntry id = [] ↔ ∀ s, r.LiveFrom s id → s ∈ r.parameters := by
      simp only [undefinedOnEntry, List.filter_eq_nil_iff, decide_eq_true_eq, Decidable.not_not,
        mem_onEntry_liveSets hown]
    simp only [Option.some.injEq, forall_eq', ← hund, ← leastSlot?_eq_none_iff]
    cases leastSlot? (r.undefinedOnEntry id) <;> simp

theorem verify_eq_ok_iff (hgen : r.generated = true) (hown : r.OwnIds) :
    r.verify = .ok () ↔ r.WellBuilt ∧ r.WritesReach := by
  rw [← checkBlocks_blocks_eq_ok_iff, ← checkSlots_eq_ok_iff hown, verify, if_pos hgen]
  cases h : r.checkBlocks [] r.blocks with
  | error e => simp [bind, Except.bind]
  | ok u => simp [bind, Except.bind]

/-- **What verification decides**: a generated routine whose blocks are filed under their own ids
passes exactly if it keeps the rules for its blocks and on every path a write reaches every read.
The rounds of the liveness pass come to an end by themselves, at sets that no step changes. -/
theorem verify_eq_ok_iff_rules (r : Routine) (hgen : r.generated = true) (hown : r.OwnIds) :
    (r.verify = .ok () ↔ r.WellBuilt ∧ r.WritesReach) ∧
      r.Settled r.liveSets ∧
        ∃ n ≤ r.blocks.length * r.mentioned.length, r.liveSets = (r.liveRound)^[n] [] :=
  ⟨verify_eq_ok_iff hgen hown, liveSets_settled hown⟩

/-- A loop that negates its parameter over and over. -/
def spinning : Routine where
  anchor := ⟨"Sample", "spin", [.int], .void, .managed⟩
  parameters := [⟨.int, 0⟩]
  table := .ofBlocks [⟨⟨1⟩, .normal, some 1,
    [.operate (some ⟨.int, 1⟩) .intNeg [.slot ⟨.int, 0⟩], .assign ⟨.int, 0⟩ (.slot ⟨.int, 1⟩),
      .jump (some ⟨1⟩)], .ofList [⟨1⟩], .ofList [⟨1⟩]⟩]
  slotCount := 2
  generated := true

theorem rules_spinning : spinning.WellBuilt ∧ spinning.WritesReach := by
  have hown : spinning.OwnIds := by
    unfold OwnIds
    decide
  exact (verify_eq_ok_iff_rules spinning rfl hown).1.1 rfl

end LoopTrace.Routine
