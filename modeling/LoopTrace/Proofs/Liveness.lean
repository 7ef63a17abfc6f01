import LoopTrace.Flow.Liveness
import LoopTrace.Proofs.Tables
import Mathlib.Algebra.GroupWithZero.Nat
import Mathlib.Algebra.Order.BigOperators.Group.List
import Mathlib.Algebra.Order.Group.Nat
import Mathlib.Data.List.Perm.Subperm

/-!
# Live slots and paths

What the rounds over the blocks compute, said by paths. A path is a row of blocks from the entry on,
each a successor of the one before it; a slot is live on entry to a block if some path from there
reads it before any instruction writes it.

A round never takes a slot out of a set, so a set whose size stays stays the same, and comparing
sizes is as good as comparing sets. Every round but the last adds a slot, and only slots that the
code mentions come in, so the bound on the rounds is never what ends them (`liveSets_settled`). What
stands at the end is exactly what is live (`mem_onEntry_liveSets`).
-/

namespace LoopTrace

namespace Block

/-! ### One block -/

theorem mem_liveBefore_cons {s : Slot} {i : Instruction} {code : List Instruction}
    {after : List Slot} :
    s ∈ liveBefore (i :: code) after ↔ s ∈ i.reads ∨ s ∈ liveBefore code after ∧
      i.writes ≠ some s := by
  simp [liveBefore]

theorem liveBefore_append (code code' : List Instruction) (after : List Slot) :
    liveBefore (code ++ code') after = liveBefore code (liveBefore code' after) := List.foldr_append

theorem mem_liveBefore {s : Slot} (code : List Instruction) (after : List Slot) :
    s ∈ liveBefore code after ↔
      (∃ pre i post, code = pre ++ i :: post ∧ s ∈ i.reads ∧ ∀ j ∈ pre, j.writes ≠ some s) ∨
        s ∈ after ∧ ∀ j ∈ code, j.writes ≠ some s := by
  induction code with
  | nil => simp [liveBefore]
  | cons i code ih =>
    rw [mem_liveBefore_cons, ih]
    constructor
    · rintro (hr | ⟨⟨pre, k, post, rfl, hk, hpre⟩ | ⟨ha, hc⟩, hw⟩)
      · exact Or.inl ⟨[], i, code, rfl, hr, by simp⟩
      · exact Or.inl ⟨i :: pre, k, post, rfl, hk, by simpa using ⟨hw, hpre⟩⟩
      · exact Or.inr ⟨ha, by simpa using ⟨hw, hc⟩⟩
    · rintro (⟨pre, k, post, he, hk, hpre⟩ | ⟨ha, hc⟩)
      · cases pre with
        | nil =>
          obtain ⟨rfl, -⟩ := List.cons.inj he
          exact Or.inl hk
        | cons j pre =>
          obtain ⟨rfl, rfl⟩ := List.cons.inj he
          exact Or.inr ⟨Or.inl ⟨pre, k, post, rfl, hk,
            fun l hl => hpre l (List.mem_cons_of_mem _ hl)⟩, hpre i List.mem_cons_self⟩
      · exact Or.inr ⟨Or.inr ⟨ha, fun j hj => hc j (List.mem_cons_of_mem _ hj)⟩,
          hc i List.mem_cons_self⟩

/-- What is live before some code is what the code reads before it writes it, and what is live after
it and not written. -/
theorem mem_liveBefore_append {s : Slot} {code code' : List Instruction} :
    s ∈ liveBefore (code ++ code') [] ↔
      s ∈ liveBefore code [] ∨ s ∈ liveBefore code' [] ∧ ∀ i ∈ code, i.writes ≠ some s := by
  rw [liveBefore_append, mem_liveBefore code, mem_liveBefore code []]
  simp

theorem mem_written {b : Block} {s : Slot} : s ∈ b.written ↔ ∃ i ∈ b.code, i.writes = some s := by
  simp [written]

/-- The exposed slots are those that some instruction reads and no earlier one of the block
writes. -/
theorem mem_exposed {b : Block} {s : Slot} :
    s ∈ b.exposed ↔
      ∃ pre i post, b.code = pre ++ i :: post ∧ s ∈ i.reads ∧ ∀ j ∈ pre, j.writes ≠ some s := by
  simp [exposed, mem_liveBefore]

end Block

namespace Routine

/-! ### Paths -/

variable (r : Routine)

/-- A path from the entry: the blocks that it has passed, and the block that it has come to. -/
inductive Path : List Block → Block → Prop where
  /-- The path that has only come to the entry. -/
  | entry {id : BlockId} {b : Block} (hid : r.entry? = some id) (hb : r.block? id = some b) :
    Path [] b
  /-- The path goes on to a successor. -/
  | step {passed : List Block} {b next : Block} {id : BlockId} (h : Path passed b)
    (hid : id ∈ b.successors)
      (hb : r.block? id = some next) : Path (passed ++ [b]) next

/-- On every path from the entry, a slot that is read is a parameter, or an earlier instruction of
the path has written it. -/
def WritesReach : Prop :=
  ∀ passed b, r.Path passed b → ∀ pre i post, b.code = pre ++ i :: post → ∀ s ∈ i.reads,
    s ∈ r.parameters ∨ ∃ j ∈ passed.flatMap Block.code ++ pre, j.writes = some s

/-- Some path from a block on reads the slot before it writes it. -/
inductive LiveFrom (s : Slot) : BlockId → Prop where
  /-- The block itself does. -/
  | here {id : BlockId} {b : Block} (hb : r.block? id = some b) (hs : s ∈ b.exposed) : LiveFrom s id
  /-- The block does not write the slot, and some path from a successor on reads it. -/
  | later {id next : BlockId} {b : Block} (hb : r.block? id = some b) (hs : s ∉ b.written)
      (hid : next ∈ b.successors) (h : LiveFrom s next) : LiveFrom s id

variable {r}

theorem mem_blocks_of_block? {id : BlockId} {b : Block} (h : r.block? id = some b) : b ∈ r.blocks :=
  List.mem_map.2 ⟨(id, b), mem_of_lookup h, rfl⟩

theorem id_of_block? (hown : r.OwnIds) {id : BlockId} {b : Block} (h : r.block? id = some b) :
    b.id = id :=
  (hown (id, b) (mem_of_lookup h)).symm

theorem blockIds_eq (hown : r.OwnIds) : r.blockIds = r.blocks.map Block.id := by
  unfold blockIds blocks BlockTable.ids BlockTable.blocks
  rw [List.map_map]
  exact List.map_congr_left hown

theorem nodup_ids (hown : r.OwnIds) : (r.blocks.map Block.id).Nodup := by
  rw [← blockIds_eq hown]
  exact r.table.nodup

theorem block?_of_mem (hown : r.OwnIds) {b : Block} (hb : b ∈ r.blocks) :
    r.block? b.id = some b := by
  obtain ⟨⟨id, b⟩, he, rfl⟩ := List.mem_map.1 hb
  have hid : id = b.id := hown _ he
  subst hid
  exact lookup_of_mem r.table.nodup he

/-- A slot that is live from where a path has come to, and that the path has not written, is live
from the entry. -/
theorem LiveFrom.of_path (hown : r.OwnIds) {s : Slot} {passed : List Block} {b : Block}
    (h : r.Path passed b) (hs : ∀ j ∈ passed.flatMap Block.code, j.writes ≠ some s)
    (hl : r.LiveFrom s b.id) : ∃ id, r.entry? = some id ∧ r.LiveFrom s id := by
  induction h with
  | entry hid hb => exact ⟨_, hid, id_of_block? hown hb ▸ hl⟩
  | @step passed b next id hp hid hb ih =>
    simp only [List.flatMap_append, List.mem_append] at hs
    refine ih (fun j hj => hs j (Or.inl hj)) ?_
    rw [id_of_block? hown hb] at hl
    refine .later (block?_of_mem hown ?_) (fun hw => ?_) hid hl
    · cases hp with
      | entry _ hb => exact mem_blocks_of_block? hb
      | step _ _ hb => exact mem_blocks_of_block? hb
    · obtain ⟨i, hi, hw⟩ := Block.mem_written.1 hw
      exact hs i (Or.inr (by simpa using hi)) hw

/-- A slot that is live from where a path has come to, and that the path has not written, is read on
a path that goes on from there, and has not been written on it by then. -/
theorem LiveFrom.exists_path {s : Slot} {id : BlockId} (hl : r.LiveFrom s id) :
    ∀ passed b, r.block? id = some b → r.Path passed b →
      (∀ j ∈ passed.flatMap Block.code, j.writes ≠ some s) →
      ∃ passed' b' pre i post, r.Path passed' b' ∧ b'.code = pre ++ i :: post ∧ s ∈ i.reads ∧
        ∀ j ∈ passed'.flatMap Block.code ++ pre, j.writes ≠ some s := by
  induction hl with
  | here hb hs =>
    intro passed b' hb' hp hw
    obtain rfl : _ = b' := Option.some.inj (hb.symm.trans hb')
    obtain ⟨pre, i, post, hc, hi, hpre⟩ := Block.mem_exposed.1 hs
    refine ⟨passed, _, pre, i, post, hp, hc, hi, fun j hj => ?_⟩
    exact (List.mem_append.1 hj).elim (hw j) (hpre j)
  | @later id next b hb hs hid hl ih =>
    intro passed b' hb' hp hw
    obtain rfl : b = b' := Option.some.inj (hb.symm.trans hb')
    have hw' : ∀ j ∈ (passed ++ [b]).flatMap Block.code, j.writes ≠ some s := by
      intro j hj hjs
      simp only [List.flatMap_append, List.mem_append, List.flatMap_singleton] at hj
      exact hj.elim (fun hj => hw j hj hjs) fun hj => hs (Block.mem_written.2 ⟨j, hj, hjs⟩)
    cases hl with
    | here hb₂ hs₂ => exact ih _ _ hb₂ (.step hp hid hb₂) hw'
    | later hb₂ hs₂ hid₂ hl₂ => exact ih _ _ hb₂ (.step hp hid hb₂) hw'

/-- Every read is preceded by a write exactly if only parameters are live from the entry. -/
theorem writesReach_iff (hown : r.OwnIds) :
    r.WritesReach ↔ ∀ id, r.entry? = some id → ∀ s, r.LiveFrom s id → s ∈ r.parameters := by
  constructor
  · intro h id hid s hl
    obtain ⟨b, hb⟩ : ∃ b, r.block? id = some b := by
      cases hl with
      | here hb _ => exact ⟨_, hb⟩
      | later hb _ _ _ => exact ⟨_, hb⟩
    obtain ⟨passed, b', pre, i, post, hp, hc, hi, hw⟩ :=
      hl.exists_path [] b hb (.entry hid hb) (by simp)
    rcases h passed b' hp pre i post hc s hi with hs | ⟨j, hj, hjs⟩
    · exact hs
    · exact absurd hjs (hw j hj)
  · intro h passed b hp pre i post hc s hs
    by_cases hw : ∃ j ∈ passed.flatMap Block.code ++ pre, j.writes = some s
    · exact Or.inr hw
    · push Not at hw
      have hexp : s ∈ b.exposed :=
        Block.mem_exposed.2 ⟨pre, i, post, hc, hs, fun j hj => hw j (List.mem_append_right _ hj)⟩
      have hb : b ∈ r.blocks := by
        cases hp with
        | entry _ hb => exact mem_blocks_of_block? hb
        | step _ _ hb => exact mem_blocks_of_block? hb
      obtain ⟨id, hid, hl⟩ := LiveFrom.of_path hown hp
        (fun j hj => hw j (List.mem_append_left _ hj)) (.here (block?_of_mem hown hb) hexp)
      exact Or.inl (h id hid s hl)

/-! ### One step of a round -/

namespace LiveSets

/-- What is live on entry to a block, from what is known about its successors. -/
def before (sets : LiveSets) (b : Block) : List Slot :=
  liveIn sets b.exposed b.written b.successors.toList

/-- How many slots the sets of a routine's blocks hold together. -/
def size (sets : LiveSets) (r : Routine) : Nat :=
  (r.blocks.map fun b => (sets.onEntry b.id).length).sum

theorem onEntry_put (sets : LiveSets) (id id' : BlockId) (live : List Slot) :
    (sets.put id live).onEntry id' = if id' = id then live else sets.onEntry id' := by
  rw [put, onEntry, lookup_cons_eq]
  split
  · rfl
  · next h => rw [lookup_filter_ne, if_neg h, onEntry]

/-- What holds of the sets at all times: they list live slots, none twice, and a step can only add
to them. -/
structure Sound (sets : LiveSets) (r : Routine) : Prop where
  nodup : ∀ id, (sets.onEntry id).Nodup
  live : ∀ id, ∀ s ∈ sets.onEntry id, r.LiveFrom s id
  grows : ∀ b ∈ r.blocks, sets.onEntry b.id ⊆ sets.before b

theorem sound_nil (r : Routine) : Sound [] r :=
  ⟨fun _ => List.nodup_nil, fun _ _ h => absurd h List.not_mem_nil, fun _ _ _ h =>
    absurd h List.not_mem_nil⟩

end LiveSets

theorem mem_liveIn {sets : LiveSets} {exposed written : List Slot} {successors : List BlockId}
    {s : Slot} : s ∈ liveIn sets exposed written successors ↔
      s ∈ exposed ∨ s ∉ written ∧ ∃ id ∈ successors, s ∈ sets.onEntry id := by
  unfold liveIn
  induction successors generalizing exposed with
  | nil => simp
  | cons id successors ih =>
    rw [List.foldl_cons, ih]
    simp only [List.mem_append, List.mem_filter, List.mem_cons, decide_eq_true_eq]
    constructor
    · rintro ((h | ⟨h, hw, -⟩) | ⟨hw, id', hid, h⟩)
      · exact Or.inl h
      · exact Or.inr ⟨hw, id, Or.inl rfl, h⟩
      · exact Or.inr ⟨hw, id', Or.inr hid, h⟩
    · rintro (h | ⟨hw, id', rfl | hid, h⟩)
      · exact Or.inl (Or.inl h)
      · by_cases he : s ∈ exposed
        · exact Or.inl (Or.inl he)
        · exact Or.inl (Or.inr ⟨h, hw, he⟩)
      · exact Or.inr ⟨hw, id', hid, h⟩

theorem nodup_liveIn {sets : LiveSets} (hsets : ∀ id, (sets.onEntry id).Nodup)
    {exposed written : List Slot} (hexp : exposed.Nodup) (successors : List BlockId) :
    (liveIn sets exposed written successors).Nodup := by
  unfold liveIn
  induction successors generalizing exposed with
  | nil => exact hexp
  | cons id successors ih =>
    refine ih (List.nodup_append.2 ⟨hexp, (hsets id).filter _, ?_⟩)
    intro s hs s' hs' he
    subst he
    simp only [List.mem_filter, decide_eq_true_eq] at hs'
    exact hs'.2.2 hs

namespace LiveSets

theorem before_mono {sets sets' : LiveSets} (h : ∀ id, sets.onEntry id ⊆ sets'.onEntry id)
    (b : Block) : sets.before b ⊆ sets'.before b := by
  intro s hs
  rcases mem_liveIn.1 hs with hs | ⟨hw, id, hid, hs⟩
  · exact mem_liveIn.2 (Or.inl hs)
  · exact mem_liveIn.2 (Or.inr ⟨hw, id, hid, h id hs⟩)

theorem Sound.nodup_before {sets : LiveSets} (h : sets.Sound r) (b : Block) :
    (sets.before b).Nodup :=
  nodup_liveIn h.nodup (nodup_eraseDups _) _

/-- Sets of one size are one set, as a step can only add to a set. -/
theorem Sound.mem_before_iff {sets : LiveSets} (h : sets.Sound r) {b : Block} (hb : b ∈ r.blocks)
    (hlen : (sets.before b).length = (sets.onEntry b.id).length) {s : Slot} :
    s ∈ sets.before b ↔ s ∈ sets.onEntry b.id := by
  have hperm : (sets.onEntry b.id).Perm (sets.before b) :=
    (List.subperm_of_subset (h.nodup b.id) (h.grows b hb)).perm_of_length_le hlen.le
  exact hperm.mem_iff.symm

theorem Sound.onEntry_subset_put {sets : LiveSets} (h : sets.Sound r) {b : Block}
    (hb : b ∈ r.blocks) (id : BlockId) :
    sets.onEntry id ⊆ (sets.put b.id (sets.before b)).onEntry id := by
  rw [onEntry_put]
  split
  · next he => exact he ▸ h.grows b hb
  · exact List.Subset.refl _

theorem Sound.put {sets : LiveSets} (h : sets.Sound r) (hown : r.OwnIds) {b : Block}
    (hb : b ∈ r.blocks) : (sets.put b.id (sets.before b)).Sound r where
  nodup id := by
    rw [onEntry_put]
    split
    · exact h.nodup_before b
    · exact h.nodup id
  live id s hs := by
    rw [onEntry_put] at hs
    split at hs
    · next he =>
      subst he
      have hb' := block?_of_mem hown hb
      rcases mem_liveIn.1 hs with hs | ⟨hw, next, hid, hs⟩
      · exact .here hb' hs
      · exact .later hb' hw hid (h.live next s hs)
    · exact h.live id s hs
  grows b' hb' := by
    refine List.Subset.trans ?_ (before_mono (h.onEntry_subset_put hb) b')
    rw [onEntry_put]
    split
    · next he =>
      have : b' = b := by
        have h₁ := block?_of_mem hown hb'
        rw [he] at h₁
        exact Option.some.inj (h₁.symm.trans (block?_of_mem hown hb))
      subst this
      exact List.Subset.refl _
    · exact h.grows b' hb'

/-- A step that changes the number of slots known for a block makes the sets bigger. -/
theorem Sound.size_lt_put {sets : LiveSets} (h : sets.Sound r) {b : Block} (hb : b ∈ r.blocks)
    (hlen : (sets.before b).length ≠ (sets.onEntry b.id).length) :
    sets.size r < (sets.put b.id (sets.before b)).size r := by
  refine List.sum_lt_sum _ _ (fun b' _ => ?_) ⟨b, hb, ?_⟩
  · exact (h.nodup b'.id).length_le_of_subset (h.onEntry_subset_put hb b'.id)
  · have hle := (h.nodup b.id).length_le_of_subset (h.grows b hb)
    rw [onEntry_put, if_pos rfl]
    omega

end LiveSets

/-- The summaries from which the rounds work. -/
def summaries (r : Routine) : List Summary := r.blocks.reverse.map Summary.ofBlock

/-- One round over all blocks. -/
def liveRound (r : Routine) (sets : LiveSets) : LiveSets :=
  r.blocks.reverse.foldl (liveStep r.summaries) sets

theorem find?_summaries (hown : r.OwnIds) {b : Block} (hb : b ∈ r.blocks) :
    r.summaries.find? (·.id = b.id) = some (.ofBlock b) := by
  cases hf : r.summaries.find? (·.id = b.id) with
  | none =>
    have := List.find?_eq_none.1 hf (.ofBlock b) (List.mem_map_of_mem (List.mem_reverse.2 hb))
    simp [Summary.ofBlock] at this
  | some summary =>
    have hid := List.find?_some hf
    obtain ⟨b', hb', rfl⟩ := List.mem_map.1 (List.mem_of_find?_eq_some hf)
    have h₁ := block?_of_mem hown (List.mem_reverse.1 hb')
    rw [show b'.id = b.id from of_decide_eq_true hid] at h₁
    rw [Option.some.inj (h₁.symm.trans (block?_of_mem hown hb))]

theorem liveStep_eq (hown : r.OwnIds) {b : Block} (hb : b ∈ r.blocks) (sets : LiveSets) :
    liveStep r.summaries sets b =
      if (sets.before b).length = (sets.onEntry b.id).length then sets
      else sets.put b.id (sets.before b) := by
  rw [liveStep, find?_summaries hown hb]
  rfl

/-! ### Rounds -/

/-- No step changes the sets any more. -/
def Settled (r : Routine) (sets : LiveSets) : Prop :=
  ∀ b ∈ r.blocks, liveStep r.summaries sets b = sets

/-- Steps over some blocks keep what holds of the sets, and they make the sets bigger unless none of
them changes anything. -/
theorem foldl_liveStep (hown : r.OwnIds) {bs : List Block} (hbs : ∀ b ∈ bs, b ∈ r.blocks)
    {sets : LiveSets} (h : sets.Sound r) :
    (bs.foldl (liveStep r.summaries) sets).Sound r ∧
      ((∀ b ∈ bs, liveStep r.summaries sets b = sets) ∧
        bs.foldl (liveStep r.summaries) sets = sets ∨
        sets.size r < (bs.foldl (liveStep r.summaries) sets).size r) := by
  induction bs generalizing sets with
  | nil => exact ⟨h, Or.inl ⟨by simp, rfl⟩⟩
  | cons b bs ih =>
    have hb := hbs b List.mem_cons_self
    have hbs' := fun b' hb' => hbs b' (List.mem_cons_of_mem _ hb')
    rw [List.foldl_cons]
    by_cases hlen : (sets.before b).length = (sets.onEntry b.id).length
    · have hstep : liveStep r.summaries sets b = sets := by rw [liveStep_eq hown hb, if_pos hlen]
      rw [hstep]
      obtain ⟨hs, ⟨hall, he⟩ | hlt⟩ := ih hbs' h
      · exact ⟨hs, Or.inl ⟨by simpa using ⟨hstep, hall⟩, he⟩⟩
      · exact ⟨hs, Or.inr hlt⟩
    · have hstep : liveStep r.summaries sets b = sets.put b.id (sets.before b) := by
        rw [liveStep_eq hown hb, if_neg hlen]
      have hlt := h.size_lt_put hb hlen
      rw [hstep]
      obtain ⟨hs, ⟨-, he⟩ | hlt'⟩ := ih hbs' (h.put hown hb)
      · exact ⟨hs, Or.inr (by rw [he]; exact hlt)⟩
      · exact ⟨hs, Or.inr (hlt.trans hlt')⟩

theorem sound_liveRound (hown : r.OwnIds) {sets : LiveSets} (h : sets.Sound r) :
    (r.liveRound sets).Sound r :=
  (foldl_liveStep hown (fun _ hb => List.mem_reverse.1 hb) h).1

/-- A round either finds the sets settled or makes them bigger. -/
theorem settled_or_size_lt (hown : r.OwnIds) {sets : LiveSets} (h : sets.Sound r) :
    r.Settled sets ∧ r.liveRound sets = sets ∨ sets.size r < (r.liveRound sets).size r := by
  rcases (foldl_liveStep hown (fun _ hb => List.mem_reverse.1 hb) h).2 with ⟨hall, he⟩ | hlt
  · exact Or.inl ⟨fun b hb => hall b (List.mem_reverse.2 hb), he⟩
  · exact Or.inr hlt

theorem LiveFrom.mem_mentioned {s : Slot} {id : BlockId} (h : r.LiveFrom s id) :
    s ∈ r.mentioned := by
  induction h with
  | here hb hs =>
    obtain ⟨pre, i, post, hc, hi, -⟩ := Block.mem_exposed.1 hs
    refine List.mem_eraseDups.2 (List.mem_flatMap.2 ⟨_, mem_blocks_of_block? hb, ?_⟩)
    exact List.mem_flatMap.2 ⟨i, by rw [hc]; simp, hi⟩
  | later _ _ _ _ ih => exact ih

theorem LiveSets.Sound.size_le {sets : LiveSets} (h : sets.Sound r) :
    sets.size r ≤ r.blocks.length * r.mentioned.length := by
  have hle : ∀ n ∈ r.blocks.map fun b => (sets.onEntry b.id).length, n ≤ r.mentioned.length := by
    intro n hn
    obtain ⟨b, -, rfl⟩ := List.mem_map.1 hn
    exact (h.nodup b.id).length_le_of_subset fun s hs => (h.live b.id s hs).mem_mentioned
  simpa [size] using List.sum_le_card_nsmul _ _ hle

/-- With more rounds to go than the sets can still grow, the sets get settled. -/
theorem liveRounds_spec (hown : r.OwnIds) (limit : Nat) {sets : LiveSets} (h : sets.Sound r)
    (hlimit : r.blocks.length * r.mentioned.length < sets.size r + limit) :
    (liveRounds r.summaries r.blocks.reverse limit sets).Sound r ∧
      r.Settled (liveRounds r.summaries r.blocks.reverse limit sets) ∧
        ∃ n < limit,
          liveRounds r.summaries r.blocks.reverse limit sets = (r.liveRound)^[n] sets := by
  induction limit generalizing sets with
  | zero => exact absurd h.size_le (by omega)
  | succ limit ih =>
    have hround : r.blocks.reverse.foldl (liveStep r.summaries) sets = r.liveRound sets := rfl
    rw [liveRounds, hround]
    rcases settled_or_size_lt hown h with ⟨hset, he⟩ | hlt
    · rw [if_pos he]
      exact ⟨h, hset, 0, by omega, rfl⟩
    · have hne : r.liveRound sets ≠ sets := fun he => by
        rw [he] at hlt; exact absurd hlt (lt_irrefl _)
      rw [if_neg hne]
      obtain ⟨hs, hset, n, hn, he⟩ := ih (sound_liveRound hown h) (by omega)
      exact ⟨hs, hset, n + 1, by omega, he⟩

/-- The rounds end with sets that no step changes, before the bound on their number is reached. -/
theorem liveSets_settled (hown : r.OwnIds) :
    r.Settled r.liveSets ∧
      ∃ n ≤ r.blocks.length * r.mentioned.length, r.liveSets = (r.liveRound)^[n] [] := by
  obtain ⟨-, hset, n, hn, he⟩ := liveRounds_spec hown (r.blocks.length * r.mentioned.length + 1)
    (LiveSets.sound_nil r) (by omega)
  exact ⟨hset, n, by omega, he⟩

theorem sound_liveSets (hown : r.OwnIds) : LiveSets.Sound r.liveSets r :=
  (liveRounds_spec hown _ (LiveSets.sound_nil r) (by omega)).1

/-- **Liveness**: the sets at the end hold exactly the slots that some path reads before it writes
them. -/
theorem mem_onEntry_liveSets (hown : r.OwnIds) {s : Slot} {id : BlockId} :
    s ∈ LiveSets.onEntry r.liveSets id ↔ r.LiveFrom s id := by
  have hs := sound_liveSets hown
  refine ⟨hs.live id s, fun hl => ?_⟩
  have hclosed : ∀ b ∈ r.blocks, s ∈ LiveSets.before r.liveSets b →
      s ∈ LiveSets.onEntry r.liveSets b.id := by
    intro b hb hsb
    have hset := (liveSets_settled hown).1 b hb
    rw [liveStep_eq hown hb] at hset
    by_cases hlen : (LiveSets.before r.liveSets b).length =
      (LiveSets.onEntry r.liveSets b.id).length
    · exact (hs.mem_before_iff hb hlen).1 hsb
    · rw [if_neg hlen] at hset
      rw [← hset, LiveSets.onEntry_put, if_pos rfl]
      exact hsb
  induction hl with
  | here hb hexp =>
    rw [← id_of_block? hown hb]
    exact hclosed _ (mem_blocks_of_block? hb) (mem_liveIn.2 (Or.inl hexp))
  | later hb hw hid _ ih =>
    rw [← id_of_block? hown hb]
    exact hclosed _ (mem_blocks_of_block? hb) (mem_liveIn.2 (Or.inr ⟨hw, _, hid, ih⟩))

end Routine

end LoopTrace
