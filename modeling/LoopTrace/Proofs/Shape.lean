import LoopTrace.Guard
import LoopTrace.Lowering.Layout
import LoopTrace.Proofs.Verification
import Mathlib.Data.List.Nodup

/-!
# The shape of a lowered trace

The blocks of a layout whose loop is chained: every block of it but the last ends in a guard's exit
that goes on to the next one. Such a routine keeps all the rules for blocks, and its paths are
known: control comes to a block of the loop only along those before it, and a slot that is read
before it is written is one of the straight code, the prologue followed by one iteration
(`verify_routine_iff`).
-/

namespace LoopTrace

namespace BlockSet

@[simp] theorem mem_ofList {ids : List BlockId} {id : BlockId} : id ∈ ofList ids ↔ id ∈ ids := by
  have h : ∀ (ids : List BlockId) (s : BlockSet), id ∈ ids.foldl insert s ↔ id ∈ s ∨ id ∈ ids := by
    intro ids
    induction ids with
    | nil => simp
    | cons id' ids ih => intro s; rw [List.foldl_cons, ih, mem_insert, List.mem_cons, or_assoc]
  rw [ofList, h]
  exact or_iff_right (List.not_mem_nil (a := id))

end BlockSet

namespace BlockTable

theorem put_of_not_mem {id : BlockId} {b : Block} {entries : List (BlockId × Block)}
    (h : id ∉ entries.map Prod.fst) : put id b entries = entries ++ [(id, b)] := by
  induction entries with
  | nil => rfl
  | cons entry entries ih =>
    rw [List.map_cons, List.mem_cons, not_or] at h
    rw [put, if_neg (Ne.symm h.1), ih h.2, List.cons_append]

/-- Blocks with ids of their own are filed in their order. -/
theorem entries_ofBlocks {bs : List Block} (h : (bs.map Block.id).Nodup) :
    (ofBlocks bs).entries = bs.map fun b => (b.id, b) := by
  have hfold : ∀ (bs : List Block) (t : BlockTable), (t.ids ++ bs.map Block.id).Nodup →
      ((bs.map fun b => (b.id, b)).foldl (fun t entry => t.file entry.1 entry.2) t).entries =
        t.entries ++ bs.map fun b => (b.id, b) := by
    intro bs
    induction bs with
    | nil => simp
    | cons b bs ih =>
      intro t ht
      have hb : b.id ∉ t.entries.map Prod.fst := fun hm =>
        (List.nodup_append.1 ht).2.2 b.id hm b.id List.mem_cons_self rfl
      have he : (t.file b.id b).entries = t.entries ++ [(b.id, b)] := put_of_not_mem hb
      rw [List.map_cons, List.foldl_cons, ih, he, List.append_assoc, List.singleton_append]
      have hids : (t.file b.id b).ids = t.ids ++ [b.id] := by
        rw [ids, he, List.map_append]
        rfl
      rwa [hids, List.append_assoc]
  rw [ofBlocks, ofList, hfold bs empty h]
  rfl

end BlockTable

namespace Layout

/-- Code without branches. -/
def Straight (code : List Instruction) : Prop := ∀ i ∈ code, i.isTerminator = false

/-- A row of blocks each of which but the last ends in a guard's exit to the next one. -/
inductive Chained (tagSlot : Slot) : List (List Instruction) → Prop where
  | last {code : List Instruction} (h : Straight code) : Chained tagSlot [code]
  | guarded {code next : List Instruction} {rest : List (List Instruction)}
      (h : Straight code) (g : GuardExit) (chained : Chained tagSlot (next :: rest)) :
      Chained tagSlot ((code ++ g.code tagSlot bailoutId ⟨rest.length + 1⟩) :: next :: rest)

theorem Straight.append {code code' : List Instruction} (h : Straight code) (h' : Straight code') :
    Straight (code ++ code') := fun i hi => (List.mem_append.1 hi).elim (h i) (h' i)

theorem Chained.prepend {tagSlot : Slot} {code code' : List Instruction}
    {rest : List (List Instruction)} (h : Chained tagSlot (code :: rest)) (h' : Straight code') :
    Chained tagSlot ((code' ++ code) :: rest) := by
  cases h with
  | last hs => exact .last (h'.append hs)
  | guarded hs g hc => rw [← List.append_assoc]; exact .guarded (h'.append hs) g hc

theorem Straight.targets {code : List Instruction} (h : Straight code) {i : Instruction}
    (hi : i ∈ code) : i.targets = [] ∧ i ≠ .jump none := by
  have ht := h i hi
  cases i with
  | branch => cases ht
  | jump target => cases ht
  | _ => exact ⟨rfl, by simp⟩

variable (l : Layout)

/-- A block of the loop, from its code and that of the blocks after it. -/
def loopBlock (code : List Instruction) (rest : List (List Instruction)) : Block where
  id := ⟨rest.length + 1⟩
  role := .normal
  serial := some (rest.length + 1)
  code := if rest = [] then code ++ [.jump (some l.header)] else code
  predecessors := .ofList (l.loopPredecessors ⟨rest.length + 1⟩)
  successors := .ofList (if rest = [] then [l.header] else [⟨rest.length⟩, bailoutId])

theorem loopBlocks_cons (code : List Instruction) (rest : List (List Instruction)) :
    l.loopBlocks (code :: rest) = l.loopBlock code rest :: l.loopBlocks rest := by
  cases rest with
  | nil => rfl
  | cons next rest => rfl

theorem mem_loopBlocks {cs : List (List Instruction)} {b : Block} :
    b ∈ l.loopBlocks cs ↔ ∃ pre code rest, cs = pre ++ code :: rest ∧
      b = l.loopBlock code rest := by
  induction cs with
  | nil => simp [loopBlocks]
  | cons code rest ih =>
    rw [loopBlocks_cons, List.mem_cons, ih]
    constructor
    · rintro (rfl | ⟨pre, code', rest', rfl, rfl⟩)
      · exact ⟨[], code, rest, rfl, rfl⟩
      · exact ⟨code :: pre, code', rest', rfl, rfl⟩
    · rintro ⟨pre, code', rest', he, rfl⟩
      cases pre with
      | nil =>
        obtain ⟨rfl, rfl⟩ := List.cons.inj he
        exact Or.inl rfl
      | cons c pre =>
        obtain ⟨rfl, rfl⟩ := List.cons.inj he
        exact Or.inr ⟨pre, code', rest', rfl, rfl⟩

/-- The prologue's block. -/
def prologueBlock : Block :=
  ⟨⟨l.loop.length + 1⟩, .normal, some (l.loop.length + 1), l.prologue, .empty, .ofList [l.header]⟩

theorem prologueBlocks_eq :
    l.prologueBlocks = if l.prologue = [] then [] else [l.prologueBlock] := by
  rw [prologueBlocks, prologueId?]
  by_cases h : l.prologue = [] <;> simp [h, prologueBlock]

theorem prologueId?_eq :
    l.prologueId?.toList = if l.prologue = [] then [] else [⟨l.loop.length + 1⟩] := by
  rw [prologueId?]
  by_cases h : l.prologue = [] <;> simp [h]

theorem mem_blocks {b : Block} :
    b ∈ l.blocks ↔ (l.prologue ≠ [] ∧ b = l.prologueBlock) ∨
      (∃ pre code rest, l.loop = pre ++ code :: rest ∧ b = l.loopBlock code rest) ∨
      b = l.bailoutBlock := by
  rw [blocks, prologueBlocks_eq, List.mem_append, List.mem_append, mem_loopBlocks, or_assoc,
    List.mem_singleton]
  by_cases h : l.prologue = [] <;> simp [h]

/-! ### Ids -/

theorem map_index_loopBlocks (cs : List (List Instruction)) :
    (l.loopBlocks cs).map (fun b => b.id.index) = (List.range' 1 cs.length).reverse := by
  induction cs with
  | nil => rfl
  | cons code rest ih =>
    rw [loopBlocks_cons, List.map_cons, ih, List.length_cons, List.range'_1_concat,
      List.reverse_append, Nat.add_comm]
    rfl

/-- The ids go down by one from block to block. -/
theorem nodup_ids : (l.blocks.map Block.id).Nodup := by
  have hindex : (l.blocks.map fun b => b.id.index).Nodup := by
    rw [blocks, List.map_append, List.map_append, map_index_loopBlocks, prologueBlocks_eq]
    have hloop : ((List.range' 1 l.loop.length).reverse ++
        [l.bailoutBlock].map fun b => b.id.index).Nodup := by
      refine List.nodup_append.2 ⟨List.nodup_reverse.2 List.nodup_range', List.nodup_singleton _,
        fun a ha b hb => ?_⟩
      have ha := (List.mem_range'_1.1 (List.mem_reverse.1 ha)).1
      obtain rfl := List.mem_singleton.1 hb
      exact Nat.ne_of_gt ha
    rw [List.append_assoc]
    refine List.nodup_append.2 ⟨?_, hloop, fun a ha b hb => ?_⟩
    · split <;> simp
    · split at ha
      · exact absurd ha List.not_mem_nil
      · have ha : a = l.loop.length + 1 := by simpa [prologueBlock] using ha
        rcases List.mem_append.1 hb with hb | hb
        · have := (List.mem_range'_1.1 (List.mem_reverse.1 hb)).2
          omega
        · have hb : b = 0 := by simpa [bailoutBlock, bailoutId] using hb
          omega
  refine List.Nodup.of_map BlockId.index ?_
  rwa [List.map_map]

section Routine

variable (anchor : Signature) (parameters : List Slot) (n : Nat)

theorem entries_routine :
    (l.routine anchor parameters n).table.entries = l.blocks.map fun b => (b.id, b) :=
  BlockTable.entries_ofBlocks l.nodup_ids

theorem blocks_routine : (l.routine anchor parameters n).blocks = l.blocks := by
  rw [Routine.blocks, BlockTable.blocks, entries_routine, List.map_map]
  exact List.map_id _

theorem ownIds_routine : (l.routine anchor parameters n).OwnIds := by
  intro entry he
  rw [entries_routine] at he
  obtain ⟨b, -, rfl⟩ := List.mem_map.1 he
  rfl

theorem block?_routine {b : Block} (hb : b ∈ l.blocks) :
    (l.routine anchor parameters n).block? b.id = some b :=
  Routine.block?_of_mem (l.ownIds_routine anchor parameters n) (by rwa [blocks_routine])

/-- The first block is the prologue's, or that of the loop's beginning. -/
theorem entry?_routine (hloop : l.loop ≠ []) :
    Routine.entry? (l.routine anchor parameters n) =
      some (if l.prologue = [] then l.header else ⟨l.loop.length + 1⟩) := by
  obtain ⟨code, rest, he⟩ := List.exists_cons_of_ne_nil hloop
  rw [ Routine.entry?, Routine.blockIds_eq (l.ownIds_routine anchor parameters n),
    blocks_routine, blocks, prologueBlocks_eq, he, loopBlocks_cons]
  by_cases h : l.prologue = []
  · simp [h, loopBlock, header, he]
  · simp [h, prologueBlock, he]

end Routine

/-! ### The rules for blocks -/

/-- Some block of the loop has a given number. -/
theorem exists_suffix {k : Nat} (h₁ : 1 ≤ k) (h₂ : k ≤ l.loop.length) :
    ∃ pre code rest, l.loop = pre ++ code :: rest ∧ rest.length + 1 = k := by
  have hlen : l.loop.length - k < l.loop.length := by omega
  refine ⟨l.loop.take (l.loop.length - k), l.loop[l.loop.length - k], l.loop.drop
    (l.loop.length - k + 1), ?_, ?_⟩
  · rw [List.cons_getElem_drop_succ, List.take_append_drop]
  · rw [List.length_drop]
    omega

/-- The parts of a layout are what the walk leaves: a prologue without branches, a chained loop, and
a bailout that has code, no branches, and reads at most the slot for the tag. -/
structure Shaped (tagSlot : Slot) : Prop where
  prologue : Straight l.prologue
  loop : Chained tagSlot l.loop
  bailout : l.bailout ≠ []
  leaves : ∀ i ∈ l.bailout, i.targets = [] ∧ i ≠ .jump none
  reads : ∀ i ∈ l.bailout, ∀ s ∈ i.reads, s = tagSlot

variable {l} {tagSlot : Slot}

theorem Chained.ne_nil {cs : List (List Instruction)} (h : Chained tagSlot cs) : cs ≠ [] := by
  cases h <;> simp

theorem Chained.suffix {cs pre rest : List (List Instruction)} {code : List Instruction}
    (h : Chained tagSlot cs) (he : cs = pre ++ code :: rest) : Chained tagSlot (code :: rest) := by
  induction pre generalizing cs with
  | nil => rwa [he] at h
  | cons c pre ih =>
    refine ih ?_ rfl
    cases hp : pre ++ code :: rest with
    | nil => exact absurd hp (by simp)
    | cons next rest' =>
      rw [he, List.cons_append, hp] at h
      cases h with
      | guarded _ _ hc => exact hc

/-- Where the code of a block of the loop may go. -/
theorem Chained.targets {code : List Instruction} {rest : List (List Instruction)}
    (h : Chained tagSlot (code :: rest)) {i : Instruction} (hi : i ∈ code) :
    i ≠ .jump none ∧ ∀ id ∈ i.targets, rest ≠ [] ∧ (id = ⟨rest.length⟩ ∨ id = bailoutId) := by
  cases h with
  | last hs =>
    obtain ⟨ht, hj⟩ := hs.targets hi
    exact ⟨hj, fun id hid => by rw [ht] at hid; exact absurd hid List.not_mem_nil⟩
  | guarded hs g _ =>
    rcases List.mem_append.1 hi with hi | hi
    · obtain ⟨ht, hj⟩ := hs.targets hi
      exact ⟨hj, fun id hid => by rw [ht] at hid; exact absurd hid List.not_mem_nil⟩
    · simp only [GuardExit.code, List.mem_cons, List.not_mem_nil, or_false] at hi
      rcases hi with rfl | rfl | rfl
      · exact ⟨by simp, by simp [Instruction.targets]⟩
      · exact ⟨by simp, by simp [Instruction.targets]⟩
      · refine ⟨by simp, fun id hid => ⟨by simp, ?_⟩⟩
        simp only [Instruction.targets, List.mem_append, List.mem_cons, List.not_mem_nil,
          or_false] at hid
        rcases hid with rfl | rfl
        · exact Or.inr rfl
        · exact Or.inl rfl

section Blocks

variable (anchor : Signature) (parameters : List Slot) (n : Nat)
    {pre rest : List (List Instruction)}
  {code : List Instruction}

theorem block?_loopBlock (he : l.loop = pre ++ code :: rest) :
    (l.routine anchor parameters n).block? ⟨rest.length + 1⟩ = some (l.loopBlock code rest) :=
  l.block?_routine anchor parameters n (b := l.loopBlock code rest)
    (l.mem_blocks.2 (Or.inr (Or.inl ⟨pre, code, rest, he, rfl⟩)))

theorem block?_bailoutBlock :
    (l.routine anchor parameters n).block? bailoutId = some l.bailoutBlock :=
  l.block?_routine anchor parameters n (b := l.bailoutBlock) (l.mem_blocks.2 (Or.inr (Or.inr rfl)))

theorem block?_prologueBlock (h : l.prologue ≠ []) :
    (l.routine anchor parameters n).block? ⟨l.loop.length + 1⟩ = some l.prologueBlock :=
  l.block?_routine anchor parameters n (b := l.prologueBlock) (l.mem_blocks.2 (Or.inl ⟨h, rfl⟩))

theorem header_eq (he : l.loop = code :: rest) : l.header = ⟨rest.length + 1⟩ := by
  rw [header, he, List.length_cons]

theorem mem_successors_loopBlock {id : BlockId} :
    id ∈ (l.loopBlock code rest).successors ↔
      if rest = [] then id = l.header else id = ⟨rest.length⟩ ∨ id = bailoutId := by
  by_cases h : rest = [] <;> simp [loopBlock, h]

/-- The first block of the loop is entered from the last one and from the prologue. -/
theorem mem_predecessors_header {id : BlockId} (he : l.loop = code :: rest) :
    id ∈ (l.loopBlock code rest).predecessors ↔ id = lastId ∨ l.prologue ≠ [] ∧
      id = ⟨l.loop.length + 1⟩ := by
  have hp : l.loopPredecessors ⟨rest.length + 1⟩ = lastId :: l.prologueId?.toList := by
    rw [loopPredecessors, header_eq he, if_pos rfl]
  have : (l.loopBlock code rest).predecessors =
      .ofList (l.loopPredecessors ⟨rest.length + 1⟩) := rfl
  rw [this, hp, BlockSet.mem_ofList, List.mem_cons, prologueId?_eq]
  by_cases h : l.prologue = [] <;> simp [h]

/-- Any other block of the loop is entered from the block before it. -/
theorem mem_predecessors_next {id : BlockId} {c : List Instruction}
    (he : l.loop = pre ++ c :: code :: rest) :
    id ∈ (l.loopBlock code rest).predecessors ↔ id = ⟨rest.length + 2⟩ := by
  have hne : (⟨rest.length + 1⟩ : BlockId) ≠ l.header := by
    rw [header, he, ne_eq, BlockId.mk.injEq]
    simp only [List.length_append, List.length_cons]
    omega
  have : (l.loopBlock code rest).predecessors =
      .ofList (l.loopPredecessors ⟨rest.length + 1⟩) := rfl
  rw [this, loopPredecessors, if_neg hne, BlockSet.mem_ofList, List.mem_singleton]

theorem mem_predecessors_bailout {id : BlockId} :
    id ∈ l.bailoutBlock.predecessors ↔ ∃ k, k + 1 < l.loop.length ∧ id = ⟨k + 2⟩ := by
  have : l.bailoutBlock.predecessors =
      .ofList ((List.range (l.loop.length - 1)).map fun k => ⟨k + 2⟩) := rfl
  rw [this, BlockSet.mem_ofList, List.mem_map]
  refine exists_congr fun k => ?_
  rw [List.mem_range]
  exact and_congr (by omega) eq_comm

/-- Successors list their predecessors. -/
theorem listed_successors (hloop : l.loop ≠ []) {b : Block} (hb : b ∈ l.blocks) {id : BlockId}
    (hid : id ∈ b.successors) :
    ∃ b', (l.routine anchor parameters n).block? id = some b' ∧ b.id ∈ b'.predecessors := by
  obtain ⟨first, others, hfirst⟩ := List.exists_cons_of_ne_nil hloop
  have hfirst' : l.loop = [] ++ first :: others := hfirst
  have hheader : (l.routine anchor parameters n).block? l.header =
      some (l.loopBlock first others) := by
    rw [header_eq hfirst]
    exact block?_loopBlock anchor parameters n hfirst'
  rcases l.mem_blocks.1 hb with ⟨hp, rfl⟩ | ⟨pre, code, rest, he, rfl⟩ | rfl
  · have hid : id = l.header := by simpa [prologueBlock] using hid
    subst hid
    exact ⟨_, hheader, (mem_predecessors_header hfirst).2 (Or.inr ⟨hp, rfl⟩)⟩
  · rw [mem_successors_loopBlock] at hid
    cases rest with
    | nil =>
      rw [if_pos rfl] at hid
      subst hid
      exact ⟨_, hheader, (mem_predecessors_header hfirst).2 (Or.inl rfl)⟩
    | cons next rest =>
      rw [if_neg (by simp)] at hid
      rcases hid with rfl | rfl
      · have he' : l.loop = (pre ++ [code]) ++ next :: rest := by rw [he]; simp
        exact ⟨_, block?_loopBlock anchor parameters n he', (mem_predecessors_next he).2 rfl⟩
      · refine ⟨_, block?_bailoutBlock anchor parameters n, mem_predecessors_bailout.2
          ⟨rest.length, ?_, rfl⟩⟩
        rw [he]
        simp only [List.length_append, List.length_cons]
        omega
  · exact absurd hid List.not_mem_nil

/-- Predecessors list their successors. -/
theorem listed_predecessors {b : Block} (hb : b ∈ l.blocks) {id : BlockId}
    (hid : id ∈ b.predecessors) :
    ∃ b', (l.routine anchor parameters n).block? id = some b' ∧ b.id ∈ b'.successors := by
  rcases l.mem_blocks.1 hb with ⟨hp, rfl⟩ | ⟨pre, code, rest, he, rfl⟩ | rfl
  · exact absurd hid List.not_mem_nil
  · rcases List.eq_nil_or_concat pre with rfl | ⟨pre, c, rfl⟩
    · rcases (mem_predecessors_header he).1 hid with rfl | ⟨hp, rfl⟩
      · obtain ⟨pre', code', rest', he', hlen⟩ := l.exists_suffix (k := 1) (Nat.le_refl 1)
          (by rw [he]; simp)
        obtain rfl : rest' = [] := List.length_eq_zero_iff.1 (by omega)
        refine ⟨_, block?_loopBlock anchor parameters n he', mem_successors_loopBlock.2 ?_⟩
        rw [if_pos rfl]
        exact (header_eq he).symm
      · refine ⟨_, block?_prologueBlock anchor parameters n hp, ?_⟩
        exact BlockSet.mem_ofList.2 (List.mem_singleton.2 (header_eq he).symm)
    · have he' : l.loop = pre ++ c :: code :: rest := by rw [he]; simp
      obtain rfl := (mem_predecessors_next he').1 hid
      refine ⟨_, block?_loopBlock anchor parameters n he', mem_successors_loopBlock.2 ?_⟩
      rw [if_neg (by simp)]
      exact Or.inl rfl
  · obtain ⟨k, hk, rfl⟩ := mem_predecessors_bailout.1 hid
    obtain ⟨pre', code', rest', he', hlen⟩ := l.exists_suffix (k := k + 2) (by omega) (by omega)
    have hid : (⟨k + 2⟩ : BlockId) = ⟨rest'.length + 1⟩ := by rw [hlen]
    have hne : rest' ≠ [] := by
      rintro rfl
      simp at hlen
    rw [hid]
    refine ⟨_, block?_loopBlock anchor parameters n he', mem_successors_loopBlock.2 ?_⟩
    rw [if_neg hne]
    exact Or.inr rfl

/-- Where the code of a block goes. -/
theorem listed_targets (h : l.Shaped tagSlot) {b : Block} (hb : b ∈ l.blocks) {i : Instruction}
    (hi : i ∈ b.code) : i ≠ .jump none ∧ ∀ id ∈ i.targets, id ∈ b.successors := by
  have hno : ∀ {i : Instruction} {successors : BlockSet}, i.targets = [] ∧ i ≠ .jump none →
      i ≠ .jump none ∧ ∀ id ∈ i.targets, id ∈ successors := fun h =>
    ⟨h.2, fun id hid => by rw [h.1] at hid; exact absurd hid List.not_mem_nil⟩
  rcases l.mem_blocks.1 hb with ⟨hp, rfl⟩ | ⟨pre, code, rest, he, rfl⟩ | rfl
  · exact hno (h.prologue.targets hi)
  · have hsuffix : Chained tagSlot (code :: rest) := h.loop.suffix he
    have hcode : ∀ i ∈ code, i ≠ .jump none ∧
        ∀ id ∈ i.targets, id ∈ (l.loopBlock code rest).successors := by
      intro i hi
      obtain ⟨hj, ht⟩ := hsuffix.targets hi
      refine ⟨hj, fun id hid => ?_⟩
      obtain ⟨hr, hid⟩ := ht id hid
      rw [mem_successors_loopBlock, if_neg hr]
      exact hid
    by_cases hr : rest = []
    · have hi : i ∈ code ++ [.jump (some l.header)] := by simpa only [loopBlock, if_pos hr] using hi
      rcases List.mem_append.1 hi with hi | hi
      · exact hcode i hi
      · obtain rfl := List.mem_singleton.1 hi
        refine ⟨by simp, fun id hid => ?_⟩
        rw [mem_successors_loopBlock, if_pos hr]
        exact List.mem_singleton.1 hid
    · exact hcode i (by simpa only [loopBlock, if_neg hr] using hi)
  · exact hno (h.leaves i hi)

theorem wellBuilt_routine (h : l.Shaped tagSlot) : (l.routine anchor parameters n).WellBuilt := by
  have hblocks := l.blocks_routine anchor parameters n
  have hserial : ∀ b ∈ l.blocks, b.serial = some b.id.index := by
    intro b hb
    rcases l.mem_blocks.1 hb with ⟨-, rfl⟩ | ⟨pre, code, rest, -, rfl⟩ | rfl <;> rfl
  refine ⟨?_, ?_, ?_, ?_, ?_, ?_, ?_⟩ <;> rw [hblocks]
  · intro b hb
    rcases l.mem_blocks.1 hb with ⟨hp, rfl⟩ | ⟨pre, code, rest, he, rfl⟩ | rfl
    · exact hp
    · have hsuffix : Chained tagSlot (code :: rest) := h.loop.suffix he
      by_cases hr : rest = []
      · simp [loopBlock, hr]
      · cases hsuffix with
        | last => exact absurd rfl hr
        | guarded _ g _ => simp [loopBlock, GuardExit.code]
    · exact h.bailout
  · intro b hb
    rw [hserial b hb]
    rfl
  · have hmap : l.blocks.map Block.serial =
        (l.blocks.map Block.id).map fun id => some id.index := by
      rw [List.map_map]
      exact List.map_congr_left hserial
    rw [hmap]
    refine l.nodup_ids.map fun id id' he => ?_
    cases id
    cases id'
    exact congrArg BlockId.mk (Option.some.inj he)
  · exact fun b hb hj => (listed_targets h hb hj).1 rfl
  · intro b hb i hi id hid
    have hs := (listed_targets h hb hi).2 id hid
    obtain ⟨b', hb', -⟩ := listed_successors anchor parameters n h.loop.ne_nil hb hs
    exact ⟨⟨b', hb'⟩, hs⟩
  · exact fun b hb id hid => listed_successors anchor parameters n h.loop.ne_nil hb hid
  · exact fun b hb id hid => listed_predecessors anchor parameters n hb hid

/-! ### What is live on entry -/

/-- Only the bailout reads the slot for the tag, and every exit to it writes the slot before. -/
theorem Shaped.liveFrom_bailout (h : l.Shaped tagSlot) {s : Slot}
    (hl : (l.routine anchor parameters n).LiveFrom s bailoutId) : s = tagSlot := by
  cases hl with
  | here hb hs =>
    obtain rfl := Option.some.inj ((block?_bailoutBlock anchor parameters n).symm.trans hb)
    obtain ⟨pre, i, post, he, hi, -⟩ := Block.mem_exposed.1 hs
    have he : l.bailout = pre ++ i :: post := he
    exact h.reads i (by rw [he]; simp) s hi
  | later hb hs hid hl =>
    obtain rfl := Option.some.inj ((block?_bailoutBlock anchor parameters n).symm.trans hb)
    exact absurd hid List.not_mem_nil

theorem mem_exposed_loopBlock {s : Slot} : s ∈ (l.loopBlock code rest).exposed ↔
    s ∈ Block.liveBefore code [] := by
  by_cases hr : rest = []
  · have hcode : (l.loopBlock code rest).code = code ++ [.jump (some l.header)] := if_pos hr
    have hjump : Block.liveBefore [.jump (some l.header)] [] = [] := rfl
    rw [Block.exposed, List.mem_eraseDups, hcode, Block.liveBefore_append, hjump]
  · have hcode : (l.loopBlock code rest).code = code := if_neg hr
    rw [Block.exposed, List.mem_eraseDups, hcode]

theorem not_mem_written_loopBlock {s : Slot} :
    s ∉ (l.loopBlock code rest).written ↔ ∀ i ∈ code, i.writes ≠ some s := by
  rw [Block.mem_written, not_exists]
  by_cases hr : rest = []
  · have hcode : (l.loopBlock code rest).code = code ++ [.jump (some l.header)] := if_pos hr
    simp [hcode, Instruction.writes, or_imp, forall_and]
  · have hcode : (l.loopBlock code rest).code = code := if_neg hr
    simp [hcode]

/-- What the rest of an iteration reads before it writes it is live from its block on. -/
theorem liveFrom_of_mem_liveBefore (he : l.loop = pre ++ code :: rest) {s : Slot}
    (hs : s ∈ Block.liveBefore (code ++ rest.flatten) []) :
    (l.routine anchor parameters n).LiveFrom s ⟨rest.length + 1⟩ := by
  induction rest generalizing pre code with
  | nil =>
    rw [List.flatten_nil, List.append_nil] at hs
    exact .here (block?_loopBlock anchor parameters n he) (mem_exposed_loopBlock.2 hs)
  | cons next rest ih =>
    rcases Block.mem_liveBefore_append.1 hs with hs | ⟨hs, hw⟩
    · exact .here (block?_loopBlock anchor parameters n he) (mem_exposed_loopBlock.2 hs)
    · have he' : l.loop = (pre ++ [code]) ++ next :: rest := by rw [he]; simp
      refine .later (block?_loopBlock anchor parameters n he) (not_mem_written_loopBlock.2 hw)
        ?_ (ih he' hs)
      rw [mem_successors_loopBlock, if_neg (by simp)]
      exact Or.inl rfl

/-- What a block of a chained row leaves alone is read by the rest of the iteration before it is written, or
by the next iteration, if this holds from the block on that control goes to. -/
theorem Chained.mem_liveBefore_of_next {row : List (List Instruction)} (h : Chained tagSlot row)
    (he : row = pre ++ code :: rest) {s : Slot} (hw : ∀ i ∈ code, i.writes ≠ some s) {next : BlockId}
    (hnext : if rest = [] then next = ⟨row.length⟩ else next = ⟨rest.length⟩ ∨ next = bailoutId)
    (htag : next = bailoutId → s = tagSlot)
    (ih : ∀ {pre code rest}, row = pre ++ code :: rest → next = ⟨rest.length + 1⟩ →
      s ∈ Block.liveBefore (code ++ rest.flatten) [] ∨ s ∈ Block.liveBefore row.flatten []) :
    s ∈ Block.liveBefore (code ++ rest.flatten) [] ∨ s ∈ Block.liveBefore row.flatten [] := by
  cases rest with
  | nil =>
    rw [if_pos rfl] at hnext
    obtain ⟨first, others, hfirst⟩ := List.exists_cons_of_ne_nil h.ne_nil
    have hfirst' : row = [] ++ first :: others := hfirst
    have hheader : (⟨row.length⟩ : BlockId) = ⟨others.length + 1⟩ := by rw [hfirst, List.length_cons]
    have := ih hfirst' (hnext.trans hheader)
    rw [hfirst, List.flatten_cons] at this ⊢
    exact Or.inr (this.elim (fun h => h) fun h => h)
  | cons c rest =>
    rw [if_neg (List.cons_ne_nil _ _)] at hnext
    rcases hnext with hnext | hnext
    · have he' : row = (pre ++ [code]) ++ c :: rest := by rw [he]; simp
      refine (ih he' hnext).imp (fun h => ?_) fun h => h
      exact Block.mem_liveBefore_append.2 (Or.inr ⟨h, hw⟩)
    · -- the exit to the bailout writes the only slot that the bailout reads
      have hsuffix : Chained tagSlot (code :: c :: rest) := h.suffix he
      cases hsuffix with
      | guarded hs g hc =>
        refine absurd (congrArg some (htag hnext).symm) (hw (.assign tagSlot (.immediate g.tag)) ?_)
        exact List.mem_append_right _ List.mem_cons_self

/-- What is live from some block of the loop on is read by the rest of the iteration before it is
written, or by the next iteration. -/
theorem Shaped.mem_liveBefore_of_liveFrom (h : l.Shaped tagSlot) {s : Slot} {id : BlockId}
    (hl : (l.routine anchor parameters n).LiveFrom s id) {pre rest : List (List Instruction)}
    {code : List Instruction} (he : l.loop = pre ++ code :: rest) (hid : id = ⟨rest.length + 1⟩) :
    s ∈ Block.liveBefore (code ++ rest.flatten) [] ∨ s ∈ Block.liveBefore l.loop.flatten [] := by
  induction hl generalizing pre code rest with
  | here hb hs =>
    subst hid
    obtain rfl := Option.some.inj ((block?_loopBlock anchor parameters n he).symm.trans hb)
    exact Or.inl (Block.mem_liveBefore_append.2 (Or.inl (mem_exposed_loopBlock.1 hs)))
  | @later id next b hb hs hnext hl ih =>
    subst hid
    obtain rfl := Option.some.inj ((block?_loopBlock anchor parameters n he).symm.trans hb)
    refine h.loop.mem_liveBefore_of_next he (not_mem_written_loopBlock.1 hs)
      (mem_successors_loopBlock.1 hnext) (fun hbail => ?_) ih
    exact h.liveFrom_bailout anchor parameters n (hbail ▸ hl)

/-- **The paths of a lowered trace**: a write reaches every read exactly if the prologue and one
iteration after it read only parameters before they write them. -/
theorem writesReach_routine_iff (h : l.Shaped tagSlot) :
    (l.routine anchor parameters n).WritesReach ↔
      ∀ s ∈ Block.liveBefore (l.prologue ++ l.loop.flatten) [], s ∈ parameters := by
  obtain ⟨first, others, hfirst⟩ := List.exists_cons_of_ne_nil h.loop.ne_nil
  have hfirst' : l.loop = [] ++ first :: others := hfirst
  have hheader : ∀ s, (l.routine anchor parameters n).LiveFrom s l.header ↔
      s ∈ Block.liveBefore l.loop.flatten [] := by
    intro s
    rw [header_eq hfirst]
    refine ⟨fun hl => ?_, fun hs => ?_⟩
    · have := h.mem_liveBefore_of_liveFrom anchor parameters n hl hfirst' rfl
      rw [hfirst, List.flatten_cons] at this ⊢
      exact this.elim (fun h => h) fun h => h
    · rw [hfirst, List.flatten_cons] at hs
      exact liveFrom_of_mem_liveBefore anchor parameters n hfirst' hs
  rw [Routine.writesReach_iff (l.ownIds_routine anchor parameters n), entry?_routine _ _ _ _
    h.loop.ne_nil]
  simp only [Option.some.injEq, forall_eq']
  refine forall_congr' fun s => ?_
  have hentry : (l.routine anchor parameters n).LiveFrom s
      (if l.prologue = [] then l.header else ⟨l.loop.length + 1⟩) ↔
      s ∈ Block.liveBefore (l.prologue ++ l.loop.flatten) [] := by
    by_cases hp : l.prologue = []
    · rw [if_pos hp, hp, hheader, List.nil_append]
    · rw [if_neg hp, Block.mem_liveBefore_append]
      have hb := block?_prologueBlock anchor parameters n hp
      have hexp : s ∈ l.prologueBlock.exposed ↔ s ∈ Block.liveBefore l.prologue [] :=
        List.mem_eraseDups
      constructor
      · intro hl
        cases hl with
        | here hb' hs =>
          obtain rfl := Option.some.inj (hb.symm.trans hb')
          exact Or.inl (hexp.1 hs)
        | later hb' hs hid hl =>
          obtain rfl := Option.some.inj (hb.symm.trans hb')
          obtain rfl := List.mem_singleton.1 (BlockSet.mem_ofList.1 hid)
          refine Or.inr ⟨(hheader s).1 hl, fun i hi hw => hs (Block.mem_written.2 ⟨i, hi, hw⟩)⟩
      · rintro (hs | ⟨hs, hw⟩)
        · exact .here hb (hexp.2 hs)
        · refine .later hb (fun hm => ?_) (BlockSet.mem_ofList.2 List.mem_cons_self)
            ((hheader s).2 hs)
          obtain ⟨i, hi, he⟩ := Block.mem_written.1 hm
          exact hw i hi he
  rw [hentry]
  rfl

/-- Verification of a lowered trace comes down to what its straight code reads before it writes
it. -/
theorem verify_routine_iff (h : l.Shaped tagSlot) :
    (l.routine anchor parameters n).verify = .ok () ↔
      ∀ s ∈ Block.liveBefore (l.prologue ++ l.loop.flatten) [], s ∈ parameters := by
  rw [Routine.verify_eq_ok_iff rfl (l.ownIds_routine anchor parameters n), writesReach_routine_iff
    anchor parameters n h]
  exact and_iff_right (wellBuilt_routine anchor parameters n h)

end Blocks

end Layout

end LoopTrace
