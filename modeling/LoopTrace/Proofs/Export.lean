import LoopTrace.Flow.Graph
import LoopTrace.Proofs.Outline

/-!
# The graph shows the routine

A graph shows a routine if its nodes are the blocks in execution order and it has one edge for every pair
of a block and one of its successors, and no other (`Routine.ShownBy`). The labels are not kept with the
edges: they are read off the code of the block that an edge leaves. For the routine of a lowering the
outline tells the code of every block, and with it all edges and their labels (`mem_edges_iff_of_outline`):
the blocks fall through to one another up to the block that jumps back, and each guard adds an edge into
the bailout block.
-/

namespace LoopTrace

/-! ### Labels, from the code of a block -/

namespace Block

variable {b : Block} {id : BlockId} {pre : List Instruction}

theorem mem_jumpTargets : id ∈ b.jumpTargets ↔ .jump (some id) ∈ b.code := by
  rw [jumpTargets, List.mem_filterMap]
  constructor
  · rintro ⟨i, hi, h⟩
    split at h
    · rwa [← h]
    · cases h
  · exact fun h => ⟨_, h, rfl⟩

theorem mem_matchTargets : id ∈ b.matchTargets ↔
    ∃ kind comparator tag candidates targets otherwise,
      .branch kind comparator tag candidates targets otherwise ∈ b.code ∧ id ∈ targets := by
  rw [matchTargets, List.mem_flatMap]
  constructor
  · rintro ⟨i, hi, h⟩
    split at h
    · exact ⟨_, _, _, _, _, _, hi, h⟩
    · cases h
  · rintro ⟨_, _, _, _, _, _, hi, h⟩
    exact ⟨_, hi, h⟩

/-- A terminator in code that only ends with one is the last instruction. -/
theorem eq_last_of_mem {last i : Instruction} (hcode : b.code = pre ++ [last])
    (hpre : Layout.Straight pre) (hi : i ∈ b.code) (ht : i.isTerminator = true) : i = last := by
  rw [hcode, List.mem_append, List.mem_singleton] at hi
  rcases hi with hi | hi
  · rw [hpre i hi] at ht
    cases ht
  · exact hi

/-- A block that nothing ends falls through. -/
theorem edgeKind_of_straight (h : Layout.Straight b.code) : b.edgeKind id = .fallthrough := by
  rw [edgeKind, if_neg, if_neg]
  · intro hm
    obtain ⟨_, _, _, _, _, _, hi, -⟩ := mem_matchTargets.1 hm
    cases h _ hi
  · intro hm
    cases h _ (mem_jumpTargets.1 hm)

/-- The target of a jump at the end is gone back to. -/
theorem edgeKind_of_jump (hcode : b.code = pre ++ [.jump (some id)]) :
    b.edgeKind id = .loopBack := by
  rw [edgeKind, if_pos]
  rw [mem_jumpTargets, hcode]
  exact List.mem_append_right _ (List.mem_singleton_self _)

/-- A branch at the end leaves for its targets, and falls through otherwise. -/
theorem edgeKind_of_branch {kind : Kind} {comparator : Comparator} {tag : Operand}
    {candidates : List Operand} {targets : List BlockId} {otherwise : BlockId}
    (hcode : b.code = pre ++ [.branch kind comparator tag candidates targets otherwise])
    (hpre : Layout.Straight pre) :
    b.edgeKind id = if id ∈ targets then .guardFailure else .fallthrough := by
  have hjump : id ∉ b.jumpTargets := fun h => by
    cases eq_last_of_mem hcode hpre (mem_jumpTargets.1 h) rfl
  have hmatch : id ∈ b.matchTargets ↔ id ∈ targets := by
    rw [mem_matchTargets]
    constructor
    · rintro ⟨_, _, _, _, _, _, hi, h⟩
      cases eq_last_of_mem hcode hpre hi rfl
      exact h
    · intro h
      refine ⟨kind, comparator, tag, candidates, targets, otherwise, ?_, h⟩
      rw [hcode]
      exact List.mem_append_right _ (List.mem_singleton_self _)
  simp only [edgeKind, if_neg hjump, hmatch]

end Block

/-! ### The graph of any routine -/

namespace Routine

variable {r : Routine}

/-- A graph whose nodes are the blocks and whose edges are the pairs of a block and a successor. -/
structure ShownBy (r : Routine) (g : FlowGraph) : Prop where
  /-- There is one node for each block, in execution order. -/
  nodes : g.nodes = r.blocks.map Block.id
  /-- Edges join nodes of the graph. -/
  within : ∀ e ∈ g.edges, e.origin < r.blocks.length ∧ e.target < r.blocks.length
  /-- There is one edge from a block to each of its successors, and none to any other block. -/
  edges : ∀ i j b c, r.blocks[i]? = some b → r.blocks[j]? = some c →
    g.edges.filter (fun e => e.origin = i ∧ e.target = j) =
      if c.id ∈ b.successors then [⟨i, j, b.edgeKind c.id⟩] else []

/-- Blocks of one id have one place. -/
theorem place_inj (hown : r.OwnIds) {i j : Nat} {b c : Block} (hb : r.blocks[i]? = some b)
    (hc : r.blocks[j]? = some c) (h : b.id = c.id) : i = j := by
  obtain ⟨hi, -⟩ := List.getElem?_eq_some_iff.1 hb
  refine (List.getElem?_inj (by rwa [List.length_map]) (nodup_ids hown)).1 ?_
  rw [List.getElem?_map, List.getElem?_map, hb, hc, Option.map_some, Option.map_some, h]

theorem node?_eq_some_iff (hown : r.OwnIds) {id : BlockId} {i : Nat} :
    r.node? id = some i ↔ ∃ b, r.blocks[i]? = some b ∧ b.id = id := by
  rw [node?, blockIds_eq hown, List.idxOf?_eq_some_iff]
  constructor
  · rintro ⟨hi, h, -⟩
    rw [List.length_map] at hi
    rw [List.getElem_map] at h
    exact ⟨_, List.getElem?_eq_getElem hi, h⟩
  · rintro ⟨b, hb, rfl⟩
    obtain ⟨hi, rfl⟩ := List.getElem?_eq_some_iff.1 hb
    refine ⟨by rwa [List.length_map], List.getElem_map .., fun j hj h => ?_⟩
    rw [List.getElem_map] at h
    exact hj.ne (place_inj hown (List.getElem?_eq_getElem (hj.trans hi)) hb h)

theorem mem_edgesOf {b : Block} {e : Edge} : e ∈ r.edgesOf b ↔
    ∃ id ∈ b.successors, r.node? b.id = some e.origin ∧ r.node? id = some e.target ∧
      e.kind = b.edgeKind id := by
  rw [edgesOf, List.mem_filterMap]
  refine exists_congr fun id => and_congr_right fun _ => ?_
  cases r.node? b.id with
  | none => simp
  | some i =>
    cases r.node? id with
    | none => simp
    | some j =>
      obtain ⟨origin, target, kind⟩ := e
      simp only [Option.bind_eq_bind, Option.bind_some, pure, Option.some.injEq, Edge.mk.injEq]
      exact and_congr_right fun _ => and_congr_right fun _ => eq_comm

/-- An edge joins a block and one of its successors. -/
theorem mem_edges_iff (hown : r.OwnIds) {e : Edge} : e ∈ r.graph.edges ↔
    ∃ b c, r.blocks[e.origin]? = some b ∧ r.blocks[e.target]? = some c ∧ c.id ∈ b.successors ∧
      e.kind = b.edgeKind c.id := by
  rw [graph, List.mem_flatMap]
  constructor
  · rintro ⟨b, hb, he⟩
    obtain ⟨id, hid, horigin, htarget, hkind⟩ := mem_edgesOf.1 he
    obtain ⟨b', hb', hid'⟩ := (node?_eq_some_iff hown).1 horigin
    obtain ⟨c, hc, rfl⟩ := (node?_eq_some_iff hown).1 htarget
    obtain ⟨i, hi⟩ := List.mem_iff_getElem?.1 hb
    obtain rfl := place_inj hown hi hb' hid'.symm
    exact ⟨b, c, hi, hc, hid, hkind⟩
  · rintro ⟨b, c, hb, hc, hid, hkind⟩
    exact ⟨b, List.mem_of_getElem? hb, mem_edgesOf.2 ⟨c.id, hid,
      (node?_eq_some_iff hown).2 ⟨b, hb, rfl⟩, (node?_eq_some_iff hown).2 ⟨c, hc, rfl⟩, hkind⟩⟩

theorem nodup_edgesOf (hown : r.OwnIds) (b : Block) : (r.edgesOf b).Nodup := by
  refine List.Nodup.filterMap (fun id id' e he he' => ?_) b.successors.nodup
  cases ho : r.node? b.id with
  | none => simp [ho] at he
  | some i =>
    cases ht : r.node? id with
    | none => simp [ho, ht] at he
    | some j =>
      cases ht' : r.node? id' with
      | none => simp [ho, ht'] at he'
      | some j' =>
        simp only [ho, ht, ht', Option.bind_eq_bind, Option.bind_some, pure, Option.mem_def,
          Option.some.injEq] at he he'
        have hj : j' = j := congrArg Edge.target (he'.trans he.symm)
        obtain ⟨c, hc, hid⟩ := (node?_eq_some_iff hown).1 ht
        obtain ⟨c', hc', hid'⟩ := (node?_eq_some_iff hown).1 ht'
        rw [hj, hc] at hc'
        rw [← hid, ← hid', Option.some.inj hc']

/-- No edge is listed twice. -/
theorem nodup_edges (hown : r.OwnIds) : r.graph.edges.Nodup := by
  rw [graph, List.nodup_flatMap]
  refine ⟨fun b _ => nodup_edgesOf hown b, ?_⟩
  refine List.Pairwise.imp (fun {b b'} hne e he he' => ?_) (List.pairwise_map.1 (nodup_ids hown))
  obtain ⟨_, -, h, -⟩ := mem_edgesOf.1 he
  obtain ⟨_, -, h', -⟩ := mem_edgesOf.1 he'
  obtain ⟨c, hc, hid⟩ := (node?_eq_some_iff hown).1 h
  obtain ⟨c', hc', hid'⟩ := (node?_eq_some_iff hown).1 h'
  rw [hc] at hc'
  exact hne (by rw [← hid, ← hid', Option.some.inj hc'])

/-- The edges with a property, if they are known. -/
theorem filter_edges_perm (hown : r.OwnIds) {p : Edge → Bool} {l : List Edge} (hl : l.Nodup)
    (h : ∀ e, e ∈ l ↔ e ∈ r.graph.edges ∧ p e = true) : (r.graph.edges.filter p).Perm l := by
  rw [List.perm_ext_iff_of_nodup ((nodup_edges hown).filter p) hl]
  exact fun e => by rw [List.mem_filter, h]

theorem shownBy_graph (hown : r.OwnIds) : r.ShownBy r.graph where
  nodes := blockIds_eq hown
  within e he := by
    obtain ⟨b, c, hb, hc, -⟩ := (mem_edges_iff hown).1 he
    exact ⟨(List.getElem?_eq_some_iff.1 hb).1, (List.getElem?_eq_some_iff.1 hc).1⟩
  edges i j b c hb hc := by
    have hmem : ∀ e : Edge, e ∈ r.graph.edges ∧ decide (e.origin = i ∧ e.target = j) = true ↔
        c.id ∈ b.successors ∧ e = ⟨i, j, b.edgeKind c.id⟩ := by
      rintro ⟨origin, target, kind⟩
      rw [mem_edges_iff hown, decide_eq_true_iff, Edge.mk.injEq]
      constructor
      · rintro ⟨⟨b', c', hb', hc', hid, hkind⟩, rfl, rfl⟩
        obtain rfl := Option.some.inj (hb.symm.trans hb')
        obtain rfl := Option.some.inj (hc.symm.trans hc')
        exact ⟨hid, rfl, rfl, hkind⟩
      · rintro ⟨hid, rfl, rfl, rfl⟩
        exact ⟨⟨b, c, hb, hc, hid, rfl⟩, rfl, rfl⟩
    by_cases h : c.id ∈ b.successors
    · rw [if_pos h, ← List.perm_singleton]
      refine filter_edges_perm hown (List.nodup_singleton _) fun e => ?_
      rw [hmem, List.mem_singleton]
      exact ⟨fun he => ⟨h, he⟩, And.right⟩
    · rw [if_neg h, ← List.perm_nil]
      refine filter_edges_perm hown List.nodup_nil fun e => ?_
      rw [hmem]
      exact ⟨fun he => absurd he List.not_mem_nil, fun he => absurd he.1 h⟩

end Routine

/-! ### The graph of a lowered trace -/

namespace Job.Outline

variable {j : Job} {r : Routine} (o : j.Outline r)

/-- The node of the first block of the loop. -/
def header : Nat := o.prologue.toList.length

/-- The node of the block that jumps back. -/
def tail : Nat := o.header + j.trace.guards.length

variable {o}

theorem getElem?_loop {i : Nat} (hi : i ≤ j.trace.guards.length) :
    r.blocks[o.header + i]? = o.loop[i]? := by
  have hle : o.prologue.toList.length ≤ o.header + i := Nat.le_add_right _ _
  rw [o.blocks_eq, List.append_assoc, List.getElem?_append_right hle, header,
    Nat.add_sub_cancel_left, List.getElem?_append_left (by rw [o.loop_length]; omega)]

theorem getElem?_bailout : r.blocks[o.tail + 1]? = some o.bailout := by
  have hlen : (o.prologue.toList ++ o.loop).length = o.tail + 1 := by
    rw [List.length_append, o.loop_length]
    rfl
  rw [o.blocks_eq, List.getElem?_append_right hlen.le, hlen, Nat.sub_self]
  rfl

theorem getElem?_prologue {b : Block} (hb : o.prologue = some b) :
    r.blocks[0]? = some b ∧ o.header = 1 := by
  rw [o.blocks_eq, header, hb]
  exact ⟨rfl, rfl⟩

/-- The node of a block is that of the prologue, of a guard's block, of the last block of the loop or
of the bailout block. -/
theorem node_cases {i : Nat} {b : Block} (hb : r.blocks[i]? = some b) :
    (o.prologue = some b ∧ i = 0) ∨
      (∃ n < j.trace.guards.length, i = o.header + n ∧ o.loop[n]? = some b) ∨
      (i = o.tail ∧ o.loop[j.trace.guards.length]? = some b) ∨
      (i = o.tail + 1 ∧ b = o.bailout) := by
  have hlen : r.blocks.length = o.tail + 2 := by
    rw [o.blocks_eq, List.length_append, List.length_append, o.loop_length]
    rfl
  obtain ⟨hi, -⟩ := List.getElem?_eq_some_iff.1 hb
  by_cases hp : i < o.header
  · left
    cases hpro : o.prologue with
    | none =>
      rw [header, hpro] at hp
      cases hp
    | some b' =>
      obtain ⟨hb', hone⟩ := getElem?_prologue hpro
      obtain rfl : i = 0 := by omega
      exact ⟨hb'.symm.trans hb, rfl⟩
  · obtain ⟨n, rfl⟩ := Nat.exists_eq_add_of_le (not_lt.1 hp)
    rcases lt_trichotomy n j.trace.guards.length with hn | rfl | hn
    · exact .inr (.inl ⟨n, hn, rfl, getElem?_loop hn.le ▸ hb⟩)
    · exact .inr (.inr (.inl ⟨rfl, getElem?_loop le_rfl ▸ hb⟩))
    · have htail : o.tail = o.header + j.trace.guards.length := rfl
      have hlast : o.header + n = o.tail + 1 := by omega
      rw [hlast, getElem?_bailout] at hb
      exact .inr (.inr (.inr ⟨hlast, (Option.some.inj hb).symm⟩))

/-- The edges that leave a block whose successors stand at known places. -/
theorem edges_from (hown : r.OwnIds) {i : Nat} {b : Block} (hb : r.blocks[i]? = some b)
    (places : List (Nat × Block)) (hplaces : ∀ p ∈ places, r.blocks[p.1]? = some p.2)
    (hsucc : ∀ id, id ∈ b.successors ↔ ∃ p ∈ places, id = p.2.id) {e : Edge} (ho : e.origin = i) :
    e ∈ r.graph.edges ↔ ∃ p ∈ places, e = ⟨i, p.1, b.edgeKind p.2.id⟩ := by
  obtain ⟨origin, target, kind⟩ := e
  obtain rfl : origin = i := ho
  simp only [Routine.mem_edges_iff hown, Edge.mk.injEq, true_and]
  constructor
  · rintro ⟨b', c, hb', hc, hid, hkind⟩
    obtain rfl := Option.some.inj (hb.symm.trans hb')
    obtain ⟨p, hp, hid⟩ := (hsucc _).1 hid
    exact ⟨p, hp, Routine.place_inj hown hc (hplaces p hp) hid, hid ▸ hkind⟩
  · rintro ⟨p, hp, rfl, rfl⟩
    exact ⟨b, p.2, hb, hplaces p hp, (hsucc _).2 ⟨p, hp, rfl⟩, rfl⟩

variable {e : Edge}

theorem getElem?_header {first : Block} (h : o.loop.head? = some first) :
    r.blocks[o.header]? = some first := by
  rw [← h, List.head?_eq_getElem?]
  exact getElem?_loop (Nat.zero_le _)

theorem prologue_edge (hown : r.OwnIds) {b : Block} (hb : o.prologue = some b)
    (ho : e.origin = 0) : e ∈ r.graph.edges ↔ e = ⟨0, o.header, .fallthrough⟩ := by
  obtain ⟨first, hfirst, -, hsucc⟩ := o.prologue_block b hb
  rw [edges_from hown (getElem?_prologue hb).1 [(o.header, first)]
    (by simpa using getElem?_header hfirst) (by simpa using hsucc) ho]
  simp only [List.mem_singleton, exists_eq_left]
  rw [Block.edgeKind_of_straight (o.prologue_straight b hb)]

theorem guard_edge (hown : r.OwnIds) {n : Nat} (hn : n < j.trace.guards.length)
    (ho : e.origin = o.header + n) : e ∈ r.graph.edges ↔
      e = ⟨o.header + n, o.header + n + 1, .fallthrough⟩ ∨
        e = ⟨o.header + n, o.tail + 1, .guardFailure⟩ := by
  obtain ⟨b, next, leg, g, hb, hnext, -, -, hcode, hsucc⟩ :=
    o.guard_block n _ (List.getElem?_eq_getElem hn)
  rw [← getElem?_loop hn.le] at hb
  replace hnext : r.blocks[o.header + n + 1]? = some next := by
    rw [← hnext]
    exact getElem?_loop hn
  have hstraight := o.straight b (List.mem_of_getElem? hb)
  rw [List.append_cons, List.append_cons] at hcode
  rw [hcode, List.dropLast_concat] at hstraight
  -- The label tells the two successors apart only because they are different blocks.
  have hne : next.id ≠ o.bailout.id := fun h => by
    have := Routine.place_inj hown hnext getElem?_bailout h
    rw [tail] at this
    omega
  rw [edges_from hown hb [(o.header + n + 1, next), (o.tail + 1, o.bailout)]
    (by simpa using ⟨hnext, getElem?_bailout⟩) (by simpa using hsucc) ho]
  simp only [List.mem_cons, List.not_mem_nil, or_false, exists_eq_or_imp, exists_eq_left]
  rw [Block.edgeKind_of_branch hcode hstraight, Block.edgeKind_of_branch hcode hstraight,
    if_neg (by rwa [List.mem_singleton]), if_pos (List.mem_singleton_self _)]

theorem tail_edge (hown : r.OwnIds) (ho : e.origin = o.tail) :
    e ∈ r.graph.edges ↔ e = ⟨o.tail, o.header, .loopBack⟩ := by
  obtain ⟨b, first, leg, hb, hfirst, -, hcode, hsucc⟩ := o.last_block
  rw [← getElem?_loop le_rfl] at hb
  rw [edges_from hown hb [(o.header, first)]
    (by simpa using getElem?_header hfirst) (by simpa using hsucc) ho]
  simp only [List.mem_singleton, exists_eq_left]
  rw [Block.edgeKind_of_jump hcode]
  rfl

theorem bailout_edge (hown : r.OwnIds) (ho : e.origin = o.tail + 1) : e ∉ r.graph.edges := by
  rw [edges_from hown getElem?_bailout [] (by simp)
    (by simpa using o.bailout_block.2) ho]
  rintro ⟨p, hp, -⟩
  exact List.not_mem_nil hp

variable (o) in
/-- The edges of the routine, each with its label. -/
theorem mem_edges_iff_of_outline (hown : r.OwnIds) : e ∈ r.graph.edges ↔
    (o.prologue.isSome = true ∧ e = ⟨0, o.header, .fallthrough⟩) ∨
      (∃ n < j.trace.guards.length, e = ⟨o.header + n, o.header + n + 1, .fallthrough⟩ ∨
        e = ⟨o.header + n, o.tail + 1, .guardFailure⟩) ∨
      e = ⟨o.tail, o.header, .loopBack⟩ := by
  constructor
  · intro he
    obtain ⟨b, -, hb, -⟩ := (Routine.mem_edges_iff hown).1 he
    rcases node_cases (o := o) hb with ⟨hpro, ho⟩ | ⟨n, hn, ho, -⟩ | ⟨ho, -⟩ | ⟨ho, -⟩
    · exact .inl ⟨by rw [hpro]; rfl, (prologue_edge hown hpro ho).1 he⟩
    · exact .inr (.inl ⟨n, hn, (guard_edge hown hn ho).1 he⟩)
    · exact .inr (.inr ((tail_edge hown ho).1 he))
    · exact absurd he (bailout_edge hown ho)
  · rintro (⟨hpro, rfl⟩ | ⟨n, hn, he⟩ | rfl)
    · obtain ⟨b, hb⟩ := Option.isSome_iff_exists.1 hpro
      exact (prologue_edge hown hb rfl).2 rfl
    · have ho : e.origin = o.header + n := by rcases he with rfl | rfl <;> rfl
      exact (guard_edge hown hn ho).2 he
    · exact (tail_edge hown rfl).2 rfl

/-- How a graph labels the edges of a routine that has this outline. -/
structure Labelled (o : j.Outline r) (g : FlowGraph) : Prop where
  /-- One edge leads back: from the block that ends with a jump to the first block of the loop, which
  may be the same. -/
  loopBack : ∃ b first, r.blocks[o.tail]? = some b ∧ r.blocks[o.header]? = some first ∧
    o.loop.head? = some first ∧ o.loop.getLast? = some b ∧
    b.code.getLast? = some (.jump (some first.id)) ∧
    g.edges.filter (fun e => e.kind = .loopBack) = [⟨o.tail, o.header, .loopBack⟩]
  /-- No other block has a jump. -/
  jumps : ∀ i b target, r.blocks[i]? = some b → .jump target ∈ b.code → i = o.tail
  /-- One edge is labelled a failure for each guard. -/
  failures : (g.edges.filter fun e => e.kind = .guardFailure).length = j.trace.guards.length
  /-- All failures lead into the bailout block. -/
  bailouts : ∀ e ∈ g.edges, e.kind = .guardFailure → r.blocks[e.target]? = some o.bailout
  /-- All other edges fall through, from one block into the one that follows it. -/
  others : ∀ e ∈ g.edges, e.kind ≠ .loopBack → e.kind ≠ .guardFailure →
    e.kind = .fallthrough ∧ e.target = e.origin + 1

/-- The block that jumps back, and where it jumps. -/
theorem exists_tail_block : ∃ b first, r.blocks[o.tail]? = some b ∧
    r.blocks[o.header]? = some first ∧ o.loop.head? = some first ∧ o.loop.getLast? = some b ∧
    b.code.getLast? = some (.jump (some first.id)) := by
  obtain ⟨b, first, leg, hb, hfirst, -, hcode, -⟩ := o.last_block
  refine ⟨b, first, ?_, getElem?_header hfirst, hfirst, ?_, ?_⟩
  · rw [← hb]
    exact getElem?_loop le_rfl
  · rw [List.getLast?_eq_getElem?, o.loop_length, Nat.add_sub_cancel, hb]
  · rw [hcode, List.getLast?_concat]

theorem eq_tail_of_jump {i : Nat} {b : Block} {target : Option BlockId}
    (hb : r.blocks[i]? = some b) (hi : .jump target ∈ b.code) : i = o.tail := by
  rcases node_cases (o := o) hb with ⟨hpro, -⟩ | ⟨n, hn, -, hloop⟩ | ⟨ho, -⟩ | ⟨-, rfl⟩
  · cases o.prologue_straight b hpro _ hi
  · obtain ⟨b', next, leg, g, hb', -, -, -, hcode, -⟩ :=
      o.guard_block n _ (List.getElem?_eq_getElem hn)
    obtain rfl := Option.some.inj (hloop.symm.trans hb')
    have hstraight := o.straight b (List.mem_of_getElem? hb)
    rw [List.append_cons, List.append_cons] at hcode
    rw [hcode, List.dropLast_concat] at hstraight
    cases Block.eq_last_of_mem hcode hstraight hi rfl
  · exact ho
  · rw [o.bailout_block.1] at hi
    simp only [Abi.bailoutCode, List.mem_cons, List.not_mem_nil, or_false] at hi
    rcases hi with hi | hi | hi <;> cases hi

variable (o) in
theorem labelled_graph (hown : r.OwnIds) : o.Labelled r.graph where
  loopBack := by
    obtain ⟨b, first, hb, hfirst, hhead, hlast, hcode⟩ := exists_tail_block (o := o)
    refine ⟨b, first, hb, hfirst, hhead, hlast, hcode, ?_⟩
    rw [← List.perm_singleton]
    refine Routine.filter_edges_perm hown (List.nodup_singleton _) fun e => ?_
    rw [mem_edges_iff_of_outline o hown, List.mem_singleton, decide_eq_true_iff]
    constructor
    · rintro rfl
      exact ⟨.inr (.inr rfl), rfl⟩
    · rintro ⟨⟨-, rfl⟩ | ⟨n, -, rfl | rfl⟩ | rfl, hkind⟩ <;> first | rfl | cases hkind
  jumps _ _ _ hb hi := eq_tail_of_jump hb hi
  failures := by
    have hperm := Routine.filter_edges_perm hown (p := fun e => e.kind = .guardFailure)
      (l := (List.range j.trace.guards.length).map fun n =>
        ⟨o.header + n, o.tail + 1, .guardFailure⟩) ?_ fun e => ?_
    · rw [hperm.length_eq, List.length_map, List.length_range]
    · refine List.nodup_range.map fun n m h => ?_
      exact Nat.add_left_cancel (congrArg Edge.origin h)
    · rw [mem_edges_iff_of_outline o hown, List.mem_map, decide_eq_true_iff]
      constructor
      · rintro ⟨n, hn, rfl⟩
        exact ⟨.inr (.inl ⟨n, List.mem_range.1 hn, .inr rfl⟩), rfl⟩
      · rintro ⟨⟨-, rfl⟩ | ⟨n, hn, rfl | rfl⟩ | rfl, hkind⟩
        · cases hkind
        · cases hkind
        · exact ⟨n, List.mem_range.2 hn, rfl⟩
        · cases hkind
  bailouts e he hkind := by
    rcases (mem_edges_iff_of_outline o hown).1 he with ⟨-, rfl⟩ | ⟨n, -, rfl | rfl⟩ | rfl
    · cases hkind
    · cases hkind
    · exact getElem?_bailout
    · cases hkind
  others e he hback hfail := by
    rcases (mem_edges_iff_of_outline o hown).1 he with ⟨hpro, rfl⟩ | ⟨n, -, rfl | rfl⟩ | rfl
    · obtain ⟨b, hb⟩ := Option.isSome_iff_exists.1 hpro
      exact ⟨rfl, (getElem?_prologue hb).2⟩
    · exact ⟨rfl, rfl⟩
    · exact absurd rfl hfail
    · exact absurd rfl hback

end Job.Outline

namespace Trace

/-- **The graph is the routine's**: of any routine whose blocks are filed under their own ids it shows
the blocks and edges. Of the routine of a lowered trace it labels one edge as leading back, one for each
guard as its failure, and all others as falling through. -/
theorem graph_faithful (r : Routine) : (r.OwnIds → r.ShownBy r.graph) ∧
    ∀ (t : Trace) (settings : Settings), t.lower settings = .ok r →
      r.OwnIds ∧ ∃ o : (Job.ofTrace t settings).Outline r, o.Labelled r.graph := by
  refine ⟨Routine.shownBy_graph, fun t settings hr => ?_⟩
  have hcheck := check_of_lower hr
  obtain ⟨h, c, rfl⟩ := exists_course_of_lower hcheck hr
  have hown : c.routine.OwnIds := c.layout.ownIds_routine _ _ _
  exact ⟨hown, c.outline (check_eq_ok_iff.1 hcheck) h, Job.Outline.labelled_graph _ hown⟩

theorem graph_faithful_countdown : ∃ r, countdown.lower {} = .ok r ∧ r.ShownBy r.graph ∧
    ∃ o : (Job.ofTrace countdown {}).Outline r, o.Labelled r.graph := by
  have hok : (countdown.lower {}).isOk = true := by decide +kernel
  obtain ⟨r, hr⟩ := exists_of_isOk hok
  obtain ⟨hown, hlabels⟩ := (graph_faithful r).2 countdown {} hr
  exact ⟨r, hr, (graph_faithful r).1 hown, hlabels⟩

end Trace

end LoopTrace
