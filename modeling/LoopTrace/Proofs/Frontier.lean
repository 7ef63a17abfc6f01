import LoopTrace.Proofs.Points
import LoopTrace.Proofs.Refusals

/-!
# What is live at the front

A slot of a released value may be handed out again to a value of the code before. This does no harm because
no such slot is live at the front of the code: whatever the code may read from before it, over any path
along the edges that are there, belongs to a leaf or to a value whose definition is still to come
(`stands_safe`).

The paths look worse than they are. A guard's exit leads to the bailout block, which reads the slot for the
tag, but the exit writes it first. The jump back makes live at the last block what is live at the first one,
but a path that takes it comes to the front of the loop again. So what is live at the front is what the
blocks read before they write it when they are run through once (`Course.live_iff`).
-/

namespace LoopTrace

namespace Assembly

variable (a : Assembly)

/-- Where control may go from a block over the edges that are there. A block that is not in the order yet
is to stand in front of the others, and falls through to the one that is current. -/
def Flows (origin target : BlockId) : Prop :=
  a.Goes origin target ∨ origin ∉ a.order ∧ a.current? = some target

/-- Some path from a block reads the slot before it is written. -/
inductive Live (s : Slot) : BlockId → Prop where
  /-- The block itself reads it. -/
  | here {id : BlockId} {b : Block} (block : a.block? id = some b) (exposed : s ∈ b.exposed) : Live s id
  /-- The block leaves it alone, and some path from a block after it reads it. -/
  | later {id next : BlockId} {b : Block} (block : a.block? id = some b) (unwritten : s ∉ b.written)
    (flows : a.Flows id next) (live : Live s next) : Live s id

open Layout

/-- The blocks of a loop stand in an assembly, with the bailout block behind them. The last block may
have its jump back, or not yet. -/
structure Carries (tagSlot : Slot) (row : List (List Instruction)) : Prop where
  chained : Chained tagSlot row
  order : ∀ k ≤ row.length, (⟨k⟩ : BlockId) ∈ a.order
  /-- Each block has its code, and goes on to the one after it or to the bailout block. -/
  block : ∀ k, 0 < k → k ≤ row.length → ∃ b target?, a.block? ⟨k⟩ = some b ∧
    b.code = codeOf row k ++ (if k = 1 then [.jump target?] else []) ∧
    ∀ id ∈ b.successors, if k = 1 then id = ⟨row.length⟩ else id = ⟨k - 1⟩ ∨ id = bailoutId
  next : ∀ k, 1 < k → k ≤ row.length → a.Goes ⟨k⟩ ⟨k - 1⟩
  bailout : ∃ b, a.block? bailoutId = some b ∧ b.successors = .empty ∧
    ∀ i ∈ b.code, ∀ s ∈ i.reads, s = tagSlot

namespace Carries

variable {a} {tagSlot s : Slot} {row pre rest : List (List Instruction)} {code : List Instruction}
  {id : BlockId} {b : Block} (h : a.Carries tagSlot row)

include h

/-- Blocks that are in the order have only the edges that are there. -/
theorem flows_iff {k : Nat} (hk : k ≤ row.length) (hb : a.block? ⟨k⟩ = some b) :
    a.Flows ⟨k⟩ id ↔ id ∈ b.successors := by
  constructor
  · rintro (⟨b', hb', hid⟩ | ⟨hno, -⟩)
    · obtain rfl := Option.some.inj (hb.symm.trans hb')
      exact hid
    · exact absurd (h.order k hk) hno
  · exact fun hid => Or.inl ⟨b, hb, hid⟩

/-- The block of some code of the row: what it reads and writes, and where it goes. -/
theorem exists_block (he : row = pre ++ code :: rest) :
    ∃ b, a.block? ⟨rest.length + 1⟩ = some b ∧ (s ∈ b.exposed ↔ s ∈ Block.liveBefore code []) ∧
      (s ∉ b.written ↔ ∀ i ∈ code, i.writes ≠ some s) ∧
      ∀ id, a.Flows ⟨rest.length + 1⟩ id →
        if rest = [] then id = ⟨row.length⟩ else id = ⟨rest.length⟩ ∨ id = bailoutId := by
  have hlen : rest.length + 1 ≤ row.length := by
    rw [he, List.length_append, List.length_cons]
    omega
  obtain ⟨b, target?, hb, hcode, hsucc⟩ := h.block (rest.length + 1) (Nat.succ_pos _) hlen
  have hrow : codeOf row (rest.length + 1) = code := he ▸ codeOf_append pre code rest
  have hlast : rest.length + 1 = 1 ↔ rest = [] := by simp
  have hjump : Block.liveBefore [.jump target?] [] = [] := rfl
  rw [hrow, if_congr hlast rfl rfl] at hcode
  refine ⟨b, hb, ?_, ?_, fun id hid => ?_⟩
  · rw [Block.exposed, List.mem_eraseDups, hcode, Block.liveBefore_append]
    split_ifs with hr
    · rw [hjump]
    · exact Iff.rfl
  · rw [Block.mem_written, hcode]
    split_ifs <;> simp [Instruction.writes]
  · have := hsucc id ((h.flows_iff hlen hb).1 hid)
    rwa [if_congr hlast rfl rfl, Nat.add_sub_cancel] at this

/-- The bailout block reads the slot for the tag, and nothing comes after it. -/
theorem eq_tagSlot_of_live (hl : a.Live s bailoutId) : s = tagSlot := by
  obtain ⟨b, hb, hsucc, hreads⟩ := h.bailout
  cases hl with
  | here hb' hs =>
    obtain rfl := Option.some.inj (hb.symm.trans hb')
    obtain ⟨pre, i, post, he, hi, -⟩ := Block.mem_exposed.1 hs
    exact hreads i (by rw [he]; simp) s hi
  | later hb' hs hflows hl =>
    have hid := (h.flows_iff (Nat.zero_le _) hb).1 hflows
    rw [hsucc] at hid
    exact absurd hid List.not_mem_nil

/-- What is live from some block of the loop on is read by the rest of the iteration before it is
written, or by the next iteration. -/
theorem mem_of_live (hl : a.Live s id) (he : row = pre ++ code :: rest)
    (hid : id = ⟨rest.length + 1⟩) :
    s ∈ Block.liveBefore (code ++ rest.flatten) [] ∨ s ∈ Block.liveBefore row.flatten [] := by
  induction hl generalizing pre code rest with
  | here hb hs =>
    subst hid
    obtain ⟨b, hb', hexposed, -⟩ := h.exists_block (s := s) he
    obtain rfl := Option.some.inj (hb.symm.trans hb')
    exact Or.inl (Block.mem_liveBefore_append.2 (Or.inl (hexposed.1 hs)))
  | later hb hs hflows hl ih =>
    subst hid
    obtain ⟨b, hb', -, hwritten, hnext⟩ := h.exists_block (s := s) he
    obtain rfl := Option.some.inj (hb.symm.trans hb')
    refine h.chained.mem_liveBefore_of_next he (hwritten.1 hs) (hnext _ hflows) (fun hbail => ?_) ih
    exact h.eq_tagSlot_of_live (hbail ▸ hl)

/-- What the rest of an iteration reads before it writes it is live from its block on. -/
theorem live_of_mem (he : row = pre ++ code :: rest)
    (hs : s ∈ Block.liveBefore (code ++ rest.flatten) []) : a.Live s ⟨rest.length + 1⟩ := by
  induction rest generalizing pre code with
  | nil =>
    obtain ⟨b, hb, hexposed, -⟩ := h.exists_block (s := s) he
    rw [List.flatten_nil, List.append_nil] at hs
    exact .here hb (hexposed.2 hs)
  | cons next rest ih =>
    obtain ⟨b, hb, hexposed, hwritten, -⟩ := h.exists_block (s := s) he
    rcases Block.mem_liveBefore_append.1 hs with hs | ⟨hs, hw⟩
    · exact .here hb (hexposed.2 hs)
    · have he' : row = (pre ++ [code]) ++ next :: rest := by rw [he]; simp
      refine .later hb (hwritten.2 hw) (Or.inl ?_) (ih he' hs)
      refine h.next (rest.length + 2) (by omega) ?_
      rw [he, List.length_append, List.length_cons, List.length_cons]
      omega

/-- What is live at the first block of the loop, whether there is a jump back to it or not. -/
theorem live_header_iff : a.Live s ⟨row.length⟩ ↔ s ∈ Block.liveBefore row.flatten [] := by
  obtain ⟨first, others, hfirst⟩ := List.exists_cons_of_ne_nil h.chained.ne_nil
  have hfirst' : row = [] ++ first :: others := hfirst
  have hheader : (⟨row.length⟩ : BlockId) = ⟨others.length + 1⟩ := by rw [hfirst, List.length_cons]
  have hflatten : row.flatten = first ++ others.flatten := by rw [hfirst, List.flatten_cons]
  rw [hheader, hflatten]
  refine ⟨fun hl => ?_, h.live_of_mem hfirst'⟩
  rcases h.mem_of_live hl hfirst' rfl with hs | hs
  · exact hs
  · rwa [hflatten] at hs

/-- What is live at a block in front of the loop. -/
theorem live_entry_iff {k : Nat} (hb : a.block? ⟨k⟩ = some b)
    (hflows : ∀ id, a.Flows ⟨k⟩ id ↔ id = ⟨row.length⟩) :
    a.Live s ⟨k⟩ ↔ s ∈ Block.liveBefore (b.code ++ row.flatten) [] := by
  have hexposed : s ∈ b.exposed ↔ s ∈ Block.liveBefore b.code [] := List.mem_eraseDups
  have hwritten : s ∉ b.written ↔ ∀ i ∈ b.code, i.writes ≠ some s := by simp [Block.mem_written]
  rw [Block.mem_liveBefore_append, ← hexposed, ← hwritten, ← h.live_header_iff]
  constructor
  · intro hl
    cases hl with
    | here hb' hs =>
      obtain rfl := Option.some.inj (hb.symm.trans hb')
      exact Or.inl hs
    | later hb' hs hnext hl =>
      obtain rfl := Option.some.inj (hb.symm.trans hb')
      obtain rfl := (hflows _).1 hnext
      exact Or.inr ⟨hl, hs⟩
  · rintro (hs | ⟨hl, hs⟩)
    · exact .here hb hs
    · exact .later hb hs ((hflows _).2 rfl) hl

end Carries

end Assembly

/-! ### The blocks of a loop in the assemblies of the walk -/

namespace Layout

open Assembly

variable {tagSlot : Slot} {bailout : List Instruction} {row : List (List Instruction)} {l : Layout}

/-- A function lists the blocks of a loop by their numbers, from the bailout block on. -/
structure Lists (f : Nat → Block) (tagSlot : Slot) (row : List (List Instruction)) : Prop where
  code : ∀ k, 0 < k → k ≤ row.length →
    ∃ target?, (f k).code = codeOf row k ++ (if k = 1 then [.jump target?] else [])
  /-- The last block goes nowhere yet, or back to the first. -/
  back : ∀ id ∈ (f 1).successors, id = ⟨row.length⟩
  successors : ∀ k, 1 < k → k ≤ row.length → (f k).successors = .ofList [⟨k - 1⟩, bailoutId]
  bailout : (f 0).successors = .empty
  reads : ∀ i ∈ (f 0).code, ∀ s ∈ i.reads, s = tagSlot

/-- A block in front of the loop changes nothing for its blocks. -/
theorem Lists.update {f : Nat → Block} (h : Lists f tagSlot row) (hc : Chained tagSlot row) (b : Block) :
    Lists (Function.update f (row.length + 1) b) tagSlot row := by
  have hf : ∀ k ≤ row.length, Function.update f (row.length + 1) b k = f k := fun k hk =>
    Function.update_of_ne (Nat.ne_of_lt (Nat.lt_succ_of_le hk)) _ _
  have hone : 1 ≤ row.length := List.length_pos_iff.2 hc.ne_nil
  refine ⟨fun k hpos hk => ?_, ?_, fun k hlt hk => ?_, ?_, ?_⟩
  · rw [hf k hk]
    exact h.code k hpos hk
  · rw [hf 1 hone]
    exact h.back
  · rw [hf k hk]
    exact h.successors k hlt hk
  · rw [hf 0 (Nat.zero_le _)]
    exact h.bailout
  · rw [hf 0 (Nat.zero_le _)]
    exact h.reads

theorem mem_descending {k m : Nat} : (⟨k⟩ : BlockId) ∈ descending m ↔ k < m := by
  simp [descending]

/-- The blocks of a listed loop stand in the assembly that the function lists. -/
theorem Lists.carries {f : Nat → Block} {m n : Nat} (h : Lists f tagSlot row) (hc : Chained tagSlot row)
    (hm : row.length < m) (hn : row.length < n) :
    (ofFun m f (descending n)).Carries tagSlot row where
  chained := hc
  order k hk := mem_descending.2 (Nat.lt_of_le_of_lt hk hn)
  block k hpos hk := by
    obtain ⟨target?, hcode⟩ := h.code k hpos hk
    refine ⟨_, target?, block?_ofFun (Nat.lt_of_le_of_lt hk hm), hcode, fun id hid => ?_⟩
    split_ifs with hone
    · subst hone
      exact h.back id hid
    · rw [h.successors k (by omega) hk] at hid
      simpa using hid
  next k hone hk := by
    refine ⟨_, block?_ofFun (Nat.lt_of_le_of_lt hk hm), ?_⟩
    rw [h.successors k hone hk]
    simp
  bailout := ⟨_, block?_ofFun (Nat.zero_lt_of_lt hm), h.bailout, h.reads⟩

theorem lists_pendingBlock (hb : ∀ i ∈ bailout, ∀ s ∈ i.reads, s = tagSlot) :
    Lists (pendingBlock bailout row) tagSlot row where
  code k hpos hk := ⟨none, by rw [pendingBlock, if_neg (Nat.ne_of_gt hpos)]⟩
  back id hid := absurd hid List.not_mem_nil
  successors k hone hk := by
    rw [pendingBlock, if_neg (by omega)]
    exact if_neg (Nat.ne_of_gt hone)
  bailout := rfl
  reads := hb

theorem lists_listed (hb : ∀ i ∈ l.bailout, ∀ s ∈ i.reads, s = tagSlot) :
    Lists l.listed tagSlot l.loop where
  code k hpos hk := ⟨some l.header, by rw [listed, if_neg (Nat.ne_of_gt hpos)]⟩
  back id hid := List.mem_singleton.1 (BlockSet.mem_ofList.1 hid)
  successors k hone hk := by
    rw [listed, if_neg (by omega)]
    exact congrArg BlockSet.ofList (if_neg (Nat.ne_of_gt hone))
  bailout := rfl
  reads := hb

section Entry

variable (hc : Chained tagSlot l.loop) (hb : ∀ i ∈ l.bailout, ∀ s ∈ i.reads, s = tagSlot)

include hc hb

/-- What is live at the prologue's block while it is being filled. -/
theorem live_filled_iff {s : Slot} :
    l.filled.Live s ⟨l.loop.length + 1⟩ ↔
      s ∈ Block.liveBefore (l.prologue ++ l.loop.flatten) [] := by
  have hlists : Lists (listed ⟨[], l.loop, l.bailout⟩) tagSlot l.loop := lists_listed hb
  have hcarries : l.filled.Carries tagSlot l.loop :=
    (hlists.update hc _).carries hc (by omega) (Nat.lt_succ_self _)
  have hblock : l.filled.block? ⟨l.loop.length + 1⟩ =
      some ⟨⟨l.loop.length + 1⟩, .normal, none, l.prologue, .empty, .empty⟩ := by
    rw [filled, block?_ofFun (Nat.lt_succ_self _), Function.update_self]
  refine hcarries.live_entry_iff hblock fun id => ?_
  have hgoes : ¬ l.filled.Goes ⟨l.loop.length + 1⟩ id := by
    rintro ⟨b, hb', hid⟩
    obtain rfl := Option.some.inj (hblock.symm.trans hb')
    exact absurd hid List.not_mem_nil
  have horder : (⟨l.loop.length + 1⟩ : BlockId) ∉ l.filled.order := fun hm =>
    absurd (mem_descending.1 hm) (Nat.lt_irrefl _)
  have hcurrent : l.filled.current? = some ⟨l.loop.length⟩ := by
    show (descending (l.loop.length + 1)).head? = _
    rw [descending_succ]
    rfl
  rw [Flows, or_iff_right hgoes, and_iff_right horder, hcurrent, Option.some.injEq, eq_comm]

/-- What is live at the prologue's block when it is in its place, or has been dropped. -/
theorem live_emitted_iff {s : Slot} :
    l.emitted.Live s ⟨l.loop.length + 1⟩ ↔
      s ∈ Block.liveBefore (l.prologue ++ l.loop.flatten) [] := by
  rw [emitted]
  split_ifs with hempty
  · exact live_filled_iff hc hb
  have hcarries : l.entered.Carries tagSlot l.loop :=
    ((lists_listed hb).update hc _).carries hc (by omega) (by omega)
  have hblock : l.entered.block? ⟨l.loop.length + 1⟩ = some l.prologueBlock := by
    rw [entered, block?_ofFun (Nat.lt_succ_self _), Function.update_self]
  refine hcarries.live_entry_iff hblock fun id => ⟨?_, ?_⟩
  · rintro (⟨b, hb', hid⟩ | ⟨hno, -⟩)
    · obtain rfl := Option.some.inj (hblock.symm.trans hb')
      exact List.mem_singleton.1 (BlockSet.mem_ofList.1 hid)
    · exact absurd (mem_descending.2 (Nat.lt_succ_self _)) hno
  · rintro rfl
    exact Or.inl ⟨_, hblock, BlockSet.mem_ofList.2 (List.mem_singleton_self _)⟩

end Entry

end Layout

/-! ### The front of the walk -/

namespace Course

open Job

variable {t : Trace} {settings : Settings} (c : Course t settings) {point : t.Point}

/-- What is live at the front at a point is what the code there reads before it writes it, when it is run
through once. -/
theorem live_iff (hacc : t.Accepted) (h : point.Clear) {s : Slot} :
    (point.assembly (ofTrace t settings).bailout (c.frontAt point)).Live s
        ⟨(c.frontAt point).later.length + 1⟩ ↔
      s ∈ Block.liveBefore (c.frontAt point).straight [] := by
  have hb : ∀ i ∈ (ofTrace t settings).bailout, ∀ s ∈ i.reads, s = (ofTrace t settings).tagSlot :=
    fun i hi s hs => eq_of_mem_reads_bailoutCode hi hs
  have hguards : ∀ id ∈ point.ofPrologue, ¬ t.Guards id := fun id hid hg =>
    h.prologue id hid (Or.inr hg)
  have hlater : ∀ {pre passed : List ValueId}, pre ++ passed = t.prologue →
      (∀ id ∈ passed, ¬ t.Guards id) → Layout.Chained (ofTrace t settings).tagSlot
        ((ofTrace t settings).passAll c.beforePrologue passed).later := fun hpre hids => by
    rw [(List.cons.inj (row_prologue (c := c) hacc hpre hids)).2]
    exact c.chained_afterBody
  cases point with
  | body passed suffix =>
    have hc := chained_passAll (j := ofTrace t settings) c.afterMoves passed (.last straight_moves)
    exact ((Layout.lists_pendingBlock hb).carries hc (Nat.lt_succ_self _)
      (Nat.lt_succ_self _)).live_header_iff
  | closed =>
    exact ((Layout.lists_listed (l := ⟨[], c.afterBody.row, (ofTrace t settings).bailout⟩) hb).carries
      c.chained_afterBody (Nat.lt_succ_self _) (Nat.lt_succ_self _)).live_header_iff
  | prologue passed suffix =>
    exact Layout.live_filled_iff (hlater suffix.choose_spec hguards) hb
  | entered => exact Layout.live_emitted_iff (hlater (List.nil_append t.prologue) hguards) hb

end Course

namespace Trace

open Job

/-- The slot is live at the front of the walk. -/
def LiveAt (t : Trace) (settings : Settings) (point : t.Point) (w : Walk) (s : Slot) : Prop :=
  (t.standing settings point w).Live s w.current

/-- What the code may read from before it is in good hands. -/
structure Safe (t : Trace) (settings : Settings) (point : t.Point) (w : Walk) : Prop where
  /-- It is bound. -/
  bound : ∀ s, t.LiveAt settings point w s → s ∈ w.pool.bound
  /-- It is not to be handed out again. -/
  pooled : ∀ s ∈ w.pool.free, ¬ t.LiveAt settings point w s
  /-- It is not the slot for the tags of guards. -/
  tag : ¬ t.LiveAt settings point w (ofTrace t settings).tagSlot
  /-- It belongs to no value that has been released. -/
  unreleased : ∀ v s, w.pool.lookup v = some s → t.LiveAt settings point w s → v ∉ w.pool.released
  /-- It belongs to leaves, and to values whose definitions are still to come. -/
  awaited : ∀ v s, w.pool.lookup v = some s → t.LiveAt settings point w s →
    (∃ val, t.get? v = some val ∧ val.isLeaf = true) ∨ v ∈ t.stream ∧ v ∉ point.passed

/-- **What is live is bound**: a lowering goes through all points between two instructions, and at each of
them the first of the calls for the trace have put together the blocks that are there. What is live at the
front, over any path along their edges, is bound. So it is not to be handed out again, it is not the slot
for the tag, and no value that has it has been released. -/
theorem stands_safe (t : Trace) (settings : Settings) (hcheck : t.check = .ok ()) {point : t.Point}
    {w : Walk} (h : t.Stands settings point w) :
    (∃ rest : List Slot → Walk.Step Routine,
      (ofTrace t settings).lower = (ofTrace t settings).walkTo point >>= rest) ∧
    (∃ place steps,
      (ofTrace t settings).callsTo place steps point <+: (ofTrace t settings).calls place steps ∧
      Assembly.Builds {} ((ofTrace t settings).callsTo place steps point)
        (t.standing settings point w)) ∧
    t.Safe settings point w := by
  have hacc := check_eq_ok_iff.1 hcheck
  obtain ⟨c, hclear, hfront⟩ := h.exists_course hcheck
  have hkept := c.kept_frontAt hacc hclear
  have hready := c.ready_frontAt hacc point
  have hpool : w.pool = (c.frontAt point).pool := congrArg Front.pool hfront
  have hlater : w.later = (c.frontAt point).later := congrArg Front.later hfront
  have hlive : ∀ s, t.LiveAt settings point w s → s ∈ (c.frontAt point).pool.bound := by
    intro s hs
    rw [LiveAt, standing, hfront, Walk.current, hlater, c.live_iff hacc hclear] at hs
    exact hkept.bound s hs
  refine ⟨(ofTrace t settings).lower_eq_walkTo point, ⟨c.placement, c.steps,
    (ofTrace t settings).callsTo_begins c.placement c.steps point, ?_⟩, ?_⟩
  · rw [standing, hfront]
    exact c.builds_point hacc hclear
  · refine ⟨fun s hs => ?_, fun s hs hl => ?_, fun hl => hkept.tag.bound (hlive _ hl),
      fun v s hv _ hr => ?_, fun v s hv _ => ?_⟩
    · rw [hpool]
      exact hlive s hs
    · exact hready.fits.sound.apart s (hlive s hl) (hpool ▸ hs)
    · have hnone := hready.fits.sound.released v (hpool ▸ hr)
      rw [← hpool, hv] at hnone
      cases hnone
    · exact hready.pending (hpool ▸ hv)

/-- The loop of `countdown` is complete, and a block is open for the prologue. -/
def countdownEntry : countdown.Point := .prologue [] List.nil_suffix

/-- Where the walk stands then. -/
def countdownWalk : Walk :=
  (((ofTrace countdown {}).walkTo countdownEntry).run.run { pool := (Session.opening {}).2 }).2

/-- The counter is live, and the slot of its next value may be handed out again. -/
theorem stands_safe_countdown : countdown.check = .ok () ∧
    countdown.Stands {} countdownEntry countdownWalk ∧ countdownWalk.pool.free = [⟨.int, 2⟩] ∧
    countdown.LiveAt {} countdownEntry countdownWalk ⟨.int, 1⟩ ∧
    countdown.Safe {} countdownEntry countdownWalk := by
  have hcheck : countdown.check = .ok () := by decide
  have hrun : ∀ {r : Except Fault (List Slot) × Walk} {parameters}, r.1 = .ok parameters →
      r = (.ok parameters, r.2) := fun h => Prod.ext h rfl
  have hstands : countdown.Stands {} countdownEntry countdownWalk :=
    ⟨[⟨.int, 1⟩], hrun (by decide +kernel)⟩
  refine ⟨hcheck, hstands, by decide +kernel, ?_, (stands_safe countdown {} hcheck hstands).2.2⟩
  -- the open block is empty and falls through to the first block of the loop, which reads the counter
  have hopen : ((countdown.standing {} countdownEntry countdownWalk).block? ⟨3⟩).any
      (fun b => ⟨.int, 1⟩ ∉ b.written) = true := by decide +kernel
  have hheader : ((countdown.standing {} countdownEntry countdownWalk).block? ⟨2⟩).any
      (fun b => ⟨.int, 1⟩ ∈ b.exposed) = true := by decide +kernel
  obtain ⟨b, hb, hunwritten⟩ := (Option.any_eq_true _ _).1 hopen
  obtain ⟨first, hfirst, hexposed⟩ := (Option.any_eq_true _ _).1 hheader
  have hout : (⟨3⟩ : BlockId) ∉ (countdown.standing {} countdownEntry countdownWalk).order := by
    decide +kernel
  have hcurrent : (countdown.standing {} countdownEntry countdownWalk).current? = some ⟨2⟩ := by
    decide +kernel
  have hfront : countdownWalk.current = ⟨3⟩ := by decide +kernel
  rw [LiveAt, hfront]
  exact .later hb (of_decide_eq_true hunwritten) (Or.inr ⟨hout, hcurrent⟩)
    (.here hfirst (of_decide_eq_true hexposed))

end Trace

end LoopTrace
