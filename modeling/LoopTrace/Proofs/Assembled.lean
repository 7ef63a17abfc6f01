import LoopTrace.Flow.Call
import LoopTrace.Proofs.Placement
import Mathlib.Logic.Function.Basic

/-!
# Putting the blocks together

A layout tells where the blocks of a trace stand in the end. An assembly gets them there one after
another, from the last one to the first: the bailout block is created and emitted, then the block that
jumps back, though it is not yet known whereto; each instruction is put in front of the block that is
current, and each guard makes a new one current, which is linked to the one before it and to the bailout
block; when the body has been passed, the jump is pointed at the block that is current then; and at last
a block is filled for the prologue and emitted unless it is empty. No call on the way is refused, and the
blocks that are left in order are those of the layout (`Layout.builds_blocks`).
-/

namespace LoopTrace

namespace BlockSet

theorem insert_empty (id : BlockId) : empty.insert id = ofList [id] := rfl

theorem insert_ofList (ids : List BlockId) (id : BlockId) :
    (ofList ids).insert id = ofList (ids ++ [id]) := (List.foldl_concat _ _ _ _).symm

end BlockSet

namespace Assembly

/-! ### Runs without refusals -/

/-- Whether the reply lets the caller go on: the call was not refused, and if it was to point jumps
somewhere, there were some. -/
def Reply.isGood : Reply → Bool
  | .refused _ | .resolved 0 => false
  | _ => true

/-- The calls lead from one assembly to another, with good replies only. -/
structure Builds (a : Assembly) (calls : List Call) (b : Assembly) : Prop where
  result : (a.run calls).2 = b
  accepted : ∀ reply ∈ (a.run calls).1, reply.isGood = true

namespace Builds

variable {a b c : Assembly}

theorem nil (a : Assembly) : a.Builds [] a := ⟨rfl, fun _ h => absurd h List.not_mem_nil⟩

theorem cons {call : Call} {calls : List Call} {reply : Reply} (h : a.answer call = (reply, b))
    (hreply : reply.isGood = true) (hcalls : b.Builds calls c) :
    a.Builds (call :: calls) c := by
  have hrun : a.run (call :: calls) = (reply :: (b.run calls).1, (b.run calls).2) := by
    rw [run_cons, h]
  refine ⟨by rw [hrun, hcalls.result], fun r hr => ?_⟩
  rw [hrun] at hr
  rcases List.mem_cons.1 hr with rfl | hr
  · exact hreply
  · exact hcalls.accepted r hr

theorem single {call : Call} {reply : Reply} (h : a.answer call = (reply, b))
    (hreply : reply.isGood = true) : a.Builds [call] b := cons h hreply (nil b)

theorem append {calls calls' : List Call} (h : a.Builds calls b) (h' : b.Builds calls' c) :
    a.Builds (calls ++ calls') c := by
  induction calls generalizing a with
  | nil =>
    obtain rfl : a = b := h.result
    exact h'
  | cons call calls ih =>
    obtain ⟨hresult, haccepted⟩ := h
    rw [run_cons] at hresult haccepted
    exact .cons rfl (haccepted _ List.mem_cons_self)
      (ih ⟨hresult, fun reply hr => haccepted reply (List.mem_cons_of_mem _ hr)⟩)

end Builds

/-! ### Assemblies whose blocks a function lists -/

/-- The assembly of the first `m` blocks that a function lists. -/
def ofFun (m : Nat) (f : Nat → Block) (order : List BlockId) : Assembly :=
  ⟨(List.range m).map f, order⟩

section OfFun

variable {m : Nat} {f g : Nat → Block} {order : List BlockId} {k : Nat}

theorem ofFun_congr (h : ∀ k < m, f k = g k) : ofFun m f order = ofFun m g order := by
  rw [ofFun, ofFun, List.map_congr_left fun k hk => h k (List.mem_range.1 hk)]

theorem block?_ofFun (hk : k < m) : (ofFun m f order).block? ⟨k⟩ = some (f k) := by
  simp [block?, ofFun, hk]

theorem modify_ofFun (k : Nat) (u : Block → Block) :
    (ofFun m f order).modify ⟨k⟩ u = ofFun m (Function.update f k (u (f k))) order := by
  rw [modify, ofFun, ofFun, Assembly.mk.injEq]
  refine ⟨List.ext_getElem? fun i => ?_, rfl⟩
  rw [List.getElem?_modify, List.getElem?_map, List.getElem?_map]
  by_cases hi : i < m
  · by_cases hik : k = i
    · subst hik
      simp [hi]
    · simp [hi, hik, Function.update_of_ne (Ne.symm hik)]
  · simp [hi]

theorem create_ofFun (role : Role) : (ofFun m f order).create role =
    (⟨m⟩, ofFun (m + 1) (Function.update f m ⟨⟨m⟩, role, none, [], .empty, .empty⟩) order) := by
  have hlen : (ofFun m f order).arena.length = m := by simp [ofFun]
  rw [create, hlen]
  refine Prod.ext rfl ?_
  rw [ofFun, ofFun, List.range_succ, List.map_append, List.map_singleton, Function.update_self]
  have hmap : (List.range m).map (Function.update f m ⟨⟨m⟩, role, none, [], .empty, .empty⟩) =
      (List.range m).map f :=
    List.map_congr_left fun i hi => Function.update_of_ne (Nat.ne_of_lt (List.mem_range.1 hi)) _ _
  rw [hmap]

theorem prependTo_ofFun (hk : k < m) (code : List Instruction) :
    (ofFun m f order).prependTo ⟨k⟩ code =
      .ok (ofFun m (Function.update f k { f k with code := code ++ (f k).code }) order) := by
  rw [prependTo, block?_ofFun hk, modify_ofFun]
  rfl

/-- The blocks with an edge between two of them. -/
def joined (f : Nat → Block) (origin target : Nat) : Nat → Block :=
  let f := Function.update f target
    { f target with predecessors := (f target).predecessors.insert ⟨origin⟩ }
  Function.update f origin { f origin with successors := (f origin).successors.insert ⟨target⟩ }

theorem link_ofFun {origin target : Nat} (ho : origin < m) (ht : target < m) :
    (ofFun m f order).link ⟨origin⟩ ⟨target⟩ =
      (.ok (), ofFun m (joined f origin target) order) := by
  rw [link, block?_ofFun ht]
  simp only [Option.isNone_some, modify_ofFun, block?_ofFun ho]
  rfl

/-- The block that is emitted gets the next serial and goes to the one that was current. -/
theorem emit_ofFun_cons {p : Nat} (hk : k < m) (hp : p < m) (hserial : (f k).serial = none) :
    (ofFun m f (⟨p⟩ :: order)).emit ⟨k⟩ true =
      (.ok (), ofFun m (joined
        (Function.update f k { f k with serial := some (order.length + 1) }) k p)
        (⟨k⟩ :: ⟨p⟩ :: order)) := by
  rw [emit, block?_ofFun hk]
  simp only [hserial, Option.isSome_none, modify_ofFun]
  have hcurrent : (ofFun m (Function.update f k { f k with serial := some (order.length + 1) })
      (⟨p⟩ :: order)).current? = some ⟨p⟩ := rfl
  have hlength : (ofFun m f (⟨p⟩ :: order)).order.length = order.length + 1 := rfl
  rw [hlength, hcurrent]
  simp only [link_ofFun hk hp]
  rfl

/-- A block without code stays out. -/
theorem emitUnlessEmpty_ofFun_of_nil (hk : k < m) (hcode : (f k).code = []) (linked : Bool) :
    (ofFun m f order).emitUnlessEmpty ⟨k⟩ linked = (.ok false, ofFun m f order) := by
  rw [emitUnlessEmpty, block?_ofFun hk]
  simp only [hcode, List.isEmpty_nil, if_true]

theorem emitUnlessEmpty_ofFun (hk : k < m) (hcode : (f k).code ≠ []) (linked : Bool)
    {a : Assembly} (h : (ofFun m f order).emit ⟨k⟩ linked = (.ok (), a)) :
    (ofFun m f order).emitUnlessEmpty ⟨k⟩ linked = (.ok true, a) := by
  rw [emitUnlessEmpty, block?_ofFun hk]
  simp only [List.isEmpty_eq_false_iff.2 hcode, Bool.false_eq_true, if_false, h]

theorem resolveJumps_ofFun (hk : k < m) (header : BlockId) :
    (ofFun m f order).resolveJumps ⟨k⟩ header =
      .ok ((f k).code.count (.jump none),
        ofFun m (Function.update f k { f k with code := (f k).code.map (resolve header) })
          order) := by
  rw [resolveJumps, block?_ofFun hk]
  simp only [modify_ofFun]

end OfFun

end Assembly

/-! ### The calls for a trace -/

namespace Job

variable (j : Job) (place : Placement)

/-- The calls for an instruction. The `n`-th block from the end is being filled. -/
def callsAt (n : Nat) (id : ValueId) : List Assembly.Call :=
  match j.exitAt place id with
  | some g =>
    [.create .normal, .emit ⟨n + 1⟩ true, .link ⟨n + 1⟩ Layout.bailoutId,
      .prependTo ⟨n + 1⟩ (g.code j.tagSlot Layout.bailoutId ⟨n⟩)]
  | none => (j.instructionAt place id).toList.map fun i => .prependTo ⟨n⟩ [i]

/-- The calls for instructions, the last one first. -/
def callsFor (n : Nat) : List ValueId → List Assembly.Call
  | [] => []
  | id :: ids => callsFor n ids ++ j.callsAt place (n + (ids.filter j.trace.isGuard).length) id

/-- All calls for a trace. The moves into the next iteration have been ordered. -/
def calls (steps : List Move.Step) : List Assembly.Call :=
  let blocks := j.trace.guards.length + 1
  [.create .synthetic, .emit Layout.bailoutId false,
    .prependTo Layout.bailoutId (j.settings.abi.bailoutCode j.tagSlot),
    .create .normal, .emit Layout.lastId false, .prependTo Layout.lastId [.jump none],
    .prependTo Layout.lastId (Move.stepCode steps)] ++
  j.callsFor place 1 j.trace.body ++
  [.resolveJumps Layout.lastId ⟨blocks⟩, .link Layout.lastId ⟨blocks⟩] ++
  ([.create .normal] ++ j.callsFor place (blocks + 1) j.trace.prologue ++
    [.emitUnlessEmpty ⟨blocks + 1⟩ true])

end Job

/-! ### The loop -/

namespace Layout

/-- The code of the block of a row that is the `k`-th from the end. -/
def codeOf : List (List Instruction) → Nat → List Instruction
  | [], _ => []
  | code :: rest, k => if k = rest.length + 1 then code else codeOf rest k

/-- A block while the loop is not yet complete: the jump back leads nowhere, and nothing leads to the
block that is current. -/
def pendingBlock (bailout : List Instruction) (row : List (List Instruction)) (k : Nat) : Block :=
  if k = 0 then
    { id := bailoutId, role := .synthetic, serial := some 0, code := bailout
      predecessors := .ofList ((List.range (row.length - 1)).map fun k => ⟨k + 2⟩) }
  else
    { id := ⟨k⟩, role := .normal, serial := some k
      code := codeOf row k ++ if k = 1 then [.jump none] else []
      predecessors := if k = row.length then .empty else .ofList [⟨k + 1⟩]
      successors := if k = 1 then .empty else .ofList [⟨k - 1⟩, bailoutId] }

/-- The ids of the first `m` blocks, from the last one to the first. -/
def descending (m : Nat) : List BlockId := (List.range m).reverse.map BlockId.mk

theorem descending_succ (m : Nat) : descending (m + 1) = ⟨m⟩ :: descending m := by
  simp [descending, List.range_succ]

theorem length_descending (m : Nat) : (descending m).length = m := by
  simp [descending]

/-- The assembly while the loop is not yet complete. -/
def pending (bailout : List Instruction) (row : List (List Instruction)) : Assembly :=
  .ofFun (row.length + 1) (pendingBlock bailout row) (descending (row.length + 1))

open Assembly

variable {bailout : List Instruction} {row : List (List Instruction)}

/-- The first two blocks. -/
theorem builds_first (back : List Instruction) : Builds {}
    [.create .synthetic, .emit bailoutId false, .prependTo bailoutId bailout, .create .normal,
      .emit lastId false, .prependTo lastId [.jump none], .prependTo lastId back]
    (pending bailout [back]) := by
  refine ⟨?_, ?_⟩
  · simp [run, answer, create, emit, prependTo, Assembly.modify, block?, pending, ofFun, pendingBlock,
      bailoutId, lastId, codeOf, descending, List.range_succ, BlockSet.ofList]
  · simp [run, answer, create, emit, prependTo, Assembly.modify, block?, bailoutId, lastId,
      Reply.isGood]

/-- Code that is put in front of the block that is current. -/
theorem builds_prepend (code : List Instruction) (rest : List (List Instruction))
    (front : List Instruction) : (pending bailout (code :: rest)).Builds
      [.prependTo ⟨rest.length + 1⟩ front] (pending bailout ((front ++ code) :: rest)) := by
  refine .single ?_ (rfl : Reply.isGood .nothing = true)
  have hlt : rest.length + 1 < (code :: rest).length + 1 := by simp
  rw [answer, pending, prependTo_ofFun hlt]
  refine Prod.ext rfl (ofFun_congr fun k _ => ?_)
  by_cases hk : k = rest.length + 1
  · subst hk
    rw [Function.update_self]
    simp [pendingBlock, codeOf]
  · rw [Function.update_of_ne hk]
    simp [pendingBlock, codeOf, hk]

/-- A new block, linked to the one that was current and to the bailout block. -/
theorem joined_pendingBlock (h : row ≠ []) {k : Nat} (hk : k < row.length + 2) :
    joined (joined (Function.update (pendingBlock bailout row) (row.length + 1)
      ⟨⟨row.length + 1⟩, .normal, some (row.length + 1), [], .empty, .empty⟩)
        (row.length + 1) row.length) (row.length + 1) 0 k = pendingBlock bailout ([] :: row) k := by
  have hpos : row.length ≠ 0 := fun hz => h (List.length_eq_zero_iff.1 hz)
  -- the links touch the new block, the one that was current, and the bailout block
  by_cases hnew : k = row.length + 1
  · subst hnew
    simp [joined, pendingBlock, codeOf, hpos, BlockSet.insert_empty, BlockSet.insert_ofList, bailoutId]
  by_cases hcur : k = row.length
  · subst hcur
    simp [joined, pendingBlock, codeOf, hpos, BlockSet.insert_empty]
  by_cases hzero : k = 0
  · subst hzero
    obtain ⟨n, hn⟩ := Nat.exists_eq_succ_of_ne_zero hpos
    simp [joined, pendingBlock, hn, List.range_succ, BlockSet.insert_ofList]
  · simp [joined, pendingBlock, codeOf, hnew, hcur, hzero]

/-- A block that is opened for a guard. -/
theorem builds_open (h : row ≠ []) : (pending bailout row).Builds
    [.create .normal, .emit ⟨row.length + 1⟩ true, .link ⟨row.length + 1⟩ bailoutId]
    (pending bailout ([] :: row)) := by
  have hnew : row.length + 1 < row.length + 2 := Nat.lt_succ_self _
  have hcur : row.length < row.length + 2 := Nat.lt_succ_of_lt (Nat.lt_succ_self _)
  refine .cons (by rw [answer, pending, create_ofFun]) rfl ?_
  rw [descending_succ]
  refine .cons (by rw [answer, emit_ofFun_cons hnew hcur (by simp)]) rfl ?_
  refine .cons (by rw [answer, bailoutId, link_ofFun hnew (Nat.succ_pos _)]) rfl ?_
  refine ⟨?_, by simp [run]⟩
  rw [run, pending, List.length_cons, descending_succ, descending_succ, length_descending,
    Function.update_self, Function.update_idem]
  exact ofFun_congr fun k hk => joined_pendingBlock h hk

/-- The calls for instructions of the body put their blocks together. -/
theorem builds_callsFor (j : Job) (place : Placement) (h : row ≠ []) (ids : List ValueId) :
    (pending bailout row).Builds (j.callsFor place row.length ids)
      (pending bailout (j.rowAt place ids row)) := by
  induction ids with
  | nil => exact .nil _
  | cons id ids ih =>
    -- the instructions after this one have been passed, and the first block of their row is current
    refine ih.append ?_
    have hne : j.rowAt place ids row ≠ [] := Job.rowAt_ne_nil h ids
    have hlen : (j.rowAt place ids row).length = row.length + (ids.filter j.trace.isGuard).length :=
      Job.length_rowAt ids row
    obtain ⟨code, rest, hrow⟩ := List.exists_cons_of_ne_nil hne
    rw [Job.rowAt_cons, Job.callsAt, ← hlen, hrow]
    cases hg : j.trace.isGuard id with
    | true =>
      obtain ⟨g, he⟩ := Job.exists_exitAt place hg
      rw [he, Job.rowBefore_guard he]
      refine .append (builds_open (List.cons_ne_nil code rest)) ?_
      simpa using builds_prepend [] (code :: rest) (g.code j.tagSlot bailoutId ⟨rest.length + 1⟩)
    | false =>
      rw [Job.exitAt_eq_none hg, Job.rowBefore_plain hg]
      cases j.instructionAt place id with
      | none => exact .nil _
      | some i => exact builds_prepend code rest [i]

/-! ### The jump back -/

/-- The block of a layout that is the `k`-th from the end, the prologue's block left out. -/
def listed (l : Layout) (k : Nat) : Block :=
  if k = 0 then l.bailoutBlock
  else
    { id := ⟨k⟩, role := .normal, serial := some k
      code := codeOf l.loop k ++ if k = 1 then [.jump (some l.header)] else []
      predecessors := .ofList (l.loopPredecessors ⟨k⟩)
      successors := .ofList (if k = 1 then [l.header] else [⟨k - 1⟩, bailoutId]) }

/-- The assembly of a loop that is complete. -/
def closed (l : Layout) : Assembly :=
  .ofFun (l.loop.length + 1) l.listed (descending (l.loop.length + 1))

theorem Chained.straight_codeOf {tagSlot : Slot} (h : Chained tagSlot row) :
    Straight (codeOf row 1) := by
  induction h with
  | last hs => exact hs
  | guarded hs g hc ih =>
    rw [codeOf, if_neg (by simp)]
    exact ih

/-- Pointing jumps somewhere leaves code without branches alone. -/
theorem Straight.map_resolve {code : List Instruction} (h : Straight code) (header : BlockId) :
    code.map (resolve header) = code := by
  have hcode : code.map (resolve header) = code.map id := List.map_congr_left fun i hi => by
    have hi := (h.targets hi).2
    cases i with
    | jump target => cases target <;> first | rfl | exact absurd rfl hi
    | _ => rfl
  rw [hcode, List.map_id]

theorem joined_listed (h : row ≠ []) (hs : Straight (codeOf row 1)) {k : Nat} :
    joined (Function.update (pendingBlock bailout row) 1
      { pendingBlock bailout row 1 with
        code := (pendingBlock bailout row 1).code.map (resolve ⟨row.length⟩) }) 1 row.length k =
      listed ⟨[], row, bailout⟩ k := by
  have hpos : row.length ≠ 0 := fun hz => h (List.length_eq_zero_iff.1 hz)
  have hback (id : BlockId) : resolve id (.jump none) = .jump (some id) := rfl
  by_cases hlast : k = 1
  · subst hlast
    -- without guards the last block is the first one as well, and jumps back to itself
    by_cases hone : row.length = 1
    · simp [joined, pendingBlock, listed, loopPredecessors, header, prologueId?, lastId, hone,
        hs.map_resolve, hback, BlockSet.insert_empty]
    · simp [joined, pendingBlock, listed, loopPredecessors, header, hone, Ne.symm hone,
        hs.map_resolve, hback, BlockSet.insert_empty]
  by_cases hheader : k = row.length
  · subst hheader
    simp [joined, pendingBlock, listed, loopPredecessors, header, prologueId?, lastId, hlast, hpos,
      BlockSet.insert_empty]
  by_cases hzero : k = 0
  · subst hzero
    simp [joined, pendingBlock, listed, bailoutBlock, Ne.symm hpos]
  · simp [joined, pendingBlock, listed, loopPredecessors, header, hlast, hheader, hzero]

/-- When the block that is current is the first of the loop, the last one jumps back to it. -/
theorem builds_closed (h : row ≠ []) (hs : Straight (codeOf row 1)) :
    (pending bailout row).Builds
      [.resolveJumps lastId ⟨row.length⟩, .link lastId ⟨row.length⟩]
      (closed ⟨[], row, bailout⟩) := by
  have hlast : 1 < row.length + 1 := Nat.succ_lt_succ (List.length_pos_iff.2 h)
  have hheader : row.length < row.length + 1 := Nat.lt_succ_self _
  have hcount : (pendingBlock bailout row 1).code.count (.jump none) ≠ 0 := by
    simp [pendingBlock]
  refine .cons (by rw [answer, pending, lastId, resolveJumps_ofFun hlast]) ?_ ?_
  · revert hcount
    cases (pendingBlock bailout row 1).code.count (.jump none) with
    | zero => exact fun h => absurd rfl h
    | succ n => exact fun _ => rfl
  refine .cons (by rw [answer, lastId, link_ofFun hlast hheader]) rfl ?_
  refine ⟨?_, by simp [run]⟩
  rw [run, closed]
  exact ofFun_congr fun k _ => joined_listed h hs

/-! ### The prologue -/

/-- The calls for instructions that are no guards put their code into a block. -/
theorem builds_code (j : Job) (place : Placement) (f : Nat → Block) (order : List BlockId) {m k : Nat}
    (hk : k < m) {ids : List ValueId} (hids : ∀ id ∈ ids, ¬ j.trace.Guards id) :
    (ofFun m f order).Builds (j.callsFor place k ids)
      (ofFun m (Function.update f k { f k with code := j.codeAt place ids ++ (f k).code }) order) := by
  induction ids with
  | nil =>
    rw [Job.codeAt_nil, List.nil_append, Function.update_eq_self]
    exact .nil _
  | cons id ids ih =>
    have hplain : ∀ id ∈ ids, ¬ j.trace.Guards id := fun u hu => hids u (List.mem_cons_of_mem _ hu)
    have hguards : ids.filter j.trace.isGuard = [] :=
      List.filter_eq_nil_iff.2 fun u hu hg => hplain u hu (Trace.isGuard_iff.1 hg)
    have hid : j.exitAt place id = none :=
      Job.exitAt_eq_none (Trace.isGuard_eq_false (hids id List.mem_cons_self))
    refine (ih hplain).append ?_
    rw [hguards, List.length_nil, Nat.add_zero, Job.callsAt, hid, Job.codeAt_cons]
    cases j.instructionAt place id with
    | none => exact .nil _
    | some i =>
      refine .single ?_ (rfl : Reply.isGood .nothing = true)
      rw [answer, prependTo_ofFun hk, Function.update_self, Function.update_idem]
      rfl

/-- The blocks of a layout that an assembly has put in order. -/
theorem blocks_ofFun {m n : Nat} {f : Nat → Block} (h : m ≤ n) :
    (ofFun n f (descending m)).blocks = (descending m).map fun id => f id.index := by
  rw [Assembly.blocks, ← List.filterMap_eq_map]
  refine List.filterMap_congr fun id hid => ?_
  obtain ⟨k, hk, rfl⟩ := List.mem_map.1 hid
  have hk := List.mem_range.1 (List.mem_reverse.1 hk)
  exact block?_ofFun (Nat.lt_of_lt_of_le hk h)

theorem codeOf_append (pre : List (List Instruction)) (code : List Instruction)
    (rest : List (List Instruction)) :
    codeOf (pre ++ code :: rest) (rest.length + 1) = code := by
  induction pre with
  | nil => exact if_pos rfl
  | cons c pre ih =>
    have hlen : rest.length + 1 ≠ (pre ++ code :: rest).length + 1 := by
      rw [List.length_append, List.length_cons]
      omega
    rw [List.cons_append, codeOf, if_neg hlen, ih]

theorem loopBlock_eq_listed {l : Layout} {pre rest : List (List Instruction)}
    {code : List Instruction} (h : l.loop = pre ++ code :: rest) :
    l.loopBlock code rest = l.listed (rest.length + 1) := by
  have hcode : codeOf l.loop (rest.length + 1) = code := h ▸ codeOf_append pre code rest
  rw [listed, if_neg (Nat.succ_ne_zero _), hcode, loopBlock]
  cases rest with
  | nil => rfl
  | cons next rest => simp

/-- The blocks of a layout from one of the loop on, by their numbers. -/
theorem map_listed {l : Layout} {pre cs : List (List Instruction)} (h : l.loop = pre ++ cs) :
    (descending (cs.length + 1)).map (fun id => l.listed id.index) =
      l.loopBlocks cs ++ [l.bailoutBlock] := by
  induction cs generalizing pre with
  | nil => rfl
  | cons code rest ih =>
    have hrest : l.loop = (pre ++ [code]) ++ rest := by rw [h, List.append_assoc]; rfl
    rw [List.length_cons, descending_succ, List.map_cons, ih hrest, loopBlocks_cons,
      loopBlock_eq_listed h]
    rfl

/-- The assembly when the prologue's block is filled, but not in the order yet. -/
def filled (l : Layout) : Assembly :=
  .ofFun (l.loop.length + 2) (Function.update (listed ⟨[], l.loop, l.bailout⟩) (l.loop.length + 1)
    ⟨⟨l.loop.length + 1⟩, .normal, none, l.prologue, .empty, .empty⟩)
    (descending (l.loop.length + 1))

theorem builds_filled (j : Job) (place : Placement) {l : Layout} {ids : List ValueId}
    (hids : ∀ id ∈ ids, ¬ j.trace.Guards id) (hp : l.prologue = j.codeAt place ids) :
    (closed ⟨[], l.loop, l.bailout⟩).Builds
      ([.create .normal] ++ j.callsFor place (l.loop.length + 1) ids) l.filled := by
  refine .cons (by rw [answer, closed, create_ofFun]) rfl ?_
  have hcode := builds_code j place
    (Function.update (listed ⟨[], l.loop, l.bailout⟩) (l.loop.length + 1)
      ⟨⟨l.loop.length + 1⟩, .normal, none, [], .empty, .empty⟩)
    (descending (l.loop.length + 1)) (Nat.lt_succ_self (l.loop.length + 1)) hids
  rw [Function.update_self, Function.update_idem, List.append_nil, ← hp] at hcode
  exact hcode

theorem index_ne_of_mem_descending {m : Nat} {id : BlockId} (h : id ∈ descending m) :
    id.index ≠ m := by
  obtain ⟨k, hk, rfl⟩ := List.mem_map.1 h
  exact Nat.ne_of_lt (List.mem_range.1 (List.mem_reverse.1 hk))

/-- A block of its own for one more number changes nothing for those before. -/
theorem map_update_descending (f : Nat → Block) (m : Nat) (b : Block) :
    (descending m).map (fun id => Function.update f m b id.index) =
      (descending m).map fun id => f id.index :=
  List.map_congr_left fun _ hid => Function.update_of_ne (index_ne_of_mem_descending hid) _ _

/-- A block for a prologue without code is left out. -/
theorem blocks_filled {l : Layout} (hp : l.prologue = []) : l.filled.blocks = l.blocks := by
  have hl : (⟨[], l.loop, l.bailout⟩ : Layout) = l := by rw [← hp]
  rw [filled, blocks_ofFun (Nat.le_succ _), map_update_descending, hl,
    map_listed (List.nil_append l.loop).symm, blocks, prologueBlocks_eq, if_pos hp, List.nil_append]

/-- The assembly of a trace whose prologue has code. -/
def entered (l : Layout) : Assembly :=
  .ofFun (l.loop.length + 2) (Function.update l.listed (l.loop.length + 1) l.prologueBlock)
    (descending (l.loop.length + 2))

theorem joined_entry {l : Layout} (hloop : l.loop ≠ []) (hp : l.prologue ≠ []) {k : Nat} :
    joined (Function.update (listed ⟨[], l.loop, l.bailout⟩) (l.loop.length + 1)
      ⟨⟨l.loop.length + 1⟩, .normal, some (l.loop.length + 1), l.prologue, .empty, .empty⟩)
        (l.loop.length + 1) l.loop.length k =
      Function.update l.listed (l.loop.length + 1) l.prologueBlock k := by
  have hpos : l.loop.length ≠ 0 := fun hz => hloop (List.length_eq_zero_iff.1 hz)
  by_cases hnew : k = l.loop.length + 1
  · subst hnew
    simp [joined, prologueBlock, header, BlockSet.insert_empty]
  by_cases hheader : k = l.loop.length
  · subst hheader
    simp [joined, listed, loopPredecessors, header, hpos, hp, prologueId?,
      BlockSet.insert_ofList]
  by_cases hzero : k = 0
  · subst hzero
    simp [joined, listed, bailoutBlock, hheader]
  · simp [joined, listed, loopPredecessors, header, hnew, hheader, hzero]

/-- The prologue's block falls into the loop. -/
theorem emit_filled {l : Layout} (hloop : l.loop ≠ []) (hp : l.prologue ≠ []) :
    l.filled.emit ⟨l.loop.length + 1⟩ true = (.ok (), l.entered) := by
  have hnew : l.loop.length + 1 < l.loop.length + 2 := Nat.lt_succ_self _
  have hheader : l.loop.length < l.loop.length + 2 := Nat.lt_succ_of_lt (Nat.lt_succ_self _)
  rw [filled, descending_succ, emit_ofFun_cons hnew hheader (by simp), length_descending,
    Function.update_self, Function.update_idem, entered, descending_succ, descending_succ]
  exact Prod.ext rfl (ofFun_congr fun k _ => joined_entry hloop hp)

theorem blocks_entered {l : Layout} (hp : l.prologue ≠ []) : l.entered.blocks = l.blocks := by
  rw [entered, blocks_ofFun (Nat.le_refl _), descending_succ, List.map_cons, map_update_descending,
    map_listed (List.nil_append l.loop).symm, blocks, prologueBlocks_eq, if_neg hp, Function.update_self]
  rfl

/-- The assembly when the prologue's block is in its place, or is left out as it has no code. -/
def emitted (l : Layout) : Assembly := if l.prologue = [] then l.filled else l.entered

theorem blocks_emitted (l : Layout) : l.emitted.blocks = l.blocks := by
  rw [emitted]
  split_ifs with hempty
  · exact blocks_filled hempty
  · exact blocks_entered hempty

/-- The calls for the prologue complete the blocks of a layout. -/
theorem builds_emitted (j : Job) (place : Placement) {l : Layout} (hloop : l.loop ≠ [])
    {ids : List ValueId} (hids : ∀ id ∈ ids, ¬ j.trace.Guards id)
    (hp : l.prologue = j.codeAt place ids) :
    (closed ⟨[], l.loop, l.bailout⟩).Builds ([.create .normal] ++
      j.callsFor place (l.loop.length + 1) ids ++ [.emitUnlessEmpty ⟨l.loop.length + 1⟩ true])
      l.emitted := by
  have hnew : l.loop.length + 1 < l.loop.length + 2 := Nat.lt_succ_self _
  have hfilled := builds_filled j place hids hp
  rw [emitted]
  split_ifs with hempty
  · refine hfilled.append (.single ?_ (rfl : Reply.isGood (.emitted false) = true))
    rw [answer, filled, emitUnlessEmpty_ofFun_of_nil hnew (by simpa using hempty)]
  · refine hfilled.append (.single ?_ (rfl : Reply.isGood (.emitted true) = true))
    have hemit := emit_filled hloop hempty
    rw [filled] at hemit
    rw [answer, filled, emitUnlessEmpty_ofFun hnew (by simpa using hempty) true hemit]

/-- The calls for a trace put the blocks of its layout together. -/
theorem builds_blocks (j : Job) (place : Placement) (steps : List Move.Step) {l : Layout}
    (hprologue : l.prologue = j.codeAt place j.trace.prologue)
    (hloop : l.loop = j.rowAt place j.trace.body [Move.stepCode steps])
    (hbailout : l.bailout = j.settings.abi.bailoutCode j.tagSlot)
    (hids : ∀ id ∈ j.trace.prologue, ¬ j.trace.Guards id) (hc : Chained j.tagSlot l.loop) :
    ∃ a, Builds {} (j.calls place steps) a ∧ a.blocks = l.blocks := by
  have hlen : l.loop.length = j.trace.guards.length + 1 := by
    rw [hloop, Job.length_rowAt, List.length_singleton, Nat.add_comm]
    rfl
  have hentry := builds_emitted j place hc.ne_nil hids hprologue
  have hbody : (pending l.bailout [Move.stepCode steps]).Builds (j.callsFor place 1 j.trace.body)
      (pending l.bailout l.loop) := by
    rw [hloop]
    exact builds_callsFor j place (List.cons_ne_nil _ _) j.trace.body
  refine ⟨l.emitted, ?_, l.blocks_emitted⟩
  rw [Job.calls, ← hlen, ← hbailout]
  exact (((builds_first _).append hbody).append
    (builds_closed hc.ne_nil hc.straight_codeOf)).append hentry

end Layout

/-- The calls for a trace leave the routine of its course. -/
theorem Course.assembled {t : Trace} {settings : Settings} {c : Course t settings}
    (hacc : t.Accepted) (h : t.Lowerable) :
    ∃ a, Assembly.Builds {} ((Job.ofTrace t settings).calls c.placement c.steps) a ∧
      c.routine = a.finish t.anchor c.routine.parameters c.routine.slotCount := by
  obtain ⟨a, hbuilds, hblocks⟩ := Layout.builds_blocks (Job.ofTrace t settings) c.placement c.steps
    (layout_prologue_eq hacc h) (layout_loop_eq hacc h) rfl h.prologue (c.shaped_layout h).loop
  refine ⟨a, hbuilds, ?_⟩
  rw [Assembly.finish, hblocks]
  rfl

end LoopTrace
