import LoopTrace.Flow.Call
import Mathlib.Tactic.SplitIfs

/-!
# What a call does to blocks

An answer tells what its call has done: which block it has created or emitted, which edge it has made,
what it has put in front of a block, and where it has pointed the open jumps of one. As long as the
caller names blocks that there are, this is all that happens. Every block that there was is edited
accordingly (`Entry.edit`), a block that is new is empty, and a call that is refused does nothing
(`effect_answer`).
-/

namespace LoopTrace.Assembly

/-! ### What answers tell -/

/-- The blocks that the caller names. -/
def Call.ids : Call → List BlockId
  | .create _ | .prepend _ => []
  | .emit id _ | .emitUnlessEmpty id _ | .prependTo id _ => [id]
  | .link origin target => [origin, target]
  | .resolveJumps id header => [id, header]

/-- A call and its answer. -/
structure Entry where
  call : Call
  reply : Reply
  deriving DecidableEq, Repr

namespace Entry

/-- The block that the call has created. -/
def created? : Entry → Option BlockId
  | ⟨.create _, .created id⟩ => some id
  | _ => none

/-- The block that the call has emitted. -/
def emitted? : Entry → Option BlockId
  | ⟨.emit id _, .nothing⟩ | ⟨.emitUnlessEmpty id _, .emitted true⟩ => some id
  | _ => none

/-- The edge that the call has made. A block that is emitted with a link gets one to the block that was
current until then. -/
def edge? (current : Option BlockId) : Entry → Option (BlockId × BlockId)
  | ⟨.link origin target, .nothing⟩ => some (origin, target)
  | ⟨.emit id true, .nothing⟩ | ⟨.emitUnlessEmpty id true, .emitted true⟩ => current.map (id, ·)
  | _ => none

/-- The instructions that the call has put in front of a block. -/
def batch? (current : Option BlockId) (id : BlockId) : Entry → Option (List Instruction)
  | ⟨.prependTo id' code, .nothing⟩ => if id' = id then some code else none
  | ⟨.prepend code, .nothing⟩ => if current = some id then some code else none
  | _ => none

/-- The block at which the call has pointed the open jumps of a block. -/
def header? (id : BlockId) : Entry → Option BlockId
  | ⟨.resolveJumps id' header, .resolved _⟩ => if id' = id then some header else none
  | _ => none

end Entry

/-! ### What one call does -/

section Blocks

variable (a : Assembly) (id id' : BlockId)

theorem block?_modify (f : Block → Block) : (a.modify id f).block? id' =
    if id' = id then (a.block? id').map f else a.block? id' := by
  rw [block?, modify, List.getElem?_modify]
  by_cases h : id' = id
  · subst h
    simp [block?]
  · have hne : id.index ≠ id'.index := fun he => h (congrArg BlockId.mk he.symm)
    simp [block?, h, hne]

theorem block?_create (role : Role) : (a.create role).2.block? id =
    if id = ⟨a.arena.length⟩ then some ⟨id, role, none, [], .empty, .empty⟩ else a.block? id := by
  rw [block?, create]
  by_cases h : id = ⟨a.arena.length⟩
  · subst h
    simp
  · have hne : id.index ≠ a.arena.length := fun he => h (congrArg BlockId.mk he)
    rw [if_neg h, block?]
    rcases Nat.lt_or_gt_of_ne hne with hlt | hgt
    · rw [List.getElem?_append_left hlt]
    · rw [List.getElem?_eq_none (by simp; omega), List.getElem?_eq_none (by omega)]

theorem block?_length : a.block? ⟨a.arena.length⟩ = none := List.getElem?_eq_none (Nat.le_refl _)

end Blocks

/-- What an edge does to a block. -/
def edged (edge? : Option (BlockId × BlockId)) (id : BlockId) (b : Block) : Block :=
  match edge? with
  | some (origin, target) => { b with
      predecessors := if id = target then b.predecessors.insert origin else b.predecessors
      successors := if id = origin then b.successors.insert target else b.successors }
  | none => b

theorem id_edged (edge? : Option (BlockId × BlockId)) (id : BlockId) (b : Block) :
    (edged edge? id b).id = b.id := by
  cases edge? <;> rfl

theorem mem_successors_edged {edge? : Option (BlockId × BlockId)} {id target : BlockId} {b : Block} :
    target ∈ (edged edge? id b).successors ↔ edge? = some (id, target) ∨ target ∈ b.successors := by
  rcases edge? with _ | ⟨origin', target'⟩
  · simp [edged]
  · by_cases h : id = origin'
    · simp [edged, h, or_comm, eq_comm]
    · simp [edged, h, Ne.symm h]

theorem mem_predecessors_edged {edge? : Option (BlockId × BlockId)} {id origin : BlockId} {b : Block} :
    origin ∈ (edged edge? id b).predecessors ↔ edge? = some (origin, id) ∨ origin ∈ b.predecessors := by
  rcases edge? with _ | ⟨origin', target'⟩
  · simp [edged]
  · by_cases h : id = target'
    · simp [edged, h, or_comm, eq_comm]
    · simp [edged, h, Ne.symm h]

/-- What a call does to a block that there was before. -/
def Entry.edit (e : Entry) (a : Assembly) (id : BlockId) (b : Block) : Block :=
  { edged (e.edge? a.current?) id b with
    serial := if e.emitted? = some id then some a.order.length else b.serial
    code := (e.batch? a.current? id).getD [] ++
      match e.header? id with
      | some header => b.code.map (resolve header)
      | none => b.code }

/-- A block that the call is not about stays as it was. -/
theorem Entry.edit_of_untouched {e : Entry} {a : Assembly} {id : BlockId} (hm : e.emitted? ≠ some id)
    (hd : e.edge? a.current? = none) (hb : e.batch? a.current? id = none)
    (hh : e.header? id = none) : e.edit a id = fun b => b := by
  funext b
  rw [Entry.edit, hd, hb, hh, if_neg hm]
  rfl

/-- What a call does to an assembly. -/
structure Effect (a : Assembly) (e : Entry) (a' : Assembly) : Prop where
  order : a'.order = e.emitted?.toList ++ a.order
  edited : ∀ id b, a.block? id = some b → a'.block? id = some (e.edit a id b)
  fresh : ∀ id b, a.block? id = none → a'.block? id = some b →
    e.created? = some id ∧ ∃ role, b = ⟨id, role, none, [], .empty, .empty⟩
  created : ∀ id, e.created? = some id → (a'.block? id).isSome
  /-- A block is emitted if it has no serial yet. -/
  unsealed : ∀ id, e.emitted? = some id → ∃ b, a.block? id = some b ∧ b.serial = none
  /-- Edges are made between blocks that there are. -/
  joined : ∀ edge, e.edge? a.current? = some edge →
    (a.block? edge.1).isSome ∧ (a.block? edge.2).isSome
  /-- Code goes to blocks that there are. -/
  unwritten : ∀ id, a.block? id = none → e.batch? a.current? id = none ∧ e.header? id = none

namespace Effect

variable {a a' : Assembly} {e : Entry}

/-- A call that creates no block. -/
theorem of_edits (hc : e.created? = none) (order : a'.order = e.emitted?.toList ++ a.order)
    (hedit : ∀ id, a'.block? id = (a.block? id).map (e.edit a id))
    (unsealed : ∀ id, e.emitted? = some id → ∃ b, a.block? id = some b ∧ b.serial = none)
    (joined : ∀ edge, e.edge? a.current? = some edge →
      (a.block? edge.1).isSome ∧ (a.block? edge.2).isSome)
    (unwritten : ∀ id, a.block? id = none → e.batch? a.current? id = none ∧ e.header? id = none) :
    Effect a e a' where
  order := order
  edited id b h := by rw [hedit, h]; rfl
  fresh id b h h' := by rw [hedit, h] at h'; cases h'
  created id h := by rw [hc] at h; cases h
  unsealed := unsealed
  joined := joined
  unwritten := unwritten

/-- A call that does nothing. -/
theorem idle (hc : e.created? = none) (hm : e.emitted? = none) (hd : e.edge? a.current? = none)
    (hb : ∀ id, e.batch? a.current? id = none) (hh : ∀ id, e.header? id = none) : Effect a e a := by
  refine of_edits hc (by rw [hm]; rfl) (fun id => ?_) (fun id h => ?_) (fun edge h => ?_)
    fun id _ => ⟨hb id, hh id⟩
  · rw [Entry.edit_of_untouched (by simp [hm]) hd (hb id) (hh id), Option.map_id']
  · rw [hm] at h
    cases h
  · rw [hd] at h
    cases h

theorem refused (a : Assembly) (call : Call) (why : Misuse) : Effect a ⟨call, .refused why⟩ a := by
  rcases call with _ | ⟨_, _ | _⟩ | ⟨_, _ | _⟩ | _ | _ | _ | _ <;>
    exact idle rfl rfl rfl (fun _ => rfl) fun _ => rfl

theorem create (a : Assembly) (role : Role) :
    Effect a ⟨.create role, .created ⟨a.arena.length⟩⟩ (a.create role).2 where
  order := rfl
  edited id b h := by
    have hne : id ≠ ⟨a.arena.length⟩ := by
      rintro rfl
      rw [block?_length] at h
      cases h
    rw [block?_create, if_neg hne, h]
    rfl
  fresh id b h h' := by
    rw [block?_create] at h'
    split_ifs at h' with hid
    · exact ⟨congrArg some hid.symm, role, (Option.some.inj h').symm⟩
    · rw [h] at h'
      cases h'
  created id h := by
    obtain rfl : ⟨a.arena.length⟩ = id := Option.some.inj h
    rw [block?_create, if_pos rfl]
    rfl
  unsealed id h := by cases h
  joined edge h := by cases h
  unwritten id _ := ⟨rfl, rfl⟩

end Effect

/-- The assembly with an edge between two blocks that there are. -/
def withEdge (a : Assembly) (origin target : BlockId) : Assembly :=
  (a.modify target fun b => { b with predecessors := b.predecessors.insert origin }).modify origin
    fun b => { b with successors := b.successors.insert target }

theorem link_eq {a : Assembly} {origin target : BlockId} (ho : (a.block? origin).isSome)
    (ht : (a.block? target).isSome) : a.link origin target = (.ok (), a.withEdge origin target) := by
  have ht' : (a.block? target).isNone = false := by simpa using ht
  rw [link, ht']
  have ho' : ((a.modify target fun b => { b with predecessors := b.predecessors.insert origin }).block?
      origin).isNone = false := by
    rw [block?_modify]
    split_ifs <;> simpa using ho
  simp only [Bool.false_eq_true, if_false, ho', withEdge]

theorem block?_withEdge (a : Assembly) (origin target id : BlockId) : (a.withEdge origin target).block? id =
    (a.block? id).map (edged (some (origin, target)) id) := by
  rw [withEdge, block?_modify, block?_modify]
  cases a.block? id with
  | none => split_ifs <;> rfl
  | some b =>
    simp only [Option.map_some, edged]
    split_ifs <;> rfl

/-- The assembly after the emission of a block that has no serial yet. -/
def sealed (a : Assembly) (id : BlockId) (linked : Bool) : Assembly :=
  let numbered := a.modify id fun b => { b with serial := some a.order.length }
  let linked := match linked, a.current? with
    | true, some previous => numbered.withEdge id previous
    | _, _ => numbered
  { linked with order := id :: a.order }

section Emission

variable {a : Assembly} {id : BlockId} {b : Block}

theorem emit_twice (h : a.block? id = some b) (hs : b.serial.isSome) (linked : Bool) :
    a.emit id linked = (.error (.emittedTwice id), a) := by
  rw [emit, h]
  simp only [hs, if_true]

theorem emit_eq (h : a.block? id = some b) (hs : b.serial = none)
    (horder : ∀ id ∈ a.order, (a.block? id).isSome) (linked : Bool) :
    a.emit id linked = (.ok (), a.sealed id linked) := by
  have hknown : ∀ id' f, (a.block? id').isSome → ((a.modify id f).block? id').isSome := by
    intro id' f h
    rw [block?_modify]
    split_ifs <;> simpa using h
  rw [emit, h]
  unfold sealed
  simp only [hs, Option.isSome_none]
  cases linked with
  | false => rfl
  | true =>
    cases hc : a.current? with
    | none =>
      have hc' : ∀ f, (a.modify id f).current? = none := fun _ => hc
      simp only [hc']
      rfl
    | some previous =>
      have hc' : ∀ f, (a.modify id f).current? = some previous := fun _ => hc
      have hp := horder previous (List.mem_of_mem_head? hc)
      simp only [hc', link_eq (hknown id _ (by rw [h]; rfl)) (hknown previous _ hp)]
      rfl

theorem block?_sealed (a : Assembly) (id id' : BlockId) (linked : Bool) :
    (a.sealed id linked).block? id' = (a.block? id').map fun b =>
      edged (if linked then a.current?.map (id, ·) else none) id'
        { b with serial := if id' = id then some a.order.length else b.serial } := by
  have hnumbered : (a.modify id fun b => { b with serial := some a.order.length }).block? id' =
      (a.block? id').map fun b =>
        { b with serial := if id' = id then some a.order.length else b.serial } := by
    rw [block?_modify]
    cases a.block? id' <;> split_ifs <;> rfl
  have horder : ∀ (a' : Assembly) order, ({ a' with order } : Assembly).block? id' = a'.block? id' :=
    fun _ _ => rfl
  unfold sealed
  rw [horder]
  cases linked with
  | false => exact hnumbered
  | true =>
    cases a.current? with
    | none => exact hnumbered
    | some previous =>
      rw [block?_withEdge, hnumbered, Option.map_map]
      rfl

/-- The effect of an emission, whichever call has asked for it. -/
theorem effect_sealed {e : Entry} {linked : Bool} (h : a.block? id = some b) (hs : b.serial = none)
    (horder : ∀ id ∈ a.order, (a.block? id).isSome) (hc : e.created? = none)
    (hm : e.emitted? = some id)
    (hd : e.edge? a.current? = if linked then a.current?.map (id, ·) else none)
    (hb : ∀ id, e.batch? a.current? id = none) (hh : ∀ id, e.header? id = none) :
    Effect a e (a.sealed id linked) := by
  refine .of_edits hc (by rw [hm]; rfl) (fun id' => ?_) (fun id' he => ?_) (fun edge he => ?_)
    fun id' _ => ⟨hb id', hh id'⟩
  · rw [block?_sealed]
    refine congrArg (fun f => (a.block? id').map f) (funext fun b => ?_)
    rw [Entry.edit, hm, hb, hh, hd]
    cases linked <;> cases a.current? <;> simp [edged, eq_comm]
  · obtain rfl : id = id' := Option.some.inj (hm.symm.trans he)
    exact ⟨b, h, hs⟩
  · rw [hd] at he
    split_ifs at he
    obtain ⟨previous, hp, rfl⟩ := Option.map_eq_some_iff.1 he
    exact ⟨by rw [h]; rfl, horder previous (List.mem_of_mem_head? hp)⟩

theorem effect_emit (h : a.block? id = some b) (horder : ∀ id ∈ a.order, (a.block? id).isSome)
    (linked : Bool) :
    Effect a ⟨.emit id linked, (a.answer (.emit id linked)).1⟩ (a.answer (.emit id linked)).2 := by
  rw [answer]
  cases hs : b.serial with
  | some n =>
    rw [emit_twice h (by rw [hs]; rfl)]
    exact .refused ..
  | none =>
    rw [emit_eq h hs horder]
    exact effect_sealed h hs horder rfl rfl (by cases linked <;> rfl) (fun _ => rfl) fun _ => rfl

theorem effect_emitUnlessEmpty (h : a.block? id = some b)
    (horder : ∀ id ∈ a.order, (a.block? id).isSome) (linked : Bool) :
    Effect a ⟨.emitUnlessEmpty id linked, (a.answer (.emitUnlessEmpty id linked)).1⟩
      (a.answer (.emitUnlessEmpty id linked)).2 := by
  rw [answer, emitUnlessEmpty, h]
  cases hcode : b.code.isEmpty with
  | true =>
    have hidle : Effect a ⟨.emitUnlessEmpty id linked, .emitted false⟩ a := by
      cases linked <;> exact .idle rfl rfl rfl (fun _ => rfl) fun _ => rfl
    simpa only [hcode, if_true] using hidle
  | false =>
    cases hs : b.serial with
    | some n =>
      simp only [hcode, emit_twice h (by rw [hs]; rfl)]
      exact .refused ..
    | none =>
      simp only [hcode, emit_eq h hs horder]
      exact effect_sealed h hs horder rfl rfl (by cases linked <;> rfl) (fun _ => rfl) fun _ => rfl

end Emission

theorem effect_link {a : Assembly} {origin target : BlockId} (ho : (a.block? origin).isSome)
    (ht : (a.block? target).isSome) :
    Effect a ⟨.link origin target, (a.answer (.link origin target)).1⟩
      (a.answer (.link origin target)).2 := by
  rw [answer, link_eq ho ht]
  refine .of_edits rfl rfl (fun id => block?_withEdge ..) (fun _ h => nomatch h) (fun edge h => ?_)
    fun _ _ => ⟨rfl, rfl⟩
  obtain rfl : (origin, target) = edge := Option.some.inj h
  exact ⟨ho, ht⟩

/-- The effect of putting code in front of a block, whichever call has asked for it. -/
theorem effect_modify_code {a : Assembly} {id : BlockId} {code : List Instruction} {e : Entry}
    (h : (a.block? id).isSome) (hc : e.created? = none) (hm : e.emitted? = none)
    (hd : e.edge? a.current? = none)
    (hb : ∀ id', e.batch? a.current? id' = if id = id' then some code else none)
    (hh : ∀ id, e.header? id = none) :
    Effect a e (a.modify id fun b => { b with code := code ++ b.code }) := by
  refine .of_edits hc (by rw [hm]; rfl) (fun id' => ?_) (fun id' he => ?_) (fun edge he => ?_)
    fun id' hid => ⟨?_, hh id'⟩
  · rw [block?_modify]
    by_cases hid : id' = id
    · subst hid
      rw [if_pos rfl]
      refine congrArg (fun f => (a.block? id').map f) (funext fun b => ?_)
      rw [Entry.edit, hm, hd, hb, hh, if_pos rfl]
      rfl
    · have hb' : e.batch? a.current? id' = none := by rw [hb, if_neg (Ne.symm hid)]
      rw [if_neg hid, Entry.edit_of_untouched (by simp [hm]) hd hb' (hh id'), Option.map_id']
  · rw [hm] at he
    cases he
  · rw [hd] at he
    cases he
  · rw [hb, if_neg]
    rintro rfl
    rw [hid] at h
    cases h

theorem effect_prependTo {a : Assembly} {id : BlockId} (h : (a.block? id).isSome)
    (code : List Instruction) :
    Effect a ⟨.prependTo id code, (a.answer (.prependTo id code)).1⟩
      (a.answer (.prependTo id code)).2 := by
  have h' : (a.block? id).isNone = false := by simpa using h
  simp only [answer, prependTo, h']
  exact effect_modify_code h rfl rfl rfl (fun _ => rfl) fun _ => rfl

theorem effect_prepend {a : Assembly} (horder : ∀ id ∈ a.order, (a.block? id).isSome)
    (code : List Instruction) :
    Effect a ⟨.prepend code, (a.answer (.prepend code)).1⟩ (a.answer (.prepend code)).2 := by
  rw [answer, prepend]
  cases hc : a.current? with
  | none => exact .refused ..
  | some id =>
    have h := horder id (List.mem_of_mem_head? hc)
    have h' : (a.block? id).isNone = false := by simpa using h
    simp only [prependTo, h', Bool.false_eq_true, if_false]
    refine effect_modify_code h rfl rfl rfl (fun id' => ?_) fun _ => rfl
    simp only [hc, Entry.batch?, Option.some.injEq]

theorem effect_resolveJumps {a : Assembly} {id : BlockId} (h : (a.block? id).isSome)
    (header : BlockId) :
    Effect a ⟨.resolveJumps id header, (a.answer (.resolveJumps id header)).1⟩
      (a.answer (.resolveJumps id header)).2 := by
  obtain ⟨b, h⟩ := Option.isSome_iff_exists.1 h
  simp only [answer, resolveJumps, h]
  refine .of_edits rfl rfl (fun id' => ?_) (fun _ h => nomatch h) (fun _ h => nomatch h)
    fun id' hid => ⟨rfl, ?_⟩
  · rw [block?_modify]
    by_cases hid : id' = id
    · subst hid
      rw [if_pos rfl]
      refine congrArg (fun f => (a.block? id').map f) (funext fun b => ?_)
      simp [Entry.edit, Entry.header?, Entry.batch?, Entry.emitted?, Entry.edge?, edged]
    · have hedit : Entry.edit ⟨.resolveJumps id header, .resolved (b.code.count (.jump none))⟩ a id' =
          fun b => b := Entry.edit_of_untouched (by simp [Entry.emitted?]) rfl rfl
        (if_neg (Ne.symm hid))
      rw [if_neg hid, hedit, Option.map_id']
  · rw [Entry.header?, if_neg]
    rintro rfl
    rw [hid] at h
    cases h

/-- **One call**: as long as the caller names blocks that there are, the answer tells what is done. -/
theorem effect_answer {a : Assembly} {call : Call} (hids : ∀ id ∈ call.ids, (a.block? id).isSome)
    (horder : ∀ id ∈ a.order, (a.block? id).isSome) :
    Effect a ⟨call, (a.answer call).1⟩ (a.answer call).2 := by
  cases call with
  | create role => exact .create a role
  | emit id linked =>
    obtain ⟨b, h⟩ := Option.isSome_iff_exists.1 (hids id List.mem_cons_self)
    exact effect_emit h horder linked
  | emitUnlessEmpty id linked =>
    obtain ⟨b, h⟩ := Option.isSome_iff_exists.1 (hids id List.mem_cons_self)
    exact effect_emitUnlessEmpty h horder linked
  | link origin target => exact effect_link (hids _ (by simp [Call.ids])) (hids _ (by simp [Call.ids]))
  | prependTo id code => exact effect_prependTo (hids id List.mem_cons_self) code
  | prepend code => exact effect_prepend horder code
  | resolveJumps id header => exact effect_resolveJumps (hids id List.mem_cons_self) header

end LoopTrace.Assembly
