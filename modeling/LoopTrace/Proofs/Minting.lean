import LoopTrace.Proofs.Advance
import LoopTrace.Proofs.Course
import LoopTrace.Proofs.Custody
import LoopTrace.Proofs.Origins

/-!
# What a walk mints

The journal of a walk tells which slots were minted, and the numbers that they got are those that the
pool counts. Every slot that the walk knows of is one of them: those in its pool, and those that its code
mentions. One step after another keeps this (`Tallies`), provided that the slots which a step is given
have been minted before, and it holds of what the step hands on. So the slots of a routine were minted
by the walk that made it, no two of them under one number (`minted_of_lower`).

That the journal tells the truth is not taken for granted: there are requests that lead from a new pool to
the pool that the walk ends with, and the slots that they mint are those of the journal, one for one
(`exists_draws_of_lower`).
-/

namespace LoopTrace

/-- The slots that occur in a routine: its parameters, and what its instructions mention. -/
def Routine.slots (r : Routine) : List Slot :=
  r.parameters ++ r.blocks.flatMap fun b => b.code.flatMap Instruction.slots

theorem Routine.mem_slots {r : Routine} {s : Slot} : s ∈ r.slots ↔
    s ∈ r.parameters ∨ ∃ i, (∃ b ∈ r.blocks, i ∈ b.code) ∧ s ∈ i.slots := by
  simp only [slots, List.mem_append, List.mem_flatMap]
  grind

/-! ### Pools -/

namespace Pool

/-- The slots of a list are all that a pool has minted, in the order of their numbers. -/
structure Tally (made : List Slot) (p : Pool) : Prop where
  serials : made.map Slot.serial = List.range p.next
  known : ∀ s, s ∈ p.bound ∨ s ∈ p.free → s ∈ made

variable {made : List Slot} {p q : Pool}

theorem Tally.allocate (h : p.Tally made) (kind : Kind) (mode : Mode) :
    (p.allocate kind mode).2.Tally (made ++ p.mintedBy kind mode) ∧
      (p.allocate kind mode).1 ∈ made ++ p.mintedBy kind mode := by
  rcases allocate_mintedBy p kind mode with ⟨s, hs, ha, hm⟩ | ⟨ha, hm⟩
  · rw [ha, hm, List.append_nil]
    exact ⟨⟨h.serials, fun x hx => h.known x (hx.imp_right fun hx => List.erase_subset hx)⟩,
      h.known s (Or.inr hs)⟩
  · rw [ha, hm]
    refine ⟨⟨?_, fun x hx => List.mem_append_left _ (h.known x hx)⟩, by simp⟩
    rw [List.map_append, h.serials, List.range_succ]
    rfl

theorem Tally.allocateFor (h : p.Tally made) {v : ValueId} {kind : Kind} {mode : Mode} {s : Slot}
    (ha : p.allocateFor v kind mode = (.ok s, q)) :
    q.Tally (made ++ (p.events (.allocateFor v kind mode)).filterMap Event.minted?) ∧
      s ∈ made ++ (p.events (.allocateFor v kind mode)).filterMap Event.minted? := by
  rw [Pool.allocateFor] at ha
  cases hl : p.lookup v with
  | some s' =>
    rw [hl] at ha
    obtain ⟨hs, rfl⟩ := Prod.mk.inj ha
    obtain rfl := Except.ok.inj hs
    have he : p.events (.allocateFor v kind mode) = [] := by simp [events, hl]
    rw [he, List.filterMap_nil, List.append_nil]
    exact ⟨h, h.known s' (Or.inl (mem_bound_of_lookup hl))⟩
  | none =>
    have he : (p.events (.allocateFor v kind mode)).filterMap Event.minted? =
        p.mintedBy kind mode := by
      simp [events, hl, mintedBy]
    obtain ⟨ht, hs⟩ := h.allocate kind mode
    simp only [hl] at ha
    rw [he]
    split at ha
    · next o hb =>
      obtain ⟨hs', rfl⟩ := Prod.mk.inj ha
      obtain rfl := Except.ok.inj hs'
      obtain ⟨-, rfl⟩ := bind_eq_ok hb
      refine ⟨⟨ht.serials, fun x hx => ?_⟩, hs⟩
      rcases hx with hx | hx
      · rcases List.mem_cons.1 hx with rfl | hx
        · exact hs
        · exact ht.known x (Or.inl hx)
      · exact ht.known x (Or.inr hx)
    · cases ha

theorem Tally.release (h : p.Tally made) {v : ValueId} {s : Slot}
    (hr : p.release v = .ok (s, q)) : q.Tally made := by
  obtain ⟨hl, hn, hf, hb⟩ := release_eq_ok hr
  refine ⟨by rw [hn, h.serials], fun x hx => h.known x ?_⟩
  rw [bound, hb, hf, List.mem_cons] at hx
  rcases hx with hx | rfl | hx
  · exact Or.inl ((List.filter_sublist.map _).subset hx)
  · exact Or.inl (mem_bound_of_lookup hl)
  · exact Or.inr hx

theorem Tally.recycle (h : p.Tally made) {s : Slot} (hs : s ∈ made)
    (hr : p.recycle s = .ok q) : q.Tally made := by
  obtain ⟨-, rfl⟩ := recycle_eq_ok hr
  refine ⟨h.serials, fun x hx => ?_⟩
  rcases hx with hx | hx
  · exact h.known x (Or.inl hx)
  · exact (List.mem_cons.1 hx).elim (fun e => e ▸ hs) fun hx => h.known x (Or.inr hx)

end Pool

/-! ### Steps -/

namespace Walk

/-- The slots that have been minted so far, that for the tag first, which was minted before the walk
began. -/
def made (tagSlot : Slot) (w : Walk) : List Slot :=
  tagSlot :: w.journal.toList.filterMap Event.minted?

/-- All slots that the walk knows of have been minted. -/
structure Tallied (tagSlot : Slot) (w : Walk) : Prop where
  pool : w.pool.Tally (w.made tagSlot)
  code : ∀ i ∈ w.front.straight, i.slots ⊆ w.made tagSlot

namespace Step

variable {α β : Type} {tagSlot : Slot} {known known' : List Slot}

/-- If the slots of `known` have been minted, the step keeps the tally as it succeeds, and the slots of
its result have been minted then. -/
def Tallies (tagSlot : Slot) (known : List Slot) (x : Step α) (out : α → List Slot) : Prop :=
  ∀ (w w' : Walk) (a : α), x.run.run w = (.ok a, w') → w.Tallied tagSlot →
    known ⊆ w.made tagSlot → w'.Tallied tagSlot ∧ w.made tagSlot ⊆ w'.made tagSlot ∧ out a ⊆ w'.made tagSlot

/-- What a step hands on that carries no slots. -/
abbrev noSlots : α → List Slot := fun _ => []

theorem Tallies.weaken {x : Step α} {out : α → List Slot} (h : x.Tallies tagSlot known out)
    (hk : known ⊆ known') : x.Tallies tagSlot known' out :=
  fun w w' a hr ht hw => h w w' a hr ht (List.Subset.trans hk hw)

theorem Tallies.pure {out : α → List Slot} {a : α} (h : out a ⊆ known) :
    (Pure.pure a : Step α).Tallies tagSlot known out := by
  intro w w' b hr ht hk
  obtain ⟨hb, rfl⟩ := Prod.mk.inj hr
  obtain rfl := Except.ok.inj hb
  exact ⟨ht, List.Subset.refl _, List.Subset.trans h hk⟩

theorem Tallies.throw {out : α → List Slot} (e : Fault) :
    (MonadExcept.throw e : Step α).Tallies tagSlot known out := by
  intro w w' a hr
  cases hr

theorem Tallies.bind {x : Step α} {k : α → Step β} {out : α → List Slot} {out' : β → List Slot}
    (hx : x.Tallies tagSlot known out) (hk : ∀ a, (k a).Tallies tagSlot (out a ++ known) out') :
    (x >>= k).Tallies tagSlot known out' := by
  intro w w' b hr ht hw
  obtain ⟨a, w₁, h₁, h₂⟩ := exists_of_run_bind hr
  obtain ⟨ht₁, hw₁, ho₁⟩ := hx w w₁ a h₁ ht hw
  obtain ⟨ht₂, hw₂, ho₂⟩ := hk a w₁ w' b h₂ ht₁ (List.append_subset.2 ⟨ho₁, List.Subset.trans hw hw₁⟩)
  exact ⟨ht₂, List.Subset.trans hw₁ hw₂, ho₂⟩

/-- A step that looks at the walk. -/
theorem Tallies.get {k : Walk → Step β} {out : β → List Slot}
    (h : ∀ w, (k w).Tallies tagSlot known out) :
    (MonadState.get >>= k : Step β).Tallies tagSlot known out := fun w => h w w

theorem Tallies.mapM {k : α → Step β} {out : β → List Slot}
    (hk : ∀ a, (k a).Tallies tagSlot known out) (as : List α) :
    (as.mapM k).Tallies tagSlot known fun bs => bs.flatMap out := by
  induction as with
  | nil =>
    rw [List.mapM_nil]
    exact .pure (List.nil_subset _)
  | cons a as ih =>
    rw [List.mapM_cons]
    refine (hk a).bind fun b => (ih.weaken (List.subset_append_right _ _)).bind fun bs => .pure ?_
    rw [List.flatMap_cons]
    grind

theorem Tallies.forM {k : α → Step Unit} {as : List α}
    (hk : ∀ a ∈ as, (k a).Tallies tagSlot known noSlots) :
    (as.forM k).Tallies tagSlot known noSlots := by
  induction as with
  | nil => exact .pure (List.nil_subset _)
  | cons a as ih =>
    exact (hk a List.mem_cons_self).bind fun _ => ih fun a ha => hk a (List.mem_cons_of_mem _ ha)

end Step

/-- A walk goes on, noting what it mints. -/
theorem Tallied.after {tagSlot : Slot} {w : Walk} (h : w.Tallied tagSlot) {es : List Event} {q : Pool}
    (hq : q.Tally (w.made tagSlot ++ es.filterMap Event.minted?)) :
    (w.after es q).Tallied tagSlot ∧
      (w.after es q).made tagSlot = w.made tagSlot ++ es.filterMap Event.minted? := by
  have hm : (w.after es q).made tagSlot = w.made tagSlot ++ es.filterMap Event.minted? := by
    simp [made, Walk.after]
  refine ⟨⟨hm ▸ hq, fun i hi => ?_⟩, hm⟩
  rw [hm]
  exact List.Subset.trans (h.code i hi) (List.subset_append_left _ _)

namespace Step

variable {α β : Type} {tagSlot : Slot} {known : List Slot}

/-! ### The steps that work on the front -/

theorem note_tallies {e : Event} (he : e.minted? = none) :
    (note e).Tallies tagSlot known noSlots := by
  intro w w' a hr ht hk
  obtain ⟨-, rfl⟩ := Prod.mk.inj hr
  have hm : ({ w with journal := w.journal.push e } : Walk).made tagSlot = w.made tagSlot := by
    simp [made, he]
  exact ⟨⟨hm ▸ ht.pool, hm ▸ ht.code⟩, hm ▸ List.Subset.refl _, List.nil_subset _⟩

theorem enter_tallies (phase : Phase) : (enter phase).Tallies tagSlot known noSlots := by
  intro w w' a hr ht hk
  obtain ⟨-, rfl⟩ := Prod.mk.inj hr
  exact ⟨⟨ht.pool, ht.code⟩, List.Subset.refl _, List.nil_subset _⟩

theorem openBlock_tallies : openBlock.Tallies tagSlot known noSlots := by
  intro w w' a hr ht hk
  obtain ⟨-, rfl⟩ := Prod.mk.inj hr
  exact ⟨⟨ht.pool, ht.code⟩, List.Subset.refl _, List.nil_subset _⟩

/-- Code may be put in front that mentions the slot for the tag and slots that have been minted. -/
theorem prepend_tallies {code : List Instruction}
    (hcode : ∀ i ∈ code, i.slots ⊆ tagSlot :: known) :
    (prepend code).Tallies tagSlot known noSlots := by
  intro w w' a hr ht hk
  obtain ⟨-, rfl⟩ := Prod.mk.inj hr
  refine ⟨⟨ht.pool, fun i hi => ?_⟩, List.Subset.refl _, List.nil_subset _⟩
  have hi : i ∈ (code ++ w.code) ++ w.later.flatten := hi
  rw [List.append_assoc, List.mem_append] at hi
  rcases hi with hi | hi
  · exact List.Subset.trans (hcode i hi) (List.cons_subset.2 ⟨List.mem_cons_self, hk⟩)
  · exact ht.code i hi

theorem allocate_tallies (kind : Kind) (mode : Pool.Mode) :
    (allocate kind mode).Tallies tagSlot known fun s => [s] := by
  intro w w' s hr ht hk
  rw [run_allocate] at hr
  obtain ⟨hs, rfl⟩ := Prod.mk.inj hr
  obtain rfl := Except.ok.inj hs
  obtain ⟨hp, hmem⟩ := ht.pool.allocate kind mode
  obtain ⟨ht', hm⟩ := ht.after hp
  exact ⟨ht', hm ▸ List.subset_append_left _ _, hm ▸ List.cons_subset.2 ⟨hmem, List.nil_subset _⟩⟩

theorem allocateFor_tallies (v : ValueId) (kind : Kind) (mode : Pool.Mode) :
    (allocateFor v kind mode).Tallies tagSlot known fun s => [s] := by
  intro w w' s hr ht hk
  rw [run_allocateFor] at hr
  rcases ha : w.pool.allocateFor v kind mode with ⟨e | x, q⟩ <;> rw [ha] at hr
  · cases hr
  · obtain ⟨hs, rfl⟩ := Prod.mk.inj hr
    obtain rfl := Except.ok.inj hs
    obtain ⟨hp, hmem⟩ := ht.pool.allocateFor ha
    obtain ⟨ht', hm⟩ := ht.after hp
    exact ⟨ht', hm ▸ List.subset_append_left _ _, hm ▸ List.cons_subset.2 ⟨hmem, List.nil_subset _⟩⟩

theorem release_tallies (v : ValueId) : (release v).Tallies tagSlot known noSlots := by
  intro w w' a hr ht hk
  rcases he : w.pool.release v with e | ⟨s, q⟩
  · rw [run_release_error he] at hr
    cases hr
  · rw [run_release he] at hr
    obtain ⟨-, rfl⟩ := Prod.mk.inj hr
    have hes : (w.pool.events (.release v)).filterMap Event.minted? = [] := by
      rw [Pool.events]
      cases w.pool.lookup v <;> rfl
    have hp := ht.pool.release he
    rw [← List.append_nil (w.made tagSlot), ← hes] at hp
    obtain ⟨ht', hm⟩ := ht.after hp
    exact ⟨ht', hm ▸ List.subset_append_left _ _, List.nil_subset _⟩

theorem recycle_tallies {s : Slot} (hs : s ∈ known) :
    (recycle s).Tallies tagSlot known noSlots := by
  intro w w' a hr ht hk
  cases he : w.pool.recycle s with
  | error e =>
    rw [run_recycle_error he] at hr
    cases hr
  | ok q =>
    rw [run_recycle he] at hr
    obtain ⟨-, rfl⟩ := Prod.mk.inj hr
    exact ⟨⟨ht.pool.recycle (hk hs) he, ht.code⟩, List.Subset.refl _, List.nil_subset _⟩

theorem endDefinition_tallies (v : ValueId) (result : Option Slot) :
    (endDefinition v result).Tallies tagSlot known noSlots := by
  rw [endDefinition]
  split
  · exact release_tallies v
  · exact .pure (List.nil_subset _)

end Step
end Walk

open Walk Walk.Step

/-- The slots that moves mention. -/
def Move.slotsOf (moves : List Move) : List Slot := moves.flatMap fun m => m.instruction.slots

namespace Move

variable {tagSlot : Slot} {known : List Slot}

theorem slotsOf_redirect (saved temporary : Slot) (pending : List Move) :
    slotsOf (redirect saved temporary pending) ⊆ temporary :: slotsOf pending := by
  intro s hs
  obtain ⟨m', hm', hs⟩ := List.mem_flatMap.1 hs
  obtain ⟨m, hm, hd, hsource⟩ := mem_redirect.1 hm'
  have hmem : ∀ {x}, x ∈ m.instruction.slots → x ∈ temporary :: slotsOf pending := fun hx =>
    List.mem_cons_of_mem _ (List.mem_flatMap.2 ⟨m, hm, hx⟩)
  rcases mem_slots_instruction.1 hs with he | rfl
  · rw [hsource] at he
    split at he
    · exact Operand.slot.inj he ▸ List.mem_cons_self
    · exact hmem (mem_slots_instruction.2 (Or.inl he))
  · exact hmem (mem_slots_instruction.2 (Or.inr hd.symm))

/-- The steps of ordering moves mention the slots of the moves, and temporaries that are minted or handed
out again. -/
theorem order_tallies {limit : Nat} {pending : List Move} (h : slotsOf pending ⊆ known) :
    (order (fun kind => Walk.allocate kind .shared) (fun step => Walk.note (.moved step)) limit
      pending).Tallies tagSlot known fun steps => slotsOf (steps.map Step.move) := by
  induction limit generalizing pending known with
  | zero => exact .pure (List.nil_subset _)
  | succ limit ih =>
    cases pending with
    | nil => exact .pure (List.nil_subset _)
    | cons first rest =>
      rw [order]
      split
      · next ready others ht =>
        obtain ⟨-, a, b, he, rfl⟩ := takeReady_eq_some ht
        rw [he] at h
        have hready : ready.instruction.slots ⊆ known := fun s hs =>
          h (List.mem_flatMap.2 ⟨ready, by simp, hs⟩)
        have hothers : slotsOf (a ++ b) ⊆ known := fun s hs => by
          obtain ⟨m, hm, hs⟩ := List.mem_flatMap.1 hs
          exact h (List.mem_flatMap.2 ⟨m, (sublist_middle a b ready).subset hm, hs⟩)
        refine (note_tallies rfl).bind fun _ => (ih hothers).bind fun steps => .pure ?_
        rw [List.map_cons, slotsOf, List.flatMap_cons, ← slotsOf]
        exact List.append_subset.2 ⟨List.Subset.trans hready (List.subset_append_right _ _),
          List.subset_append_left _ _⟩
      · refine (allocate_tallies _ _).bind fun temporary => (note_tallies rfl).bind fun _ => ?_
        have hsaved : first.destination ∈ known :=
          h (List.mem_flatMap.2 ⟨first, List.mem_cons_self, mem_slots_instruction.2 (Or.inr rfl)⟩)
        have hredirect : slotsOf (redirect first.destination temporary (first :: rest)) ⊆
            noSlots () ++ ([temporary] ++ known) :=
          List.Subset.trans (slotsOf_redirect _ _ _) (List.cons_subset_cons _ h)
        refine (ih hredirect).bind fun steps => .pure ?_
        rw [List.map_cons, slotsOf, List.flatMap_cons, ← slotsOf]
        refine List.append_subset.2 ⟨fun s hs => ?_, List.subset_append_left _ _⟩
        rcases mem_slots_instruction.1 hs with he | rfl
        · obtain rfl := Operand.slot.inj he
          simp [hsaved]
        · simp [Step.move]

end Move

namespace Job

variable (j : Job) {known : List Slot}

/-! ### The parts of the walk -/

theorem fetch_tallies (id : ValueId) : (j.fetch id).Tallies j.tagSlot known noSlots := by
  rw [fetch]
  cases j.trace.get? id with
  | some v => exact .pure (List.nil_subset _)
  | none => exact .throw _

theorem slotOf_tallies (id : ValueId) (kind : Kind) :
    (j.slotOf id kind).Tallies j.tagSlot known fun s => [s] := by
  rw [slotOf]
  split
  · exact .throw _
  · exact allocateFor_tallies _ _ _

theorem use_tallies (id : ValueId) :
    (j.use id).Tallies j.tagSlot known fun o => o.slot?.toList := by
  refine (fetch_tallies j id).bind fun v => ?_
  cases v with
  | constant c => exact .pure (List.nil_subset _)
  | untracked => exact .pure (List.nil_subset _)
  | _ => exact (slotOf_tallies j _ _).bind fun s => .pure (List.subset_append_left _ _)

theorem uses_tallies (ids : List ValueId) :
    (ids.mapM j.use).Tallies j.tagSlot known fun os => os.filterMap Operand.slot? := by
  have huse : ∀ id, (j.use id).Tallies j.tagSlot known fun o => o.slot?.toList := use_tallies j
  have h := Tallies.mapM huse ids
  simp only [← List.filterMap_eq_flatMap_toList] at h
  exact h

/-- The slots that a frame mentions. -/
abbrev frameSlots (frame : Option (Frame Operand)) : List Slot :=
  ((frame.map Frame.contents).getD []).filterMap Operand.slot?

theorem useFrame?_tallies (frame : Option (Frame ValueId)) :
    (j.useFrame? frame).Tallies j.tagSlot known frameSlots := by
  cases frame with
  | none => exact .pure (List.nil_subset _)
  | some frame =>
    have hframe : (j.useFrame frame).Tallies j.tagSlot known fun f =>
        f.contents.filterMap Operand.slot? := by
      refine (uses_tallies j _).bind fun locals => (uses_tallies j _).bind fun stack => .pure ?_
      rw [Frame.contents, List.filterMap_append]
      grind
    exact hframe.bind fun _ => .pure (List.subset_append_left _ _)

theorem define_tallies (id : ValueId) (kind : Kind) :
    (j.define id kind).Tallies j.tagSlot known Option.toList := by
  rw [define]
  split
  · exact .pure (List.nil_subset _)
  · exact (allocateFor_tallies _ _ _).bind fun _ => .pure (List.subset_append_left _ _)

theorem parameter_tallies (id : ValueId) : (j.parameter id).Tallies j.tagSlot known fun ps => ps := by
  refine (fetch_tallies j id).bind fun v => ?_
  cases v with
  | atEntry n kind flags =>
    have hrest : ∀ slot, (if kind.isWide then do
        return [slot, ← Walk.allocate .void .exclusive] else return [slot] :
          Step (List Slot)).Tallies j.tagSlot ([slot] ++ known) fun ps => ps := by
      intro slot
      split
      · exact (allocate_tallies _ _).bind fun _ => .pure (by simp)
      · exact .pure (by simp)
    dsimp only
    split
    · exact (slotOf_tallies j _ _).bind hrest
    · exact (allocate_tallies _ _).bind hrest
  | _ => exact .throw _

theorem writeMove_tallies (write : Trace.Write) :
    (j.writeMove write).Tallies j.tagSlot known fun m => Move.slotsOf m.toList := by
  refine (use_tallies j _).bind fun source => (use_tallies j _).bind fun destination => ?_
  cases destination with
  | slot d =>
    dsimp only
    split
    · exact (note_tallies rfl).bind fun _ => .pure (List.nil_subset _)
    · refine .pure fun s hs => ?_
      have hs : s ∈ Move.slotsOf [⟨d, source⟩] := hs
      rw [Move.slotsOf, List.flatMap_singleton, Move.mem_slots_instruction] at hs
      rcases hs with rfl | rfl <;> simp [Operand.slot?]
  | _ => exact .throw _

theorem writeBack_tallies : j.writeBack.Tallies j.tagSlot known noSlots := by
  refine (Tallies.mapM (writeMove_tallies j) _).bind fun moves => ?_
  have hmoves : Move.slotsOf ((moves.filterMap id).filter fun m => ¬ m.IsRedundant) ⊆
      moves.flatMap (fun m => Move.slotsOf m.toList) ++ known := by
    intro s hs
    obtain ⟨m, hm, hs⟩ := List.mem_flatMap.1 hs
    obtain ⟨_, hm, rfl⟩ := List.mem_filterMap.1 (List.mem_of_mem_filter hm)
    refine List.mem_append_left _ (List.mem_flatMap.2 ⟨_, hm, ?_⟩)
    exact List.mem_flatMap.2 ⟨m, List.mem_singleton_self m, hs⟩
  refine (Move.order_tallies hmoves).bind fun steps => (note_tallies rfl).bind fun _ => ?_
  have hstep : ∀ step ∈ steps, step.move.instruction.slots ⊆ Move.slotsOf (steps.map Move.Step.move) :=
    fun step hstep s hs => List.mem_flatMap.2 ⟨_, List.mem_map_of_mem hstep, hs⟩
  refine (prepend_tallies fun i hi => ?_).bind fun _ => .forM fun temporary ht => ?_
  · obtain ⟨step, hmem, rfl⟩ := List.mem_map.1 hi
    have := hstep step hmem
    grind
  · obtain ⟨step, hmem, he⟩ := List.mem_filterMap.1 ht
    have htemporary : temporary ∈ step.move.instruction.slots := by
      cases step with
      | transfer m => cases he
      | save saved temporary' =>
        obtain rfl := Option.some.inj he
        exact Move.mem_slots_instruction.2 (Or.inr rfl)
    refine recycle_tallies ?_
    have := hstep step hmem htemporary
    simp [this]

theorem lowerGuard_tallies (site : ValueId) (kind : Kind) (comparator : Comparator)
    (left right : ValueId) (frame : Option (Frame ValueId)) :
    (j.lowerGuard site kind comparator left right frame).Tallies j.tagSlot known noSlots := by
  refine .get fun _ => (use_tallies j _).bind fun left => (use_tallies j _).bind fun right =>
    (useFrame?_tallies j _).bind fun frame => openBlock_tallies.bind fun _ => .get fun _ =>
      (note_tallies rfl).bind fun _ => (note_tallies rfl).bind fun _ => prepend_tallies fun i hi => ?_
  simp only [GuardExit.code, List.mem_cons, List.not_mem_nil, or_false] at hi
  intro s hs
  rcases hi with rfl | rfl | rfl
  · simp [Instruction.slots, Instruction.reads, Instruction.inputs, Instruction.writes,
      Operand.slot?] at hs
    simp [hs]
  · have hs : s ∈ frameSlots frame := by
      simpa [Instruction.slots, Instruction.reads, Instruction.inputs, Instruction.writes] using hs
    simp [hs]
  · simp [Instruction.slots, Instruction.reads, Instruction.inputs, Instruction.writes] at hs
    rcases hs with hs | hs <;> simp [hs]

theorem lowerPlain_tallies (id : ValueId) (v : Trace.Value) :
    (j.lowerPlain id v).Tallies j.tagSlot known noSlots := by
  cases v with
  | operation op operands =>
    refine (define_tallies j _ _).bind fun result => (uses_tallies j _).bind fun os =>
      (prepend_tallies fun i hi => ?_).bind fun _ => endDefinition_tallies _ _
    obtain rfl := List.mem_singleton.1 hi
    rw [Instruction.slots, Instruction.reads, Instruction.inputs, Instruction.writes]
    grind
  | call method operands frame =>
    refine (define_tallies j _ _).bind fun result => (uses_tallies j _).bind fun os =>
      (useFrame?_tallies j _).bind fun frame => (prepend_tallies fun i hi => ?_).bind fun _ =>
        endDefinition_tallies _ _
    obtain rfl := List.mem_singleton.1 hi
    rw [Instruction.slots, Instruction.reads, Instruction.inputs, Instruction.writes,
      List.filterMap_append]
    grind
  | inlinedCall method operands => exact .throw _
  | _ => exact .pure (List.nil_subset _)

theorem lowerBody_tallies (id : ValueId) : (j.lowerBody id).Tallies j.tagSlot known noSlots := by
  refine (fetch_tallies j id).bind fun v => ?_
  cases v with
  | guard kind comparator left right frame => exact lowerGuard_tallies j _ _ _ _ _ _
  | _ => exact lowerPlain_tallies j _ _

theorem lowerPrologue_tallies (id : ValueId) :
    (j.lowerPrologue id).Tallies j.tagSlot known noSlots := by
  refine (fetch_tallies j id).bind fun v => ?_
  cases v with
  | guard kind comparator left right frame => exact .throw _
  | _ => exact lowerPlain_tallies j _ _

theorem lowerLoop_tallies : j.lowerLoop.Tallies j.tagSlot known fun ps => ps := by
  refine (note_tallies rfl).bind fun _ => (Tallies.mapM (parameter_tallies j) _).bind fun pss =>
    (note_tallies rfl).bind fun _ => (writeBack_tallies j).bind fun _ =>
      (Tallies.forM fun id _ => lowerBody_tallies j id).bind fun _ => (enter_tallies _).bind fun _ =>
        .get fun _ => (note_tallies rfl).bind fun _ => .pure ?_
  rw [List.flatMap_id']
  grind

theorem lowerEntry_tallies : j.lowerEntry.Tallies j.tagSlot known noSlots := by
  refine openBlock_tallies.bind fun _ => (Tallies.forM fun id _ => lowerPrologue_tallies j id).bind
    fun _ => .get fun w => ?_
  split <;> exact note_tallies rfl

theorem eq_of_run_verify {r : Routine} {w w' : Walk} {u : Unit}
    (h : (j.verify r).run.run w = (.ok u, w')) : w' = w := by
  rw [verify] at h
  split at h
  · cases hv : r.verify with
    | ok u => rw [hv] at h; exact (Prod.mk.inj h).2.symm
    | error e => rw [hv] at h; cases h
  · exact (Prod.mk.inj h).2.symm

/-- What follows once all code is there mints nothing and hands on the routine. -/
theorem exists_of_run_rest {parameters : List Slot} {w w' : Walk} {r : Routine}
    (h : (do
      let r := j.routine parameters (← get)
      j.verify r
      note (.generated r.blocks.length r.slotCount r.parameters.length)
      if j.settings.dump then note (.shown r)
      enter .finished
      return r : Step Routine).run.run w = (.ok r, w')) :
    r = j.routine parameters w ∧ w'.pool = w.pool ∧ w'.made j.tagSlot = w.made j.tagSlot := by
  obtain ⟨_, w₁, hverify, hrest⟩ := exists_of_run_bind (x := j.verify (j.routine parameters w)) h
  obtain rfl := j.eq_of_run_verify hverify
  split at hrest <;> obtain ⟨hr, rfl⟩ := Prod.mk.inj hrest
  all_goals exact ⟨(Except.ok.inj hr).symm, rfl, by simp [made, Event.minted?]⟩

theorem slots_bailoutCode (abi : Abi) (tagSlot : Slot) :
    ∀ i ∈ abi.bailoutCode tagSlot, i.slots ⊆ [tagSlot] := by
  intro i hi s hs
  simp only [Abi.bailoutCode, List.mem_cons, List.not_mem_nil, or_false] at hi
  rcases hi with rfl | rfl | rfl
  · cases hs
  · exact hs
  · exact hs

/-- The slots of the routine that is made of the code of a walk. -/
theorem slots_routine_subset {parameters : List Slot} {w : Walk} (ht : w.Tallied j.tagSlot)
    (hp : parameters ⊆ w.made j.tagSlot) :
    (j.routine parameters w).slots ⊆ w.made j.tagSlot := by
  intro s hs
  have hblocks : (j.routine parameters w).blocks = _ := Layout.blocks_routine _ _ _ _
  rcases Routine.mem_slots.1 hs with hs | ⟨i, hi, hs⟩
  · exact hp hs
  · rw [hblocks, Layout.exists_block_iff] at hi
    rcases hi with hi | hi | ⟨-, rfl⟩ | hi
    · exact ht.code i (List.mem_append_left _ hi) hs
    · exact ht.code i (List.mem_append_right _ hi) hs
    · cases hs
    · obtain rfl := List.mem_singleton.1 (slots_bailoutCode _ _ i hi hs)
      exact List.mem_cons_self

/-- A walk that comes to a routine has minted the slots of the routine, as many as it says. -/
theorem mints_of_run {w w' : Walk} {r : Routine} (h : j.lower.run.run w = (.ok r, w'))
    (ht : w.Tallied j.tagSlot) :
    r.slots ⊆ w'.made j.tagSlot ∧ (w'.made j.tagSlot).map Slot.serial = List.range r.slotCount ∧
      w'.pool.next = r.slotCount := by
  have hstart : (do
      note (.started j.trace.anchor j.trace.position j.trace.body.length j.trace.prologue.length)
      enter .body : Step Unit).Tallies j.tagSlot [] noSlots :=
    (note_tallies rfl).bind fun _ => enter_tallies _
  have hend : ∀ known, (do
      enter .prologue
      j.lowerEntry : Step Unit).Tallies j.tagSlot known noSlots := fun _ =>
    (enter_tallies _).bind fun _ => lowerEntry_tallies j
  obtain ⟨_, w₁, h₁, h⟩ := exists_of_run_bind h
  obtain ⟨_, w₂, h₂, h⟩ := exists_of_run_bind h
  obtain ⟨parameters, w₃, h₃, h⟩ := exists_of_run_bind h
  obtain ⟨_, w₄, h₄, h⟩ := exists_of_run_bind h
  obtain ⟨_, w₅, h₅, h⟩ := exists_of_run_bind h
  obtain ⟨ht₂, -, -⟩ := hstart _ _ _ (run_bind_of_ok h₁ h₂) ht (List.nil_subset _)
  have hloop : j.lowerLoop.Tallies j.tagSlot [] fun ps => ps := lowerLoop_tallies j
  obtain ⟨ht₃, -, hp⟩ := hloop _ _ _ h₃ ht₂ (List.nil_subset _)
  obtain ⟨ht₅, hle, -⟩ := hend [] _ _ _ (run_bind_of_ok h₄ h₅) ht₃ (List.nil_subset _)
  obtain ⟨rfl, hpool, hm⟩ := exists_of_run_rest j h
  rw [hm, hpool]
  exact ⟨slots_routine_subset j ht₅ (List.Subset.trans hp hle), ht₅.pool.serials, rfl⟩

end Job

/-! ### Accounts of what a walk has minted -/

namespace Pool

/-- A call mints one slot at most, so that there is no order among the slots it mints. -/
theorem reverse_minted (p : Pool) (request : Request) :
    ((p.events request).filterMap Event.minted?).reverse =
      (p.events request).filterMap Event.minted? := by
  have hone : (p.events request).length ≤ 1 := by
    cases request <;> rw [events]
    case allocateFor => split <;> simp
    case release => split <;> simp
    all_goals simp
  have hminted := (List.length_filterMap_le Event.minted? (p.events request)).trans hone
  generalize (p.events request).filterMap Event.minted? = minted at hminted ⊢
  rcases minted with _ | ⟨s, _ | ⟨s', rest⟩⟩
  · rfl
  · rfl
  · simp at hminted

end Pool

namespace Walk

/-- The accounts fit the walk: they are those of its pool, and the slots that they say were minted are
those that its journal tells of. -/
structure Accounts (tagSlot : Slot) (w : Walk) (c : Pool.Custody) : Prop where
  pool : c.pool = w.pool
  minted : c.minted.reverse = w.made tagSlot

/-- There are requests that lead from accounts that fit the walk before to accounts that fit the walk
after. -/
def Accountable (tagSlot : Slot) (w w' : Walk) : Prop :=
  ∀ c, w.Accounts tagSlot c → ∃ requests, w'.Accounts tagSlot (c.afterAll requests)

/-- A request of the walk is one that the accounts follow. -/
theorem Accounts.after {tagSlot : Slot} {w : Walk} {c : Pool.Custody} (h : w.Accounts tagSlot c)
    (request : Pool.Request) : (w.after (w.pool.events request) (w.pool.answer request).2).Accounts
      tagSlot (c.after request) where
  pool := by rw [Pool.Custody.pool_after, h.pool, Walk.after]
  minted := by
    rw [Pool.Custody.minted_after, List.reverse_append, h.pool, h.minted, Pool.reverse_minted]
    simp [made, Walk.after]

theorem admits_accountable (tagSlot : Slot) : Admits (Accountable tagSlot) where
  refl _ _ h := ⟨[], h⟩
  trans huv hvw c h := by
    obtain ⟨before, hv⟩ := huv c h
    obtain ⟨after, hw⟩ := hvw _ hv
    exact ⟨before ++ after, by rwa [Pool.Custody.afterAll, List.foldl_append]⟩
  note w e he c h := by
    have hm : ({ w with journal := w.journal.push e } : Walk).made tagSlot = w.made tagSlot := by
      simp [made, he]
    exact ⟨[], h.pool, hm ▸ h.minted⟩
  code _ _ _ _ h := ⟨[], h.pool, h.minted⟩
  request _ request _ h := ⟨[request], h.after request⟩

end Walk

/-- Some requests of a new pool account for a walk over a trace, whatever comes of it. -/
theorem Job.exists_requests (t : Trace) (settings : Settings) : ∃ requests,
    ((ofTrace t settings).lower.run.run { pool := (Session.opening settings).2 }).2.Accounts
      (ofTrace t settings).tagSlot ((Pool.Custody.opening settings.reuse).afterAll requests) := by
  have hopening : ({ pool := (Session.opening settings).2 } : Walk).Accounts
      (ofTrace t settings).tagSlot
      ((Pool.Custody.opening settings.reuse).after (.allocate .reference .exclusive)) := ⟨rfl, rfl⟩
  obtain ⟨requests, h⟩ := lower_along (admits_accountable _) (ofTrace t settings)
    (fun _ _ _ h => ⟨[], h.pool, h.minted⟩) _ _ hopening
  exact ⟨_ :: requests, h⟩

theorem Event.mem_minted {s : Slot} {events : List Event} :
    s ∈ events.filterMap Event.minted? ↔ .minted s ∈ events := by
  rw [List.mem_filterMap]
  constructor
  · rintro ⟨e, he, hs⟩
    cases e with
    | minted s' => exact Option.some.inj hs ▸ he
    | _ => cases hs
  · exact fun h => ⟨_, h, rfl⟩

namespace Trace

variable {t : Trace} {settings : Settings} {r : Routine}

/-- The walk behind a lowering. -/
theorem exists_walk_of_lower (hr : t.lower settings = .ok r) : ∃ w : Walk,
    (⟨settings, .waiting⟩ : Session).walk t = (.ok r, w) ∧
      (Session.leftBy settings t).state.walk = w ∧
      (t.lowerTraced settings).2.filterMap Event.minted? =
        w.made (Job.ofTrace t settings).tagSlot := by
  obtain ⟨w, hw, hlower, hleft⟩ := Session.exists_walk (check_of_lower hr) settings
  refine ⟨w, hr ▸ hw, by rw [hleft], ?_⟩
  rw [lowerTraced]
  simp only [hlower, hr, Except.map]
  rfl

theorem tallied_opening (t : Trace) (settings : Settings) :
    ({ pool := (Session.opening settings).2 } : Walk).Tallied (Job.ofTrace t settings).tagSlot := by
  refine ⟨⟨rfl, fun s hs => ?_⟩, fun i hi => absurd hi List.not_mem_nil⟩
  exact absurd hs (by simp [Session.opening_eq, Pool.bound])

/-- **What a lowering mints**: the slots of its routine are among those that the journal tells of, which
are numbered from zero up to the number of slots that the routine says it has. -/
theorem minted_of_lower (hr : t.lower settings = .ok r) :
    ((t.lowerTraced settings).2.filterMap Event.minted?).map Slot.serial = List.range r.slotCount ∧
      r.slots ⊆ (t.lowerTraced settings).2.filterMap Event.minted? := by
  obtain ⟨w, hw, -, hmade⟩ := exists_walk_of_lower hr
  obtain ⟨hslots, hserials, -⟩ :=
    (Job.ofTrace t settings).mints_of_run hw (tallied_opening t settings)
  rw [hmade]
  exact ⟨hserials, hslots⟩

/-- Requests that tell how a lowering has come by its slots: made of a new pool one after another, they
lead to the pool that the session is left with. The slots that they mint are those that the journal tells
of, in this order, and there are as many as the routine counts. -/
structure Draws (t : Trace) (settings : Settings) (r : Routine) (requests : List Pool.Request) :
    Prop where
  pool : ((Pool.Custody.opening settings.reuse).afterAll requests).pool =
    (Session.leftBy settings t).state.walk.pool
  minted : ((Pool.Custody.opening settings.reuse).afterAll requests).minted.reverse =
    (t.lowerTraced settings).2.filterMap Event.minted?
  slotCount : ((Pool.Custody.opening settings.reuse).afterAll requests).pool.next = r.slotCount

theorem exists_draws_of_lower (hr : t.lower settings = .ok r) :
    ∃ requests, t.Draws settings r requests := by
  obtain ⟨w, hw, rfl, hmade⟩ := exists_walk_of_lower hr
  obtain ⟨requests, h⟩ := Job.exists_requests t settings
  obtain ⟨-, -, hnext⟩ := (Job.ofTrace t settings).mints_of_run hw (tallied_opening t settings)
  rw [← Session.walk_waiting, hw] at h
  exact ⟨requests, h.pool, h.minted.trans hmade.symm, by rw [h.pool, hnext]⟩

end Trace

end LoopTrace
