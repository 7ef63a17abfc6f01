import LoopTrace.Proofs.Lockstep
import LoopTrace.Proofs.Outcomes

/-!
# Names do not matter

The lowering of a trace that relabels another one goes through the same steps as that of the other one,
part by part: operands, parameters, moves, guards, instructions and the whole walk are twins. So the
traces have the same routine up to the tags of guards, or none for the same reason
(`Trace.lower_relabels`): nothing depends on which names the values have, on their order, or on what else
is in the arena.
-/

namespace LoopTrace

namespace Job

open Walk Walk.Step

variable {β : Type} {s : ValueId → ValueId} {j j' : Job}

theorem ofTrace_relabels {t t' : Trace} (h : t.Relabels s t') (hacc : t.Accepted)
    (settings : Settings) : (ofTrace t settings).Relabels s (ofTrace t' settings) where
  trace := h
  settings := rfl
  tagSlot := rfl
  mode {id} hid := by
    have hiff := h.mem_invariants_iff hacc hid
    exact if_congr hiff rfl rfl
  writes := h.writes hacc

theorem Mirrors.current {w w' : Walk} (hm : j.Mirrors s w w') : w'.current = w.current := by
  rw [Walk.current, Walk.current, hm.later, List.length_map]

section Parts

variable (h : j.Relabels s j')

include h

/-! ### Values -/

theorem fetch_twins {id : ValueId} (hid : j.trace.Holds id) {P : β → Prop}
    {k k' : Trace.Value → Step β}
    (hk : ∀ v, j.trace.get? id = some v → j.Twins s P (k v) (k' (v.relabel s))) :
    j.Twins s P (j.fetch id >>= k) (j'.fetch (s id) >>= k') := by
  obtain ⟨v, hv⟩ := hid
  have hf : j.fetch id = pure v := by rw [fetch, hv]
  have hf' : j'.fetch (s id) = pure (v.relabel s) := by rw [fetch, h.trace.values hv]
  rw [hf, hf', pure_bind, pure_bind]
  exact hk v hv

theorem slotOf_twins {id : ValueId} (hid : j.trace.Holds id) (kind : Kind) :
    j.Twins s (· ≠ j.tagSlot) (j.slotOf id kind) (j'.slotOf (s id) kind) := by
  rw [slotOf, slotOf, h.mode hid]
  split
  · exact .throw (.breach (.noValue id))
  · exact allocateFor_twins h hid _ _

theorem use_twins {id : ValueId} (hid : j.trace.Holds id) :
    j.Twins s (· ≠ .slot j.tagSlot) (j.use id) (j'.use (s id)) := by
  refine fetch_twins h hid fun v _ => ?_
  cases v with
  | constant c => exact .pure nofun
  | untracked => exact .pure nofun
  | _ => exact (slotOf_twins h hid _).bind fun slot hne => .pure fun he => hne (Operand.slot.inj he)

theorem uses_twins {ids : List ValueId} (hids : ∀ id ∈ ids, j.trace.Holds id) :
    j.Twins s anything (ids.mapM j.use) ((ids.map s).mapM j'.use) :=
  (Twins.mapM fun id hid => use_twins h (hids id hid)).mono fun _ _ => trivial

theorem useFrame?_twins {frame : Option (Frame ValueId)}
    (hframe : ∀ id ∈ (frame.map Frame.contents).getD [], j.trace.Holds id) :
    j.Twins s anything (j.useFrame? frame) (j'.useFrame? (frame.map (Frame.map s))) := by
  cases frame with
  | none => exact .pure trivial
  | some frame =>
    have hlocals := uses_twins h fun id hid => hframe id (List.mem_append_left _ hid)
    have hstack := uses_twins h fun id hid => hframe id (List.mem_append_right _ hid)
    have htwins : j.Twins s anything (j.useFrame frame) (j'.useFrame (frame.map s)) :=
      hlocals.bind fun _ _ => hstack.bind fun _ _ => .pure trivial
    exact htwins.bind fun _ _ => .pure trivial

theorem define_twins {id : ValueId} (hid : j.trace.Holds id) (kind : Kind) :
    j.Twins s anything (j.define id kind) (j'.define (s id) kind) := by
  rw [define, define, h.mode hid]
  split
  · exact .pure trivial
  · exact (allocateFor_twins h hid _ _).bind fun _ _ => .pure trivial

theorem parameter_twins {id : ValueId} (hid : j.trace.Holds id) :
    j.Twins s anything (j.parameter id) (j'.parameter (s id)) := by
  refine fetch_twins h hid fun v _ => ?_
  cases v with
  | atEntry n kind flags =>
    have hrest : ∀ slot, j.Twins s anything
        (if kind.isWide then do return [slot, ← Walk.allocate .void .exclusive] else return [slot])
        (if kind.isWide then do return [slot, ← Walk.allocate .void .exclusive]
          else return [slot]) := by
      intro slot
      split
      · exact (allocate_twins _ _).bind fun _ _ => .pure trivial
      · exact .pure trivial
    dsimp only [Trace.Value.relabel]
    split
    · exact (slotOf_twins h hid _).bind fun slot _ => hrest slot
    · exact (allocate_twins _ _).bind fun slot _ => hrest slot
  | _ => exact .throw (.breach (.entryNotLocal id))

/-! ### Moves -/

/-- Only slots of values are moved to. -/
theorem writeMove_twins {write : Trace.Write} (hsource : j.trace.Holds write.source)
    (hdestination : j.trace.Holds write.destination) :
    j.Twins s (fun m => ∀ m' ∈ m, m'.destination ≠ j.tagSlot) (j.writeMove write)
      (j'.writeMove (write.relabel s)) := by
  refine (use_twins h hsource).bind fun source _ =>
    (use_twins h hdestination).bind fun destination hne => ?_
  cases destination with
  | slot d =>
    dsimp only
    split
    · exact (note_twins _ _).bind fun _ _ => .pure nofun
    · refine .pure fun m hm => ?_
      obtain rfl := Option.some.inj hm
      exact fun hd => hne (congrArg Operand.slot hd)
  | _ => exact .throw (.breach (.noSlot write.destination))

theorem writeBack_twins (hacc : j.trace.Accepted) :
    j.Twins s anything j.writeBack j'.writeBack := by
  have hmoves : j.Twins s (fun ms => ∀ m ∈ ms, ∀ m' ∈ m, m'.destination ≠ j.tagSlot)
      (j.trace.writes.mapM j.writeMove) (j'.trace.writes.mapM j'.writeMove) := by
    rw [h.writes]
    exact .mapM fun write hw =>
      writeMove_twins h (hacc.holds_writes hw).1 (hacc.holds_writes hw).2
  refine hmoves.bind fun ms hms => (order_twins _ fun m hm => ?_).bind fun steps hsteps =>
    (note_twins _ _).bind fun _ _ => (prepend_twins ?_).bind fun _ _ => ?_
  · obtain ⟨m', hm', he⟩ := List.mem_filterMap.1 (List.mem_of_mem_filter hm)
    exact hms m' hm' m he
  · -- moves have no tags
    rw [List.map_map]
    refine List.map_congr_left fun step hstep => ?_
    have hwrites : step.move.instruction.writes ≠ some j.tagSlot :=
      fun he => hsteps step hstep (Option.some.inj he)
    exact (Instruction.retag_of_writes_ne hwrites).symm
  · refine .forM_same fun temporary ht => recycle_twins ?_
    obtain ⟨step, hstep, he⟩ := List.mem_filterMap.1 ht
    cases step with
    | transfer m => cases he
    | save saved temporary' =>
      obtain rfl := Option.some.inj he
      exact hsteps _ hstep

/-! ### Instructions -/

theorem lowerGuard_twins {site : ValueId} {kind : Kind} {comparator : Comparator}
    {left right : ValueId} {frame : Option (Frame ValueId)}
    (huses : ∀ u ∈ (Trace.Value.guard kind comparator left right frame).uses, j.trace.Holds u) :
    j.Twins s anything (j.lowerGuard site kind comparator left right frame)
      (j'.lowerGuard (s site) kind comparator (s left) (s right) (frame.map (Frame.map s))) := by
  have hleft : j.trace.Holds left := huses left (List.mem_append_left _ List.mem_cons_self)
  have hright : j.trace.Holds right :=
    huses right (List.mem_append_left _ (List.mem_cons_of_mem _ List.mem_cons_self))
  have hframe : ∀ u ∈ (frame.map Frame.contents).getD [], j.trace.Holds u := fun u hu =>
    huses u (List.mem_append_right _ hu)
  refine .get fun w w' hm => (use_twins h hleft).bind fun left _ => (use_twins h hright).bind
    fun right _ => (useFrame?_twins h hframe).bind fun frame _ => openBlock_twins.bind fun _ _ =>
      .get fun _ _ _ => (note_twins _ _).bind fun _ _ => (note_twins _ _).bind fun _ _ =>
        prepend_twins ?_
  -- the tag is the one instruction that tells the name of the guard
  rw [hm.current, h.tagSlot]
  simp [GuardExit.code, GuardExit.tag, Instruction.retag]

theorem lowerPlain_twins {id : ValueId} (hid : j.trace.Holds id) {v : Trace.Value}
    (huses : ∀ u ∈ v.uses, j.trace.Holds u) :
    j.Twins s anything (j.lowerPlain id v) (j'.lowerPlain (s id) (v.relabel s)) := by
  cases v with
  | operation op operands =>
    have hoperands := uses_twins h fun u hu => huses u (List.mem_append_left _ hu)
    exact (define_twins h hid _).bind fun result _ => hoperands.bind fun _ _ =>
      (prepend_twins rfl).bind fun _ _ => endDefinition_twins h hid _
  | call method operands frame =>
    have hoperands := uses_twins h fun u hu => huses u (List.mem_append_left _ hu)
    have hframe := useFrame?_twins h fun u hu => huses u (List.mem_append_right _ hu)
    refine (define_twins h hid _).bind fun result _ => hoperands.bind fun _ _ =>
      hframe.bind fun _ _ => (prepend_twins ?_).bind fun _ _ => endDefinition_twins h hid _
    rw [h.settings]
    rfl
  | inlinedCall method operands => exact .throw (.unsupported (.inlining method))
  | _ => exact .pure trivial

section Accepted

variable (hacc : j.trace.Accepted)

include hacc

theorem lowerBody_twins {id : ValueId} (hmem : id ∈ j.trace.stream) :
    j.Twins s anything (j.lowerBody id) (j'.lowerBody (s id)) := by
  have hid := hacc.holds_stream id hmem
  refine fetch_twins h hid fun v hv => ?_
  cases v with
  | guard kind comparator left right frame => exact lowerGuard_twins h (hacc.holds_uses hmem hv)
  | _ => exact lowerPlain_twins h hid (hacc.holds_uses hmem hv)

theorem lowerPrologue_twins {id : ValueId} (hmem : id ∈ j.trace.stream) :
    j.Twins s anything (j.lowerPrologue id) (j'.lowerPrologue (s id)) := by
  have hid := hacc.holds_stream id hmem
  refine fetch_twins h hid fun v hv => ?_
  cases v with
  | guard kind comparator left right frame => exact .throw (.unsupported (.prologueGuard id))
  | _ => exact lowerPlain_twins h hid (hacc.holds_uses hmem hv)

/-! ### The whole walk -/

theorem lowerLoop_twins : j.Twins s anything j.lowerLoop j'.lowerLoop := by
  have hparameters : j.Twins s (fun as => ∀ a ∈ as, anything a) (j.trace.entry.mapM j.parameter)
      (j'.trace.entry.mapM j'.parameter) := by
    rw [h.trace.entry]
    exact .mapM fun id hid => parameter_twins h (hacc.holds_entry id hid)
  have hbody : j.Twins s anything (j.trace.body.reverse.forM j.lowerBody)
      (j'.trace.body.reverse.forM j'.lowerBody) := by
    rw [h.trace.body, ← List.map_reverse]
    exact .forM fun id hid =>
      lowerBody_twins h hacc (List.mem_append_right _ (List.mem_reverse.1 hid))
  exact (note_twins _ _).bind fun _ _ => hparameters.bind fun _ _ => (note_twins _ _).bind fun _ _ =>
    (writeBack_twins h hacc).bind fun _ _ => hbody.bind fun _ _ => (enter_twins _).bind fun _ _ =>
      .get fun _ _ _ => (note_twins _ _).bind fun _ _ => .pure trivial

theorem lowerEntry_twins : j.Twins s anything j.lowerEntry j'.lowerEntry := by
  have hprologue : j.Twins s anything (j.trace.prologue.reverse.forM j.lowerPrologue)
      (j'.trace.prologue.reverse.forM j'.lowerPrologue) := by
    rw [h.trace.prologue, ← List.map_reverse]
    exact .forM fun id hid =>
      lowerPrologue_twins h hacc (List.mem_append_left _ (List.mem_reverse.1 hid))
  refine openBlock_twins.bind fun _ _ => hprologue.bind fun _ _ => .get fun w w' hm => ?_
  rw [hm.code, List.isEmpty_map]
  split <;> exact note_twins _ _

omit hacc

/-- Where the walks have the same code up to tags, they leave the same routine up to tags. -/
theorem routine_retag (parameters : List Slot) {w w' : Walk} (hm : j.Mirrors s w w') :
    j'.routine parameters w' = (j.routine parameters w).retag j.tagSlot s := by
  have hlayout : (⟨w'.code, w'.later, j'.settings.abi.bailoutCode j'.tagSlot⟩ : Layout) =
      Layout.mapCode (Instruction.retag j.tagSlot s)
        ⟨w.code, w.later, j.settings.abi.bailoutCode j.tagSlot⟩ := by
    rw [hm.code, hm.later, h.settings, h.tagSlot]
    rfl
  rw [routine, hlayout, Layout.routine_mapCode _ fun _ => rfl, h.trace.anchor, hm.pool]
  rfl

theorem verify_twins (r : Routine) :
    j.Twins s anything (j.verify r) (j'.verify (r.retag j.tagSlot s)) := by
  have hr : (r.retag j.tagSlot s).verify = r.verify := r.verify_mapCode Instruction.keepsFlow_retag
  rw [verify, verify, h.settings, hr]
  split
  · cases r.verify with
    | ok u => exact .pure trivial
    | error e => exact .throw (.breach (.routine e))
  · exact .pure trivial

include hacc

theorem lower_twins :
    j.Twins s anything (Routine.retag j.tagSlot s <$> j.lower) j'.lower := by
  rw [lower, lower, h.settings]
  simp only [map_bind]
  refine (note_twins _ _).bind fun _ _ => (enter_twins _).bind fun _ _ =>
    (lowerLoop_twins h hacc).bind fun parameters _ => (enter_twins _).bind fun _ _ =>
      (lowerEntry_twins h hacc).bind fun _ _ => .get fun w w' hm => ?_
  rw [routine_retag h parameters hm]
  refine (verify_twins h _).bind fun _ _ => (note_twins _ _).bind fun _ _ => ?_
  split
  · simp only [map_bind, map_pure]
    exact (note_twins _ _).bind fun _ _ => (enter_twins _).bind fun _ _ => .pure trivial
  · simp only [map_bind, map_pure]
    exact (enter_twins _).bind fun _ _ => .pure trivial

end Accepted

end Parts

/-- Both walks begin at the same place. -/
theorem mirrors_opening (t : Trace) (settings : Settings) (s : ValueId → ValueId) :
    (ofTrace t settings).Mirrors s { pool := (Session.opening settings).2 }
      { pool := (Session.opening settings).2 } where
  tame := ⟨fun _ hmem => absurd hmem List.not_mem_nil, fun _ hmem => absurd hmem List.not_mem_nil,
    reserved_tagSlot⟩
  pool := rfl
  code := rfl
  later := rfl

end Job

namespace Trace

/-- **Names do not matter**: a trace that holds under other names what an accepted trace holds is accepted
as well, and it has the routine of that trace, apart from the tags, in which guards have their new names.
If there is no routine, it is for the same reason. -/
theorem lower_relabels (t t' : Trace) (s : ValueId → ValueId) (settings : Settings)
    (hcheck : t.check = .ok ()) (h : t.Relabels s t') :
    t'.check = .ok () ∧
      t'.lower settings =
        ((t.lower settings).map (Routine.retag (Session.opening settings).1 s)).mapError
          (Fault.relabel s) := by
  have hacc := check_eq_ok_iff.1 hcheck
  have hcheck' : t'.check = .ok () := check_eq_ok_iff.2 (h.accepted hacc)
  refine ⟨hcheck', ?_⟩
  obtain ⟨-, hresult, -⟩ := Job.lower_twins (Job.ofTrace_relabels h hacc settings) hacc _ _
    (Job.mirrors_opening t settings s)
  rw [lower_eq_walk hcheck, lower_eq_walk hcheck']
  refine hresult.trans (congrArg _ ?_)
  rw [ExceptT.run_map, StateT.run_map]
  rfl

/-- The names of the values of `countdown` in `scattered`. -/
def scatter (id : ValueId) : ValueId := ⟨7 - 2 * id.index⟩

/-- The loop of `countdown`, its values in reverse and with others between them. -/
def scattered : Trace where
  anchor := countdown.anchor
  position := countdown.position
  values := #[.untracked,
    .guard .int .greaterEqual ⟨3⟩ ⟨5⟩
      (some ⟨⟨"Sample", "countdown", [.int], .void, .managed⟩, 7, [⟨3⟩], []⟩),
    .constant (.int 1), .operation .intSub [⟨7⟩, ⟨5⟩], .operation .intSub [⟨3⟩, ⟨99⟩],
    .constant (.int 1), .atEntry 0 .int ⟨false, false⟩, .atEntry 0 .int ⟨true, true⟩]
  prologue := []
  body := [⟨3⟩, ⟨1⟩]
  entry := [⟨7⟩]
  tail := [⟨3⟩]

theorem lower_relabels_scattered : countdown.Relabels scatter scattered ∧
    scattered.check = .ok () ∧ ∃ r, countdown.lower {} = .ok r ∧
      scattered.lower {} = .ok (r.retag (Session.opening {}).1 scatter) := by
  have hcheck : countdown.check = .ok () := by decide
  have hrelabels : countdown.Relabels scatter scattered := by decide
  have hok : (countdown.lower {}).isOk = true := by decide +kernel
  obtain ⟨hcheck', hlower⟩ := lower_relabels countdown scattered scatter {} hcheck hrelabels
  cases hr : countdown.lower {} with
  | ok r => exact ⟨hrelabels, hcheck', r, rfl, by rw [hlower, hr]; rfl⟩
  | error e =>
    rw [hr] at hok
    cases hok

end Trace

end LoopTrace
