import LoopTrace.Proofs.Origins
import LoopTrace.Proofs.Untouched

/-!
# Slots of their own

A value that is the same in every iteration shares its slot with nothing that is ever written. The walk
meets the uses of such a value long before its definition, and everything it passes in between could
take or leave slots; but the value takes none that was made before, and as long as it is bound nothing
else takes its slot. So the slot of a prologue's value is written once, by the value's own instruction,
and the slot of a local that the loop leaves alone is not written at all (`lower_invariants_own`).
-/

namespace LoopTrace

/-- Of two values of a list that are not the same one stands before the other. -/
theorem exists_append_cons_cons {α : Type} {l : List α} {x y : α} (hx : x ∈ l) (hy : y ∈ l)
    (hne : x ≠ y) : ∃ pre mid post, l = pre ++ x :: (mid ++ y :: post) ∨
      l = pre ++ y :: (mid ++ x :: post) := by
  obtain ⟨pre, post, rfl⟩ := List.append_of_mem hx
  rcases List.mem_append.1 hy with hy | hy
  · obtain ⟨pre', mid, rfl⟩ := List.append_of_mem hy
    exact ⟨pre', mid, post, Or.inr (by simp)⟩
  · obtain ⟨mid, post', rfl⟩ := List.append_of_mem ((List.mem_cons.1 hy).resolve_left hne.symm)
    exact ⟨pre, mid, post', Or.inl rfl⟩

namespace Job

variable {j : Job} {p : Pool}

section Places

variable (hacc : j.trace.Accepted) (h : j.Ready [] p)

include hacc h

/-- A value that is the same in every iteration is not kept where an instruction after its own is
kept. -/
theorem places_ne {pre mid post : List ValueId} {x y : ValueId} {v w : Trace.Value}
    (hs : j.trace.stream = pre ++ x :: (mid ++ y :: post)) (hx : j.trace.get? x = some v)
    (hxleaf : v.isLeaf = false) (hy : j.trace.get? y = some w) (hyleaf : w.isLeaf = false)
    (hinv : x ∈ j.invariants) {s : Slot} (hplace : j.places p j.trace.stream x = some s) :
    j.places p j.trace.stream y ≠ some s := by
  intro hplace'
  have hne : x ≠ y := by
    have hnd := hacc.nodup_stream
    rintro rfl
    rw [hs] at hnd
    exact (List.nodup_cons.1 (List.nodup_append.1 hnd).2.1).1 (by simp)
  have hs₁ : j.trace.stream = (pre ++ x :: mid) ++ y :: post := by rw [hs]; simp
  have hs₂ : j.trace.stream = (pre ++ x :: mid ++ [y]) ++ post := by rw [hs]; simp
  have hs₃ : j.trace.stream = (pre ++ [x]) ++ (mid ++ y :: post) := by rw [hs]; simp
  have hs₄ : j.trace.stream = (pre ++ [x]) ++ mid ++ (y :: post) := by rw [hs]; simp
  have hs₅ : j.trace.stream = (pre ++ x :: mid) ++ (y :: post) := hs₁
  -- the slot of the later instruction when its code is made, and that of the earlier one then
  have hy' := (lookup_taken hacc h hs₁ hy hyleaf y List.mem_cons_self).trans hplace'
  have hx' := (lookup_taken hacc h hs hx hxleaf x List.mem_cons_self).trans hplace
  have hty := (ready_poolAfter hacc h hs₂).taken hacc hs₁ hy
  have hleads : j.Leads (j.taken (j.poolAfter p post) y w)
      (j.taken (j.poolAfter p (mid ++ y :: post)) x v) := by
    have hmid : j.Leads (j.poolAfter p (y :: post)) (j.poolAfter p (mid ++ y :: post)) := by
      rw [poolAfter_append]
      exact leads_passAll (f := ⟨j.poolAfter p (y :: post), [], []⟩) hacc hs₄
        (ready_poolAfter hacc h hs₅)
    rw [poolAfter_cons hacc h hs₁ hy hyleaf] at hmid
    exact ((leads_leave hty.fits y).trans hmid).trans
      ((ready_poolAfter hacc h hs₃).taken hacc hs hx).leads
  rcases hleads.slots hinv hx' with hold | hnew
  · exact hne (hty.fits.sound.lookup_inj hold hy')
  · exact absurd (hty.fits.sound.serial_lt hy') (Nat.not_lt.2 hnew)

/-- What is bound from the beginning and is no instruction is not kept where an instruction is. -/
theorem places_ne_of_lookup {id u : ValueId} {v w : Trace.Value} (hid : id ∈ j.trace.stream)
    (hv : j.trace.get? id = some v) (hleaf : v.isLeaf = false) (hw : j.trace.get? u = some w)
    (hwleaf : w.isLeaf = true) {s : Slot} (hu : p.lookup u = some s) :
    j.places p j.trace.stream id ≠ some s := by
  intro hplace
  obtain ⟨pre, post, hs⟩ := List.append_of_mem hid
  have hs' : j.trace.stream = (pre ++ [id]) ++ post := by rw [hs]; simp
  have hs'' : j.trace.stream = (pre ++ [id]) ++ post ++ [] := by rw [hs]; simp
  have ht := (ready_poolAfter hacc h hs').taken hacc hs hv
  have hid' := (lookup_taken hacc h hs hv hleaf id List.mem_cons_self).trans hplace
  have hu' := ht.extension.kept (lookup_passAll (f := ⟨p, [], []⟩) hacc hs'' h hu
    fun _ => ⟨w, hw, hwleaf⟩)
  obtain rfl := ht.fits.sound.lookup_inj hid' hu'
  rw [Option.some.inj (hv.symm.trans hw), hwleaf] at hleaf
  cases hleaf

/-- A slot that is never bound is not where a value is kept. -/
theorem places_ne_of_reserved {pre ids : List ValueId} (hs : j.trace.stream = pre ++ ids) {s : Slot}
    (hres : p.Reserved s) (u : ValueId) : j.places p ids u ≠ some s := by
  induction ids generalizing pre with
  | nil => exact fun hu => hres.bound (Pool.mem_bound_of_lookup hu)
  | cons id ids ih =>
    have hids : j.trace.stream = (pre ++ [id]) ++ ids := hs.trans (List.append_cons ..)
    have hids' : j.trace.stream = (pre ++ [id]) ++ ids ++ [] := by rw [hids, List.append_nil]
    obtain ⟨v, hv⟩ := hacc.stream pre id ids hs
    cases hleaf : v.isLeaf with
    | true =>
      rw [places_cons_of_isLeaf p ids hv.value hleaf]
      exact ih hids
    | false =>
      have ht := (ready_poolAfter hacc h hids).taken hacc hs hv.value
      have hres' := ht.extension.reserved
        (reserved_passAll (f := ⟨p, [], []⟩) hacc hids' h hres)
      rw [places_cons_of_not_isLeaf p ids hv.value hleaf]
      intro hu
      rcases Option.or_eq_some_iff.1 hu with hu | ⟨-, hu⟩
      · exact hres'.bound (Pool.mem_bound_of_lookup hu)
      · exact ih hids hu

end Places

/-! ### The code of a stretch -/

section Code

variable {place : Placement} {ids : List ValueId} {s : Slot}

/-- No code of a stretch writes where none of its instructions is kept. -/
theorem filter_codeAt_eq_nil
    (h : ∀ y ∈ ids, ∀ w, j.trace.get? y = some w → w.isLeaf = false → place y ≠ some s) :
    (j.codeAt place ids).filter (·.writes = some s) = [] := by
  refine List.filter_eq_nil_iff.2 fun i hi hw => ?_
  obtain ⟨y, hy, hcode⟩ := List.mem_filterMap.1 hi
  obtain ⟨w, hw', hleaf⟩ := exists_of_instructionAt hcode
  exact h y hy w hw' hleaf ((writes_of_instructionAt hcode).symm.trans (of_decide_eq_true hw))

/-- One instruction of a stretch writes where it is kept, if it is the only one that is kept there. -/
theorem filter_codeAt_eq_singleton (hnd : ids.Nodup) {x : ValueId} (hx : x ∈ ids) {i : Instruction}
    (hi : j.instructionAt place x = some i) (hplace : place x = some s)
    (h : ∀ y ∈ ids, y ≠ x → ∀ w, j.trace.get? y = some w → w.isLeaf = false → place y ≠ some s) :
    (j.codeAt place ids).filter (·.writes = some s) = [i] := by
  obtain ⟨a, b, rfl⟩ := List.append_of_mem hx
  have hnotin := List.nodup_middle.1 hnd
  rw [List.nodup_cons, List.mem_append, not_or] at hnotin
  have hcode : j.codeAt place (a ++ x :: b) = j.codeAt place a ++ i :: j.codeAt place b := by
    rw [codeAt, List.filterMap_append, List.filterMap_cons_some hi]
    rfl
  have ha : (j.codeAt place a).filter (·.writes = some s) = [] := filter_codeAt_eq_nil fun y hy =>
    h y (List.mem_append_left _ hy) fun he => hnotin.1.1 (he ▸ hy)
  have hb : (j.codeAt place b).filter (·.writes = some s) = [] := filter_codeAt_eq_nil fun y hy =>
    h y (List.mem_append_right _ (List.mem_cons_of_mem _ hy)) fun he => hnotin.1.2 (he ▸ hy)
  have hwrites : i.writes = some s := (writes_of_instructionAt hi).trans hplace
  rw [hcode, List.filter_append, List.filter_cons_of_pos (by simpa using hwrites), ha, hb]
  rfl

end Code

end Job

namespace Routine

/-- The instructions that write a slot, in the order in which they stand. -/
def writers (r : Routine) (s : Slot) : List Instruction :=
  (r.blocks.flatMap Block.code).filter (·.writes = some s)

end Routine

namespace Course

open Job

variable {t : Trace} {settings : Settings} {c : Course t settings}

/-- What a block of a routine writes: where values are kept whose code stands there, the slot for the
tag, and what the moves write. -/
theorem writes_of_origin {ids : List ValueId} {i : Instruction} {s : Slot}
    (h : (ofTrace t settings).Origin c.placement ids (Move.stepCode c.steps) i)
    (hw : i.writes = some s) :
    (∃ id ∈ ids, ∃ v, t.get? id = some v ∧ v.isLeaf = false ∧ c.placement id = some s) ∨
      s = (ofTrace t settings).tagSlot ∨ ∃ k ∈ c.afterMoves.straight, k.writes = some s := by
  cases h with
  | @plain id i mem code =>
    obtain ⟨v, hv, hleaf⟩ := exists_of_instructionAt code
    exact Or.inl ⟨id, mem, v, hv, hleaf, (writes_of_instructionAt code).symm.trans hw⟩
  | exit mem site code => exact Or.inr (Or.inl (writes_of_mem_exit code hw))
  | later mem =>
    exact Or.inr (Or.inr ⟨i, by simpa [Front.straight, afterMoves] using mem, hw⟩)

/-- No value is kept in the slot for the tag. -/
theorem placement_ne_tagSlot (hacc : t.Accepted) {u : ValueId} {s : Slot}
    (hu : c.placement u = some s) : s ≠ (ofTrace t settings).tagSlot := by
  rintro rfl
  have hstream : t.stream = [] ++ t.stream := rfl
  exact places_ne_of_reserved (j := ofTrace t settings) hacc (c.ready_afterMoves hacc) hstream
    c.kept_afterMoves.tag u hu

/-- A value of the prologue shares its slot with no other instruction. -/
theorem placement_ne (hacc : t.Accepted) {x y : ValueId} (hx : x ∈ t.prologue) (hy : y ∈ t.stream)
    (hne : x ≠ y) {v w : Trace.Value} (hv : t.get? x = some v) (hvleaf : v.isLeaf = false)
    (hw : t.get? y = some w) (hwleaf : w.isLeaf = false) {s : Slot}
    (hplace : c.placement x = some s) : c.placement y ≠ some s := by
  have hready := c.ready_afterMoves hacc
  have hinv : ∀ {u}, u ∈ t.prologue → u ∈ (ofTrace t settings).invariants := fun hu =>
    List.mem_append_right _ hu
  rcases List.mem_append.1 hy with hy | hy
  · obtain ⟨pre, mid, post, he | he⟩ := exists_append_cons_cons hx hy hne
    · have hs : t.stream = pre ++ x :: (mid ++ y :: (post ++ t.body)) := by
        rw [Trace.stream, he]; simp
      exact places_ne (j := ofTrace t settings) hacc hready hs hv hvleaf hw hwleaf (hinv hx) hplace
    · have hs : t.stream = pre ++ y :: (mid ++ x :: (post ++ t.body)) := by
        rw [Trace.stream, he]; simp
      exact fun hplace' => places_ne (j := ofTrace t settings) hacc hready hs hw hwleaf hv hvleaf
        (hinv hy) hplace' hplace
  · obtain ⟨pre, mid, hprologue⟩ := List.append_of_mem hx
    obtain ⟨mid', post, hbody⟩ := List.append_of_mem hy
    have hs : t.stream = pre ++ x :: ((mid ++ mid') ++ y :: post) := by
      rw [Trace.stream, hprologue, hbody]; simp
    exact places_ne (j := ofTrace t settings) hacc hready hs hv hvleaf hw hwleaf (hinv hx) hplace

/-- Nothing but the code of the streams, the moves and the guards' exits writes anything. -/
theorem writers_routine (hacc : t.Accepted) (h : t.Lowerable) {s : Slot}
    (htag : s ≠ (ofTrace t settings).tagSlot)
    (hmoves : ∀ i ∈ c.afterMoves.straight, i.writes ≠ some s)
    (hbody : ∀ id ∈ t.body, ∀ v, t.get? id = some v → v.isLeaf = false → c.placement id ≠ some s) :
    c.routine.writers s =
      ((ofTrace t settings).codeAt c.placement t.prologue).filter (·.writes = some s) := by
  have hloop : ((c.layout.loopBlocks c.layout.loop).flatMap Block.code).filter
      (·.writes = some s) = [] := by
    refine List.filter_eq_nil_iff.2 fun i hi hw => ?_
    have hw := of_decide_eq_true hw
    obtain ⟨b, hb, hi⟩ := List.mem_flatMap.1 hi
    obtain ⟨pre, code, rest, he, rfl⟩ := c.layout.mem_loopBlocks.1 hb
    rcases Layout.mem_code_loopBlock.1 hi with hi | ⟨-, rfl⟩
    · have hmem : i ∈ c.layout.loop.flatten := by rw [he]; simp [hi]
      rcases writes_of_origin (origin_of_mem_loop hacc h hmem) hw with ⟨id, hid, v, hv, hleaf, hp⟩ |
        hs | ⟨k, hk, hkw⟩
      · exact hbody id hid v hv hleaf hp
      · exact htag hs
      · exact hmoves k hk hkw
    · cases hw
  have hbailout : c.layout.bailoutBlock.code.filter (·.writes = some s) = [] := rfl
  have hprologue : c.layout.prologueBlocks.flatMap Block.code = c.layout.prologue := by
    rw [Layout.prologueBlocks_eq]
    by_cases hp : c.layout.prologue = [] <;> simp [hp, Layout.prologueBlock]
  have hblocks : c.routine.blocks = c.layout.blocks := c.layout.blocks_routine _ _ _
  rw [Routine.writers, hblocks, Layout.blocks, List.flatMap_append, List.flatMap_append,
    List.filter_append, List.filter_append, hloop, hprologue, List.append_nil,
    layout_prologue_eq hacc h, List.flatMap_singleton, hbailout, List.append_nil]

/-- No instruction writes the slot of a local that is read and stays as it is. -/
theorem writers_eq_nil (hacc : t.Accepted) (h : t.Lowerable) (hentry : t.entry.Nodup)
    {id : ValueId} (hid : (id, id) ∈ t.entry.zip t.tail) {s : Slot}
    (hs : c.written.lookup id = some s) : c.routine.writers s = [] := by
  have hready := c.ready_afterMoves hacc
  have hmem : id ∈ t.entry := (List.of_mem_zip hid).1
  obtain ⟨n, kind, flags, hv⟩ := hacc.entry id hmem
  have hplace : ∀ x ∈ t.stream, ∀ w, t.get? x = some w → w.isLeaf = false →
      c.placement x ≠ some s := fun x hx w hw hleaf =>
    places_ne_of_lookup (j := ofTrace t settings) hacc hready hx hw hleaf hv rfl hs
  have hinv : id ∈ (ofTrace t settings).invariants :=
    List.mem_append_left _ (List.mem_map.2 ⟨(id, id), List.mem_filter.2 ⟨hid, by simp⟩, rfl⟩)
  have hdest : ∀ write ∈ t.writes, write.destination ≠ id := by
    intro write hw hd
    obtain ⟨hz, hne, -⟩ := Trace.mem_writes.1 ⟨write, hw, rfl, rfl⟩
    have he := List.inj_on_of_nodup_map (hacc.nodup_keys hentry) hz hid hd
    obtain ⟨hd', hs'⟩ := Prod.mk.inj he
    exact hne (hd'.trans hs'.symm)
  have htag := placement_ne_tagSlot (c := c) hacc (placement_of_lookup_written hacc hs)
  rw [writers_routine hacc h htag (not_written_by_moves hinv hdest (.refl _) hs)
    fun x hx => hplace x (List.mem_append_right _ hx)]
  exact filter_codeAt_eq_nil fun x hx => hplace x (List.mem_append_left _ hx)

/-- The moves are made before the walk comes to the prologue, and they spare the slots of its values. -/
theorem moves_spare_prologue (hacc : t.Accepted) {x : ValueId} (hx : x ∈ t.prologue)
    {v : Trace.Value} (hv : t.get? x = some v) (hleaf : v.isLeaf = false) {s : Slot}
    (hplace : c.placement x = some s) : ∀ i ∈ c.afterMoves.straight, i.writes ≠ some s := by
  have hready := c.ready_afterMoves hacc
  obtain ⟨pre, post, hs⟩ := List.append_of_mem (List.mem_append_left t.body hx)
  have hpost : t.stream = (pre ++ [x]) ++ post := hs.trans (List.append_cons ..)
  have hpost' : t.stream = (pre ++ [x]) ++ post ++ [] := by rw [hpost, List.append_nil]
  have ht := (ready_poolAfter (j := ofTrace t settings) hacc hready hpost).taken
    (j := ofTrace t settings) hacc hs hv
  have hl := (Job.lookup_taken (j := ofTrace t settings) hacc hready hs hv hleaf x
    List.mem_cons_self).trans hplace
  have hleads := (leads_passAll (j := ofTrace t settings) (f := ⟨c.written, [], []⟩) hacc hpost'
    hready).trans ht.leads
  exact not_written_by_moves (List.mem_append_right _ hx)
    (fun write hw => destination_ne hacc hw hv hleaf) hleads hl

/-- Only its own instruction writes the slot of a value that the prologue makes. -/
theorem writers_eq_singleton (hacc : t.Accepted) (h : t.Lowerable) {x : ValueId}
    (hx : x ∈ t.prologue) {v : Trace.Value} (hv : t.get? x = some v) (hleaf : v.isLeaf = false)
    (hkind : v.kind ≠ .void) : ∃ s i, c.placement x = some s ∧
      (ofTrace t settings).instructionAt c.placement x = some i ∧
      i ∈ c.layout.prologue ∧ c.routine.writers s = [i] := by
  have hstream : x ∈ t.stream := List.mem_append_left _ hx
  obtain ⟨pre, post, hs⟩ := List.append_of_mem hstream
  have hn := Trace.Value.needsSlot_of_not_isLeaf hleaf hkind
  obtain ⟨s, hplace⟩ := exists_placement (c := c) hacc hs hv hleaf List.mem_cons_self hv hn
  obtain ⟨i, hi⟩ := Option.isSome_iff_exists.1 ((isSome_instructionAt_iff (j := ofTrace t settings)
    c.placement (h.spliced x hstream)).2 ⟨⟨v, hv, hleaf⟩, h.prologue x hx⟩)
  have hother : ∀ y ∈ t.stream, y ≠ x → ∀ w, t.get? y = some w → w.isLeaf = false →
      c.placement y ≠ some s := fun y hy hne w hw hwleaf =>
    placement_ne hacc hx hy (Ne.symm hne) hv hleaf hw hwleaf hplace
  have hdisjoint : ∀ y ∈ t.body, y ≠ x := by
    rintro y hy rfl
    exact (List.nodup_append.1 hacc.nodup_stream).2.2 y hx y hy rfl
  refine ⟨s, i, hplace, hi, ?_, ?_⟩
  · rw [layout_prologue_eq hacc h]
    exact List.mem_filterMap.2 ⟨x, hx, hi⟩
  · rw [writers_routine hacc h (placement_ne_tagSlot hacc hplace)
      (moves_spare_prologue hacc hx hv hleaf hplace) fun y hy =>
        hother y (List.mem_append_right _ hy) (hdisjoint y hy)]
    have hnd : t.prologue.Nodup := (List.nodup_append.1 hacc.nodup_stream).1
    exact filter_codeAt_eq_singleton hnd hx hi hplace fun y hy =>
      hother y (List.mem_append_left _ hy)

end Course

namespace Trace

/-- **Values that are the same in every iteration keep a slot of their own**: nothing writes the slot of
a local that is read and holds at the tail what it held on entry, which is the parameter that the local is
handed over in, and of all instructions only its own one in the prologue's block writes the slot of a value
that the prologue makes. -/
theorem lower_invariants_own (t : Trace) (settings : Settings) (r : Routine)
    (hr : t.lower settings = .ok r) (hentry : t.entry.Nodup) :
    ∃ o : (Job.ofTrace t settings).Outline r,
      (∀ id, (id, id) ∈ t.entry.zip t.tail → t.Reads id →
        ∃ s, r.parameters[t.parameterAt id]? = some s ∧ o.place id = some s ∧ r.writers s = []) ∧
      ∀ id ∈ t.prologue, ∀ v, t.get? id = some v → v.isLeaf = false → v.kind ≠ .void →
        ∃ s, o.place id = some s ∧ ∃ b ∈ o.prologue, ∃ i ∈ b.code,
          (Job.ofTrace t settings).instructionAt o.place id = some i ∧ r.writers s = [i] := by
  have hcheck := check_of_lower hr
  have hacc := check_eq_ok_iff.1 hcheck
  obtain ⟨h, c, rfl⟩ := exists_course_of_lower hcheck hr
  refine ⟨c.outline hacc h, fun id hid hreads => ?_, fun id hid v hv hleaf hkind => ?_⟩
  · obtain ⟨s, hs, hp⟩ := c.exists_parameter ⟨(List.of_mem_zip hid).1, hreads⟩
    exact ⟨s, hp, Course.placement_of_lookup_written hacc hs,
      Course.writers_eq_nil hacc h hentry hid hs⟩
  · obtain ⟨s, i, hplace, hi, hmem, hw⟩ := Course.writers_eq_singleton (c := c) hacc h hid hv hleaf
      hkind
    refine ⟨s, hplace, c.layout.prologueBlock, ?_, i, hmem, hi, hw⟩
    exact if_neg (List.ne_nil_of_mem hmem)

/-- A loop that takes one local down in steps that the prologue computes from another one. -/
def strided : Trace where
  anchor := ⟨"Sample", "strided", [.int, .int], .void, .managed⟩
  position := 4
  values := #[.atEntry 0 .int ⟨true, true⟩, .atEntry 1 .int ⟨true, false⟩,
    .operation .intNeg [⟨1⟩], .operation .intSub [⟨0⟩, ⟨2⟩],
    .guard .int .greaterEqual ⟨3⟩ ⟨1⟩ none]
  prologue := [⟨2⟩]
  body := [⟨3⟩, ⟨4⟩]
  entry := [⟨0⟩, ⟨1⟩]
  tail := [⟨3⟩, ⟨1⟩]

theorem lower_invariants_own_strided : strided.entry.Nodup ∧ ∃ r, strided.lower {} = .ok r ∧
    ∃ o : (Job.ofTrace strided {}).Outline r,
      (∃ s, r.parameters[1]? = some s ∧ o.place ⟨1⟩ = some s ∧ r.writers s = []) ∧
      ∃ s i, o.place ⟨2⟩ = some s ∧ r.writers s = [i] := by
  have hentry : strided.entry.Nodup := by decide
  have hok : (strided.lower {}).isOk = true := by decide +kernel
  obtain ⟨r, hr⟩ := exists_of_isOk hok
  obtain ⟨o, hlocals, hprologue⟩ := lower_invariants_own strided {} r hr hentry
  obtain ⟨s, hs, b, -, i, -, -, hw⟩ := hprologue ⟨2⟩ List.mem_cons_self _ rfl rfl (by decide)
  exact ⟨hentry, r, hr, o, hlocals ⟨1⟩ (by decide) ⟨_, _, _, rfl, rfl⟩, s, i, hs, hw⟩

end Trace

end LoopTrace
