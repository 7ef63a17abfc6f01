import LoopTrace.Proofs.Blind
import LoopTrace.Proofs.Custody
import LoopTrace.Proofs.Outline
import LoopTrace.Proofs.Renaming

/-!
# Sharing slots

Handing out slots again changes nothing but the names of slots. Two walks go over one trace; in one of
them every value gets a slot of its own, in the other one slots are handed out again. At every
instruction both bind the same values, and the second one has made no more slots (`Shadows`). In the
first one no two values are kept in one slot (`Separate`). So each of its slots can be taken to the slot
in which the second one keeps the value that is kept there (`Placement.sharing`), and as code is told
from where values are kept, this takes the one routine to the other (`Trace.lower_reuse_sameButSlots`).
What is bound before the body is bound to the same slots in both, so that the moves are the same.
-/

namespace LoopTrace

/-! ### Two pools -/

namespace Pool

/-- The pool binds the values that another pool binds, in which each is in a slot of its own, and it has
made no more slots. -/
structure Shadows (q p : Pool) : Prop where
  unshared : p.reuse = false
  same : ∀ u, (q.lookup u).isSome = (p.lookup u).isSome
  released : q.released = p.released
  next : q.next ≤ p.next

variable {p q : Pool} {kind : Kind} {mode : Mode}

theorem allocate_of_not_reuse (h : p.reuse = false) (kind : Kind) (mode : Mode) :
    p.allocate kind mode = (⟨kind, p.next⟩, { p with next := p.next + 1 }) := by
  cases mode <;> simp [allocate, reusable?, h]

theorem next_allocate_le : (p.allocate kind mode).2.next ≤ p.next + 1 := by
  rcases allocate_cases p kind mode with ⟨s, he, -⟩ | he <;> simp [he]

variable {v : ValueId} {s : Slot}

theorem allocateFor_of_lookup (hl : p.lookup v = some s) :
    p.allocateFor v kind mode = (.ok s, p) := by
  rw [allocateFor, hl]

/-- What comes of asking for the slot of a value that has none. -/
theorem allocateFor_eq_ok (hl : p.lookup v = none) (h : p.allocateFor v kind mode = (.ok s, q)) :
    s = (p.allocate kind mode).1 ∧ q.next = (p.allocate kind mode).2.next := by
  rw [allocateFor, hl] at h
  dsimp only at h
  split at h
  · next o hbind =>
    obtain ⟨-, rfl⟩ := bind_eq_ok hbind
    obtain ⟨hs, rfl⟩ := Prod.mk.inj h
    exact ⟨(Except.ok.inj hs).symm, rfl⟩
  · cases h

theorem reuse_allocateFor (kind : Kind) (mode : Mode) :
    (p.allocateFor v kind mode).2.reuse = p.reuse := by
  rw [allocateFor]
  cases p.lookup v with
  | some s => rfl
  | none =>
    dsimp only
    split
    · next o hbind =>
      obtain ⟨-, rfl⟩ := bind_eq_ok hbind
      exact reuse_allocate ..
    · exact reuse_allocate ..

/-- Asking both pools for the slot of a value. -/
theorem Shadows.allocateFor (h : q.Shadows p) (hp : p.Sound) (hq : q.Sound) (hv : v ∉ p.released)
    (kind : Kind) (mode : Mode) :
    (q.allocateFor v kind mode).2.Shadows (p.allocateFor v kind mode).2 := by
  cases hl : p.lookup v with
  | some s =>
    obtain ⟨s', hl'⟩ := Option.isSome_iff_exists.1 ((h.same v).trans (by rw [hl]; rfl))
    rw [allocateFor_of_lookup hl, allocateFor_of_lookup hl']
    exact h
  | none =>
    have hl' : q.lookup v = none := by
      rw [← Option.not_isSome_iff_eq_none, h.same, hl]
      exact Bool.false_ne_true
    obtain ⟨s, p', hep, hsp⟩ := allocateFor_spec hp hv kind mode
    obtain ⟨s', q', heq, hsq⟩ := allocateFor_spec hq (h.released ▸ hv) kind mode
    obtain ⟨-, hnp⟩ := allocateFor_eq_ok hl hep
    obtain ⟨-, hnq⟩ := allocateFor_eq_ok hl' heq
    have hreuse : p'.reuse = p.reuse := by
      have := reuse_allocateFor (p := p) (v := v) kind mode
      rwa [hep] at this
    rw [hep, heq]
    refine ⟨hreuse.trans h.unshared, fun u => ?_, ?_, ?_⟩
    · by_cases hu : u = v
      · rw [hu, hsp.lookup, hsq.lookup]
        rfl
      · rw [hsp.others u hu, hsq.others u hu, h.same]
    · rw [hsp.extension.released, hsq.extension.released, h.released]
    · rw [hnp, hnq, allocate_of_not_reuse h.unshared]
      exact Nat.le_trans next_allocate_le (Nat.succ_le_succ h.next)

/-- Without reuse a value that gets a slot gets a new one. -/
theorem fresh_allocateFor (hreuse : p.reuse = false) (hp : p.Sound) (hv : v ∉ p.released)
    {u : ValueId} (hu : (p.allocateFor v kind mode).2.lookup u = some s) :
    p.lookup u = some s ∨ p.next ≤ s.serial := by
  obtain ⟨s', q, he, hs⟩ := allocateFor_spec hp hv kind mode
  rw [he] at hu
  by_cases huv : u = v
  · subst huv
    cases hl : p.lookup u with
    | some o => exact Or.inl (hs.extension.kept hl ▸ hu)
    | none =>
      obtain ⟨hs', -⟩ := allocateFor_eq_ok hl he
      rw [allocate_of_not_reuse hreuse] at hs'
      obtain rfl := Option.some.inj (hs.lookup.symm.trans hu)
      exact Or.inr (Nat.le_of_eq (congrArg Slot.serial hs').symm)
  · exact Or.inl (hs.others u huv ▸ hu)

/-- Releasing a value from both pools, bound or not. -/
theorem Shadows.leave (h : q.Shadows p) (hp : p.Sound) (hq : q.Sound) (v : ValueId) :
    (q.leave v).Shadows (p.leave v) := by
  have hlp := leave_leaves hp v
  have hlq := leave_leaves hq v
  have hsame : ∀ u, ((q.leave v).lookup u).isSome = ((p.leave v).lookup u).isSome := by
    intro u
    rw [hlp.lookup, hlq.lookup]
    split
    · rfl
    · exact h.same u
  have hnext : (q.leave v).next ≤ (p.leave v).next := by
    rw [hlp.next, hlq.next]
    exact h.next
  cases hl : p.lookup v with
  | some s =>
    obtain ⟨s', hl'⟩ := Option.isSome_iff_exists.1 ((h.same v).trans (by rw [hl]; rfl))
    refine ⟨?_, hsame, ?_, hnext⟩
    · rw [Pool.leave, release, hl]
      exact h.unshared
    · rw [Pool.leave, Pool.leave, release, release, hl, hl']
      exact congrArg (v :: ·) h.released
  | none =>
    have hl' : q.lookup v = none := by
      rw [← Option.not_isSome_iff_eq_none, h.same, hl]
      exact Bool.false_ne_true
    refine ⟨?_, hsame, ?_, hnext⟩
    · rw [Pool.leave, release, hl]
      exact h.unshared
    · rw [Pool.leave, Pool.leave, release, release, hl, hl']
      exact h.released

end Pool

namespace Job

variable {j : Job} {p q : Pool}

/-! ### Two walks -/

theorem shadows_useIn (h : q.Shadows p) (hp : p.Sound) (hq : q.Sound) {id : ValueId}
    (hrel : id ∉ p.released) : (j.useIn q id).Shadows (j.useIn p id) := by
  rw [useIn, useIn]
  cases j.trace.get? id with
  | none => exact h
  | some v =>
    dsimp only
    split
    · exact h.allocateFor hp hq hrel _ _
    · exact h

theorem shadows_useAllIn (h : q.Shadows p) (hp : j.Fits p) (hq : j.Fits q) {ids : List ValueId}
    (hids : ∀ id ∈ ids, (∃ v, j.trace.get? id = some v) ∧ id ∉ p.released) :
    (j.useAllIn q ids).Shadows (j.useAllIn p ids) := by
  induction ids generalizing p q with
  | nil => exact h
  | cons id ids ih =>
    obtain ⟨⟨v, hv⟩, hrel⟩ := hids id List.mem_cons_self
    have htp := useIn_takes hp hv hrel
    have htq := useIn_takes hq hv (h.released ▸ hrel)
    refine ih (shadows_useIn h hp.sound hq.sound hrel) htp.fits htq.fits fun u hu => ?_
    rw [htp.extension.released]
    exact hids u (List.mem_cons_of_mem _ hu)

theorem reuse_useIn (id : ValueId) : (j.useIn p id).reuse = p.reuse := by
  rw [useIn]
  cases j.trace.get? id with
  | none => rfl
  | some v =>
    dsimp only
    split
    · exact Pool.reuse_allocateFor _ _
    · rfl

theorem fresh_useIn (hreuse : p.reuse = false) (hp : p.Sound) {id : ValueId}
    (hrel : id ∉ p.released) {u : ValueId} {s : Slot} (hu : (j.useIn p id).lookup u = some s) :
    p.lookup u = some s ∨ p.next ≤ s.serial := by
  rw [useIn] at hu
  cases hv : j.trace.get? id with
  | none =>
    rw [hv] at hu
    exact Or.inl hu
  | some v =>
    rw [hv] at hu
    dsimp only at hu
    split at hu
    · exact Pool.fresh_allocateFor hreuse hp hrel hu
    · exact Or.inl hu

/-- Without reuse values that are used get new slots. -/
theorem fresh_useAllIn (hreuse : p.reuse = false) (hp : j.Fits p) {ids : List ValueId}
    (hids : ∀ id ∈ ids, (∃ v, j.trace.get? id = some v) ∧ id ∉ p.released) {u : ValueId} {s : Slot}
    (hu : (j.useAllIn p ids).lookup u = some s) : p.lookup u = some s ∨ p.next ≤ s.serial := by
  induction ids generalizing p with
  | nil => exact Or.inl hu
  | cons id ids ih =>
    obtain ⟨⟨v, hv⟩, hrel⟩ := hids id List.mem_cons_self
    have ht := useIn_takes hp hv hrel
    have hids' : ∀ u ∈ ids, (∃ v, j.trace.get? u = some v) ∧ u ∉ (j.useIn p id).released := by
      rw [ht.extension.released]
      exact fun u hu => hids u (List.mem_cons_of_mem _ hu)
    rcases ih ((reuse_useIn id).trans hreuse) ht.fits hids' hu with hu | hu
    · exact fresh_useIn hreuse hp.sound hrel hu
    · exact Or.inr (Nat.le_trans ht.extension.next hu)

section Walks

variable (hacc : j.trace.Accepted) (hp : j.Ready [] p) (hq : j.Ready [] q) (h : q.Shadows p)

include hacc hp hq h

omit h in
theorem shadows_taken {pre ids : List ValueId} {id : ValueId} {v : Trace.Value}
    (hs : j.trace.stream = pre ++ id :: ids) (hv : j.trace.get? id = some v)
    (hids : (j.poolAfter q ids).Shadows (j.poolAfter p ids)) :
    (j.taken (j.poolAfter q ids) id v).Shadows (j.taken (j.poolAfter p ids) id v) := by
  have hs' : j.trace.stream = (pre ++ [id]) ++ ids := hs.trans (List.append_cons ..)
  have hready := ready_poolAfter hacc hp hs'
  exact shadows_useAllIn hids hready.fits (ready_poolAfter hacc hq hs').fits
    (hready.usable hacc hs hv)

/-- At every instruction the walk that hands slots out again binds what the other one binds. -/
theorem shadows_poolAfter {pre ids : List ValueId} (hs : j.trace.stream = pre ++ ids) :
    (j.poolAfter q ids).Shadows (j.poolAfter p ids) := by
  induction ids generalizing pre with
  | nil => exact h
  | cons id ids ih =>
    have hs' : j.trace.stream = (pre ++ [id]) ++ ids := hs.trans (List.append_cons ..)
    obtain ⟨v, hv⟩ := hacc.stream pre id ids hs
    cases hleaf : v.isLeaf with
    | true =>
      rw [poolAfter_cons_of_isLeaf p ids hv.value hleaf, poolAfter_cons_of_isLeaf q ids hv.value hleaf]
      exact ih hs'
    | false =>
      rw [poolAfter_cons hacc hp hs hv.value hleaf, poolAfter_cons hacc hq hs hv.value hleaf]
      have htp := (ready_poolAfter hacc hp hs').taken hacc hs hv.value
      have htq := (ready_poolAfter hacc hq hs').taken hacc hs hv.value
      exact (shadows_taken hacc hp hq hs hv.value (ih hs')).leave htp.fits.sound htq.fits.sound id

/-- Both walks keep the same values somewhere. -/
theorem isSome_places {pre ids : List ValueId} (hs : j.trace.stream = pre ++ ids) (u : ValueId) :
    (j.places q ids u).isSome = (j.places p ids u).isSome := by
  induction ids generalizing pre with
  | nil => exact h.same u
  | cons id ids ih =>
    have hs' : j.trace.stream = (pre ++ [id]) ++ ids := hs.trans (List.append_cons ..)
    obtain ⟨v, hv⟩ := hacc.stream pre id ids hs
    cases hleaf : v.isLeaf with
    | true =>
      rw [places_cons_of_isLeaf p ids hv.value hleaf, places_cons_of_isLeaf q ids hv.value hleaf]
      exact ih hs'
    | false =>
      have hids := shadows_poolAfter hacc hp hq h hs'
      have hsame := (shadows_taken hacc hp hq hs hv.value hids).same u
      rw [places_cons_of_not_isLeaf p ids hv.value hleaf,
        places_cons_of_not_isLeaf q ids hv.value hleaf, Option.isSome_or, Option.isSome_or, hsame,
        ih hs']

end Walks

/-! ### A slot for each value -/

/-- No two values are kept in one slot. The walk began with the pool `o`, and what has been kept anywhere
since then is kept in slots that have been made since then. -/
structure Separate (o p : Pool) (place : Placement) : Prop where
  start : o.next ≤ p.next
  below : ∀ {u s}, place u = some s → s.serial < p.next
  inj : ∀ {u u' s}, place u = some s → place u' = some s → u = u'
  new : ∀ {u s}, place u = some s → o.lookup u = some s ∨ o.next ≤ s.serial

theorem separate_lookup (hp : p.Sound) : Separate p p p.lookup :=
  ⟨Nat.le_refl _, fun h => hp.serial_lt h, fun h h' => hp.lookup_inj h h', fun h => Or.inl h⟩

/-- Values that get slots of their own stay apart from those that had one. -/
theorem Separate.leave {o : Pool} {place : Placement} (h : Separate o p place)
    (hk : j.Keeps p place) {ids : List ValueId} (ht : j.Takes p ids q)
    (hfresh : ∀ {u s}, q.lookup u = some s → p.lookup u = some s ∨ p.next ≤ s.serial)
    (id : ValueId) : Separate o (q.leave id) fun u => (q.lookup u).or (place u) := by
  have hnext : (q.leave id).next = q.next := (Pool.leave_leaves ht.fits.sound id).next
  -- what has just got a slot is kept where it was, or in a slot that no other value is kept in
  have hnew : ∀ {u s}, q.lookup u = some s → place u = some s ∨ p.next ≤ s.serial := fun hu =>
    (hfresh hu).imp (fun hl => hk.bound hl) fun hle => hle
  refine ⟨Nat.le_trans h.start (hnext ▸ ht.extension.next), fun {u s} hu => ?_,
    fun {u u' s} hu hu' => ?_, fun {u s} hu => ?_⟩
  · rw [hnext]
    rcases Option.or_eq_some_iff.1 hu with hu | ⟨-, hu⟩
    · exact ht.fits.sound.serial_lt hu
    · exact Nat.lt_of_lt_of_le (h.below hu) ht.extension.next
  · have hmixed : ∀ {u u' : ValueId}, q.lookup u = some s → place u' = some s → u = u' :=
      fun hu hu' => (hnew hu).elim (fun hu => h.inj hu hu') fun hle =>
        absurd (h.below hu') (Nat.not_lt.2 hle)
    rcases Option.or_eq_some_iff.1 hu with hu | ⟨-, hu⟩ <;>
      rcases Option.or_eq_some_iff.1 hu' with hu' | ⟨-, hu'⟩
    · exact ht.fits.sound.lookup_inj hu hu'
    · exact hmixed hu hu'
    · exact (hmixed hu' hu).symm
    · exact h.inj hu hu'
  · rcases Option.or_eq_some_iff.1 hu with hu | ⟨-, hu⟩
    · exact (hnew hu).elim (fun hu => h.new hu) fun hle => Or.inr (Nat.le_trans h.start hle)
    · exact h.new hu

/-- Without reuse no two values are ever kept in one slot. -/
theorem separate_places (hacc : j.trace.Accepted) (hp : j.Ready [] p)
    (hreuse : ∀ {pre ids}, j.trace.stream = pre ++ ids → (j.poolAfter p ids).reuse = false)
    {pre ids : List ValueId} (hs : j.trace.stream = pre ++ ids) :
    Separate p (j.poolAfter p ids) (j.places p ids) := by
  induction ids generalizing pre with
  | nil => exact separate_lookup hp.fits.sound
  | cons id ids ih =>
    have hs' : j.trace.stream = (pre ++ [id]) ++ ids := hs.trans (List.append_cons ..)
    obtain ⟨v, hv⟩ := hacc.stream pre id ids hs
    cases hleaf : v.isLeaf with
    | true =>
      rw [poolAfter_cons_of_isLeaf p ids hv.value hleaf, places_cons_of_isLeaf p ids hv.value hleaf]
      exact ih hs'
    | false =>
      have hready := ready_poolAfter hacc hp hs'
      rw [poolAfter_cons hacc hp hs hv.value hleaf, places_cons_of_not_isLeaf p ids hv.value hleaf]
      exact (ih hs').leave (keeps_places hacc hp hs') (hready.taken hacc hs hv.value)
        (fun hu => fresh_useAllIn (hreuse hs') hready.fits (hready.usable hacc hs hv.value) hu) id

end Job

/-! ### From one placement to another -/

namespace Placement

variable (place place' : Placement) (ids : List ValueId) (n : Nat)

/-- The slot in which the second placement keeps what the first one keeps in a slot. Slots with numbers
below `n` stay what they are, and so do those in which none of the values is kept. -/
def sharing (s : Slot) : Slot :=
  if s.serial < n then s else ((ids.find? fun u => place u = some s).bind place').getD s

variable {place place' ids n}

/-- A slot is taken to the one in which the other placement keeps the value. -/
theorem sharing_eq (hinj : ∀ {u u' s}, place u = some s → place u' = some s → u = u')
    {u : ValueId} (hu : u ∈ ids) {s s' : Slot} (hs : place u = some s) (hs' : place' u = some s')
    (hn : n ≤ s.serial) : place.sharing place' ids n s = s' := by
  rw [sharing, if_neg (Nat.not_lt.2 hn)]
  cases hfind : ids.find? fun u => place u = some s with
  | none =>
    have := List.find?_eq_none.1 hfind u hu
    simp [hs] at this
  | some w =>
    have hw : place w = some s := by simpa using List.find?_some hfind
    obtain rfl := hinj hw hs
    rw [Option.bind_some, hs', Option.getD_some]

/-- The placements differ in names only. -/
theorem rename_sharing (hinj : ∀ {u u' s}, place u = some s → place u' = some s → u = u')
    (hsame : ∀ u, (place' u).isSome = (place u).isSome) (hids : ∀ {u s}, place u = some s → u ∈ ids)
    (hkept : ∀ {u s}, place u = some s → s.serial < n → place' u = some s) :
    place.rename (place.sharing place' ids n) = place' := by
  funext u
  rw [rename]
  cases hs : place u with
  | none =>
    have := hsame u
    rw [hs] at this
    exact (Option.isSome_eq_false_iff.1 this |> Option.isNone_iff_eq_none.1).symm
  | some s =>
    obtain ⟨s', hs'⟩ := Option.isSome_iff_exists.1 ((hsame u).trans (by rw [hs]; rfl))
    rw [Option.map_some]
    by_cases hn : s.serial < n
    · rw [sharing, if_pos hn, hkept hs hn]
    · rw [sharing_eq hinj (hids hs) hs hs' (Nat.not_lt.1 hn), hs']

theorem kind_sharing (hkind : ∀ {u s s'}, place u = some s → place' u = some s' → s'.kind = s.kind)
    (s : Slot) : (place.sharing place' ids n s).kind = s.kind := by
  rw [sharing]
  split
  · rfl
  · cases hfind : ids.find? fun u => place u = some s with
    | none => rfl
    | some u =>
      have hs : place u = some s := by simpa using List.find?_some hfind
      rw [Option.bind_some]
      cases hs' : place' u with
      | none => rfl
      | some s' => exact hkind hs hs'

end Placement

/-! ### Two routines -/

/-- The routine is another one with its slots renamed, no more of which have been made. Slots keep their
kinds, and no two parameters become one. -/
structure Routine.Shares (on off : Routine) (f : Slot → Slot) : Prop where
  kind : ∀ s, (f s).kind = s.kind
  renamed : on = { off.rename f with slotCount := on.slotCount }
  parameters : Set.InjOn f { s | s ∈ off.parameters }
  slotCount : on.slotCount ≤ off.slotCount

/-- The faults are of one sort. -/
inductive Fault.Alike : Fault → Fault → Prop where
  | invalidTrace (why why' : Trace.Malformed) : Alike (.invalidTrace why) (.invalidTrace why')
  | unsupported (what what' : Unsupported) : Alike (.unsupported what) (.unsupported what')
  | breach (why why' : Breach) : Alike (.breach why) (.breach why')

/-- What two lowerings come to that differ in nothing but the names of slots: routines one of which is
the other with slots renamed, or faults of one sort. -/
inductive SameButSlots : Except Fault Routine → Except Fault Routine → Prop where
  | routine {off on : Routine} (f : Slot → Slot) (h : on.Shares off f) :
    SameButSlots (.ok off) (.ok on)
  | fault {e e' : Fault} (h : e.Alike e') : SameButSlots (.error e) (.error e')

namespace Job

variable {j : Job} {p : Pool}

theorem Fits.withReuse (h : j.Fits p) (b : Bool) : j.Fits (p.withReuse b) :=
  ⟨⟨h.sound.keys, h.sound.slots, h.sound.free, h.sound.apart, h.sound.minted, h.sound.released⟩,
    h.bound⟩

theorem Ready.withReuse {rest : List ValueId} (h : j.Ready rest p) (b : Bool) :
    j.Ready rest (p.withReuse b) :=
  ⟨h.fits.withReuse b, h.released, h.pending⟩

/-- Where values are kept depends on the setting by way of the pool only. -/
theorem places_ofTrace (t : Trace) (settings : Settings) (b : Bool) (p : Pool)
    (ids : List ValueId) :
    (ofTrace t { settings with reuse := b }).places p ids = (ofTrace t settings).places p ids := by
  induction ids with
  | nil => rfl
  | cons id ids ih =>
    funext u
    rw [places, places, ih]
    rfl

end Job

namespace Course

open Job

/-- The values of a trace. -/
def values (t : Trace) : List ValueId := (List.range t.values.size).map ValueId.mk

theorem mem_values {t : Trace} {u : ValueId} {v : Trace.Value} (h : t.get? u = some v) :
    u ∈ values t := by
  obtain ⟨hlt, -⟩ := Array.getElem?_eq_some_iff.1 h
  exact List.mem_map.2 ⟨u.index, List.mem_range.2 hlt, rfl⟩

section Sharing

variable {t : Trace} {settings : Settings} (c : Course t settings)
  (c' : Course t { settings with reuse := true })

/-- The slots of a routine without reuse as those of the one with reuse. -/
def sharing : Slot → Slot := c.placement.sharing c'.placement (values t) c.written.next

variable {c c'}

theorem sharing_of_lt {s : Slot} (h : s.serial < c.written.next) : c.sharing c' s = s := if_pos h

variable (hreuse : c.written.reuse = false) (hacc : t.Accepted)
  (hafter : c'.afterMoves = c.afterMoves.withReuse true)

include hafter

theorem written_eq : c'.written = c.written.withReuse true := congrArg Front.pool hafter

theorem stepCode_eq : Move.stepCode c'.steps = Move.stepCode c.steps := congrArg Front.code hafter

theorem placement_eq : c'.placement =
    (ofTrace t settings).places (c.written.withReuse true) t.stream := by
  rw [placement, written_eq hafter]
  exact places_ofTrace t settings true _ _

omit hafter

theorem sharing_tagSlot :
    c.sharing c' (ofTrace t settings).tagSlot = (ofTrace t settings).tagSlot :=
  sharing_of_lt (c.writes.reserved (c.enters.extension.reserved reserved_tagSlot)).minted

/-- The parameters are made before the body, so that they are the same slots in both routines. -/
theorem sharing_parameter {s : Slot} (hs : s ∈ c.parameters.flatten) : c.sharing c' s = s := by
  refine sharing_of_lt ?_
  rcases c.enters.parameters hs with hres | ⟨id, -, hl⟩
  · exact (c.writes.reserved hres).minted
  · exact c.writes.fits.sound.serial_lt (c.lookup_written_of_entered hl)

include hacc in
theorem kind_sharing (s : Slot) : (c.sharing c' s).kind = s.kind := by
  refine Placement.kind_sharing (fun {u s s'} hs hs' => ?_) s
  obtain ⟨v, hv, -, hk⟩ := (keeps_placement (c := c) hacc).fits hs
  obtain ⟨v', hv', -, hk'⟩ := (keeps_placement (c := c') hacc).fits hs'
  obtain rfl : v = v' := Option.some.inj (hv.symm.trans hv')
  rw [hk, hk']

include hreuse in
/-- When the walks over the body begin, both pools bind the same. -/
theorem shadows_written : (c.written.withReuse true).Shadows c.written :=
  ⟨hreuse, fun _ => rfl, rfl, Nat.le_refl _⟩

include hreuse hacc hafter

/-- With reuse no more slots have been made in the end. -/
theorem next_final_le : c'.final.pool.next ≤ c.final.pool.next := by
  rw [pool_final, pool_final, written_eq hafter]
  have hall : t.stream = [] ++ t.stream := rfl
  exact (shadows_poolAfter (j := ofTrace t settings) hacc (c.ready_afterMoves hacc)
    ((c.ready_afterMoves hacc).withReuse true) (shadows_written hreuse) hall).next

/-- Both routines keep the same values somewhere, and the slots of the one are those of the other with
other names. -/
theorem rename_placement : c.placement.rename (c.sharing c') = c'.placement := by
  have hready := c.ready_afterMoves hacc
  have hshadows := shadows_written hreuse
  have hall : t.stream = [] ++ t.stream := rfl
  have hseparate := separate_places (j := ofTrace t settings) hacc hready (fun hs =>
    (shadows_poolAfter (j := ofTrace t settings) hacc hready (hready.withReuse true) hshadows
      hs).unshared) hall
  refine Placement.rename_sharing hseparate.inj (fun u => ?_) (fun {u s} hs => ?_) fun {u s} hs hn => ?_
  · rw [placement_eq hafter]
    exact isSome_places (j := ofTrace t settings) hacc hready (hready.withReuse true) hshadows hall u
  · obtain ⟨v, hv, -⟩ := (keeps_placement (c := c) hacc).fits hs
    exact mem_values hv
  · -- a slot with such a number was bound before the body, and is bound to the same value in both
    have hl : c.written.lookup u = some s := (hseparate.new hs).resolve_right (Nat.not_le.2 hn)
    refine placement_of_lookup_written (c := c') hacc ?_
    rw [written_eq hafter]
    exact hl

theorem layout_eq (h : t.Lowerable) : c'.layout = c.layout.rename (c.sharing c') := by
  have hrename := rename_placement hreuse hacc hafter
  have htag : c.sharing c' (ofTrace t settings).tagSlot = (ofTrace t settings).tagSlot :=
    sharing_tagSlot
  have hprologue : c'.layout.prologue =
      c.layout.prologue.map (Instruction.rename (c.sharing c')) := by
    rw [layout_prologue_eq hacc h, layout_prologue_eq hacc h, ← hrename]
    exact codeAt_rename (j := ofTrace t settings) c.placement t.prologue
  have hloop : c'.layout.loop =
      c.layout.loop.map (List.map (Instruction.rename (c.sharing c'))) := by
    have hsteps : (Move.stepCode c.steps).map (Instruction.rename (c.sharing c')) =
        Move.stepCode c'.steps := by
      rw [stepCode_eq hafter]
      exact c.writes.ordered.rename_stepCode c.below_backMoves fun s hs => sharing_of_lt hs
    rw [layout_loop_eq hacc h, layout_loop_eq hacc h, ← hrename, ← hsteps]
    exact rowAt_rename (j := ofTrace t settings) c.placement htag t.body [Move.stepCode c.steps]
  have hbailout : c'.layout.bailout = c.layout.bailout.map (Instruction.rename (c.sharing c')) :=
    (settings.abi.bailoutCode_rename htag).symm
  rw [Layout.rename, Layout.mapCode, ← hprologue, ← hloop, ← hbailout]

theorem shares_routine (h : t.Lowerable) (hparams : c'.parameters = c.parameters) :
    c'.routine.Shares c.routine (c.sharing c') where
  kind := kind_sharing hacc
  renamed := by
    have hmap : c.parameters.flatten.map (c.sharing c') = c.parameters.flatten :=
      (List.map_congr_left fun s hs => sharing_parameter hs).trans (List.map_id _)
    rw [routine, layout_eq hreuse hacc hafter h, hparams, ← hmap]
    exact c.layout.routine_rename (c.sharing c') t.anchor c.parameters.flatten c.final.pool.next
      c'.final.pool.next
  parameters s hs s' hs' he := by
    rwa [sharing_parameter hs, sharing_parameter hs'] at he
  slotCount := next_final_le hreuse hacc hafter

end Sharing

end Course

namespace Trace

/-- **Handing slots out again changes nothing but their names**: with it a lowering comes to what it comes
to without it, a fault of the same sort or the same routine with slots renamed. -/
theorem lower_reuse_sameButSlots (t : Trace) (settings : Settings) :
    SameButSlots (t.lower { settings with reuse := false })
      (t.lower { settings with reuse := true }) := by
  cases hcheck : t.check with
  | error why =>
    rw [lower_of_check_error hcheck, lower_of_check_error hcheck]
    exact .fault (.invalidTrace why why)
  | ok u =>
    have hacc := check_eq_ok_iff.1 hcheck
    by_cases hvalues : t.Valueless
    · obtain ⟨why, hoff⟩ := @lower_breaks t { settings with reuse := false } hcheck hvalues
      obtain ⟨why', hon⟩ := @lower_breaks t { settings with reuse := true } hcheck hvalues
      rw [hoff, hon]
      exact .fault (.breach why why')
    obtain ⟨hnot, -, hbroken⟩ := @lower_cases t { settings with reuse := false } hcheck hvalues
    obtain ⟨hnot', -, hbroken'⟩ := @lower_cases t { settings with reuse := true } hcheck hvalues
    by_cases h : t.Lowerable
    · by_cases hself : settings.verify = true → t.SelfContained
      · obtain ⟨c, hparams, hback⟩ := @Course.exists_course t
          { settings with reuse := false } hacc hvalues
        obtain ⟨c', hparams', hback'⟩ := @Course.exists_course t
          { settings with reuse := true } hacc hvalues
        have hoff := lower_eq_of_gives hcheck ((Course.lower_spec hacc h hparams hback).1 fun hs =>
          (c.verify_routine hcheck h).2 (hself hs))
        have hon := lower_eq_of_gives hcheck ((Course.lower_spec hacc h hparams' hback').1 fun hs =>
          (c'.verify_routine hcheck h).2 (hself hs))
        obtain ⟨hp, hafter⟩ := Course.twin (b := true) hparams hback hparams' hback'
        rw [hoff, hon]
        exact .routine _ (Course.shares_routine (Course.reuse_written hparams hback) hacc hafter h hp)
      · obtain ⟨hverify, hno⟩ := Classical.not_imp.1 hself
        obtain ⟨why, hoff⟩ := hbroken h hverify hno
        obtain ⟨why', hon⟩ := hbroken' h hverify hno
        rw [hoff, hon]
        exact .fault (.breach why why')
    · obtain ⟨what, hoff⟩ := hnot h
      obtain ⟨what', hon⟩ := hnot' h
      rw [hoff, hon]
      exact .fault (.unsupported what what')

/-- A loop that negates a local three times over. -/
def negated : Trace where
  anchor := ⟨"Sample", "negated", [.int], .void, .managed⟩
  position := 0
  values := #[.atEntry 0 .int ⟨true, true⟩, .operation .intNeg [⟨0⟩], .operation .intNeg [⟨1⟩],
    .operation .intNeg [⟨2⟩]]
  prologue := []
  body := [⟨1⟩, ⟨2⟩, ⟨3⟩]
  entry := [⟨0⟩]
  tail := [⟨3⟩]

-- the first value gets the slot of the last one
example : ((negated.lower { reuse := false }).toOption.map Routine.slotCount,
    (negated.lower {}).toOption.map Routine.slotCount) = (some 5, some 4) := by
  decide +kernel

end Trace

end LoopTrace
