import LoopTrace.Proofs.Pool
import LoopTrace.Proofs.Steps

/-!
# Uses of values

A use of a value that has to carry something gives it a slot, unless it has one already. What the
uses of an instruction do to the pool is `useAllIn`, and once they are done the operand for each of
them can be read off the pool (`operand`), whatever was used before it or after it.
-/

namespace LoopTrace

namespace Trace.Value

/-- Whether the value is kept in a slot: constants need none, and what produces nothing has none. -/
def needsSlot : Value → Bool
  | .constant _ => false
  | v => v.kind ≠ .void

theorem kind_ne_void_of_needsSlot {v : Value} (h : v.needsSlot = true) : v.kind ≠ .void := by
  cases v with
  | constant c => exact c.kind_ne_void
  | _ => exact of_decide_eq_true h

/-- A value that may be used and needs no slot is a constant or not tracked. -/
theorem eq_of_not_needsSlot {v : Value} (hvoid : v.kind = .void → v = .untracked)
    (h : v.needsSlot = false) : (∃ c, v = .constant c) ∨ v = .untracked := by
  cases v with
  | constant c => exact Or.inl ⟨c, rfl⟩
  | _ => exact Or.inr (hvoid (by simpa [needsSlot] using h))

/-- A leaf that is kept in a slot is a local. -/
theorem eq_atEntry_of_needsSlot {v : Value} (hleaf : v.isLeaf = true) (h : v.needsSlot = true) :
    ∃ n kind flags, v = .atEntry n kind flags := by
  cases v with
  | atEntry n kind flags => exact ⟨n, kind, flags, rfl⟩
  | constant c => cases h
  | untracked => cases h
  | _ => cases hleaf

theorem needsSlot_of_not_isLeaf {v : Value} (hleaf : v.isLeaf = false) (hkind : v.kind ≠ .void) :
    v.needsSlot = true := by
  cases v <;> simp_all [needsSlot, isLeaf]

end Trace.Value

namespace Trace

/-- The value can be used: it carries something, or it is one that is not tracked. -/
def Carries (t : Trace) (u : ValueId) : Prop := ∃ v, t.get? u = some v ∧
    (v.kind = .void → v = .untracked)

theorem Carries.value {t : Trace} {u : ValueId} (h : t.Carries u) : ∃ v, t.get? u = some v :=
  h.imp fun _ h => h.1

end Trace

/-- Where values are kept. -/
abbrev Placement := ValueId → Option Slot

namespace Job

variable (j : Job)

/-- What holds of the pool of a lowering at all times: it is sound, and the values that it binds
need a slot and have one of their kind. -/
structure Fits (p : Pool) : Prop where
  sound : p.Sound
  bound : ∀ {v s}, p.lookup v = some s → ∃ val, j.trace.get? v = some val ∧ val.needsSlot = true ∧
    s.kind = val.kind

/-- The pool once a value that is used has its slot. -/
def useIn (p : Pool) (id : ValueId) : Pool :=
  match j.trace.get? id with
  | some v => if v.needsSlot then (p.allocateFor id v.kind (j.mode id)).2 else p
  | none => p

/-- The pool once all values that are used have their slots. -/
def useAllIn (p : Pool) (ids : List ValueId) : Pool := ids.foldl j.useIn p

/-- The operand for a value. -/
def operandAt (place : Placement) (id : ValueId) : Operand :=
  match j.trace.get? id with
  | some (.constant c) => .immediate c
  | _ =>
    match place id with
    | some s => .slot s
    | none => .undefined

/-- The operand for a value that has been used. -/
def operand (p : Pool) (id : ValueId) : Operand :=
  match j.trace.get? id with
  | some (.constant c) => .immediate c
  | _ =>
    match p.lookup id with
    | some s => .slot s
    | none => .undefined

/-- What using values does to a pool `p`. -/
structure Takes (p : Pool) (ids : List ValueId) (q : Pool) : Prop where
  fits : j.Fits q
  extension : p.Extends q
  others : ∀ {u}, u ∉ ids → q.lookup u = p.lookup u
  served : ∀ {u v}, u ∈ ids → j.trace.get? u = some v → v.needsSlot = true →
    ∃ s, q.lookup u = some s
  /-- A slot is a new one if the value keeps it around the loop, or if there is none to hand out
  again. -/
  fresh : ∀ {u s}, u ∈ j.invariants ∨ p.free = [] → q.lookup u = some s → p.lookup u = some s ∨
    p.next ≤ s.serial
  free : q.free ⊆ p.free
  /-- Every slot that is made is that of one of the values. -/
  made : ∀ {n}, p.next ≤ n → n < q.next → ∃ u ∈ ids, ∃ s, q.lookup u = some s ∧ s.serial = n

variable {j}

theorem Takes.nil {p : Pool} (h : j.Fits p) : j.Takes p [] p :=
  ⟨h, .refl p, fun _ => rfl, fun hu => absurd hu List.not_mem_nil, fun _ hu => Or.inl hu,
    List.Subset.refl _, fun hle hlt => absurd hlt (Nat.not_lt.2 hle)⟩

theorem Takes.append {p q o : Pool} {ids ids' : List ValueId} (h : j.Takes p ids q)
    (h' : j.Takes q ids' o) : j.Takes p (ids ++ ids') o where
  fits := h'.fits
  extension := h.extension.trans h'.extension
  others {u} hu := by
    rw [List.mem_append, not_or] at hu
    rw [h'.others hu.2, h.others hu.1]
  served {u v} hu hv hn := by
    rcases List.mem_append.1 hu with hu | hu
    · obtain ⟨s, hs⟩ := h.served hu hv hn
      exact ⟨s, h'.extension.kept hs⟩
    · exact h'.served hu hv hn
  fresh {u s} hu hs := by
    have hu' : u ∈ j.invariants ∨ q.free = [] :=
      hu.imp (fun h => h) fun hp : p.free = [] => List.subset_nil.1 (hp ▸ h.free)
    rcases h'.fresh hu' hs with hs | hs
    · exact h.fresh hu hs
    · exact Or.inr (Nat.le_trans h.extension.next hs)
  free := List.Subset.trans h'.free h.free
  made {n} hle hlt := by
    by_cases hq : n < q.next
    · obtain ⟨u, hu, s, hs, hn⟩ := h.made hle hq
      exact ⟨u, List.mem_append_left _ hu, s, h'.extension.kept hs, hn⟩
    · obtain ⟨u, hu, hs⟩ := h'.made (Nat.not_lt.1 hq) hlt
      exact ⟨u, List.mem_append_right _ hu, hs⟩

/-- Using a value that has not been released. -/
theorem useIn_takes {p : Pool} (h : j.Fits p) {id : ValueId} {v : Trace.Value}
    (hv : j.trace.get? id = some v) (hrel : id ∉ p.released) : j.Takes p [id] (j.useIn p id) := by
  rw [useIn, hv]
  by_cases hn : v.needsSlot = true
  · obtain ⟨s, q, he, hs⟩ := Pool.allocateFor_spec h.sound hrel v.kind (j.mode id)
    simp only [hn, if_true, he]
    have hother : ∀ {u}, u ∉ [id] → q.lookup u = p.lookup u :=
      fun hu => hs.others _ (by simpa using hu)
    refine ⟨⟨hs.sound, fun {u s'} hu => ?_⟩, hs.extension, hother, fun {u v'} hu _ _ =>
      ?_, fun {u s'} hu hs' => ?_, hs.free, fun hle hlt =>
      ⟨id, List.mem_cons_self, s, hs.lookup, hs.made hle hlt⟩⟩
    · by_cases hid : u = id
      · subst hid
        cases hp : p.lookup u with
        | some s'' => exact h.bound (by rw [hp, ← hs.extension.kept hp, hu])
        | none =>
          obtain rfl : s = s' := Option.some.inj (hs.lookup.symm.trans hu)
          exact ⟨v, hv, hn, hs.kind hp⟩
      · exact h.bound (by rw [← hs.others u hid, hu])
    · obtain rfl := List.mem_singleton.1 hu
      exact ⟨s, hs.lookup⟩
    · by_cases hid : u = id
      · subst hid
        cases hp : p.lookup u with
        | some s'' => exact Or.inl (by rw [← hs.extension.kept hp, hs'])
        | none =>
          obtain rfl : s = s' := Option.some.inj (hs.lookup.symm.trans hs')
          have hnew : j.mode u = .exclusive ∨ p.free = [] :=
            hu.imp (fun hu => by rw [mode, if_pos hu]) fun h => h
          exact Or.inr (Nat.le_of_eq (hs.fresh hp hnew).symm)
      · exact Or.inl (by rw [← hs.others u hid, hs'])
  · simp only [hn]
    refine ⟨h, .refl p, fun _ => rfl, fun {u v'} hu hv' hn' => ?_, fun _ hu => Or.inl hu,
      List.Subset.refl _, fun hle hlt => absurd hlt (Nat.not_lt.2 hle)⟩
    obtain rfl := List.mem_singleton.1 hu
    exact absurd hn' (by rwa [← Option.some.inj (hv.symm.trans hv')])

/-- Using values none of which has been released. -/
theorem useAllIn_takes {p : Pool} (h : j.Fits p) {ids : List ValueId}
    (hids : ∀ id ∈ ids, (∃ v, j.trace.get? id = some v) ∧ id ∉ p.released) :
    j.Takes p ids (j.useAllIn p ids) := by
  induction ids generalizing p with
  | nil => exact .nil h
  | cons id ids ih =>
    obtain ⟨⟨v, hv⟩, hrel⟩ := hids id List.mem_cons_self
    have hfirst := useIn_takes h hv hrel
    have hrest : j.Takes (j.useIn p id) ids (j.useAllIn (j.useIn p id) ids) := by
      refine ih hfirst.fits fun u hu => ?_
      rw [hfirst.extension.released]
      exact hids u (List.mem_cons_of_mem _ hu)
    exact hfirst.append hrest

theorem useAllIn_cons (p : Pool) (id : ValueId) (ids : List ValueId) :
    j.useAllIn p (id :: ids) = j.useAllIn (j.useIn p id) ids := rfl

theorem useAllIn_append (p : Pool) (ids ids' : List ValueId) :
    j.useAllIn p (ids ++ ids') = j.useAllIn (j.useAllIn p ids) ids' := List.foldl_append

/-! ### Operands -/

/-- The operand for a value that is kept in a slot. -/
theorem operandAt_of_needsSlot {place : Placement} {u : ValueId} {v : Trace.Value} {s : Slot}
    (hv : j.trace.get? u = some v) (hn : v.needsSlot = true) (hs : place u = some s) :
    j.operandAt place u = .slot s := by
  rw [operandAt, hv]
  cases v with
  | constant c => cases hn
  | _ => simp only [hs]

/-- There is an operand for every value that is tracked, if the value is kept where it has to be. -/
theorem operandAt_ne_undefined {place : Placement} {u : ValueId} {v : Trace.Value}
    (hv : j.trace.get? u = some v) (hvoid : v.kind = .void → v = .untracked)
    (htracked : v ≠ .untracked) (hplace : v.needsSlot = true → ∃ s, place u = some s) :
    j.operandAt place u ≠ .undefined := by
  by_cases hn : v.needsSlot = true
  · obtain ⟨s, hs⟩ := hplace hn
    rw [operandAt_of_needsSlot hv hn hs]
    exact Operand.noConfusion
  · rcases Trace.Value.eq_of_not_needsSlot hvoid (by simpa using hn) with ⟨c, rfl⟩ | rfl
    · rw [operandAt, hv]
      exact Operand.noConfusion
    · exact absurd rfl htracked

/-- What a pool binds is kept there. -/
theorem operand_eq_operandAt (p : Pool) (id : ValueId) :
    j.operand p id = j.operandAt p.lookup id := rfl

theorem operand_constant {p : Pool} {id : ValueId} {c : Constant}
    (h : j.trace.get? id = some (.constant c)) : j.operand p id = .immediate c := by
  rw [operand, h]

theorem operand_of_lookup {p : Pool} (hp : j.Fits p) {id : ValueId} {s : Slot}
    (h : p.lookup id = some s) : j.operand p id = .slot s := by
  obtain ⟨v, hv, hn, -⟩ := hp.bound h
  exact (operand_eq_operandAt p id).trans (operandAt_of_needsSlot hv hn h)

theorem operand_untracked {p : Pool} (hp : j.Fits p) {id : ValueId}
    (h : j.trace.get? id = some .untracked) : j.operand p id = .undefined := by
  have hl : p.lookup id = none := by
    cases hs : p.lookup id with
    | none => rfl
    | some s =>
      obtain ⟨v, hv, hn, -⟩ := hp.bound hs
      rw [h] at hv
      cases hv
      simp [Trace.Value.needsSlot, Trace.Value.kind] at hn
  rw [operand, h, hl]

/-- The operand for a value that has been used stays the same while the pool is extended. -/
theorem operand_eq_of_extends {p q : Pool} (hp : j.Fits p) (hq : j.Fits q) (h : p.Extends q)
    {id : ValueId} {v : Trace.Value} (hv : j.trace.get? id = some v)
    (hvoid : v.kind = .void → v = .untracked)
    (hbound : v.needsSlot = true → ∃ s, p.lookup id = some s) :
    j.operand q id = j.operand p id := by
  by_cases hn : v.needsSlot = true
  · obtain ⟨s, hs⟩ := hbound hn
    rw [operand_of_lookup hp hs, operand_of_lookup hq (h.kept hs)]
  · rcases Trace.Value.eq_of_not_needsSlot hvoid (by simpa using hn) with ⟨c, rfl⟩ | rfl
    · rw [operand_constant hv, operand_constant hv]
    · rw [operand_untracked hp hv, operand_untracked hq hv]

/-- The operand for a value that has been used stays the same while other values are used. -/
theorem Takes.operand_eq {p q o : Pool} {ids ids' : List ValueId} (h : j.Takes p ids q)
    (h' : j.Takes q ids' o) {u : ValueId} (hu : u ∈ ids)
    (hw : j.trace.Carries u) : j.operand o u = j.operand q u := by
  obtain ⟨w, hw, hvoid⟩ := hw
  exact operand_eq_of_extends h.fits h'.fits h'.extension hw hvoid fun hn => h.served hu hw hn

/-- An operand that is a slot is where the value is kept. -/
theorem place_of_slot? {place : Placement} {id : ValueId} {s : Slot}
    (h : (j.operandAt place id).slot? = some s) : place id = some s := by
  rw [operandAt] at h
  split at h
  · cases h
  · split at h
    · next hs => rw [hs, ← h]; rfl
    · cases h

/-- An operand that is a slot is one that a value is bound to. -/
theorem mem_bound_of_operand {p : Pool} {id : ValueId} {s : Slot}
    (h : (j.operand p id).slot? = some s) : p.lookup id = some s := place_of_slot? h

/-! ### The steps -/

theorem fetch_gives {id : ValueId} {v : Trace.Value} (h : j.trace.get? id = some v) (f : Front) :
    (j.fetch id).Gives f v f := by
  rw [fetch, h]
  exact .pure f v

/-- A value that has to carry something and has not been released gets its slot. -/
theorem slotOf_gives {f : Front} (hf : j.Fits f.pool) {id : ValueId} {v : Trace.Value}
    (hv : j.trace.get? id = some v) (hn : v.needsSlot = true) (hrel : id ∉ f.pool.released) :
    ∃ s, (j.slotOf id v.kind).Gives f s (f.withPool (j.useIn f.pool id)) ∧
      (Walk.allocateFor id v.kind (j.mode id)).Gives f s (f.withPool (j.useIn f.pool id)) ∧
      (j.useIn f.pool id).lookup id = some s := by
  obtain ⟨s, q, he, hs⟩ := Pool.allocateFor_spec hf.sound hrel v.kind (j.mode id)
  have hq : j.useIn f.pool id = q := by rw [useIn, hv]; simp only [hn, if_true, he]
  have hgives := Walk.Step.allocateFor_gives id v.kind (j.mode id) he
  rw [hq]
  refine ⟨s, ?_, hgives, hs.lookup⟩
  rw [slotOf, if_neg (Trace.Value.kind_ne_void_of_needsSlot hn)]
  exact hgives

/-- A use of a value that may be used and has not been released. -/
theorem use_gives {f : Front} (hf : j.Fits f.pool) {id : ValueId} {v : Trace.Value}
    (hv : j.trace.get? id = some v) (hvoid : v.kind = .void → v = .untracked)
    (hrel : id ∉ f.pool.released) :
    (j.use id).Gives f (j.operand (j.useIn f.pool id) id) (f.withPool (j.useIn f.pool id)) := by
  refine (fetch_gives hv f).bind ?_
  by_cases hn : v.needsSlot = true
  · obtain ⟨s, hs, -, hl⟩ := slotOf_gives hf hv hn hrel
    rw [operand_of_lookup (useIn_takes hf hv hrel).fits hl]
    cases v with
    | constant c => simp [Trace.Value.needsSlot] at hn
    | untracked => simp [Trace.Value.needsSlot, Trace.Value.kind] at hn
    | _ => exact hs.bind (.pure _ _)
  · have hq : j.useIn f.pool id = f.pool := by rw [useIn, hv]; simp [hn]
    rw [hq]
    rcases Trace.Value.eq_of_not_needsSlot hvoid (by simpa using hn) with ⟨c, rfl⟩ | rfl
    · rw [operand_constant hv]
      exact .pure _ _
    · rw [operand_untracked hf hv]
      exact .pure _ _

/-- A use of something that produces nothing is a breach. -/
theorem use_fails {f : Front} {id : ValueId} {v : Trace.Value} (hv : j.trace.get? id = some v)
    (hkind : v.kind = .void) (hne : v ≠ .untracked) :
    (j.use id).Fails f (· = .breach (.noValue id)) := by
  refine (fetch_gives hv f).fails ?_
  have hslot : (j.slotOf id v.kind).Fails f (· = .breach (.noValue id)) := by
    rw [slotOf, if_pos hkind]
    exact .throw rfl
  cases v with
  | constant c => exact absurd hkind c.kind_ne_void
  | untracked => exact absurd rfl hne
  | _ => exact hslot.bind

/-- Uses of values that may be used and have not been released. -/
theorem mapM_use_gives {f : Front} (hf : j.Fits f.pool) {ids : List ValueId}
    (hids : ∀ id ∈ ids, j.trace.Carries id ∧
      id ∉ f.pool.released) :
    (ids.mapM j.use).Gives f (ids.map (j.operand (j.useAllIn f.pool ids)))
      (f.withPool (j.useAllIn f.pool ids)) := by
  induction ids generalizing f with
  | nil => rw [List.mapM_nil]; exact .pure f []
  | cons id ids ih =>
    obtain ⟨⟨v, hv, hvoid⟩, hrel⟩ := hids id List.mem_cons_self
    have hfirst := useIn_takes hf hv hrel
    have hids' : ∀ u ∈ ids, j.trace.Carries u ∧
        u ∉ (j.useIn f.pool id).released := by
      rw [hfirst.extension.released]
      exact fun u hu => hids u (List.mem_cons_of_mem _ hu)
    have hrest := useAllIn_takes hfirst.fits fun u hu => ⟨(hids' u hu).1.value, (hids' u hu).2⟩
    have hop : j.operand (j.useAllIn (j.useIn f.pool id) ids) id =
        j.operand (j.useIn f.pool id) id :=
      hfirst.operand_eq hrest List.mem_cons_self ⟨v, hv, hvoid⟩
    rw [List.mapM_cons, useAllIn_cons, List.map_cons, hop]
    refine (use_gives hf hv hvoid hrel).bind ?_
    exact (ih (f := f.withPool (j.useIn f.pool id)) hfirst.fits hids').bind (.pure _ _)

end Job

end LoopTrace
