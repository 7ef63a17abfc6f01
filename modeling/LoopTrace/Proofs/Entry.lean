import LoopTrace.Proofs.Moves
import LoopTrace.Proofs.Uses

/-!
# Before the body is passed

The first two things that the walk does: it makes the parameters, and it writes the moves that carry
values into the next iteration. Nothing has been released by then, so every slot that is handed out
is a new one. A local on entry that is read gets a slot of its own; any other parameter is a slot
that no value will ever be bound to.
-/

namespace LoopTrace

namespace Trace

/-- The value is a local that is read on the trace. -/
def Reads (t : Trace) (id : ValueId) : Prop :=
  ∃ n kind flags, t.get? id = some (.atEntry n kind flags) ∧ flags.read = true

/-- The values of a write, the new one first. -/
def Write.ends (write : Write) : List ValueId := [write.source, write.destination]

/-- All values of writes, in the order in which they are used. -/
def writeUses (t : Trace) : List ValueId := t.writes.flatMap Write.ends

/-- How many parameters there are for a local on entry. -/
def width (t : Trace) (id : ValueId) : Nat :=
  match t.get? id with
  | some v => v.kind.width
  | none => 0

theorem width_of_atEntry {t : Trace} {id : ValueId} {n : Nat} {kind : Kind} {flags : LocalFlags}
    (hv : t.get? id = some (.atEntry n kind flags)) : t.width id = kind.width := by
  rw [width, hv]
  rfl

/-- Where the parameters for a local begin: behind those for the locals before it. -/
def parameterAt (t : Trace) (id : ValueId) : Nat :=
  ((t.entry.takeWhile (· ≠ id)).map t.width).sum

/-- The value produces nothing. -/
def Voids (t : Trace) (id : ValueId) : Prop :=
  ∃ v, t.get? id = some v ∧ v.kind = .void ∧ v ≠ .untracked

/-- Something that is to have a slot produces nothing: a local on entry that is read, or what a local
takes at the tail. -/
def Valueless (t : Trace) : Prop :=
  (∃ id ∈ t.entry, t.Reads id ∧ t.Voids id) ∨ ∃ write ∈ t.writes, t.Voids write.source

theorem not_valueless_iff {t : Trace} : ¬ t.Valueless ↔
    (∀ id ∈ t.entry, t.Reads id → ¬ t.Voids id) ∧ ∀ write ∈ t.writes, ¬ t.Voids write.source := by
  simp only [Valueless, not_or, not_exists, not_and]

/-- The locals that are written, each with its new value: those that are read and get another
value. -/
theorem map_writes (t : Trace) :
    t.writes.map (fun write => (write.destination, write.source)) =
      (t.entry.zip t.tail).filter fun p => p.1 ≠ p.2 && (t.flags? p.1).any LocalFlags.read := by
  rw [writes, List.map_map]
  have h : ∀ l : List ((ValueId × ValueId) × Nat),
      (l.filter fun p => p.1.1 ≠ p.1.2 && (t.flags? p.1.1).any LocalFlags.read).map Prod.fst =
        (l.map Prod.fst).filter fun p => p.1 ≠ p.2 && (t.flags? p.1).any LocalFlags.read :=
    fun l => by
      rw [List.filter_map]
      rfl
  rw [← List.zipIdx_map_fst 0 (t.entry.zip t.tail), ← h, List.zipIdx_map_fst]
  rfl

theorem reads_iff {t : Trace} {id : ValueId} :
    (t.flags? id).any LocalFlags.read = true ↔ t.Reads id := by
  rw [flags?, Reads]
  cases hv : t.get? id with
  | none => simp
  | some v => cases v <;> simp [Value.flags?]

theorem mem_writes {t : Trace} {e s : ValueId} :
    (∃ write ∈ t.writes, write.destination = e ∧ write.source = s) ↔
      (e, s) ∈ t.entry.zip t.tail ∧ e ≠ s ∧ t.Reads e := by
  have h : (∃ write ∈ t.writes, write.destination = e ∧ write.source = s) ↔
      (e, s) ∈ t.writes.map fun write => (write.destination, write.source) := by
    simp [List.mem_map]
  rw [h, map_writes, List.mem_filter, Bool.and_eq_true, decide_eq_true_eq, reads_iff]

end Trace

namespace Job

variable {j : Job}

/-- The faults of a trace that makes the lowering break its own rules. -/
def Broken (e : Fault) : Prop := ∃ why, e = .breach why

/-! ### Parameters -/

/-- What making the parameters for one local does to a pool. -/
structure Receives (j : Job) (p : Pool) (id : ValueId) (ps : List Slot) (q : Pool) : Prop where
  fits : j.Fits q
  free : q.free = []
  extension : p.Extends q
  /-- A local that is read gets a slot, and nothing else does. -/
  read : j.trace.Reads id → ∃ s, ps.head? = some s ∧ q.lookup id = some s
  others : ∀ {u}, ¬ (u = id ∧ j.trace.Reads id) → q.lookup u = p.lookup u
  /-- All other parameters are new slots of kind void that are never bound. -/
  unread : ¬ j.trace.Reads id → ∀ s ∈ ps, q.Reserved s ∧ p.next ≤ s.serial ∧ s.kind = .void
  tail : ∀ s ∈ ps.tail, q.Reserved s ∧ p.next ≤ s.serial ∧ s.kind = .void
  /-- For a local that had no slot the parameters are new. -/
  fresh : p.lookup id = none → ps.Nodup ∧ ∀ s ∈ ps, p.next ≤ s.serial
  length : ps.length = j.trace.width id
  /-- Every slot that is made is one of the parameters. -/
  made : ∀ {n}, p.next ≤ n → n < q.next → ∃ s ∈ ps, s.serial = n

/-- A slot that is asked for without a value. -/
theorem filler_gives {f : Front} (hf : j.Fits f.pool) (hfree : f.pool.free = []) :
    ∃ s q, (Walk.allocate .void .exclusive).Gives f s (f.withPool q) ∧ j.Fits q ∧ q.free = [] ∧
      f.pool.Extends q ∧
      (∀ u, q.lookup u = f.pool.lookup u) ∧ q.Reserved s ∧ s.serial = f.pool.next ∧
      s.kind = .void ∧ ∀ {n}, f.pool.next ≤ n → n < q.next → s.serial = n := by
  have he := Pool.allocate_of_free_nil hfree .void .exclusive
  obtain ⟨hs, hr, -, -, hb, hrel, hn, -, -⟩ := hf.sound.allocate he
  have hl : ∀ u, ({ f.pool with next := f.pool.next + 1 } : Pool).lookup u = f.pool.lookup u :=
    fun _ => rfl
  refine ⟨_, _, Walk.Step.allocate_gives _ _ he, ⟨hs, fun {v s} hv => hf.bound (by rwa [hl] at hv)⟩,
    hfree, ?_, hl, hr, rfl, rfl, Pool.made_allocate he⟩
  exact ⟨fun hv => hv, hrel, hn, fun hs => (hs.allocate he).1⟩

/-- The first parameter for a local: its slot if it is read, and one that is never bound
otherwise. -/
theorem firstParameter_gives {f : Front} (hf : j.Fits f.pool) (hfree : f.pool.free = [])
    (hrel : f.pool.released = []) {id : ValueId} {n : Nat} {kind : Kind} {flags : LocalFlags}
    (hv : j.trace.get? id = some (.atEntry n kind flags))
    (hkind : flags.read = true → kind ≠ .void) :
    ∃ s q, (if flags.read then j.slotOf id kind else Walk.allocate .void .exclusive).Gives f s
      (f.withPool q) ∧
      j.Fits q ∧ q.free = [] ∧ f.pool.Extends q ∧ (j.trace.Reads id → q.lookup id = some s) ∧
      (∀ u, ¬ (u = id ∧ j.trace.Reads id) → q.lookup u = f.pool.lookup u) ∧
      (¬ j.trace.Reads id → q.Reserved s ∧ f.pool.next ≤ s.serial ∧ s.kind = .void) ∧
      (f.pool.lookup id = none → f.pool.next ≤ s.serial) ∧ s.serial < q.next ∧
      ∀ {n}, f.pool.next ≤ n → n < q.next → s.serial = n := by
  by_cases hread : flags.read = true
  · have hreads : j.trace.Reads id := ⟨n, kind, flags, hv, hread⟩
    have hno : id ∉ f.pool.released := by rw [hrel]; exact List.not_mem_nil
    have hneeds : (Trace.Value.atEntry n kind flags).needsSlot = true :=
      decide_eq_true (hkind hread)
    obtain ⟨s, hg, -, hl⟩ := slotOf_gives hf hv hneeds hno
    have ht := useIn_takes hf hv hno
    refine ⟨s, j.useIn f.pool id, by rw [if_pos hread]; exact hg, ht.fits,
      List.subset_nil.1 (hfree ▸ ht.free), ht.extension, fun _ => hl, fun u hu => ht.others ?_,
      fun hno => absurd hreads hno, fun hn => ?_, ht.fits.sound.serial_lt hl, fun hle hlt => ?_⟩
    · rw [List.mem_singleton]
      exact fun he => hu ⟨he, hreads⟩
    · rcases ht.fresh (Or.inr hfree) hl with h | h
      · rw [hn] at h; cases h
      · exact h
    · obtain ⟨u, hu, s', hs', hn⟩ := ht.made hle hlt
      obtain rfl := List.mem_singleton.1 hu
      rw [Option.some.inj (hl.symm.trans hs'), hn]
  · have hreads : ¬ j.trace.Reads id := by
      rintro ⟨n', kind', flags', hv', hr⟩
      rw [hv] at hv'
      cases hv'
      exact hread hr
    obtain ⟨s, q, hg, hq, hqf, he, hl, hr, hs, hkind, hmade⟩ := filler_gives hf hfree
    have hle : f.pool.next ≤ s.serial := Nat.le_of_eq hs.symm
    exact ⟨s, q, by rw [if_neg hread]; exact hg, hq, hqf, he, fun h => absurd h hreads,
      fun u _ => hl u, fun _ => ⟨hr, hle, hkind⟩, fun _ => hle, hr.minted, hmade⟩

/-- The parameters for a local. -/
theorem parameter_gives {f : Front} (hf : j.Fits f.pool) (hfree : f.pool.free = [])
    (hrel : f.pool.released = []) {id : ValueId} {n : Nat} {kind : Kind} {flags : LocalFlags}
    (hv : j.trace.get? id = some (.atEntry n kind flags))
    (hkind : flags.read = true → kind ≠ .void) :
    ∃ ps q, (j.parameter id).Gives f ps (f.withPool q) ∧ j.Receives f.pool id ps q := by
  obtain ⟨s, q, hg, hq, hqf, he, hread, hothers, hunread, hnew, hlt, hmade⟩ :=
    firstParameter_gives hf hfree hrel hv hkind
  have hwidth : j.trace.width id = if kind.isWide then 2 else 1 := Trace.width_of_atEntry hv
  by_cases hwide : kind.isWide = true
  · obtain ⟨s', q', hg', hq', hqf', he', hl', hr', hs', hkind', hmade'⟩ :=
      filler_gives (f := f.withPool q) hq hqf
    have hne : s ≠ s' := by
      rintro rfl
      exact absurd hlt (by rw [hs']; exact Nat.lt_irrefl _)
    have hle : f.pool.next ≤ s'.serial := hs' ▸ he.next
    refine ⟨[s, s'], q', (fetch_gives hv f).bind (.ite (hg.bind ?_)),
      ⟨hq', hqf', he.trans he', fun h => ?_, fun {u} hu => ?_,
      fun hno x hx => ?_, fun x hx => ?_, fun h => ?_, ?_, fun {n} hle' hlt' => ?_⟩⟩
    · beta_reduce
      rw [if_pos hwide]
      exact hg'.bind (.pure _ _)
    · exact ⟨s, rfl, he'.kept (hread h)⟩
    · rw [hl', Front.pool_withPool, hothers u hu]
    · simp only [List.mem_cons, List.not_mem_nil, or_false] at hx
      rcases hx with rfl | rfl
      · exact ⟨he'.reserved (hunread hno).1, (hunread hno).2⟩
      · exact ⟨hr', hle, hkind'⟩
    · obtain rfl := List.mem_singleton.1 hx
      exact ⟨hr', hle, hkind'⟩
    · refine ⟨by simpa using hne, fun x hx => ?_⟩
      simp only [List.mem_cons, List.not_mem_nil, or_false] at hx
      rcases hx with rfl | rfl
      · exact hnew h
      · exact hle
    · rw [hwidth, if_pos hwide]
      rfl
    · by_cases hn : n < q.next
      · exact ⟨s, by simp, hmade hle' hn⟩
      · exact ⟨s', by simp, hmade' (Nat.not_lt.1 hn) hlt'⟩
  · refine ⟨[s], q, (fetch_gives hv f).bind (.ite (hg.bind ?_)),
      ⟨hq, hqf, he, fun h => ⟨s, rfl, hread h⟩, fun {u} hu => hothers u hu, fun hno x hx => ?_,
      fun x hx => absurd hx List.not_mem_nil, fun h => ?_, ?_,
      fun hle hlt => ⟨s, List.mem_cons_self, hmade hle hlt⟩⟩⟩
    · beta_reduce
      rw [if_neg hwide]
      exact .pure _ _
    · obtain rfl := List.mem_singleton.1 hx
      exact hunread hno
    · refine ⟨List.nodup_singleton s, fun x hx => ?_⟩
      obtain rfl := List.mem_singleton.1 hx
      exact hnew h
    · rw [hwidth, if_neg hwide]
      rfl

/-- A local that is read and carries nothing is a breach. -/
theorem parameter_fails {f : Front} {id : ValueId} (hread : j.trace.Reads id)
    (hvoid : j.trace.Voids id) : (j.parameter id).Fails f Broken := by
  obtain ⟨n, kind, flags, hv, hr⟩ := hread
  obtain ⟨v, hv', hk, -⟩ := hvoid
  obtain rfl : Trace.Value.atEntry n kind flags = v := Option.some.inj (hv.symm.trans hv')
  have hk : kind = .void := hk
  refine (fetch_gives hv f).fails ?_
  have hfails :
      (if flags.read then j.slotOf id kind else Walk.allocate .void .exclusive).Fails f Broken := by
    rw [if_pos hr, slotOf, if_pos hk]
    exact .throw ⟨_, rfl⟩
  exact .ite hfails.bind

/-- What making the parameters for locals one after another does to a pool. -/
inductive Enters (j : Job) : Pool → List ValueId → List (List Slot) → Pool → Prop where
  | nil (p : Pool) : j.Enters p [] [] p
  | cons {p q o : Pool} {id : ValueId} {ids : List ValueId} {ps : List Slot}
      {pss : List (List Slot)} (first : j.Receives p id ps q)
      (rest : j.Enters q ids pss o) : j.Enters p (id :: ids) (ps :: pss) o

/-- The parameters for locals each of which carries something if it is read. -/
theorem parameters_gives {ids : List ValueId}
    (hids : ∀ id ∈ ids, ∃ n kind flags, j.trace.get? id = some (.atEntry n kind flags) ∧
      (flags.read = true → kind ≠ .void)) {f : Front} (hf : j.Fits f.pool)
      (hfree : f.pool.free = [])
    (hrel : f.pool.released = []) :
    ∃ pss q, (ids.mapM j.parameter).Gives f pss (f.withPool q) ∧ j.Enters f.pool ids pss q := by
  induction ids generalizing f with
  | nil => exact ⟨[], f.pool, by rw [List.mapM_nil]; exact .pure f [], .nil _⟩
  | cons id ids ih =>
    obtain ⟨n, kind, flags, hv, hkind⟩ := hids id List.mem_cons_self
    obtain ⟨ps, q, hg, hr⟩ := parameter_gives hf hfree hrel hv hkind
    obtain ⟨pss, o, hg', hr'⟩ := ih (f := f.withPool q)
      (fun id' h => hids id' (List.mem_cons_of_mem _ h)) hr.fits
      hr.free (hr.extension.released.trans hrel)
    refine ⟨ps :: pss, o, ?_, .cons hr hr'⟩
    rw [List.mapM_cons]
    exact hg.bind (hg'.bind (.pure _ _))

/-- If some local is read and carries nothing, the parameters are a breach. -/
theorem parameters_fails {ids : List ValueId}
    (hids : ∀ id ∈ ids, ∃ n kind flags, j.trace.get? id = some (.atEntry n kind flags))
    (hbad : ∃ id ∈ ids, j.trace.Reads id ∧ j.trace.Voids id) {f : Front} (hf : j.Fits f.pool)
    (hfree : f.pool.free = []) (hrel : f.pool.released = []) :
    (ids.mapM j.parameter).Fails f Broken := by
  induction ids generalizing f with
  | nil =>
    obtain ⟨id, hid, -⟩ := hbad
    exact absurd hid List.not_mem_nil
  | cons id ids ih =>
    rw [List.mapM_cons]
    by_cases hid : j.trace.Reads id ∧ j.trace.Voids id
    · exact (parameter_fails hid.1 hid.2).bind
    · obtain ⟨n, kind, flags, hv⟩ := hids id List.mem_cons_self
      have hkind : flags.read = true → kind ≠ .void := fun hr hk =>
        hid ⟨⟨n, kind, flags, hv, hr⟩, _, hv, hk, by simp⟩
      obtain ⟨ps, q, hg, hr⟩ := parameter_gives hf hfree hrel hv hkind
      refine hg.fails (Walk.Step.Fails.bind
        (ih (fun id' h => hids id' (List.mem_cons_of_mem _ h)) ?_ hr.fits hr.free
        (hr.extension.released.trans hrel)))
      obtain ⟨u, hu, hb⟩ := hbad
      rcases List.mem_cons.1 hu with rfl | hu
      · exact absurd hb hid
      · exact ⟨u, hu, hb⟩

section Enters

variable {p q : Pool} {ids : List ValueId} {pss : List (List Slot)}

theorem Enters.fits (h : j.Enters p ids pss q) (hp : j.Fits p) : j.Fits q := by
  induction h with
  | nil p => exact hp
  | cons first rest ih => exact ih first.fits

/-- Every slot that is made is one of the parameters. -/
theorem Enters.made (h : j.Enters p ids pss q) {n : Nat} (hle : p.next ≤ n) (hlt : n < q.next) :
    ∃ s ∈ pss.flatten, s.serial = n := by
  induction h with
  | nil p => exact absurd hlt (Nat.not_lt.2 hle)
  | @cons p q o id ids ps pss first rest ih =>
    rw [List.flatten_cons]
    by_cases hn : n < q.next
    · obtain ⟨s, hs, he⟩ := first.made hle hn
      exact ⟨s, List.mem_append_left _ hs, he⟩
    · obtain ⟨s, hs, he⟩ := ih (Nat.not_lt.1 hn) hlt
      exact ⟨s, List.mem_append_right _ hs, he⟩

theorem Enters.free (h : j.Enters p ids pss q) (hp : p.free = []) : q.free = [] := by
  induction h with
  | nil p => exact hp
  | cons first rest ih => exact ih first.free

theorem Enters.extension (h : j.Enters p ids pss q) : p.Extends q := by
  induction h with
  | nil p => exact .refl p
  | cons first rest ih => exact first.extension.trans ih

/-- The locals that are read have slots, each of which is the first parameter for its local. -/
theorem Enters.read (h : j.Enters p ids pss q) {id : ValueId} (hid : id ∈ ids)
    (hr : j.trace.Reads id) : ∃ s, q.lookup id = some s ∧
      pss.flatten[((ids.takeWhile (· ≠ id)).map j.trace.width).sum]? = some s := by
  induction h with
  | nil p => exact absurd hid List.not_mem_nil
  | @cons p q o u ids ps pss first rest ih =>
    by_cases he : id = u
    · subst he
      obtain ⟨s, hs, hl⟩ := first.read hr
      refine ⟨s, rest.extension.kept hl, ?_⟩
      obtain ⟨others, rfl⟩ := List.head?_eq_some_iff.1 hs
      rw [List.takeWhile_cons_of_neg (by simp)]
      rfl
    · obtain ⟨s, hl, hs⟩ := ih ((List.mem_cons.1 hid).resolve_left he)
      refine ⟨s, hl, ?_⟩
      rw [List.takeWhile_cons_of_pos (by simpa using Ne.symm he), List.map_cons, List.sum_cons,
        ← first.length, List.flatten_cons, List.getElem?_append_right (Nat.le_add_right ..),
        Nat.add_sub_cancel_left]
      exact hs

/-- Nothing else gets a slot. -/
theorem Enters.others (h : j.Enters p ids pss q) {u : ValueId}
    (hu : ¬ (u ∈ ids ∧ j.trace.Reads u)) : q.lookup u = p.lookup u := by
  induction h with
  | nil p => rfl
  | @cons p q o id ids ps pss first rest ih =>
    rw [ih fun h => hu ⟨List.mem_cons_of_mem _ h.1, h.2⟩]
    refine first.others ?_
    rintro ⟨rfl, hr⟩
    exact hu ⟨List.mem_cons_self, hr⟩

/-- The parameters for a local are its slot, if it is read, and slots that are never bound. -/
theorem Receives.parameters {id : ValueId} {ps : List Slot} (h : j.Receives p id ps q) {s : Slot}
    (hs : s ∈ ps) : q.Reserved s ∨ q.lookup id = some s := by
  by_cases hr : j.trace.Reads id
  · obtain ⟨s', hhead, hl⟩ := h.read hr
    cases ps with
    | nil => exact absurd hs List.not_mem_nil
    | cons first others =>
      obtain rfl := Option.some.inj hhead
      rcases List.mem_cons.1 hs with rfl | hs
      · exact Or.inr hl
      · exact Or.inl (h.tail s hs).1
  · exact Or.inl (h.unread hr s hs).1

/-- A parameter is the slot of a local on entry, or it is never bound. -/
theorem Enters.parameters (h : j.Enters p ids pss q) {s : Slot} (hs : s ∈ pss.flatten) :
    q.Reserved s ∨ ∃ id ∈ ids, q.lookup id = some s := by
  induction h with
  | nil p => exact absurd hs List.not_mem_nil
  | @cons p q o id ids ps pss first rest ih =>
    rw [List.flatten_cons, List.mem_append] at hs
    rcases hs with hs | hs
    · refine (first.parameters hs).imp rest.extension.reserved fun hl => ?_
      exact ⟨id, List.mem_cons_self, rest.extension.kept hl⟩
    · exact (ih hs).imp (fun h => h) fun ⟨u, hu, hl⟩ => ⟨u, List.mem_cons_of_mem _ hu, hl⟩

/-- For distinct locals without slots the parameters are distinct and new. -/
theorem Enters.nodup (h : j.Enters p ids pss q) (hids : ids.Nodup)
    (hnew : ∀ id ∈ ids, p.lookup id = none) :
    pss.flatten.Nodup ∧ ∀ s ∈ pss.flatten, p.next ≤ s.serial := by
  induction h with
  | nil p => exact ⟨List.nodup_nil, fun s hs => absurd hs List.not_mem_nil⟩
  | @cons p q o id ids ps pss first rest ih =>
    obtain ⟨hid, hids⟩ := List.nodup_cons.1 hids
    obtain ⟨hnd, hle⟩ := first.fresh (hnew id List.mem_cons_self)
    have hlt : ∀ s ∈ ps, s.serial < q.next := fun s hs =>
      (first.parameters hs).elim (fun h => h.minted) fun h => first.fits.sound.serial_lt h
    obtain ⟨hnd', hle'⟩ := ih hids fun u hu => by
      rw [first.others fun h => hid (h.1 ▸ hu)]
      exact hnew u (List.mem_cons_of_mem _ hu)
    rw [List.flatten_cons]
    refine ⟨List.nodup_append.2 ⟨hnd, hnd', fun s hs s' hs' he => ?_⟩, fun s hs => ?_⟩
    · exact absurd (hle' s' hs') (Nat.not_le.2 (he ▸ hlt s hs))
    · rcases List.mem_append.1 hs with hs | hs
      · exact hle s hs
      · exact Nat.le_trans first.extension.next (hle' s hs)

end Enters

/-! ### Writing back -/

variable (j) in
/-- The move for a write whose values have been used. -/
def moveIn (q : Pool) (write : Trace.Write) : Option Move :=
  match j.operand q write.destination with
  | .slot d =>
    if j.operand q write.source = .undefined then none else some ⟨d, j.operand q write.source⟩
  | _ => none

variable (j) in
/-- The write can be carried out: its source can be used, and its destination has a slot. -/
structure Writable (write : Trace.Write) : Prop where
  source : j.trace.Carries write.source
  destination : ∃ v, j.trace.get? write.destination = some v ∧ v.needsSlot = true

theorem Writable.carries {write : Trace.Write} (h : j.Writable write) :
    ∀ u ∈ write.ends, j.trace.Carries u := by
  intro u hu
  simp only [Trace.Write.ends, List.mem_cons, List.not_mem_nil, or_false] at hu
  rcases hu with rfl | rfl
  · exact h.source
  · obtain ⟨v, hv, hn⟩ := h.destination
    exact ⟨v, hv, fun hk => absurd hk (Trace.Value.kind_ne_void_of_needsSlot hn)⟩

theorem Writable.takes {write : Trace.Write} (h : j.Writable write) {p : Pool} (hp : j.Fits p)
    (hrel : p.released = []) : j.Takes p write.ends (j.useAllIn p write.ends) :=
  useAllIn_takes hp fun u hu => ⟨(h.carries u hu).value, by rw [hrel]; exact List.not_mem_nil⟩

theorem writeMove_gives {f : Front} (hf : j.Fits f.pool) (hrel : f.pool.released = [])
    {write : Trace.Write} (h : j.Writable write) :
    (j.writeMove write).Gives f (j.moveIn (j.useAllIn f.pool write.ends) write)
      (f.withPool (j.useAllIn f.pool write.ends)) := by
  obtain ⟨v, hv, hvoid⟩ := h.source
  obtain ⟨v', hv', hn⟩ := h.destination
  have hno : ∀ u, u ∉ f.pool.released := by rw [hrel]; exact fun _ => List.not_mem_nil
  have hfirst := useIn_takes hf hv (hno _)
  have hno' : write.destination ∉ (j.useIn f.pool write.source).released := by
    rw [hfirst.extension.released]
    exact hno _
  have hsecond := useIn_takes hfirst.fits hv' hno'
  obtain ⟨d, hd⟩ := hsecond.served List.mem_cons_self hv' hn
  have hsource := hfirst.operand_eq hsecond List.mem_cons_self h.source
  have hdest := operand_of_lookup hsecond.fits hd
  have hq : j.useAllIn f.pool write.ends =
      j.useIn (j.useIn f.pool write.source) write.destination := rfl
  refine (use_gives hf hv hvoid (hno _)).bind ?_
  refine (use_gives (f := f.withPool (j.useIn f.pool write.source)) hfirst.fits hv'
    (fun hk => absurd hk (Trace.Value.kind_ne_void_of_needsSlot hn)) hno').bind ?_
  rw [Front.pool_withPool, hdest, hq, moveIn, hdest, hsource]
  dsimp only
  by_cases hu : j.operand (j.useIn f.pool write.source) write.source = .undefined
  · rw [if_pos hu, if_pos hu]
    exact (Walk.Step.note_gives _ _).bind (.pure _ _)
  · rw [if_neg hu, if_neg hu]
    exact .pure _ _

/-- Using further values does not change the move for a write. -/
theorem moveIn_eq {p q o : Pool} {ids ids' : List ValueId} (h : j.Takes p ids q)
    (h' : j.Takes q ids' o) {write : Trace.Write} (hids : ∀ u ∈ write.ends, u ∈ ids)
    (hw : j.Writable write) : j.moveIn o write = j.moveIn q write := by
  have hends : write.source ∈ write.ends ∧ write.destination ∈ write.ends := by
    simp [Trace.Write.ends]
  rw [moveIn, moveIn, h.operand_eq h' (hids _ hends.1) (hw.carries _ hends.1),
    h.operand_eq h' (hids _ hends.2) (hw.carries _ hends.2)]

/-- The moves for writes that can be carried out. -/
theorem writeMoves_gives {writes : List Trace.Write}
    (hall : ∀ write ∈ writes, j.Writable write) {f : Front} (hf : j.Fits f.pool)
    (hrel : f.pool.released = []) :
    (writes.mapM j.writeMove).Gives f
    (writes.map (j.moveIn (j.useAllIn f.pool (writes.flatMap Trace.Write.ends))))
      (f.withPool (j.useAllIn f.pool (writes.flatMap Trace.Write.ends))) := by
  induction writes generalizing f with
  | nil => rw [List.mapM_nil]; exact .pure f []
  | cons write writes ih =>
    have hw := hall write List.mem_cons_self
    have hfirst := hw.takes hf hrel
    have hrel' := hfirst.extension.released.trans hrel
    have hrest : j.Takes (j.useAllIn f.pool write.ends) (writes.flatMap Trace.Write.ends)
        (j.useAllIn (j.useAllIn f.pool write.ends) (writes.flatMap Trace.Write.ends)) := by
      refine useAllIn_takes hfirst.fits fun u hu => ⟨?_, by rw [hrel']; exact List.not_mem_nil⟩
      obtain ⟨write', hw', hu⟩ := List.mem_flatMap.1 hu
      exact ((hall write' (List.mem_cons_of_mem _ hw')).carries u hu).value
    rw [List.mapM_cons, List.flatMap_cons, useAllIn_append, List.map_cons, moveIn_eq hfirst hrest
      (fun _ h => h) hw]
    refine (writeMove_gives hf hrel hw).bind ?_
    exact (ih (f := f.withPool (j.useAllIn f.pool write.ends))
      (fun w h => hall w (List.mem_cons_of_mem _ h)) hfirst.fits hrel').bind (.pure _ _)

/-- If the new value of some local produces nothing, the moves are a breach. -/
theorem writeMoves_fails {writes : List Trace.Write}
    (hdest : ∀ write ∈ writes, ∃ v, j.trace.get? write.destination = some v ∧ v.needsSlot = true)
    (hsource : ∀ write ∈ writes, ∃ v, j.trace.get? write.source = some v)
    (hbad : ∃ write ∈ writes, j.trace.Voids write.source) {f : Front} (hf : j.Fits f.pool)
    (hrel : f.pool.released = []) : (writes.mapM j.writeMove).Fails f Broken := by
  induction writes generalizing f with
  | nil =>
    obtain ⟨write, hw, -⟩ := hbad
    exact absurd hw List.not_mem_nil
  | cons write writes ih =>
    rw [List.mapM_cons]
    by_cases hw : j.trace.Voids write.source
    · obtain ⟨v, hv, hk, hne⟩ := hw
      exact (((use_fails hv hk hne).mono fun e he => ⟨_, he⟩).bind).bind
    · have hwritable : j.Writable write := by
        obtain ⟨v, hv⟩ := hsource write List.mem_cons_self
        refine ⟨⟨v, hv, fun hk => ?_⟩, hdest write List.mem_cons_self⟩
        by_contra hne
        exact hw ⟨v, hv, hk, hne⟩
      have hfirst := hwritable.takes hf hrel
      refine (writeMove_gives hf hrel hwritable).fails (Walk.Step.Fails.bind (ih
        (fun w h => hdest w (List.mem_cons_of_mem _ h))
        (fun w h => hsource w (List.mem_cons_of_mem _ h)) ?_
        hfirst.fits (hfirst.extension.released.trans hrel)))
      obtain ⟨w, hmem, hb⟩ := hbad
      rcases List.mem_cons.1 hmem with rfl | hmem
      · exact absurd hb hw
      · exact ⟨w, hmem, hb⟩

/-- Reserved slots are given back. -/
theorem recycleAll_gives {slots : List Slot} {f : Front} (hf : j.Fits f.pool) (hnd : slots.Nodup)
    (hres : ∀ s ∈ slots, f.pool.Reserved s) :
    (slots.forM Walk.recycle).Gives f ()
    (f.withPool { f.pool with free := slots.reverse ++ f.pool.free }) ∧
      j.Fits { f.pool with free := slots.reverse ++ f.pool.free } := by
  induction slots generalizing f with
  | nil => exact ⟨.pure f (), hf⟩
  | cons s slots ih =>
    obtain ⟨hs, hnd⟩ := List.nodup_cons.1 hnd
    obtain ⟨he, hsound⟩ := Pool.recycle_spec hf.sound (hres s List.mem_cons_self)
    have hfits : j.Fits { f.pool with free := s :: f.pool.free } := ⟨hsound, hf.bound⟩
    obtain ⟨hg, hq⟩ := ih (f := f.withPool { f.pool with free := s :: f.pool.free }) hfits hnd
      fun x hx => by
      have h := hres x (List.mem_cons_of_mem _ hx)
      refine ⟨h.bound, fun hf => ?_, h.minted⟩
      rcases List.mem_cons.1 hf with rfl | hf
      · exact hs hx
      · exact h.free hf
    rw [List.reverse_cons, List.append_assoc, List.singleton_append]
    exact ⟨(Walk.Step.recycle_gives s he).bind hg, hq⟩

/-- The moves that take values into the next iteration, once everything that they use has its
slot. -/
def backMoves (j : Job) (q : Pool) : List Move :=
  (j.trace.writes.filterMap (j.moveIn q)).filter fun m => ¬ m.IsRedundant

/-- The pool once everything that the moves use has its slot. -/
def written (j : Job) (p : Pool) : Pool := j.useAllIn p j.trace.writeUses

theorem written_takes {p : Pool} (hp : j.Fits p) (hrel : p.released = [])
    (hall : ∀ write ∈ j.trace.writes, j.Writable write) :
    j.Takes p j.trace.writeUses (j.written p) := by
  refine useAllIn_takes hp fun u hu => ⟨?_, by rw [hrel]; exact List.not_mem_nil⟩
  obtain ⟨write, hw, hu⟩ := List.mem_flatMap.1 hu
  exact ((hall write hw).carries u hu).value

theorem moveIn_eq_some {q : Pool} {write : Trace.Write} {m : Move} (h : j.moveIn q write = some m) :
    q.lookup write.destination = some m.destination ∧ m.source = j.operand q write.source ∧
      m.source ≠ .undefined := by
  rw [moveIn] at h
  split at h
  · next d hd =>
    split at h
    · cases h
    · next hu =>
      cases h
      exact ⟨mem_bound_of_operand (by rw [hd]; rfl), rfl, hu⟩
  · cases h

theorem mem_filterMap_moveIn {q : Pool} {m : Move} (h : m ∈ j.trace.writes.filterMap (j.moveIn q)) :
    ∃ write ∈ j.trace.writes, q.lookup write.destination = some m.destination ∧
      m.source = j.operand q write.source ∧ m.source ≠ .undefined := by
  obtain ⟨write, hw, he⟩ := List.mem_filterMap.1 h
  exact ⟨write, hw, moveIn_eq_some he⟩

/-- No two moves have one destination. -/
theorem nodup_destination_backMoves {q : Pool} (hq : j.Fits q)
    (hkeys : ((j.trace.entry.zip j.trace.tail).map Prod.fst).Nodup) :
    ((j.backMoves q).map Move.destination).Nodup := by
  have hwrites : (j.trace.writes.map Trace.Write.destination).Nodup := by
    have he : j.trace.writes.map Trace.Write.destination =
        (j.trace.writes.map fun write => (write.destination, write.source)).map Prod.fst := by
      rw [List.map_map]
      rfl
    rw [he, Trace.map_writes]
    exact hkeys.sublist (List.filter_sublist.map _)
  rw [List.Nodup, List.pairwise_map] at hwrites ⊢
  refine List.Pairwise.filter _ (List.pairwise_filterMap.2
    (hwrites.imp fun hne m hm m' hm' he => hne ?_))
  exact hq.sound.lookup_inj (moveIn_eq_some hm).1 (he ▸ (moveIn_eq_some hm').1)

theorem below_moves {q : Pool} (hq : j.Fits q) :
    Move.Below q.next (j.trace.writes.filterMap (j.moveIn q)) := by
  intro m hm
  obtain ⟨write, -, hd, hs, -⟩ := mem_filterMap_moveIn hm
  refine ⟨hq.sound.serial_lt hd, fun s he => ?_⟩
  rw [hs] at he
  exact hq.sound.serial_lt (mem_bound_of_operand (by rw [he]; rfl))

/-- What the moves leave: their temporaries are free, and all bindings are there. -/
structure WritesBack (j : Job) (p : Pool) (steps : List Move.Step) (q : Pool) : Prop where
  fits : j.Fits q
  bindings : q.bindings = (j.written p).bindings
  released : q.released = []
  reserved : ∀ {s}, p.Reserved s → q.Reserved s
  ordered : Move.Ordered (j.written p).next (j.backMoves (j.written p)) steps q.next
  free : q.free = (Move.temporaries steps).reverse

theorem writeBack_gives {f : Front} (hf : j.Fits f.pool) (hfree : f.pool.free = [])
    (hrel : f.pool.released = []) (hall : ∀ write ∈ j.trace.writes, j.Writable write) :
    ∃ steps q, j.writeBack.Gives f () ⟨q, Move.stepCode steps ++ f.code, f.later⟩ ∧
      j.WritesBack f.pool steps q := by
  have ht := written_takes hf hrel hall
  have hqfree : (j.written f.pool).free = [] := List.subset_nil.1 (hfree ▸ ht.free)
  have hbelow := below_moves ht.fits
  obtain ⟨steps, o, hs, ho⟩ := Move.schedule_gives (f := f.withPool (j.written f.pool))
    hqfree hbelow
  obtain ⟨hnd, hserial⟩ := ho.temporaries
  have hq : j.Fits { j.written f.pool with next := o } :=
    ⟨⟨ht.fits.sound.keys, ht.fits.sound.slots, ht.fits.sound.free, ht.fits.sound.apart,
      fun s h => Nat.lt_of_lt_of_le (ht.fits.sound.minted s h) ho.le, ht.fits.sound.released⟩,
      ht.fits.bound⟩
  have hres : ∀ s ∈ Move.temporaries steps,
      ({ j.written f.pool with next := o } : Pool).Reserved s := by
    intro s hs
    obtain ⟨hle, hlt⟩ := hserial s hs
    have hnew : ¬ s.serial < (j.written f.pool).next := Nat.not_lt.2 hle
    exact ⟨fun hb => hnew (ht.fits.sound.minted s (Or.inl hb)), fun hf =>
      hnew (ht.fits.sound.minted s (Or.inr hf)), hlt⟩
  obtain ⟨hg, hfits⟩ := recycleAll_gives
    (f := ⟨{ j.written f.pool with next := o }, Move.stepCode steps ++ f.code, f.later⟩) hq hnd hres
  refine ⟨steps, _, ?_, hfits, rfl, ht.extension.released.trans hrel, fun {s} hs => ?_, ho, ?_⟩
  · refine (writeMoves_gives hall hf hrel).bind ?_
    have hid : (j.trace.writes.map (j.moveIn (j.written f.pool))).filterMap id =
        j.trace.writes.filterMap (j.moveIn (j.written f.pool)) := by rw [List.filterMap_map]; rfl
    have hid' : (j.trace.writes.map
        (j.moveIn (j.useAllIn f.pool (j.trace.writes.flatMap Trace.Write.ends)))).filterMap
        id = j.trace.writes.filterMap (j.moveIn (j.written f.pool)) := hid
    rw [hid']
    refine hs.bind ((Walk.Step.note_gives _ _).bind ((Walk.Step.prepend_gives _ _).bind hg))
  · have h := ht.extension.reserved hs
    refine ⟨h.bound, fun hf => ?_, Nat.lt_of_lt_of_le h.minted ho.le⟩
    have hf : s ∈ (Move.temporaries steps).reverse ++ (j.written f.pool).free := hf
    rw [hqfree, List.append_nil, List.mem_reverse] at hf
    exact absurd h.minted (Nat.not_lt.2 (hserial s hf).1)
  · show (Move.temporaries steps).reverse ++ (j.written f.pool).free = _
    rw [hqfree, List.append_nil]

end Job

end LoopTrace
