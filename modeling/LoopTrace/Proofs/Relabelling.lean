import LoopTrace.Proofs.Validity

/-!
# Traces that are kept in other places

The place of a value in the arena is its name and nothing else. A trace relabels another one if there is
a map of names, different for different values, that takes the values, the streams and the states of the
one to those of the other; there may be further values in its arena, anywhere. What is said of a trace in
terms of its values carries over: it is accepted, the same values are the same in every iteration, and the
same locals are written.
-/

namespace LoopTrace.Trace

/-- The value with other names for the values that it mentions. -/
def Value.relabel (s : ValueId → ValueId) : Value → Value
  | .operation op operands => .operation op (operands.map s)
  | .call method operands frame => .call method (operands.map s) (frame.map (Frame.map s))
  | .guard kind comparator left right frame =>
    .guard kind comparator (s left) (s right) (frame.map (Frame.map s))
  | .inlinedCall method operands => .inlinedCall method (operands.map s)
  | .constant c => .constant c
  | .atEntry number kind flags => .atEntry number kind flags
  | .untracked => .untracked

/-- The write with other names for its values. -/
def Write.relabel (s : ValueId → ValueId) (write : Write) : Write :=
  ⟨write.place, s write.source, s write.destination⟩

/-- The arena holds a value under the name. -/
def Holds (t : Trace) (id : ValueId) : Prop := ∃ v, t.get? id = some v

/-- The trace `t'` holds under new names what `t` holds. -/
structure Relabels (t : Trace) (s : ValueId → ValueId) (t' : Trace) : Prop where
  anchor : t'.anchor = t.anchor
  position : t'.position = t.position
  values : ∀ {id v}, t.get? id = some v → t'.get? (s id) = some (v.relabel s)
  /-- Different values have different new names. -/
  injective : ∀ {id id'}, t.Holds id → t.Holds id' → s id = s id' → id = id'
  prologue : t'.prologue = t.prologue.map s
  body : t'.body = t.body.map s
  entry : t'.entry = t.entry.map s
  tail : t'.tail = t.tail.map s

/-- Relabelling may be told from the values of the arena, which are finitely many. -/
theorem relabels_iff {t t' : Trace} {s : ValueId → ValueId} : t.Relabels s t' ↔
    t'.anchor = t.anchor ∧ t'.position = t.position ∧
      (∀ i : Fin t.values.size, t'.get? (s ⟨i⟩) = some (t.values[i].relabel s)) ∧
      (∀ i i' : Fin t.values.size, s ⟨i⟩ = s ⟨i'⟩ → i = i') ∧
      t'.prologue = t.prologue.map s ∧ t'.body = t.body.map s ∧ t'.entry = t.entry.map s ∧
      t'.tail = t.tail.map s := by
  have hget : ∀ i : Fin t.values.size, t.get? ⟨i⟩ = some t.values[i] := fun i =>
    Array.getElem?_eq_getElem i.isLt
  have hholds : ∀ {id v}, t.get? id = some v → ∃ i : Fin t.values.size, id = ⟨i⟩ ∧ v = t.values[i] := by
    intro id v hv
    obtain ⟨hlt, hv⟩ := Array.getElem?_eq_some_iff.1 hv
    exact ⟨⟨id.index, hlt⟩, rfl, hv.symm⟩
  constructor
  · intro h
    refine ⟨h.anchor, h.position, fun i => h.values (hget i), fun i i' he => ?_, h.prologue, h.body,
      h.entry, h.tail⟩
    exact Fin.ext (ValueId.mk.inj (h.injective ⟨_, hget i⟩ ⟨_, hget i'⟩ he))
  · rintro ⟨hanchor, hposition, hvalues, hinjective, hprologue, hbody, hentry, htail⟩
    refine ⟨hanchor, hposition, fun {id v} hv => ?_, fun {id id'} hid hid' he => ?_, hprologue, hbody,
      hentry, htail⟩
    · obtain ⟨i, rfl, rfl⟩ := hholds hv
      exact hvalues i
    · obtain ⟨v, hv⟩ := hid
      obtain ⟨v', hv'⟩ := hid'
      obtain ⟨i, rfl, -⟩ := hholds hv
      obtain ⟨i', rfl, -⟩ := hholds hv'
      rw [hinjective i i' he]

instance (t t' : Trace) (s : ValueId → ValueId) : Decidable (t.Relabels s t') :=
  decidable_of_iff' _ relabels_iff

/-! ### Values -/

namespace Value

variable (s : ValueId → ValueId) (v : Value)

@[simp] theorem kind_relabel : (v.relabel s).kind = v.kind := by cases v <;> rfl

@[simp] theorem isLeaf_relabel : (v.relabel s).isLeaf = v.isLeaf := by cases v <;> rfl

@[simp] theorem operands_relabel : (v.relabel s).operands = v.operands.map s := by cases v <;> rfl

@[simp] theorem operandKinds?_relabel : (v.relabel s).operandKinds? = v.operandKinds? := by
  cases v <;> rfl

@[simp] theorem flags?_relabel : (v.relabel s).flags? = v.flags? := by cases v <;> rfl

@[simp] theorem uses_relabel : (v.relabel s).uses = v.uses.map s := by
  cases v with
  | call method operands frame =>
    cases frame <;> simp [relabel, uses, Value.operands, frame?]
  | guard kind comparator left right frame =>
    cases frame <;> simp [relabel, uses, operands, frame?]
  | _ => simp [relabel, uses, operands, frame?]

@[simp] theorem relabel_eq_untracked_iff : v.relabel s = .untracked ↔ v = .untracked := by
  cases v <;> simp [relabel]

/-- How many operands there are does not depend on names. -/
theorem checkArity_relabel {id id' : ValueId} (h : checkArity id v = .ok ()) :
    checkArity id' (v.relabel s) = .ok () := by
  cases v with
  | operation op operands =>
    simp only [relabel, checkArity, List.length_map] at h ⊢
    split_ifs at h ⊢
    rfl
  | call method operands frame =>
    simp only [relabel, checkArity, List.length_map] at h ⊢
    split_ifs at h ⊢
    rfl
  | inlinedCall method operands =>
    simp only [relabel, checkArity, List.length_map] at h ⊢
    split_ifs at h ⊢
    rfl
  | guard kind comparator left right frame =>
    cases kind with
    | void => cases h
    | _ => rfl
  | _ => rfl

end Value

/-! ### Accepted traces -/

section Holds

variable {t : Trace}

theorem Usable.holds {seen : List ValueId} {u : ValueId} (h : t.Usable seen u) : t.Holds u := by
  obtain ⟨v, hv, -⟩ := h
  exact ⟨v, hv⟩

namespace Accepted

variable (hacc : t.Accepted)

include hacc

theorem holds_entry : ∀ id ∈ t.entry, t.Holds id := fun id hid => by
  obtain ⟨n, kind, flags, hv⟩ := hacc.entry id hid
  exact ⟨_, hv⟩

theorem holds_tail : ∀ id ∈ t.tail, t.Holds id := fun id hid => by
  obtain ⟨v, hv, -⟩ := hacc.tail id hid
  exact ⟨v, hv⟩

theorem holds_stream : ∀ id ∈ t.stream, t.Holds id := fun id hid => by
  obtain ⟨pre, post, he⟩ := List.append_of_mem hid
  obtain ⟨v, hp⟩ := hacc.stream pre id post he
  exact ⟨v, hp.value⟩

theorem holds_uses {id : ValueId} (hid : id ∈ t.stream) {v : Value} (hv : t.get? id = some v) :
    ∀ u ∈ v.uses, t.Holds u := fun u hu => by
  obtain ⟨pre, post, he⟩ := List.append_of_mem hid
  obtain ⟨v', hp⟩ := hacc.stream pre id post he
  obtain rfl := Option.some.inj (hv.symm.trans hp.value)
  exact (hp.uses u hu).holds

theorem holds_invariants : ∀ id ∈ t.invariants, t.Holds id := fun id hid => by
  rcases List.mem_append.1 hid with hid | hid
  · obtain ⟨⟨e, u⟩, hz, rfl⟩ := List.mem_map.1 hid
    exact hacc.holds_entry e (List.of_mem_zip (List.mem_filter.1 hz).1).1
  · exact hacc.holds_stream id (List.mem_append_left _ hid)

theorem holds_writes {write : Write} (hw : write ∈ t.writes) :
    t.Holds write.source ∧ t.Holds write.destination := by
  obtain ⟨⟨⟨e, u⟩, place⟩, hz, rfl⟩ := List.mem_map.1 hw
  have hz := List.of_mem_zip (List.fst_mem_of_mem_zipIdx (List.mem_filter.1 hz).1)
  exact ⟨hacc.holds_tail u hz.2, hacc.holds_entry e hz.1⟩

end Accepted

end Holds

namespace Relabels

variable {t t' : Trace} {s : ValueId → ValueId} (h : t.Relabels s t')

include h

theorem stream : t'.stream = t.stream.map s := by
  rw [Trace.stream, h.prologue, h.body, ← List.map_append]
  rfl

/-- Names go together with values of a list. -/
theorem mem_map_iff {ids : List ValueId} (hids : ∀ id ∈ ids, t.Holds id) {id : ValueId}
    (hid : t.Holds id) : s id ∈ ids.map s ↔ id ∈ ids := by
  rw [List.mem_map]
  refine ⟨fun ⟨u, hu, he⟩ => ?_, fun hmem => ⟨id, hmem, rfl⟩⟩
  exact h.injective (hids u hu) hid he ▸ hu

theorem usable {seen : List ValueId} {u : ValueId} (hu : t.Usable seen u) :
    t'.Usable (seen.map s) (s u) := by
  obtain ⟨v, hv, hvoid, hdef⟩ := hu
  refine ⟨_, h.values hv, ?_, ?_⟩
  · simpa using hvoid
  · rw [Value.isLeaf_relabel]
    exact hdef.imp_right List.mem_map_of_mem

theorem checkKinds {user user' : ValueId} {place : Nat} {ids : List ValueId} {kinds : List Kind}
    (hids : ∀ id ∈ ids, t.Holds id) (hk : t.checkKinds user place ids kinds = .ok ()) :
    t'.checkKinds user' place (ids.map s) kinds = .ok () := by
  induction ids generalizing place kinds with
  | nil => rfl
  | cons id ids ih =>
    cases kinds with
    | nil => rfl
    | cons kind kinds =>
      obtain ⟨v, hv⟩ := hids id List.mem_cons_self
      rw [List.map_cons]
      rw [Trace.checkKinds, fetch, hv] at hk
      rw [Trace.checkKinds, fetch, h.values hv]
      simp only [bind, Except.bind, Value.relabel_eq_untracked_iff, Value.kind_relabel] at hk ⊢
      split_ifs at hk ⊢
      exact ih (fun u hu => hids u (List.mem_cons_of_mem _ hu)) hk

/-- A trace is accepted under other names as well. -/
theorem accepted (hacc : t.Accepted) : t'.Accepted where
  lengths := by rw [h.entry, h.tail, List.length_map, List.length_map, hacc.lengths]
  entry id hid := by
    rw [h.entry] at hid
    obtain ⟨u, hu, rfl⟩ := List.mem_map.1 hid
    obtain ⟨n, kind, flags, hv⟩ := hacc.entry u hu
    exact ⟨n, kind, flags, h.values hv⟩
  stream pre id post he := by
    rw [h.stream, List.map_eq_append_iff] at he
    obtain ⟨pre, rest, hs, rfl, he⟩ := he
    obtain ⟨id, post, rfl, rfl, rfl⟩ := List.map_eq_cons_iff.1 he
    obtain ⟨v, hp⟩ := hacc.stream pre id post hs
    have hpre : ∀ u ∈ pre, t.Holds u := fun u hu => hacc.holds_stream u (by simp [hs, hu])
    have hops : ∀ u ∈ v.operands, t.Holds u := fun u hu =>
      (hp.uses u (List.mem_append_left _ hu)).holds
    refine ⟨v.relabel s, h.values hp.value, fun u hu => ?_, v.checkArity_relabel s hp.arity, ?_, ?_⟩
    · rw [Value.uses_relabel] at hu
      obtain ⟨w, hw, rfl⟩ := List.mem_map.1 hu
      exact h.usable (hp.uses w hw)
    · rw [Value.operands_relabel, Value.operandKinds?_relabel]
      exact h.checkKinds hops hp.kinds
    · rw [h.mem_map_iff hpre ⟨v, hp.value⟩]
      exact hp.fresh
  tail id hid := by
    rw [h.tail] at hid
    obtain ⟨u, hu, rfl⟩ := List.mem_map.1 hid
    obtain ⟨v, hv, hdef⟩ := hacc.tail u hu
    refine ⟨_, h.values hv, ?_⟩
    rw [Value.isLeaf_relabel, h.stream]
    exact hdef.imp_right List.mem_map_of_mem

/-! ### What a lowering reads of a trace as a whole -/

/-- A local and its tail value have the same name exactly if they are the same value. -/
theorem eq_iff_of_mem_zip (hacc : t.Accepted) {p : ValueId × ValueId} (hp : p ∈ t.entry.zip t.tail) :
    s p.1 = s p.2 ↔ p.1 = p.2 :=
  ⟨h.injective (hacc.holds_entry _ (List.of_mem_zip hp).1) (hacc.holds_tail _ (List.of_mem_zip hp).2),
    congrArg s⟩

theorem invariants (hacc : t.Accepted) : t'.invariants = t.invariants.map s := by
  have hfilter : (t.entry.zip t.tail).filter (fun p => s p.1 = s p.2) =
      (t.entry.zip t.tail).filter fun p => p.1 = p.2 :=
    List.filter_congr fun p hp => decide_eq_decide.2 (h.eq_iff_of_mem_zip hacc hp)
  rw [Trace.invariants, Trace.invariants, h.entry, h.tail, h.prologue, List.zip_map, List.filter_map,
    List.map_append, List.map_map, List.map_map]
  exact congrArg (· ++ _) (congrArg _ hfilter)

theorem mem_invariants_iff (hacc : t.Accepted) {id : ValueId} (hid : t.Holds id) :
    s id ∈ t'.invariants ↔ id ∈ t.invariants := by
  rw [h.invariants hacc]
  exact h.mem_map_iff hacc.holds_invariants hid

theorem flags?_eq {id : ValueId} (hid : t.Holds id) : t'.flags? (s id) = t.flags? id := by
  obtain ⟨v, hv⟩ := hid
  rw [flags?, flags?, hv, h.values hv]
  exact v.flags?_relabel s

theorem writes (hacc : t.Accepted) : t'.writes = t.writes.map (Write.relabel s) := by
  have hfilter : ∀ l : List ((ValueId × ValueId) × Nat), (∀ p ∈ l, p.1 ∈ t.entry.zip t.tail) →
      l.filter (fun p => s p.1.1 ≠ s p.1.2 && (t'.flags? (s p.1.1)).any LocalFlags.read) =
        l.filter fun p => p.1.1 ≠ p.1.2 && (t.flags? p.1.1).any LocalFlags.read := by
    intro l hl
    refine List.filter_congr fun p hp => ?_
    rw [h.flags?_eq (hacc.holds_entry _ (List.of_mem_zip (hl p hp)).1)]
    simp only [ne_eq, h.eq_iff_of_mem_zip hacc (hl p hp)]
  rw [Trace.writes, Trace.writes, h.entry, h.tail, List.zip_map, List.zipIdx_map, List.filter_map,
    List.map_map, List.map_map]
  refine (congrArg _ (hfilter _ fun p hp => List.fst_mem_of_mem_zipIdx hp)).trans ?_
  rfl

end Relabels

end LoopTrace.Trace
