import LoopTrace.Proofs.Log
import LoopTrace.Proofs.Validity
import LoopTrace.Proofs.Tables

/-!
# What a recording becomes

The trace that is made of a recording is what the log tells: its instructions stand in the order in which
they were recorded, each of them once, its entry state lists all locals, and its tail state what they
hold. The flags of a local are worked out from the streams and the tail (`Logged.recorded`).

So of the rules that the check knows, those about how a trace is kept are never broken, whatever values
the caller has mentioned (`run_recorded`).
-/

namespace LoopTrace.Recorder

/-! ### The trace of a recording -/

/-- A local with other flags. -/
def flagged (flags : LocalFlags) : Trace.Value → Trace.Value
  | .atEntry number kind _ => .atEntry number kind flags
  | v => v

theorem uses_flagged (flags : LocalFlags) (v : Trace.Value) : (flagged flags v).uses = v.uses := by
  cases v <;> rfl

theorem Call.Adds.flagged {call : Call} {v : Trace.Value} (h : call.Adds v) (flags : LocalFlags) :
    call.Adds (flagged flags v) := by
  cases call with
  | declare kind =>
    obtain ⟨number, flags', rfl⟩ := h
    exact ⟨number, flags, rfl⟩
  | store | current | frame => exact h
  | _ =>
    obtain rfl := h
    rfl

theorem withFlags_eq (read : Std.HashSet ValueId) (values : Array Trace.Value) (id tail : ValueId) :
    withFlags read values (id, tail) =
      values.modify id.index (flagged ⟨read.contains id, tail ≠ id⟩) := by
  refine congrArg (values.modify id.index) (funext fun v => ?_)
  cases v <;> rfl

/-- Each local gets the flags that belong to its state. -/
theorem getElem?_foldl_withFlags (read : Std.HashSet ValueId) {states : List (ValueId × ValueId)}
    (hnd : (states.map Prod.fst).Nodup) (values : Array Trace.Value) (id : ValueId) :
    (states.foldl (withFlags read) values)[id.index]? = values[id.index]?.map fun v =>
      match states.lookup id with
      | some tail => flagged ⟨read.contains id, tail ≠ id⟩ v
      | none => v := by
  induction states generalizing values with
  | nil => simp
  | cons state states ih =>
    obtain ⟨entry, tail⟩ := state
    obtain ⟨hentry, hnd⟩ := List.nodup_cons.1 hnd
    rw [List.foldl_cons, ih hnd, withFlags_eq, Array.getElem?_modify, lookup_cons_eq]
    by_cases hid : id = entry
    · subst hid
      have hnone : states.lookup id = none := by
        refine Option.eq_none_iff_forall_not_mem.2 fun tail' h => hentry ?_
        exact List.mem_map.2 ⟨(id, tail'), mem_of_lookup h, rfl⟩
      rw [if_pos rfl, if_pos rfl, hnone, Option.map_map]
      rfl
    · have hne : ¬ entry.index = id.index := fun he => hid (congrArg ValueId.mk he.symm)
      rw [if_neg hne, if_neg hid]

theorem size_foldl_withFlags (read : Std.HashSet ValueId) (states : List (ValueId × ValueId))
    (values : Array Trace.Value) : (states.foldl (withFlags read) values).size = values.size := by
  induction states generalizing values with
  | nil => rfl
  | cons state states ih => rw [List.foldl_cons, ih, withFlags_eq, Array.size_modify]

theorem size_trace (r : Recorder) : r.trace.values.size = r.values.size := by
  rw [trace, ← Array.foldl_toList, size_foldl_withFlags]

/-- Whether a local is read can be looked up in the list of what is read as well. -/
theorem trace_eq (r : Recorder) : r.trace =
    { anchor := r.anchor
      position := r.position
      values := (r.entry.zip r.current).foldl (fun values (id, tail) => values.modify id.index
        (flagged ⟨(r.uses ++ r.carried).contains id, tail ≠ id⟩)) r.values
      prologue := r.prologue.toList
      body := r.body.toList
      entry := r.entry.toList
      tail := r.current.toList } := by
  have hstep : withFlags (Std.HashSet.ofList (r.uses ++ r.carried)) = fun values (id, tail) =>
      values.modify id.index (flagged ⟨(r.uses ++ r.carried).contains id, tail ≠ id⟩) := by
    funext values state
    rw [withFlags_eq, Std.HashSet.contains_ofList]
  rw [trace, hstep]

/-- What calls make of a trace. -/
structure Recorded (entries : List Entry) (t : Trace) : Prop where
  /-- The arena has a value for each call that adds one. -/
  added : entries.filterMap Entry.added? = (List.range t.values.size).map ValueId.mk
  values : ∀ e ∈ entries, ∀ id, e.added? = some id → ∃ v, t.get? id = some v ∧ e.call.Adds v
  /-- The streams are what was recorded inside of prologue blocks and outside of them. -/
  prologue : t.prologue = entries.filterMap (Entry.recorded? true)
  body : t.body = entries.filterMap (Entry.recorded? false)
  prologue_increasing : t.prologue.Pairwise fun id id' => id.index < id'.index
  body_increasing : t.body.Pairwise fun id id' => id.index < id'.index
  disjoint : t.prologue.Disjoint t.body
  /-- They list all that is no leaf. -/
  stream : ∀ id, id ∈ t.stream ↔ ∃ v, t.get? id = some v ∧ v.isLeaf = false
  /-- The entry state lists all locals. -/
  entry_increasing : t.entry.Pairwise fun id id' => id.index < id'.index
  entry : ∀ id, id ∈ t.entry ↔ ∃ number kind flags, t.get? id = some (.atEntry number kind flags)
  /-- A local holds what was stored in it last since it was declared. -/
  tail : t.tail = t.entry.map fun id => (lastStore id entries).getD id
  /-- A local is written if it holds another value at the end, and read if an instruction reads it or
  another local holds it at the end. -/
  flags : ∀ (place : Nat) (id tail : ValueId), t.entry[place]? = some id → t.tail[place]? = some tail →
    ∃ flags, t.flags? id = some flags ∧ (flags.written ↔ tail ≠ id) ∧
      (flags.read ↔ (∃ user ∈ t.stream, ∃ v, t.get? user = some v ∧ id ∈ v.uses) ∨
        ∃ place', place' ≠ place ∧ t.tail[place']? = some id)

namespace Logged

variable {entries : List Entry} {r : Recorder}

theorem length_current (h : Logged entries r) : r.current.toList.length = r.entry.toList.length := by
  rw [h.current, List.length_map]

/-- Each local has one state. -/
theorem nodup_states (h : Logged entries r) :
    ((r.entry.toList.zip r.current.toList).map Prod.fst).Nodup := by
  rw [List.map_fst_zip (Nat.le_of_eq h.length_current.symm)]
  exact h.nodup_entry

/-- The values that the trace has: the locals have their flags now. -/
theorem get?_trace (h : Logged entries r) (id : ValueId) :
    r.trace.get? id = r.values[id.index]?.map fun v =>
      match (r.entry.toList.zip r.current.toList).lookup id with
      | some tail => flagged ⟨decide (id ∈ r.uses ++ r.carried), tail ≠ id⟩ v
      | none => v := by
  rw [Trace.get?, trace, ← Array.foldl_toList, Array.toList_zip, getElem?_foldl_withFlags _ h.nodup_states]
  simp only [Std.HashSet.contains_ofList, List.contains_eq_mem]

theorem exists_trace (h : Logged entries r) {id : ValueId} {v : Trace.Value}
    (hv : r.values[id.index]? = some v) : ∃ v', r.trace.get? id = some v' ∧ v'.uses = v.uses ∧
      ∀ call : Call, call.Adds v → call.Adds v' := by
  rw [h.get?_trace, hv, Option.map_some]
  cases (r.entry.toList.zip r.current.toList).lookup id with
  | none => exact ⟨v, rfl, rfl, fun _ h => h⟩
  | some tail => exact ⟨_, rfl, uses_flagged .., fun _ h => h.flagged _⟩

/-- Each value of the trace comes from a call. -/
theorem exists_entry (h : Logged entries r) {id : ValueId} {v : Trace.Value}
    (hv : r.trace.get? id = some v) : ∃ e ∈ entries, e.added? = some id ∧ e.call.Adds v := by
  have hlt : id.index < r.values.size := by
    by_contra hge
    rw [h.get?_trace, Array.getElem?_eq_none (Nat.le_of_not_lt hge)] at hv
    cases hv
  obtain ⟨e, he, hadd⟩ := List.mem_filterMap.1 (h.mem_added.2 hlt)
  obtain ⟨w, hw, hadds⟩ := h.values e he id hadd
  obtain ⟨v', hv', -, hcalls⟩ := h.exists_trace hw
  obtain rfl := Option.some.inj (hv.symm.trans hv')
  exact ⟨e, he, hadd, hcalls _ hadds⟩

theorem get?_of_added (h : Logged entries r) {e : Entry} (he : e ∈ entries) {id : ValueId}
    (hadd : e.added? = some id) : ∃ v, r.trace.get? id = some v ∧ e.call.Adds v := by
  obtain ⟨w, hw, hadds⟩ := h.values e he id hadd
  obtain ⟨v, hv, -, hcalls⟩ := h.exists_trace hw
  exact ⟨v, hv, hcalls _ hadds⟩

/-- What is taken from the log in order is in order. -/
theorem increasing (h : Logged entries r) {f : Entry → Option ValueId}
    (hf : ∀ {e id}, f e = some id → e.added? = some id) :
    (entries.filterMap f).Pairwise fun id id' => id.index < id'.index := by
  have hadded : (entries.filterMap Entry.added?).Pairwise fun id id' => id.index < id'.index := by
    rw [h.added, List.pairwise_map]
    exact List.pairwise_lt_range
  exact hadded.sublist (sublist_added hf entries)

theorem mem_stream_trace (h : Logged entries r) {id : ValueId} : id ∈ r.trace.stream ↔
    ∃ e ∈ entries, e.call.isInstruction = true ∧ e.added? = some id := by
  have hstream : r.trace.stream = entries.filterMap (Entry.recorded? true) ++
      entries.filterMap (Entry.recorded? false) := by
    rw [← h.prologue, ← h.body]
    rfl
  rw [hstream, List.mem_append, List.mem_filterMap, List.mem_filterMap, ← exists_or]
  refine exists_congr fun e => ?_
  rw [← and_or_left, Entry.recorded?, Entry.recorded?]
  cases e.within <;> cases e.call.isInstruction <;> simp

theorem disjoint_trace (h : Logged entries r) : r.trace.prologue.Disjoint r.trace.body := by
  intro id hp hb
  have hp : id ∈ entries.filterMap (Entry.recorded? true) := h.prologue ▸ hp
  have hb : id ∈ entries.filterMap (Entry.recorded? false) := h.body ▸ hb
  obtain ⟨e, he, hrec⟩ := List.mem_filterMap.1 hp
  obtain ⟨e', he', hrec'⟩ := List.mem_filterMap.1 hb
  obtain rfl := eq_of_nodup_filterMap h.nodup_added he he' (Entry.added_of_recorded hrec)
    (Entry.added_of_recorded hrec')
  exact absurd ((Entry.within_of_recorded hrec).symm.trans (Entry.within_of_recorded hrec')) (by decide)

theorem mem_uses (h : Logged entries r) {id : ValueId} : id ∈ r.uses ↔
    ∃ user ∈ r.trace.stream, ∃ v, r.trace.get? user = some v ∧ id ∈ v.uses := by
  have hstream : r.prologue.toList ++ r.body.toList = r.trace.stream := rfl
  rw [uses, hstream, List.mem_flatMap]
  refine exists_congr fun user => and_congr_right fun _ => ?_
  cases hv : r.values[user.index]? with
  | none => simp [h.get?_trace, hv]
  | some v =>
    obtain ⟨v', hv', huses, -⟩ := h.exists_trace hv
    simp [hv', huses]

theorem mem_carried (h : Logged entries r) {place : Nat} {id : ValueId}
    (hentry : r.trace.entry[place]? = some id) : id ∈ r.carried ↔
      ∃ place', place' ≠ place ∧ r.trace.tail[place']? = some id := by
  have hentry : r.entry.toList[place]? = some id := hentry
  have htail : r.trace.tail = r.current.toList := rfl
  rw [carried, Array.toList_zip, htail]
  constructor
  · intro hid
    obtain ⟨⟨entry, tail⟩, hmem, rfl⟩ := List.mem_map.1 hid
    obtain ⟨hmem, hne⟩ := List.mem_filter.1 hmem
    obtain ⟨place', hplace⟩ := List.mem_iff_getElem?.1 hmem
    obtain ⟨he, ht⟩ := List.getElem?_zip_eq_some.1 hplace
    refine ⟨place', ?_, ht⟩
    rintro rfl
    exact of_decide_eq_true hne (Option.some.inj (he.symm.trans hentry))
  · rintro ⟨place', hne, ht⟩
    have hlt : place' < r.entry.toList.length := by
      rw [← h.length_current]
      exact (List.getElem?_eq_some_iff.1 ht).1
    refine List.mem_map.2 ⟨(r.entry.toList[place'], id), List.mem_filter.2 ⟨?_, ?_⟩, rfl⟩
    · exact List.mem_iff_getElem?.2 ⟨place', List.getElem?_zip_eq_some.2
        ⟨List.getElem?_eq_getElem hlt, ht⟩⟩
    · refine decide_eq_true fun he => hne ?_
      exact (List.getElem?_inj hlt h.nodup_entry).1
        (by rw [List.getElem?_eq_getElem hlt, he, hentry])

theorem flags_trace (h : Logged entries r) {place : Nat} {id tail : ValueId}
    (hentry : r.trace.entry[place]? = some id) (htail : r.trace.tail[place]? = some tail) :
    r.trace.flags? id = some ⟨decide (id ∈ r.uses ++ r.carried), tail ≠ id⟩ := by
  have hmem : (id, tail) ∈ r.entry.toList.zip r.current.toList :=
    List.mem_iff_getElem?.2 ⟨place, List.getElem?_zip_eq_some.2 ⟨hentry, htail⟩⟩
  have hid : id ∈ entries.filterMap Entry.declared? := h.entry ▸ List.mem_of_getElem? hentry
  obtain ⟨e, he, hdecl⟩ := List.mem_filterMap.1 hid
  obtain ⟨v, hv, hadds⟩ := h.values e he id (Entry.added_of_declared hdecl)
  obtain ⟨number, kind, flags, rfl⟩ := Entry.atEntry_of_declared hdecl hadds
  rw [Trace.flags?, h.get?_trace, hv, lookup_of_mem h.nodup_states hmem]
  rfl

/-- **What the calls make of the trace**, checked or not. -/
theorem recorded (h : Logged entries r) : Recorded entries r.trace where
  added := by rw [size_trace]; exact h.added
  values e he id hadd := h.get?_of_added he hadd
  prologue := h.prologue
  body := h.body
  prologue_increasing := by
    have hp : r.trace.prologue = entries.filterMap (Entry.recorded? true) := h.prologue
    rw [hp]
    exact h.increasing Entry.added_of_recorded
  body_increasing := by
    have hb : r.trace.body = entries.filterMap (Entry.recorded? false) := h.body
    rw [hb]
    exact h.increasing Entry.added_of_recorded
  disjoint := h.disjoint_trace
  stream id := by
    rw [h.mem_stream_trace]
    constructor
    · rintro ⟨e, he, hrec, hadd⟩
      obtain ⟨v, hv, hadds⟩ := h.get?_of_added he hadd
      exact ⟨v, hv, by rw [hadds.isLeaf, hrec]; rfl⟩
    · rintro ⟨v, hv, hleaf⟩
      obtain ⟨e, he, hadd, hadds⟩ := h.exists_entry hv
      refine ⟨e, he, ?_, hadd⟩
      simpa [hadds.isLeaf] using hleaf
  entry_increasing := by
    have he : r.trace.entry = entries.filterMap Entry.declared? := h.entry
    rw [he]
    exact h.increasing Entry.added_of_declared
  entry id := by
    have he : r.trace.entry = entries.filterMap Entry.declared? := h.entry
    rw [he]
    constructor
    · intro hid
      obtain ⟨e, he, hdecl⟩ := List.mem_filterMap.1 hid
      obtain ⟨v, hv, hadds⟩ := h.get?_of_added he (Entry.added_of_declared hdecl)
      obtain ⟨number, kind, flags, rfl⟩ := Entry.atEntry_of_declared hdecl hadds
      exact ⟨number, kind, flags, hv⟩
    · rintro ⟨number, kind, flags, hv⟩
      obtain ⟨e, he, hadd, hadds⟩ := h.exists_entry hv
      refine List.mem_filterMap.2 ⟨e, he, ?_⟩
      rw [Entry.declared?_eq_added hadds]
      exact hadd
  tail := h.current
  flags place id tail hentry htail := by
    refine ⟨_, h.flags_trace hentry htail, by simp, ?_⟩
    rw [decide_eq_true_iff, List.mem_append, h.mem_uses, h.mem_carried hentry]

end Logged

theorem Recorded.nodup_stream {entries : List Entry} {t : Trace} (h : Recorded entries t) :
    t.stream.Nodup := by
  have hne : ∀ {l : List ValueId}, l.Pairwise (fun id id' => id.index < id'.index) → l.Nodup :=
    fun hl => hl.imp fun hlt he => Nat.ne_of_lt hlt (congrArg ValueId.index he)
  exact (hne h.prologue_increasing).append (hne h.body_increasing) h.disjoint

/-- **Recordings**: a script that has a number for each of its locals has a run. What it records keeps
the rules about how traces are kept, and if it becomes a trace, this is what the calls tell. -/
theorem run_recorded (anchor : Signature) (position : Nat) (script : Script)
    (h : script.slots ≤ localLimit) : ∃ entries r,
      ({ anchor, position } : Recorder).run false script = some (entries, r) ∧
      (∀ why, r.build = .error why → why.isOfRecord = false) ∧
      ∀ t, r.build = .ok t → Recorded entries t := by
  have hstart : ({ anchor, position } : Recorder).inPrologue = false := rfl
  have hslots : ({ anchor, position } : Recorder).nextLocal + script.slots ≤ localLimit := by
    rwa [Nat.zero_add]
  obtain ⟨entries, r, hrun, -, -, hlog⟩ := (logged_nil anchor position).run hstart hslots
  rw [List.nil_append] at hlog
  have hrec := hlog.recorded
  have hspares : Trace.Spares r.trace.check :=
    Trace.check_spares hlog.length_current.symm (fun id => (hrec.entry id).1) hrec.nodup_stream
  refine ⟨entries, r, hrun, fun why hbuild => ?_, fun t hbuild => ?_⟩
  · rw [build] at hbuild
    split at hbuild
    · cases hbuild
    · obtain rfl := Except.error.inj hbuild
      exact hspares _ ‹_›
  · rw [build] at hbuild
    split at hbuild
    · obtain rfl := Except.ok.inj hbuild
      exact hrec
    · cases hbuild

/-- A script with a store in a local that is declared later, a store in a constant, a prologue block
inside of another one, a local that is declared there, and a store of a value that is added later. -/
def nesting : Script :=
  .step (.store ⟨1⟩ ⟨0⟩) <| .step (.constant (.int 1)) <| .step (.declare .int) <|
  .within
    (.step (.operation .intAdd [⟨1⟩, ⟨0⟩]) <| .within (.step (.declare .long) .done) <|
      .step (.store ⟨1⟩ ⟨2⟩) .done) <|
  .step (.store ⟨0⟩ ⟨3⟩) <| .step (.store ⟨1⟩ ⟨4⟩) <| .step (.operation .intAdd [⟨1⟩, ⟨2⟩]) .done

/-- The recorder that the script is for. -/
def counting : Recorder where
  anchor := ⟨"Sample", "count", [.int], .void, .managed⟩
  position := 2

theorem run_recorded_nesting : nesting.slots ≤ localLimit ∧
    (counting.run false nesting).any (fun (_, r) => r.build.isOk) ∧
    ∃ entries r, counting.run false nesting = some (entries, r) ∧
      (∀ why, r.build = .error why → why.isOfRecord = false) ∧
      ∀ t, r.build = .ok t → Recorded entries t :=
  ⟨by decide, by decide +kernel, run_recorded counting.anchor counting.position nesting (by decide)⟩

end LoopTrace.Recorder
