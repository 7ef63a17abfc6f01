import LoopTrace.Trace.Script
import Mathlib.Data.List.Nodup
import Mathlib.Data.List.Range
import Mathlib.Data.List.TakeWhile

/-!
# The log of a recording

The calls of a recorder and its answers tell what the recording holds: the values in the arena, the
instructions of the two streams, the locals, and what each local holds, which is what was stored in it
last since it was declared (`lastStore`). `Logged` says so of a recorder; each call keeps it
(`Logged.answer`), and so does each script, however its prologue blocks are nested (`Logged.run`).
-/

namespace LoopTrace.Recorder

/-! ### What calls and answers tell -/

namespace Call

/-- Whether the call records an instruction. -/
def isInstruction : Call → Bool
  | .operation .. | .call .. | .guard .. | .inlinedCall .. => true
  | _ => false

/-- The values that the call may add to the arena. A local has some number and some flags. -/
def Adds : Call → Trace.Value → Prop
  | .declare kind, v => ∃ number flags, v = .atEntry number kind flags
  | .constant c, v => v = .constant c
  | .untracked, v => v = .untracked
  | .operation op operands, v => v = .operation op operands
  | .call method operands state, v => v = .call method operands state
  | .guard kind comparator left right state, v => v = .guard kind comparator left right state
  | .inlinedCall method operands, v => v = .inlinedCall method operands
  | _, _ => False

theorem Adds.isLeaf {call : Call} {v : Trace.Value} (h : call.Adds v) :
    v.isLeaf = !call.isInstruction := by
  cases call with
  | declare kind =>
    obtain ⟨number, flags, rfl⟩ := h
    rfl
  | store | current | frame => cases h
  | _ =>
    obtain rfl := h
    rfl

end Call

namespace Entry

/-- The value that the call has added. -/
def added? (e : Entry) : Option ValueId :=
  match e.reply with
  | .value id => some id
  | _ => none

/-- The local that the call has declared. -/
def declared? (e : Entry) : Option ValueId :=
  match e.call with
  | .declare _ => e.added?
  | _ => none

/-- The instruction that the call has recorded, inside a prologue block or outside of all of them. -/
def recorded? (within : Bool) (e : Entry) : Option ValueId :=
  if e.call.isInstruction && e.within == within then e.added? else none

theorem added_of_declared {e : Entry} {id : ValueId} (h : e.declared? = some id) :
    e.added? = some id := by
  rw [declared?] at h
  split at h
  · exact h
  · cases h

theorem added_of_recorded {within : Bool} {e : Entry} {id : ValueId}
    (h : e.recorded? within = some id) : e.added? = some id := by
  rw [recorded?] at h
  split_ifs at h
  exact h

/-- What is declared is a local. -/
theorem atEntry_of_declared {e : Entry} {id : ValueId} {v : Trace.Value} (h : e.declared? = some id)
    (hadds : e.call.Adds v) : ∃ number kind flags, v = .atEntry number kind flags := by
  obtain ⟨within, call, reply⟩ := e
  cases call with
  | declare kind =>
    obtain ⟨number, flags, rfl⟩ := hadds
    exact ⟨number, kind, flags, rfl⟩
  | _ => cases h

theorem declared?_eq_added {e : Entry} {number : Nat} {kind : Kind} {flags : LocalFlags}
    (h : e.call.Adds (.atEntry number kind flags)) : e.declared? = e.added? := by
  obtain ⟨within, call, reply⟩ := e
  cases call <;> first | rfl | cases h

theorem within_of_recorded {within : Bool} {e : Entry} {id : ValueId}
    (h : e.recorded? within = some id) : e.within = within := by
  rw [recorded?] at h
  split_ifs at h with hw
  simp only [Bool.and_eq_true, beq_iff_eq] at hw
  exact hw.2

/-- The value that the call stores in a local. -/
def stored? (id : ValueId) (e : Entry) : Option ValueId :=
  match e.call with
  | .store destination value => if destination = id then some value else none
  | _ => none

end Entry

/-- The last value stored in a local since it was declared. -/
def lastStore (id : ValueId) (entries : List Entry) : Option ValueId :=
  ((entries.dropWhile (·.declared? ≠ some id)).filterMap (Entry.stored? id)).getLast?

section LastStore

variable {id : ValueId} {entries : List Entry} {e : Entry}

theorem lastStore_concat (hid : id ∈ entries.filterMap Entry.declared?) :
    lastStore id (entries ++ [e]) = (e.stored? id).or (lastStore id entries) := by
  obtain ⟨d, hd, hdecl⟩ := List.mem_filterMap.1 hid
  have hne : (entries.dropWhile (·.declared? ≠ some id)).isEmpty ≠ true := by
    intro hempty
    have := List.dropWhile_eq_nil_iff.1 (List.isEmpty_iff.1 hempty) d hd
    simp [hdecl] at this
  rw [lastStore, List.dropWhile_append, if_neg hne, List.filterMap_append, List.getLast?_append,
    ← lastStore]
  cases h : e.stored? id <;> simp [h]

theorem lastStore_declare (hid : id ∉ entries.filterMap Entry.declared?)
    (he : e.declared? = some id) : lastStore id (entries ++ [e]) = none := by
  have hnil : entries.dropWhile (·.declared? ≠ some id) = [] := by
    refine List.dropWhile_eq_nil_iff.2 fun d hd => ?_
    have : d.declared? ≠ some id := fun h => hid (List.mem_filterMap.2 ⟨d, hd, h⟩)
    simpa using this
  have hstored : e.stored? id = none := by
    obtain ⟨within, call, reply⟩ := e
    cases call <;> first | rfl | cases he
  rw [lastStore, List.dropWhile_append, hnil]
  simp [he, hstored]

end LastStore

/-- What answers tell of some of the values is part of what they tell of all. -/
theorem sublist_added {f : Entry → Option ValueId} (hf : ∀ {e id}, f e = some id → e.added? = some id)
    (entries : List Entry) : List.Sublist (entries.filterMap f) (entries.filterMap Entry.added?) := by
  induction entries with
  | nil => exact .slnil
  | cons e entries ih =>
    cases he : f e with
    | some id =>
      rw [List.filterMap_cons_some he, List.filterMap_cons_some (hf he)]
      exact ih.cons_cons _
    | none =>
      rw [List.filterMap_cons_none he, List.filterMap_cons]
      cases e.added? with
      | none => exact ih
      | some id => exact ih.cons _

/-- Entries that tell of one value are one. -/
theorem eq_of_nodup_filterMap {f : Entry → Option ValueId} {entries : List Entry}
    (hnd : (entries.filterMap f).Nodup) {e e' : Entry} (he : e ∈ entries) (he' : e' ∈ entries)
    {id : ValueId} (hid : f e = some id) (hid' : f e' = some id) : e = e' := by
  induction entries with
  | nil => cases he
  | cons d entries ih =>
    rcases List.mem_cons.1 he with rfl | hmem <;> rcases List.mem_cons.1 he' with rfl | hmem'
    · rfl
    · rw [List.filterMap_cons_some hid] at hnd
      exact ((List.nodup_cons.1 hnd).1 (List.mem_filterMap.2 ⟨e', hmem', hid'⟩)).elim
    · rw [List.filterMap_cons_some hid'] at hnd
      exact ((List.nodup_cons.1 hnd).1 (List.mem_filterMap.2 ⟨e, hmem, hid⟩)).elim
    · exact ih (((List.sublist_cons_self d entries).filterMap f).nodup hnd) hmem hmem'

/-- The place of a local is the only one that a store changes. -/
theorem set_map_of_nodup {l : List ValueId} (hnd : l.Nodup) (f : ValueId → ValueId)
    (destination value : ValueId) :
    (match l.idxOf? destination with
      | some place => (l.map f).set place value
      | none => l.map f) = l.map fun id => if destination = id then value else f id := by
  induction l with
  | nil => rfl
  | cons id l ih =>
    obtain ⟨hid, hnd⟩ := List.nodup_cons.1 hnd
    rw [List.idxOf?_cons]
    by_cases he : destination = id
    · subst he
      have hrest : l.map (fun id => if destination = id then value else f id) = l.map f :=
        List.map_congr_left fun id hmem => if_neg (ne_of_mem_of_not_mem hmem hid).symm
      rw [if_pos (beq_self_eq_true destination), List.map_cons, List.map_cons, if_pos rfl, hrest]
      rfl
    · have hne : ¬ (id == destination) = true := fun h => he (beq_iff_eq.1 h).symm
      rw [if_neg hne, List.map_cons, List.map_cons, if_neg he, ← ih hnd]
      cases l.idxOf? destination <;> rfl

/-- A recorder holds what the calls and their answers tell. -/
structure Logged (entries : List Entry) (r : Recorder) : Prop where
  /-- Values are numbered as they are added. -/
  added : entries.filterMap Entry.added? = (List.range r.values.size).map ValueId.mk
  values : ∀ e ∈ entries, ∀ id, e.added? = some id →
    ∃ v, r.values[id.index]? = some v ∧ e.call.Adds v
  prologue : r.prologue.toList = entries.filterMap (Entry.recorded? true)
  body : r.body.toList = entries.filterMap (Entry.recorded? false)
  entry : r.entry.toList = entries.filterMap Entry.declared?
  current : r.current.toList = r.entry.toList.map fun id => (lastStore id entries).getD id

theorem record_spec (r : Recorder) (v : Trace.Value) : (r.record v).1 = ⟨r.values.size⟩ ∧
    (r.record v).2.nextLocal = r.nextLocal ∧ (r.record v).2.inPrologue = r.inPrologue := by
  rw [Recorder.record]
  split
  rename_i id r' hpush
  obtain ⟨rfl, rfl⟩ := Prod.mk.inj hpush
  split <;> exact ⟨rfl, rfl, rfl⟩

namespace Logged

variable {entries : List Entry} {r r' : Recorder} {e : Entry}

theorem mem_added (h : Logged entries r) {id : ValueId} :
    id ∈ entries.filterMap Entry.added? ↔ id.index < r.values.size := by
  rw [h.added, List.mem_map]
  constructor
  · rintro ⟨i, hi, rfl⟩
    exact List.mem_range.1 hi
  · exact fun hi => ⟨id.index, List.mem_range.2 hi, rfl⟩

/-! ### One call -/

/-- A call that adds no value. -/
theorem keep (h : Logged entries r) (hadd : e.added? = none) (hvalues : r'.values = r.values)
    (hprologue : r'.prologue = r.prologue) (hbody : r'.body = r.body) (hentry : r'.entry = r.entry)
    (hcurrent : r'.current.toList = r.entry.toList.map fun id =>
      (lastStore id (entries ++ [e])).getD id) : Logged (entries ++ [e]) r' := by
  have hrec : ∀ within, e.recorded? within = none := fun within =>
    Option.eq_none_iff_forall_not_mem.2 fun id hid => by
      cases hadd.symm.trans (Entry.added_of_recorded hid)
  have hdecl : e.declared? = none :=
    Option.eq_none_iff_forall_not_mem.2 fun id hid => by
      cases hadd.symm.trans (Entry.added_of_declared hid)
  refine ⟨?_, fun e' he' id hid => ?_, ?_, ?_, ?_, ?_⟩
  · rw [List.filterMap_append, h.added, hvalues]
    simp [hadd]
  · rw [hvalues]
    rcases List.mem_append.1 he' with he' | he'
    · exact h.values e' he' id hid
    · rw [List.mem_singleton.1 he', hadd] at hid
      cases hid
  · rw [List.filterMap_append, hprologue, h.prologue]
    simp [hrec]
  · rw [List.filterMap_append, hbody, h.body]
    simp [hrec]
  · rw [List.filterMap_append, hentry, h.entry]
    simp [hdecl]
  · rw [hcurrent, hentry]

/-- A call that adds a value. -/
theorem add (h : Logged entries r) {v : Trace.Value} (hadd : e.added? = some ⟨r.values.size⟩)
    (hv : e.call.Adds v) (hvalues : r'.values = r.values.push v)
    (hprologue : r'.prologue.toList = r.prologue.toList ++ (e.recorded? true).toList)
    (hbody : r'.body.toList = r.body.toList ++ (e.recorded? false).toList)
    (hentry : r'.entry.toList = r.entry.toList ++ e.declared?.toList)
    (hcurrent : r'.current.toList = r.current.toList ++ e.declared?.toList) :
    Logged (entries ++ [e]) r' := by
  have hstored : ∀ id, e.stored? id = none := by
    intro id
    obtain ⟨within, call, reply⟩ := e
    cases call <;> first | rfl | cases hv
  have hsingle : ∀ f : Entry → Option ValueId, [e].filterMap f = (f e).toList := fun f => by
    cases hf : f e <;> simp [hf]
  refine ⟨?_, fun e' he' id hid => ?_, ?_, ?_, ?_, ?_⟩
  · rw [List.filterMap_append, h.added, hvalues, Array.size_push, List.range_succ, List.map_append,
      hsingle, hadd]
    rfl
  · rw [hvalues, Array.getElem?_push]
    rcases List.mem_append.1 he' with he' | he'
    · obtain ⟨w, hw, hadds⟩ := h.values e' he' id hid
      have hne : id.index ≠ r.values.size := Nat.ne_of_lt (Array.getElem?_eq_some_iff.1 hw).1
      exact ⟨w, by rw [if_neg hne, hw], hadds⟩
    · obtain rfl := List.mem_singleton.1 he'
      obtain rfl := Option.some.inj (hadd.symm.trans hid)
      exact ⟨v, if_pos rfl, hv⟩
  · rw [List.filterMap_append, hprologue, h.prologue, hsingle]
  · rw [List.filterMap_append, hbody, h.body, hsingle]
  · rw [List.filterMap_append, hentry, h.entry, hsingle]
  · rw [hcurrent, hentry, h.current, List.map_append]
    congr 1
    · refine List.map_congr_left fun id hid => ?_
      rw [lastStore_concat (h.entry ▸ hid), hstored, Option.none_or]
    · cases hdecl : e.declared? with
      | none => rfl
      | some id =>
        -- a new local holds itself: stores that were made in it before it was declared do not count
        have hid : id ∉ entries.filterMap Entry.declared? := by
          intro hmem
          have hlt := h.mem_added.1
            ((sublist_added Entry.added_of_declared entries).subset hmem)
          obtain rfl := Option.some.inj (hadd.symm.trans (Entry.added_of_declared hdecl))
          exact Nat.lt_irrefl _ hlt
        simp [lastStore_declare hid hdecl]

theorem nodup_added (h : Logged entries r) : (entries.filterMap Entry.added?).Nodup := by
  rw [h.added]
  exact List.nodup_range.map fun i j he => ValueId.mk.inj he

theorem nodup_entry (h : Logged entries r) : r.entry.toList.Nodup := by
  rw [h.entry]
  exact (sublist_added Entry.added_of_declared entries).nodup h.nodup_added

/-- A store changes what one local holds. -/
theorem store (h : Logged entries r) (within : Bool) (destination value : ValueId) :
    Logged (entries ++ [⟨within, .store destination value, .nothing⟩])
      (r.store destination value) := by
  have hheld : (r.entry.toList.map fun id =>
      (lastStore id (entries ++ [⟨within, .store destination value, .nothing⟩])).getD id) =
      r.entry.toList.map fun id =>
        if destination = id then value else (lastStore id entries).getD id := by
    refine List.map_congr_left fun id hid => ?_
    have hstored : Entry.stored? id ⟨within, .store destination value, .nothing⟩ =
        if destination = id then some value else none := rfl
    rw [lastStore_concat (h.entry ▸ hid), hstored]
    split_ifs <;> rfl
  have hset := set_map_of_nodup h.nodup_entry (fun id => (lastStore id entries).getD id)
    destination value
  rw [← List.idxOf?_toArray, Array.toArray_toList, ← h.current] at hset
  rw [Recorder.store]
  cases hidx : r.entry.idxOf? destination with
  | none =>
    rw [hidx] at hset
    exact h.keep rfl rfl rfl rfl rfl (hset.trans hheld.symm)
  | some place =>
    rw [hidx] at hset
    refine h.keep rfl rfl rfl rfl rfl ?_
    rw [hheld, ← hset]
    exact Array.toList_setIfInBounds

/-- A call that asks for something. -/
theorem ask (h : Logged entries r) (hadd : e.added? = none) (hstored : ∀ id, e.stored? id = none) :
    Logged (entries ++ [e]) r := by
  refine h.keep hadd rfl rfl rfl rfl ?_
  rw [h.current]
  refine List.map_congr_left fun id hid => ?_
  rw [lastStore_concat (h.entry ▸ hid), hstored, Option.none_or]

/-- A leaf that is not a local. -/
theorem push (h : Logged entries r) {v : Trace.Value} (hadd : e.added? = some ⟨r.values.size⟩)
    (hv : e.call.Adds v) (hrec : e.call.isInstruction = false) (hdecl : e.declared? = none) :
    Logged (entries ++ [e]) (r.push v).2 :=
  h.add hadd hv rfl (by simp [Entry.recorded?, hrec, Recorder.push])
    (by simp [Entry.recorded?, hrec, Recorder.push]) (by simp [hdecl, Recorder.push])
    (by simp [hdecl, Recorder.push])

/-- An instruction goes to the prologue or to the body. -/
theorem record (h : Logged entries r) {v : Trace.Value} (hadd : e.added? = some ⟨r.values.size⟩)
    (hv : e.call.Adds v) (hrec : e.call.isInstruction = true) (hdecl : e.declared? = none)
    (hwithin : e.within = r.inPrologue) :
    Logged (entries ++ [e]) (r.record v).2 := by
  have hrecorded : ∀ within, e.recorded? within =
      if r.inPrologue = within then some ⟨r.values.size⟩ else none := by
    intro within
    rw [Entry.recorded?, hrec, hwithin, hadd]
    simp
  rw [Recorder.record]
  cases hin : r.inPrologue with
  | true =>
    exact h.add hadd hv (by simp [Recorder.push, hin]) (by simp [Recorder.push, hin, hrecorded])
      (by simp [Recorder.push, hin, hrecorded]) (by simp [Recorder.push, hin, hdecl])
      (by simp [Recorder.push, hin, hdecl])
  | false =>
    exact h.add hadd hv (by simp [Recorder.push, hin]) (by simp [Recorder.push, hin, hrecorded])
      (by simp [Recorder.push, hin, hrecorded]) (by simp [Recorder.push, hin, hdecl])
      (by simp [Recorder.push, hin, hdecl])

/-- As long as there is a number for each local, every call is answered and goes into the log. -/
theorem answer (h : Logged entries r) {call : Call}
    (hslots : r.nextLocal + call.slots ≤ localLimit) : ∃ reply r',
      r.answer call = some (reply, r') ∧ r'.nextLocal = r.nextLocal + call.slots ∧
      r'.inPrologue = r.inPrologue ∧ Logged (entries ++ [⟨r.inPrologue, call, reply⟩]) r' := by
  have hinstruction : ∀ v, call.Adds v → call.isInstruction = true → call.slots = 0 →
      (∀ reply, Entry.declared? ⟨r.inPrologue, call, reply⟩ = none) →
      (r.record v).2.nextLocal = r.nextLocal + call.slots ∧
      (r.record v).2.inPrologue = r.inPrologue ∧
      Logged (entries ++ [⟨r.inPrologue, call, .value (r.record v).1⟩]) (r.record v).2 := by
    intro v hv hrec hslots hdecl
    obtain ⟨hid, hnext, hin⟩ := record_spec r v
    exact ⟨by rw [hnext, hslots, Nat.add_zero], hin,
      h.record (congrArg some hid) hv hrec (hdecl _) rfl⟩
  cases call with
  | declare kind =>
    have hdeclare : r.declare kind = some _ := if_pos hslots
    refine ⟨_, _, congrArg (Option.map _) hdeclare, rfl, rfl, h.add rfl ⟨_, _, rfl⟩ rfl
      (by simp [Entry.recorded?, Call.isInstruction]) (by simp [Entry.recorded?, Call.isInstruction])
      (by simp [Entry.declared?, Entry.added?]) (by simp [Entry.declared?, Entry.added?])⟩
  | constant c => exact ⟨_, _, rfl, rfl, rfl, h.push rfl rfl rfl rfl⟩
  | untracked => exact ⟨_, _, rfl, rfl, rfl, h.push rfl rfl rfl rfl⟩
  | operation op operands => exact ⟨_, _, rfl, hinstruction _ rfl rfl rfl fun _ => rfl⟩
  | call method operands state => exact ⟨_, _, rfl, hinstruction _ rfl rfl rfl fun _ => rfl⟩
  | guard kind comparator left right state =>
    exact ⟨_, _, rfl, hinstruction _ rfl rfl rfl fun _ => rfl⟩
  | inlinedCall method operands => exact ⟨_, _, rfl, hinstruction _ rfl rfl rfl fun _ => rfl⟩
  | store destination value =>
    have hkeeps : (r.store destination value).nextLocal = r.nextLocal ∧
        (r.store destination value).inPrologue = r.inPrologue := by
      rw [Recorder.store]
      split <;> exact ⟨rfl, rfl⟩
    exact ⟨_, _, rfl, hkeeps.1, hkeeps.2, h.store ..⟩
  | current destination => exact ⟨_, _, rfl, rfl, rfl, h.ask rfl fun _ => rfl⟩
  | frame position stack => exact ⟨_, _, rfl, rfl, rfl, h.ask rfl fun _ => rfl⟩

/-! ### Scripts -/

/-- Whether instructions go to the prologue does not matter to what has been recorded. -/
theorem withInPrologue (h : Logged entries r) (inPrologue : Bool) :
    Logged entries { r with inPrologue } :=
  ⟨h.added, h.values, h.prologue, h.body, h.entry, h.current⟩

/-- What a script keeps. A prologue block is left with the recorder standing where it stood before. -/
theorem run (h : Logged entries r) {within : Bool} (hin : r.inPrologue = within) {script : Script}
    (hslots : r.nextLocal + script.slots ≤ localLimit) : ∃ more r',
      r.run within script = some (more, r') ∧ r'.nextLocal = r.nextLocal + script.slots ∧
      r'.inPrologue = within ∧ Logged (entries ++ more) r' := by
  induction script generalizing entries r within with
  | done => exact ⟨[], r, rfl, rfl, hin, by rwa [List.append_nil]⟩
  | step call rest ih =>
    rw [Script.slots] at hslots
    have hcall : r.nextLocal + call.slots ≤ localLimit := by omega
    obtain ⟨reply, r₁, hanswer, hnext, hin₁, hlog⟩ := h.answer hcall
    obtain ⟨more, r₂, hrun, hnext₂, hin₂, hlog₂⟩ := ih hlog (hin₁.trans hin) (by omega)
    refine ⟨⟨within, call, reply⟩ :: more, r₂, ?_, ?_, hin₂, ?_⟩
    · rw [Recorder.run, hanswer]
      simp [hrun]
    · rw [hnext₂, hnext, Nat.add_assoc]
      rfl
    · rwa [hin, List.append_assoc] at hlog₂
  | within inner rest ihInner ihRest =>
    rw [Script.slots] at hslots
    -- what is recorded inside the block goes to the prologue, what comes after it goes where it went
    have hinner : r.nextLocal + inner.slots ≤ localLimit := by omega
    obtain ⟨inside, r₁, hrun₁, hnext₁, -, hlog₁⟩ := ihInner (h.withInPrologue true) rfl hinner
    have hnext₁ : r₁.nextLocal = r.nextLocal + inner.slots := hnext₁
    have hrest : r₁.nextLocal + rest.slots ≤ localLimit := by omega
    obtain ⟨more, r₂, hrun₂, hnext₂, hin₂, hlog₂⟩ :=
      ihRest (hlog₁.withInPrologue r.inPrologue) hin hrest
    refine ⟨inside ++ more, r₂, ?_, ?_, hin₂, ?_⟩
    · rw [Recorder.run, withinPrologue, hrun₁]
      simp [hrun₂]
    · have hnext₂ : r₂.nextLocal = r₁.nextLocal + rest.slots := hnext₂
      rw [hnext₂, hnext₁, Nat.add_assoc]
      rfl
    · rwa [List.append_assoc] at hlog₂

/-- A script with more locals than there are numbers for has no run. -/
theorem run_eq_none (h : Logged entries r) (hnext : r.nextLocal ≤ localLimit) (within : Bool)
    {script : Script} (hslots : localLimit < r.nextLocal + script.slots) :
    r.run within script = none := by
  induction script generalizing entries r within with
  | done => exact absurd hnext (Nat.not_le_of_lt hslots)
  | step call rest ih =>
    rw [Script.slots] at hslots
    rw [Recorder.run]
    by_cases hcall : r.nextLocal + call.slots ≤ localLimit
    · obtain ⟨reply, r₁, hanswer, hnext₁, -, hlog⟩ := h.answer hcall
      have hrest : r₁.run within rest = none := ih hlog (hnext₁ ▸ hcall) within (by omega)
      simp [hanswer, hrest]
    · have hanswer : r.answer call = none := by
        cases call with
        | declare kind => exact congrArg (Option.map _) (if_neg hcall)
        | _ => exact absurd hnext hcall
      simp [hanswer]
  | within inner rest ihInner ihRest =>
    rw [Script.slots] at hslots
    rw [Recorder.run, withinPrologue]
    by_cases hinner : r.nextLocal + inner.slots ≤ localLimit
    · obtain ⟨inside, r₁, hrun, hnext₁, -, hlog⟩ := (h.withInPrologue true).run rfl hinner
      have hnext₁ : r₁.nextLocal = r.nextLocal + inner.slots := hnext₁
      have hmore : localLimit < r₁.nextLocal + rest.slots := by omega
      have hrest : Recorder.run within { r₁ with inPrologue := r.inPrologue } rest = none :=
        ihRest (hlog.withInPrologue r.inPrologue) (hnext₁ ▸ hinner) within hmore
      simp [hrun, hrest]
    · have hnone : Recorder.run true { r with inPrologue := true } inner = none :=
        ihInner (h.withInPrologue true) hnext true (Nat.lt_of_not_le hinner)
      simp [hnone]

end Logged

/-- The recorder before the first call. -/
theorem logged_nil (anchor : Signature) (position : Nat) : Logged [] { anchor, position } :=
  ⟨rfl, fun _ h => absurd h List.not_mem_nil, rfl, rfl, rfl, rfl⟩

/-- A script has a run exactly if there is a number for each of its locals. -/
theorem isSome_run_iff (anchor : Signature) (position : Nat) (script : Script) :
    (({ anchor, position } : Recorder).run false script).isSome ↔ script.slots ≤ localLimit := by
  have hlog := logged_nil anchor position
  have hstart : ({ anchor, position } : Recorder).inPrologue = false := rfl
  have hzero : ({ anchor, position } : Recorder).nextLocal + script.slots = script.slots :=
    Nat.zero_add script.slots
  rw [← hzero]
  constructor
  · intro hsome
    by_contra hslots
    have hrun := hlog.run_eq_none (Nat.zero_le localLimit) false (Nat.lt_of_not_le hslots)
    rw [hrun] at hsome
    cases hsome
  · intro hslots
    obtain ⟨entries, r, hrun, -⟩ := hlog.run hstart hslots
    rw [hrun]
    rfl

end LoopTrace.Recorder
