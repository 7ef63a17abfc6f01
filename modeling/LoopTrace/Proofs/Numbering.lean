import LoopTrace.Proofs.Recording

/-!
# The numbers of locals

The interpreter keeps a wide local in two places, and it numbers the places, not the locals. A recorder
counts the same way: the number of a local is the number of places that the locals before it take
(`Numbered`). Only a declaration adds to the locals, so every call keeps this (`Counts.answer`), and so
does every script (`Counts.run`); the flags that a recording ends with do not touch it.
-/

namespace LoopTrace

/-- Locals are numbered one after another from `n` on, each by as many as its kind takes; `m` is the
number after all of them. -/
inductive Numbered (values : ValueId → Option Trace.Value) : Nat → List ValueId → Nat → Prop where
  | nil (n : Nat) : Numbered values n [] n
  | cons {n m : Nat} {id : ValueId} {ids : List ValueId} {kind : Kind} {flags : LocalFlags}
      (first : values id = some (.atEntry n kind flags))
      (rest : Numbered values (n + kind.width) ids m) : Numbered values n (id :: ids) m

namespace Numbered

variable {values values' : ValueId → Option Trace.Value} {n m : Nat} {ids : List ValueId}

/-- Only the numbers and the kinds of the locals matter. -/
theorem mono (h : Numbered values n ids m)
    (hv : ∀ id ∈ ids, ∀ n kind flags, values id = some (.atEntry n kind flags) →
      ∃ flags', values' id = some (.atEntry n kind flags')) : Numbered values' n ids m := by
  induction h with
  | nil n => exact .nil n
  | cons first rest ih =>
    obtain ⟨flags', hfirst⟩ := hv _ List.mem_cons_self _ _ _ first
    exact .cons hfirst (ih fun id hid => hv id (List.mem_cons_of_mem _ hid))

/-- One more local takes the number after all others. -/
theorem concat (h : Numbered values n ids m) {id : ValueId} {kind : Kind} {flags : LocalFlags}
    (hid : values id = some (.atEntry m kind flags)) :
    Numbered values n (ids ++ [id]) (m + kind.width) := by
  induction h with
  | nil n => exact .cons hid (.nil _)
  | cons first rest ih => exact .cons first (ih hid)

end Numbered

namespace Recorder

/-- The locals of a recorder are numbered from zero on, and the next one gets the next number. -/
def Counts (r : Recorder) : Prop :=
  Numbered (fun id => r.values[id.index]?) 0 r.entry.toList r.nextLocal

variable {r r' : Recorder}

theorem counts_nil (anchor : Signature) (position : Nat) :
    ({ anchor, position } : Recorder).Counts := .nil 0

/-- What leaves the locals and their values alone keeps the numbers. -/
theorem Counts.of_values (h : r.Counts)
    (hvalues : ∀ (i : Nat) v, r.values[i]? = some v → r'.values[i]? = some v)
    (hentry : r'.entry = r.entry) (hnext : r'.nextLocal = r.nextLocal) : r'.Counts := by
  rw [Counts, hentry, hnext]
  exact h.mono fun id _ n kind flags hv => ⟨flags, hvalues _ _ hv⟩

theorem getElem?_push_of_some {values : Array Trace.Value} {i : Nat} {v : Trace.Value}
    (h : values[i]? = some v) (w : Trace.Value) : (values.push w)[i]? = some v := by
  rw [Array.getElem?_push, if_neg (Nat.ne_of_lt (Array.getElem?_eq_some_iff.1 h).1), h]

theorem Counts.push (h : r.Counts) (v : Trace.Value) : (r.push v).2.Counts :=
  h.of_values (fun _ _ hv => getElem?_push_of_some hv v) rfl rfl

theorem Counts.record (h : r.Counts) (v : Trace.Value) : (r.record v).2.Counts := by
  rw [Recorder.record]
  have hpush := h.push v
  dsimp only
  split <;> exact hpush

/-- A declaration gives the local the next number. -/
theorem Counts.declare (h : r.Counts) {kind : Kind} {id : ValueId}
    (hr : r.declare kind = some (id, r')) : r'.Counts := by
  rw [Recorder.declare] at hr
  dsimp only at hr
  split at hr
  · obtain ⟨rfl, rfl⟩ := Prod.mk.inj (Option.some.inj hr)
    rw [Counts, Array.toList_push]
    have hlast : (r.values.push (.atEntry r.nextLocal kind {}))[r.values.size]? =
        some (.atEntry r.nextLocal kind {}) := Array.getElem?_push_size
    exact Numbered.concat (h.mono fun id _ n kind flags hv => ⟨flags, getElem?_push_of_some hv _⟩) hlast
  · cases hr

theorem Counts.store (h : r.Counts) (destination value : ValueId) :
    (r.store destination value).Counts := by
  rw [Recorder.store]
  split <;> exact h

/-- Every call keeps the numbers. -/
theorem Counts.answer (h : r.Counts) {call : Call} {reply : Reply}
    (hr : r.answer call = some (reply, r')) : r'.Counts := by
  cases call with
  | declare kind =>
    obtain ⟨⟨id, q⟩, hdeclare, he⟩ := Option.map_eq_some_iff.1 hr
    obtain ⟨-, rfl⟩ := Prod.mk.inj he
    exact h.declare hdeclare
  | constant c =>
    obtain ⟨-, rfl⟩ := Prod.mk.inj (Option.some.inj hr)
    exact h.push _
  | untracked =>
    obtain ⟨-, rfl⟩ := Prod.mk.inj (Option.some.inj hr)
    exact h.push _
  | store destination value =>
    obtain ⟨-, rfl⟩ := Prod.mk.inj (Option.some.inj hr)
    exact h.store destination value
  | current | frame =>
    obtain ⟨-, rfl⟩ := Prod.mk.inj (Option.some.inj hr)
    exact h
  | _ =>
    obtain ⟨-, rfl⟩ := Prod.mk.inj (Option.some.inj hr)
    exact h.record _

/-- Every script keeps the numbers, however its prologue blocks are nested. -/
theorem Counts.run (h : r.Counts) {within : Bool} {script : Script} {entries : List Entry}
    (hrun : r.run within script = some (entries, r')) : r'.Counts := by
  induction script generalizing r r' within entries with
  | done =>
    obtain ⟨-, rfl⟩ := Prod.mk.inj (Option.some.inj hrun)
    exact h
  | step call rest ih =>
    obtain ⟨⟨reply, r₁⟩, hanswer, hrest⟩ := Option.bind_eq_some_iff.1 hrun
    obtain ⟨⟨more, r₂⟩, hmore, he⟩ := Option.bind_eq_some_iff.1 hrest
    obtain ⟨-, rfl⟩ := Prod.mk.inj (Option.some.inj he)
    exact ih (h.answer hanswer) hmore
  | within inner rest ihInner ihRest =>
    rw [Recorder.run, withinPrologue] at hrun
    cases hinner : Recorder.run true { r with inPrologue := true } inner with
    | none =>
      rw [hinner] at hrun
      cases hrun
    | some result =>
      obtain ⟨inside, r₁⟩ := result
      rw [hinner] at hrun
      obtain ⟨_, -, hrest⟩ := Option.bind_eq_some_iff.1 hrun
      obtain ⟨⟨more, r₂⟩, hmore, he⟩ := Option.bind_eq_some_iff.1 hrest
      obtain ⟨-, rfl⟩ := Prod.mk.inj (Option.some.inj he)
      have hinside : r₁.Counts := ihInner (r := { r with inPrologue := true }) h hinner
      exact ihRest (r := { r₁ with inPrologue := r.inPrologue }) hinside hmore

/-- Flags have nothing to do with numbers. -/
theorem Counts.trace (h : r.Counts) {entries : List Entry} (hlog : Logged entries r) :
    Numbered r.trace.get? 0 r.trace.entry r.nextLocal := by
  refine h.mono fun id _ n kind flags hv => ?_
  rw [hlog.get?_trace, hv]
  cases (r.entry.toList.zip r.current.toList).lookup id with
  | none => exact ⟨flags, rfl⟩
  | some tail => exact ⟨_, rfl⟩

/-- What a script leaves: locals without repetition, numbered as the interpreter numbers them. -/
theorem numbered_of_build {anchor : Signature} {position : Nat} {script : Script}
    {entries : List Entry} {t : Trace}
    (hrun : ({ anchor, position } : Recorder).run false script = some (entries, r))
    (hbuild : r.build = .ok t) : t.entry.Nodup ∧ Numbered t.get? 0 t.entry script.slots := by
  obtain rfl : r.trace = t := by
    rw [build] at hbuild
    split at hbuild
    · exact Except.ok.inj hbuild
    · cases hbuild
  have hstart : ({ anchor, position } : Recorder).inPrologue = false := rfl
  have hslots : script.slots ≤ localLimit := by
    rw [← isSome_run_iff anchor position, hrun]
    rfl
  have hroom : 0 + script.slots ≤ localLimit := by rwa [Nat.zero_add]
  obtain ⟨entries', r', hrun', hnext, -, hlog⟩ := (logged_nil anchor position).run hstart hroom
  obtain ⟨rfl, rfl⟩ := Prod.mk.inj (Option.some.inj (hrun.symm.trans hrun'))
  have hnumbered := ((counts_nil anchor position).run hrun).trace hlog
  have hnext : r.nextLocal = script.slots := hnext.trans (Nat.zero_add _)
  exact ⟨hlog.nodup_entry, hnext ▸ hnumbered⟩

end Recorder

end LoopTrace
