import LoopTrace.Proofs.Kept
import LoopTrace.Proofs.Runs

/-!
# Agreement

A store agrees with an environment, as far as a pool goes, if the slot of every bound value holds
what the value stands for. The code of an instruction takes a store that agrees before the
instruction, by the pool that the walk has there, to one that agrees after it.
-/

namespace LoopTrace

variable {W V : Type}

/-- The slots of bound values hold what the values stand for. -/
def Pool.Agrees (p : Pool) (store : Slot → V) (env : ValueId → V) : Prop :=
  ∀ {u s}, p.lookup u = some s → store s = env u

theorem Pool.Agrees.update {p : Pool} {store : Slot → V} {env : ValueId → V}
    (h : p.Agrees store env) {d : Slot} (hd : d ∉ p.bound) (x : V) :
    p.Agrees (Function.update store d x) env := by
  intro u s hs
  have hne : s ≠ d := by
    rintro rfl
    exact hd (Pool.mem_bound_of_lookup hs)
  rw [Function.update_of_ne hne]
  exact h hs

namespace Job

variable {j : Job} {M : Meaning W V}

/-- Operands of values have the values that these stand for. -/
theorem operand_eq_value {q : Pool} (hq : j.Fits q) {store : Slot → V} {env : ValueId → V}
    {u : ValueId} (hw : j.trace.Carries u)
    (hbound : ∀ {w}, j.trace.get? u = some w → w.needsSlot = true → ∃ s, q.lookup u = some s)
    (hag : ∀ {s}, q.lookup u = some s → store s = env u) :
    M.operand store (j.operand q u) = j.trace.value M env u := by
  obtain ⟨w, hw, hvoid⟩ := hw
  rw [Trace.value, hw]
  by_cases hn : w.needsSlot = true
  · obtain ⟨s, hs⟩ := hbound hw hn
    rw [operand_of_lookup hq hs]
    have hs : M.operand store (.slot s) = env u := hag hs
    rw [hs]
    cases w with
    | constant c => cases hn
    | untracked => cases hn
    | _ => rfl
  · rcases Trace.Value.eq_of_not_needsSlot hvoid (by simpa using hn) with ⟨c, rfl⟩ | rfl
    · rw [operand_constant hw]
      rfl
    · rw [operand_untracked hq hw]
      rfl

/-- Frames of values have the values that these stand for. -/
theorem map_frame_eq {q : Pool} {store : Slot → V} {env : ValueId → V}
    {frame : Option (Frame ValueId)}
    (h : ∀ u ∈ (frame.map Frame.contents).getD [], M.operand store (j.operand q u) =
      j.trace.value M env u) :
    (frame.map (Frame.map (j.operand q))).map (Frame.map (M.operand store)) =
      frame.map (Frame.map (j.trace.value M env)) := by
  cases frame with
  | none => rfl
  | some frame =>
    have hlocals : (frame.locals.map (j.operand q)).map (M.operand store) =
        frame.locals.map (j.trace.value M env) := by
      rw [List.map_map]
      exact List.map_congr_left fun u hu => h u (List.mem_append_left _ hu)
    have hstack : (frame.stack.map (j.operand q)).map (M.operand store) =
        frame.stack.map (j.trace.value M env) := by
      rw [List.map_map]
      exact List.map_congr_left fun u hu => h u (List.mem_append_right _ hu)
    simp only [Option.map_some, Frame.map, hlocals, hstack]

section Instruction

variable {pre rest : List ValueId} {id : ValueId} {v : Trace.Value} {f : Front} {m : Memory W V}
    {env : ValueId → V}

/-- Before an instruction every value that it uses can be read off the store. -/
theorem operand_taken (hready : j.Ready rest f.pool) (hacc : j.trace.Accepted)
    (hs : j.trace.stream = pre ++ id :: rest) (hv : j.trace.get? id = some v)
    (hag : ((j.taken f.pool id v).leave id).Agrees m.store env) :
    ∀ u ∈ v.uses, M.operand m.store (j.operand (j.taken f.pool id v) u) =
      j.trace.value M env u := by
  intro u hu
  have ht := hready.taken hacc hs hv
  obtain ⟨hcarries, -, hne, -⟩ := hready.uses hacc hs hv u hu
  refine operand_eq_value ht.fits hcarries
    (fun hw hn => ht.served (List.mem_cons_of_mem _ hu) hw hn) fun hl => hag ?_
  rw [(Pool.leave_leaves ht.fits.sound id).lookup, if_neg hne]
  exact hl

/-- A result in the slot of an instruction brings the store to agree after it. -/
theorem agrees_put (hready : j.Ready rest f.pool) (hacc : j.trace.Accepted)
    (hs : j.trace.stream = pre ++ id :: rest) (hv : j.trace.get? id = some v)
    (hag : ((j.taken f.pool id v).leave id).Agrees m.store env) (x : V) :
    f.pool.Agrees (Meaning.put m.store ((j.taken f.pool id v).lookup id) x)
      (Function.update env id x) := by
  have ht := hready.taken hacc hs hv
  have hl := Pool.leave_leaves ht.fits.sound id
  intro u s hu
  have hq := ht.extension.kept hu
  by_cases hid : u = id
  · subst hid
    rw [hq, Function.update_self]
    exact Function.update_self _ _ _
  · rw [Function.update_of_ne hid]
    have hold : m.store s = env u := hag (by rw [hl.lookup, if_neg hid, hq])
    cases hd : (j.taken f.pool id v).lookup id with
    | none => exact hold
    | some d =>
      have hne : s ≠ d := fun he => hid (ht.fits.sound.lookup_inj hq (he ▸ hd))
      exact (Function.update_of_ne hne _ _).trans hold

/-- The code of an operation or a call does what the instruction means. -/
theorem performAll_plainCode (hready : j.Ready rest f.pool) (hacc : j.trace.Accepted)
    (hs : j.trace.stream = pre ++ id :: rest) (hv : j.trace.get? id = some v)
    (hleaf : v.isLeaf = false) (hid : ¬ j.trace.Inlines id) (hguard : ¬ j.trace.Guards id)
    (hag : ((j.taken f.pool id v).leave id).Agrees m.store env) :
    (M.performAll (j.plainCode (j.taken f.pool id v) id v) m).world =
      (j.trace.execute M id m.world env v).1 ∧
      f.pool.Agrees (M.performAll (j.plainCode (j.taken f.pool id v) id v) m).store
        (j.trace.execute M id m.world env v).2 := by
  have hval := operand_taken (M := M) hready hacc hs hv hag
  have hput := agrees_put hready hacc hs hv hag
  have hmap : ∀ ids : List ValueId, (∀ u ∈ ids, u ∈ v.uses) →
      (ids.map (j.operand (j.taken f.pool id v))).map (M.operand m.store) =
        ids.map (j.trace.value M env) := by
    intro ids hids
    rw [List.map_map]
    exact List.map_congr_left fun u hu => hval u (hids u hu)
  cases v with
  | operation op operands =>
    have hops := hmap operands fun u hu => by simp [Trace.Value.uses, Trace.Value.operands, hu]
    simp only [plainCode, Meaning.performAll, List.foldl_cons, List.foldl_nil, Meaning.perform,
      Trace.execute, hops]
    exact ⟨trivial, hput _⟩
  | call method operands frame =>
    have hops := hmap operands fun u hu => by simp [Trace.Value.uses, Trace.Value.operands, hu]
    have hframe : (frame.map (Frame.map
        (j.operand (j.taken f.pool id (.call method operands frame))))).map
        (Frame.map (M.operand m.store)) = frame.map (Frame.map (j.trace.value M env)) :=
      map_frame_eq fun u hu => hval u (List.mem_append_right _ hu)
    simp only [plainCode, Meaning.performAll, List.foldl_cons, List.foldl_nil, Meaning.perform,
      Trace.execute, hops, hframe]
    exact ⟨trivial, hput _⟩
  | guard kind comparator left right frame => exact absurd ⟨_, _, _, _, _, hv⟩ hguard
  | inlinedCall method operands => exact absurd ⟨_, _, hv⟩ hid
  | _ => cases hleaf

/-- The part of a guard's exit that comes before its branch. -/
def exitSetup (q : Pool) (id : ValueId) (frame : Option (Frame ValueId)) (j : Job) :
    List Instruction :=
  [.assign j.tagSlot (.immediate (.guardSite id.index)), .guardpoint
    (frame.map (Frame.map (j.operand q)))]

theorem exitCode_eq (q : Pool) (id : ValueId) (kind : Kind) (comparator : Comparator)
    (left right : ValueId) (frame : Option (Frame ValueId)) (n : Nat) :
    j.exitCode q id kind comparator left right frame n = exitSetup q id frame j ++
      [.branch kind comparator.complement (j.operand q left) [j.operand q right]
        [Layout.bailoutId] ⟨n⟩] := rfl

/-- The exit of a guard records the guard and the state of the interpreter, and its branch goes on
exactly if the guard holds. -/
theorem performAll_exitSetup (hready : j.Ready rest f.pool) (hacc : j.trace.Accepted)
    (hs : j.trace.stream = pre ++ id :: rest) {kind : Kind} {comparator : Comparator}
    {left right : ValueId} {frame : Option (Frame ValueId)}
    (hv : j.trace.get? id = some (.guard kind comparator left right frame))
    (htag : f.pool.Reserved j.tagSlot) {q : Pool}
    (hq : q = j.taken f.pool id (.guard kind comparator left right frame))
    (hag : q.Agrees m.store env) (n : Nat) :
    (M.performAll (exitSetup q id frame j) m).world = m.world ∧
      (M.performAll (exitSetup q id frame j) m).frame =
        frame.map (Frame.map (j.trace.value M env)) ∧
      (M.performAll (exitSetup q id frame j) m).store j.tagSlot = M.constant (.guardSite id.index) ∧
      f.pool.Agrees (M.performAll (exitSetup q id frame j) m).store env ∧
      M.target (M.performAll (exitSetup q id frame j) m).store kind comparator.complement
        (j.operand q left) [j.operand q right] [Layout.bailoutId] ⟨n⟩ =
          if M.holds kind comparator (j.trace.value M env left) (j.trace.value M env right) then ⟨n⟩
          else Layout.bailoutId := by
  have ht := hready.taken hacc hs hv
  rw [← hq] at ht
  have htagq : q.Reserved j.tagSlot := ht.extension.reserved htag
  have hagq : q.Agrees (Function.update m.store j.tagSlot (M.constant (.guardSite id.index))) env :=
    hag.update htagq.bound _
  have hval : ∀ u ∈ (Trace.Value.guard kind comparator left right frame).uses,
      M.operand (Function.update m.store j.tagSlot (M.constant (.guardSite id.index)))
      (j.operand q u) =
        j.trace.value M env u := by
    intro u hu
    obtain ⟨hcarries, -, -, -⟩ := hready.uses hacc hs hv u hu
    exact operand_eq_value ht.fits hcarries
      (fun hw hn => ht.served (List.mem_cons_of_mem _ hu) hw hn) fun hl => hagq hl
  have hleft := hval left (by simp [Trace.Value.uses, Trace.Value.operands])
  have hright := hval right (by simp [Trace.Value.uses, Trace.Value.operands])
  refine ⟨rfl, map_frame_eq fun u hu => hval u (List.mem_append_right _ hu),
    Function.update_self _ _ _, fun hu => hagq (ht.extension.kept hu), ?_⟩
  have hstore : (M.performAll (exitSetup q id frame j) m).store =
      Function.update m.store j.tagSlot (M.constant (.guardSite id.index)) := rfl
  rw [hstore, Meaning.target, List.zip_cons_cons, List.find?_cons]
  simp only [hleft, hright, M.complement]
  cases M.holds kind comparator (j.trace.value M env left) (j.trace.value M env right) <;> rfl

end Instruction

end Job

end LoopTrace
