import LoopTrace.Proofs.Effects
import LoopTrace.Proofs.Shape
import Mathlib.Data.List.Induction
import Mathlib.Data.List.Nodup

/-!
# What runs leave in an assembly

The calls of an assembly and its answers tell everything about the blocks. Which blocks have been
emitted, and in which order; which edges there are; and what code each block has: the batches that were
put in front of it, the last one first, each with its open jumps pointed where the first resolution after
it pointed them. All this is read off the history alone (`emissions`, `edges`, `written`).

As long as the caller names blocks that were created, history and assembly go together in every run
(`chronicled_after`), also when calls are refused. So no block is emitted twice, a serial tells the place
from the end and stays, edges have two sides, and the finished routine has exactly the emitted blocks
(`after_kept`).
-/

namespace LoopTrace.Assembly

/-! ### The history of an assembly -/

/-- A jump that has a target keeps it. -/
theorem resolve_resolve (header header' : BlockId) (i : Instruction) :
    resolve header' (resolve header i) = resolve header i := by
  rcases i with _ | _ | _ | _ | _ | (_ | target) | _ <;> rfl

/-- Calls with their answers, the last one first. -/
abbrev History := List Entry

/-- Instructions that were put in front of a block together. -/
structure Batch where
  code : List Instruction
  /-- Where its open jumps were pointed by the first resolution that came after it. -/
  header? : Option BlockId
  deriving DecidableEq, Repr

/-- The instructions as they stand after the resolution. -/
def Batch.settled (b : Batch) : List Instruction :=
  match b.header? with
  | some header => b.code.map (resolve header)
  | none => b.code

namespace History

/-- The blocks that were created. -/
def created (h : History) : List BlockId := h.filterMap Entry.created?

/-- The blocks that were emitted, the last one first. -/
def emissions (h : History) : List BlockId := h.filterMap Entry.emitted?

/-- The edges that were made. -/
def edges : History → List (BlockId × BlockId)
  | [] => []
  | e :: earlier => (e.edge? (emissions earlier).head?).toList ++ edges earlier

/-- The batches that were put in front of a block, the last one first. `header?` is where open jumps
were pointed by the first resolution after these calls. -/
def batches (id : BlockId) : Option BlockId → History → List Batch
  | _, [] => []
  | header?, e :: earlier =>
    ((e.batch? (emissions earlier).head? id).map (⟨·, header?⟩)).toList ++
      batches id ((e.header? id).or header?) earlier

/-- The code of a block. -/
def written (h : History) (id : BlockId) : List Instruction :=
  (batches id none h).flatMap Batch.settled

/-- Every call names blocks that were created before it. -/
def Named : History → Prop
  | [] => True
  | e :: earlier => (∀ id ∈ e.call.ids, id ∈ created earlier) ∧ Named earlier

instance decidableNamed : (h : History) → Decidable h.Named
  | [] => isTrue trivial
  | _ :: earlier =>
    have := decidableNamed earlier
    inferInstanceAs (Decidable (_ ∧ _))

/-- A resolution that comes later points the jumps that are still open. -/
theorem flatMap_batches_some (id header : BlockId) (h : History) :
    (batches id (some header) h).flatMap Batch.settled = (written h id).map (resolve header) := by
  induction h generalizing header with
  | nil => rfl
  | cons e earlier ih =>
    rw [written, batches, batches, List.flatMap_append, List.flatMap_append, List.map_append]
    congr 1
    · cases e.batch? (emissions earlier).head? id <;> simp [Batch.settled]
    · cases e.header? id with
      | none => exact ih header
      | some header' =>
        -- the resolution of this entry comes first, so that the later one finds no open jumps
        rw [Option.some_or, Option.some_or, ih, List.map_map]
        exact List.map_congr_left fun i _ => (resolve_resolve header' header i).symm

/-- What an entry does to the code of a block. -/
theorem written_cons (e : Entry) (earlier : History) (id : BlockId) :
    written (e :: earlier) id = (e.batch? (emissions earlier).head? id).getD [] ++
      match e.header? id with
      | some header => (written earlier id).map (resolve header)
      | none => written earlier id := by
  rw [written, batches, List.flatMap_append]
  congr 1
  · cases e.batch? (emissions earlier).head? id <;> simp [Batch.settled]
  · cases e.header? id with
    | none => rfl
    | some header => exact flatMap_batches_some id header earlier

end History

/-! ### History and assembly together -/

/-- A list that grows at the front, counted from the end. -/
theorem getElem?_reverse_cons {α : Type} {x y : α} {l : List α} {n : Nat} :
    (x :: l).reverse[n]? = some y ↔ l.reverse[n]? = some y ∨ n = l.length ∧ x = y := by
  rw [List.reverse_cons]
  rcases Nat.lt_trichotomy n l.reverse.length with hn | rfl | hn
  · have hne : n ≠ l.length := fun h => by simp [h] at hn
    rw [List.getElem?_append_left hn]
    simp [hne]
  · simp
  · have hne : n ≠ l.length := fun h => by simp [h] at hn
    rw [List.getElem?_eq_none (by simp at hn ⊢; omega), List.getElem?_eq_none (Nat.le_of_lt hn)]
    simp [hne]

namespace History

variable (e : Entry) (h : History)

theorem created_cons : created (e :: h) = e.created?.toList ++ created h := by
  rw [created, List.filterMap_cons]
  cases e.created? <;> rfl

theorem emissions_cons : emissions (e :: h) = e.emitted?.toList ++ emissions h := by
  rw [emissions, List.filterMap_cons]
  cases e.emitted? <;> rfl

theorem mem_emissions_iff {h : History} {id : BlockId} :
    id ∈ emissions h ↔ ∃ n : Nat, (emissions h).reverse[n]? = some id := by
  rw [← List.mem_reverse, List.mem_iff_getElem?]

end History

open History

/-- A block is as the history tells. -/
structure Told (h : History) (id : BlockId) (b : Block) : Prop where
  ownId : b.id = id
  /-- Serials count the emissions. -/
  serial : ∀ n, b.serial = some n ↔ h.emissions.reverse[n]? = some id
  successors : ∀ target, target ∈ b.successors ↔ (id, target) ∈ h.edges
  predecessors : ∀ origin, origin ∈ b.predecessors ↔ (origin, id) ∈ h.edges
  code : b.code = h.written id

/-- An assembly is as the history tells. -/
structure Chronicled (h : History) (a : Assembly) : Prop where
  order : a.order = h.emissions
  nodup : h.emissions.Nodup
  created : ∀ id, (a.block? id).isSome ↔ id ∈ h.created
  emitted : ∀ id ∈ h.emissions, id ∈ h.created
  joined : ∀ edge ∈ h.edges, edge.1 ∈ h.created ∧ edge.2 ∈ h.created
  told : ∀ id b, a.block? id = some b → Told h id b
  unwritten : ∀ id ∉ h.created, ∀ header?, h.batches id header? = []

theorem chronicled_nil : Chronicled [] {} where
  order := rfl
  nodup := List.nodup_nil
  created id := by simp [block?, History.created]
  emitted id hid := absurd hid List.not_mem_nil
  joined edge he := absurd he List.not_mem_nil
  told id b hb := by cases hb
  unwritten id _ _ := rfl

namespace Chronicled

variable {h : History} {a a' : Assembly} {e : Entry}

theorem current? (hc : Chronicled h a) : a.current? = h.emissions.head? := congrArg List.head? hc.order

theorem isNone_iff (hc : Chronicled h a) {id : BlockId} : a.block? id = none ↔ id ∉ h.created := by
  rw [← hc.created, Bool.not_eq_true, Option.isSome_eq_false_iff, Option.isNone_iff_eq_none]

/-- No block is emitted again. -/
theorem not_mem_emissions (hc : Chronicled h a) (he : Effect a e a') {id : BlockId}
    (hm : e.emitted? = some id) : id ∉ h.emissions := by
  obtain ⟨b, hb, hs⟩ := he.unsealed id hm
  intro hid
  obtain ⟨n, hn⟩ := mem_emissions_iff.1 hid
  have := ((hc.told id b hb).serial n).2 hn
  rw [hs] at this
  cases this

/-- A block that was there before is edited as the history goes on. -/
theorem told_edit (hc : Chronicled h a) (he : Effect a e a') {id : BlockId} {b : Block}
    (hb : a.block? id = some b) : Told (e :: h) id (e.edit a id b) := by
  have ht := hc.told id b hb
  have hcurrent := hc.current?
  refine ⟨?_, fun n => ?_, fun target => ?_, fun origin => ?_, ?_⟩
  · rw [← ht.ownId]
    exact id_edged ..
  · rw [Entry.edit, emissions_cons]
    cases hm : e.emitted? with
    | none => exact ht.serial n
    | some id' =>
      rw [Option.toList_some, List.singleton_append, getElem?_reverse_cons, ← ht.serial, hc.order]
      by_cases hid : id' = id
      · subst hid
        -- a block is emitted only once, so that nothing has told of a serial yet
        have hnone : b.serial ≠ some n := fun hn =>
          hc.not_mem_emissions he hm (mem_emissions_iff.2 ⟨n, (ht.serial n).1 hn⟩)
        simp [hnone, eq_comm]
      · simp [hid]
  · rw [Entry.edit, edges, List.mem_append, Option.mem_toList, ← hcurrent, ← ht.successors]
    exact mem_successors_edged
  · rw [Entry.edit, edges, List.mem_append, Option.mem_toList, ← hcurrent, ← ht.predecessors]
    exact mem_predecessors_edged
  · rw [written_cons, ← hcurrent, ← ht.code]
    rfl

/-- A block that is new has not been touched. -/
theorem batches_cons_of_not_mem (hc : Chronicled h a) (he : Effect a e a') {id : BlockId}
    (hid : id ∉ h.created) (header? : Option BlockId) : batches id header? (e :: h) = [] := by
  obtain ⟨hb, hh⟩ := he.unwritten id (hc.isNone_iff.2 hid)
  rw [batches, ← hc.current?, hb, hh, hc.unwritten id hid]
  rfl

theorem emitted_cons (hc : Chronicled h a) (he : Effect a e a') {id : BlockId}
    (hid : id ∈ emissions (e :: h)) : id ∈ h.created := by
  rw [emissions_cons, List.mem_append, Option.mem_toList] at hid
  rcases hid with hid | hid
  · obtain ⟨b, hb, -⟩ := he.unsealed id hid
    exact (hc.created id).1 (by rw [hb]; rfl)
  · exact hc.emitted id hid

theorem joined_cons (hc : Chronicled h a) (he : Effect a e a') {edge : BlockId × BlockId}
    (hd : edge ∈ edges (e :: h)) : edge.1 ∈ h.created ∧ edge.2 ∈ h.created := by
  rw [edges, List.mem_append, Option.mem_toList, ← hc.current?] at hd
  rcases hd with hd | hd
  · exact (he.joined edge hd).imp (hc.created _).1 (hc.created _).1
  · exact hc.joined edge hd

theorem told_fresh (hc : Chronicled h a) (he : Effect a e a') {id : BlockId} (hid : id ∉ h.created)
    (role : Role) : Told (e :: h) id ⟨id, role, none, [], .empty, .empty⟩ where
  ownId := rfl
  serial n := by
    refine iff_of_false (by simp) fun hn => hid ?_
    exact hc.emitted_cons he (mem_emissions_iff.2 ⟨n, hn⟩)
  successors target :=
    iff_of_false List.not_mem_nil fun hd => hid (hc.joined_cons he hd).1
  predecessors origin :=
    iff_of_false List.not_mem_nil fun hd => hid (hc.joined_cons he hd).2
  code := by rw [written, hc.batches_cons_of_not_mem he hid]; rfl

/-- What one call keeps. -/
theorem step (hc : Chronicled h a) (he : Effect a e a') : Chronicled (e :: h) a' where
  order := by rw [he.order, hc.order, emissions_cons]
  nodup := by
    rw [emissions_cons]
    cases hm : e.emitted? with
    | none => exact hc.nodup
    | some id => exact List.nodup_cons.2 ⟨hc.not_mem_emissions he hm, hc.nodup⟩
  created id := by
    rw [created_cons, List.mem_append, Option.mem_toList, ← hc.created]
    cases hb : a.block? id with
    | some b => simp [he.edited id b hb]
    | none =>
      refine ⟨fun h' => ?_, fun h' => ?_⟩
      · obtain ⟨b, hb'⟩ := Option.isSome_iff_exists.1 h'
        exact Or.inl (he.fresh id b hb hb').1
      · exact h'.elim (he.created id) fun h' => nomatch h'
  emitted id hid := by
    rw [created_cons]
    exact List.mem_append_right _ (hc.emitted_cons he hid)
  joined edge hd := by
    rw [created_cons]
    exact (hc.joined_cons he hd).imp (List.mem_append_right _) (List.mem_append_right _)
  told id b' hb' := by
    cases hb : a.block? id with
    | some b =>
      obtain rfl := Option.some.inj ((he.edited id b hb).symm.trans hb')
      exact hc.told_edit he hb
    | none =>
      obtain ⟨-, role, rfl⟩ := he.fresh id b' hb hb'
      exact hc.told_fresh he (hc.isNone_iff.1 hb) role
  unwritten id hid := by
    rw [created_cons, List.mem_append, not_or] at hid
    exact hc.batches_cons_of_not_mem he hid.2

end Chronicled

/-! ### Runs -/

theorem run_concat (a : Assembly) (calls : List Call) (call : Call) : a.run (calls ++ [call]) =
    ((a.run calls).1 ++ [((a.run calls).2.answer call).1], ((a.run calls).2.answer call).2) := by
  induction calls generalizing a with
  | nil => rfl
  | cons c calls ih =>
    rw [List.cons_append, run_cons, ih, run_cons]
    rfl

theorem length_run (a : Assembly) (calls : List Call) : (a.run calls).1.length = calls.length := by
  induction calls generalizing a with
  | nil => rfl
  | cons c calls ih =>
    rw [run_cons, List.length_cons, List.length_cons, ih]

/-- The assembly after calls. -/
def after (calls : List Call) : Assembly := (({} : Assembly).run calls).2

/-- The history of calls. -/
def history (calls : List Call) : History :=
  (List.zipWith Entry.mk calls (({} : Assembly).run calls).1).reverse

theorem after_concat (calls : List Call) (call : Call) :
    after (calls ++ [call]) = ((after calls).answer call).2 := by
  rw [after, run_concat, after]

theorem history_concat (calls : List Call) (call : Call) :
    history (calls ++ [call]) = ⟨call, ((after calls).answer call).1⟩ :: history calls := by
  rw [history, run_concat, List.zipWith_append (length_run _ _).symm, List.reverse_append]
  rfl

/-- What every run keeps. -/
theorem chronicled_after {calls : List Call} (h : (history calls).Named) :
    Chronicled (history calls) (after calls) := by
  induction calls using List.reverseRecOn with
  | nil => exact chronicled_nil
  | append_singleton calls call ih =>
    rw [history_concat] at h ⊢
    rw [after_concat]
    have hc := ih h.2
    exact hc.step (effect_answer (fun id hid => (hc.created id).2 (h.1 id hid))
      fun id hid => (hc.created id).2 (hc.emitted id (hc.order ▸ hid)))

/-- The jump that was there at both resolutions goes where the first one pointed it. -/
example : ((({} : Assembly).run [.create .normal, .create .normal, .prependTo ⟨0⟩ [.jump none],
      .resolveJumps ⟨0⟩ ⟨1⟩, .prependTo ⟨0⟩ [.jump none], .resolveJumps ⟨0⟩ ⟨0⟩]).2.block? ⟨0⟩).map
    Block.code = some [.jump (some ⟨0⟩), .jump (some ⟨1⟩)] := by decide

/-- What comes later leaves the history as it was. -/
theorem history_append (calls more : List Call) :
    ∃ later, history (calls ++ more) = later ++ history calls := by
  induction more using List.reverseRecOn with
  | nil => exact ⟨[], by rw [List.append_nil]; rfl⟩
  | append_singleton more call ih =>
    obtain ⟨later, hl⟩ := ih
    rw [← List.append_assoc, history_concat, hl]
    exact ⟨_ :: later, rfl⟩

namespace Chronicled

variable {h : History} {a : Assembly}

/-- The emitted blocks are there, with their serials. -/
theorem exists_serial (hc : Chronicled h a) {i : Nat} {id : BlockId} (hi : a.order[i]? = some id) :
    ∃ b, a.block? id = some b ∧ b.serial = some (a.order.length - 1 - i) := by
  rw [hc.order] at hi ⊢
  have hmem := List.mem_of_getElem? hi
  obtain ⟨b, hb⟩ := Option.isSome_iff_exists.1 ((hc.created id).2 (hc.emitted id hmem))
  refine ⟨b, hb, ((hc.told id b hb).serial _).2 ?_⟩
  have hlt : i < h.emissions.length := (List.getElem?_eq_some_iff.1 hi).1
  rw [List.getElem?_reverse (by omega), show h.emissions.length - 1 -
    (h.emissions.length - 1 - i) = i by omega, hi]

theorem sealed_iff (hc : Chronicled h a) (id : BlockId) :
    (∃ b n, a.block? id = some b ∧ b.serial = some n) ↔ id ∈ a.order := by
  constructor
  · rintro ⟨b, n, hb, hn⟩
    rw [hc.order]
    exact mem_emissions_iff.2 ⟨n, ((hc.told id b hb).serial n).1 hn⟩
  · intro hid
    obtain ⟨i, hi⟩ := List.mem_iff_getElem?.1 hid
    obtain ⟨b, hb, hs⟩ := hc.exists_serial hi
    exact ⟨b, _, hb, hs⟩

theorem edge_iff_successor (hc : Chronicled h a) (origin target : BlockId) :
    (origin, target) ∈ h.edges ↔ ∃ b, a.block? origin = some b ∧ target ∈ b.successors := by
  constructor
  · intro hd
    obtain ⟨b, hb⟩ := Option.isSome_iff_exists.1 ((hc.created origin).2 (hc.joined _ hd).1)
    exact ⟨b, hb, ((hc.told origin b hb).successors target).2 hd⟩
  · rintro ⟨b, hb, ht⟩
    exact ((hc.told origin b hb).successors target).1 ht

theorem edge_iff_predecessor (hc : Chronicled h a) (origin target : BlockId) :
    (origin, target) ∈ h.edges ↔ ∃ b, a.block? target = some b ∧ origin ∈ b.predecessors := by
  constructor
  · intro hd
    obtain ⟨b, hb⟩ := Option.isSome_iff_exists.1 ((hc.created target).2 (hc.joined _ hd).2)
    exact ⟨b, hb, ((hc.told target b hb).predecessors origin).2 hd⟩
  · rintro ⟨b, hb, ho⟩
    exact ((hc.told target b hb).predecessors origin).1 ho

/-- What was emitted before stays where it is, counted from the end. -/
theorem serial_stays {later : History} {a' : Assembly} (hc : Chronicled h a)
    (hc' : Chronicled (later ++ h) a') {id : BlockId} {b : Block} {n : Nat}
    (hb : a.block? id = some b) (hn : b.serial = some n) :
    ∃ b', a'.block? id = some b' ∧ b'.serial = some n := by
  have hn' := ((hc.told id b hb).serial n).1 hn
  have hn'' : (later ++ h).emissions.reverse[n]? = some id := by
    have happend : (later ++ h).emissions = later.emissions ++ h.emissions :=
      List.filterMap_append
    rw [happend, List.reverse_append, List.getElem?_append_left (List.getElem?_eq_some_iff.1 hn').1]
    exact hn'
  have hid := hc'.emitted id (mem_emissions_iff.2 ⟨n, hn''⟩)
  obtain ⟨b', hb'⟩ := Option.isSome_iff_exists.1 ((hc'.created id).2 hid)
  exact ⟨b', hb', ((hc'.told id b' hb').serial n).2 hn''⟩

/-! ### The finished routine -/

theorem map_id_blocks (hc : Chronicled h a) : a.blocks.map Block.id = a.order := by
  rw [blocks, List.map_filterMap]
  have hsome : ∀ id ∈ a.order, (a.block? id).map Block.id = some id := by
    intro id hid
    obtain ⟨b, _, hb, -⟩ := (hc.sealed_iff id).2 hid
    rw [hb, Option.map_some, (hc.told id b hb).ownId]
  rw [List.filterMap_congr hsome, List.filterMap_some]

variable (anchor : Signature) (parameters : List Slot) (n : Nat)

theorem entries_finish (hc : Chronicled h a) : (a.finish anchor parameters n).table.entries =
    a.blocks.map fun b => (b.id, b) := by
  refine BlockTable.entries_ofBlocks ?_
  rw [hc.map_id_blocks, hc.order]
  exact hc.nodup

theorem ownIds_finish (hc : Chronicled h a) : (a.finish anchor parameters n).OwnIds := by
  intro entry hentry
  rw [hc.entries_finish] at hentry
  obtain ⟨b, -, rfl⟩ := List.mem_map.1 hentry
  rfl

theorem blocks_finish (hc : Chronicled h a) : (a.finish anchor parameters n).blocks = a.blocks := by
  rw [Routine.blocks, BlockTable.blocks, hc.entries_finish, List.map_map]
  exact List.map_id _

theorem blockIds_finish (hc : Chronicled h a) : (a.finish anchor parameters n).blockIds = a.order := by
  rw [Routine.blockIds_eq (hc.ownIds_finish anchor parameters n), hc.blocks_finish, hc.map_id_blocks]

/-- Every block with a serial is in the routine as it is, and the others are lost. -/
theorem block?_finish (hc : Chronicled h a) (id : BlockId) :
    (a.finish anchor parameters n).block? id = (a.block? id).filter (·.serial.isSome) := by
  have hown := hc.ownIds_finish anchor parameters n
  cases hf : (a.block? id).filter (·.serial.isSome) with
  | some b =>
    obtain ⟨hb, hs⟩ := Option.filter_eq_some_iff.1 hf
    obtain ⟨k, hk⟩ := Option.isSome_iff_exists.1 hs
    have hmem : b ∈ (a.finish anchor parameters n).blocks := by
      rw [hc.blocks_finish]
      exact List.mem_filterMap.2 ⟨id, (hc.sealed_iff id).1 ⟨b, k, hb, hk⟩, hb⟩
    rw [← (hc.told id b hb).ownId]
    exact Routine.block?_of_mem hown hmem
  | none =>
    refine Option.eq_none_iff_forall_not_mem.2 fun b hb => ?_
    have hmem := Routine.mem_blocks_of_block? hb
    rw [hc.blocks_finish] at hmem
    obtain ⟨id', hid', hb'⟩ := List.mem_filterMap.1 hmem
    obtain rfl : id' = id := (hc.told id' b hb').ownId.symm.trans (Routine.id_of_block? hown hb)
    obtain ⟨b', k, hb'', hk⟩ := (hc.sealed_iff id').2 hid'
    rw [hb'', Option.filter_some, hk] at hf
    cases hf

end Chronicled

/-- **What runs keep.** -/
structure Kept (calls : List Call) : Prop where
  /-- The order is that of the emissions, and no block is in it twice. -/
  order : (after calls).order = (history calls).emissions
  nodup : (after calls).order.Nodup
  /-- The blocks that have a serial are those in the order. -/
  sealed_iff : ∀ id, (∃ b n, (after calls).block? id = some b ∧ b.serial = some n) ↔
    id ∈ (after calls).order
  /-- Serials count from the end. -/
  serial : ∀ i id, (after calls).order[i]? = some id →
    ∃ b, (after calls).block? id = some b ∧ b.serial = some ((after calls).order.length - 1 - i)
  /-- Serials stay, whatever is called later. -/
  stays : ∀ more, (history (calls ++ more)).Named → ∀ id b n, (after calls).block? id = some b →
    b.serial = some n → ∃ b', (after (calls ++ more)).block? id = some b' ∧ b'.serial = some n
  /-- Each edge that was made has two sides, and there are no others. -/
  successors : ∀ origin target, (origin, target) ∈ (history calls).edges ↔
    ∃ b, (after calls).block? origin = some b ∧ target ∈ b.successors
  predecessors : ∀ origin target, (origin, target) ∈ (history calls).edges ↔
    ∃ b, (after calls).block? target = some b ∧ origin ∈ b.predecessors
  /-- The code of a block is what was put in front of it. -/
  code : ∀ id b, (after calls).block? id = some b → b.code = (history calls).written id
  /-- The finished routine has the emitted blocks in their order, each under its own id. -/
  ids : ∀ anchor parameters n, ((after calls).finish anchor parameters n).blockIds =
    (after calls).order
  ownIds : ∀ anchor parameters n, ((after calls).finish anchor parameters n).OwnIds
  /-- Every block with a serial is in the routine as it is, and the others are lost. -/
  found : ∀ anchor parameters n id, ((after calls).finish anchor parameters n).block? id =
    ((after calls).block? id).filter (·.serial.isSome)

/-- **The blocks of an assembly**: in every run of calls that name created blocks, also if some are
refused, blocks, edges and code are what the history tells, and the finished routine has exactly the
emitted blocks. -/
theorem after_kept {calls : List Call} (h : (history calls).Named) : Kept calls := by
  have hc := chronicled_after h
  exact {
    order := hc.order
    nodup := hc.order ▸ hc.nodup
    sealed_iff := hc.sealed_iff
    serial := fun i id => hc.exists_serial
    stays := fun more hmore id b n hb hn => by
      obtain ⟨later, hl⟩ := history_append calls more
      exact hc.serial_stays (hl ▸ chronicled_after hmore) hb hn
    successors := hc.edge_iff_successor
    predecessors := hc.edge_iff_predecessor
    code := fun id b hb => (hc.told id b hb).code
    ids := hc.blockIds_finish
    ownIds := hc.ownIds_finish
    found := hc.block?_finish }

/-- Calls some of which are refused: a second emission, an empty block that is not emitted, a block that
is filled but never emitted, and jumps that are pointed somewhere twice. -/
def patching : List Call :=
  [.create .synthetic, .create .normal, .create .normal, .prepend [.leave .undefined], .emit ⟨0⟩ false,
    .prepend [.jump none], .prependTo ⟨1⟩ [.jump none, .guardpoint none], .emitUnlessEmpty ⟨2⟩ true,
    .emit ⟨1⟩ true, .emit ⟨1⟩ true, .link ⟨1⟩ ⟨2⟩, .resolveJumps ⟨1⟩ ⟨0⟩, .prepend [.jump none],
    .resolveJumps ⟨1⟩ ⟨1⟩, .prependTo ⟨2⟩ [.leave .undefined]]

/-- The routine that they are for. -/
def patched : Signature := ⟨"Sample", "patched", [], .void, .managed⟩

/-- The second block made is in front of the first one, and has an edge to each of the others. The jump that
was put in front of it last is the one that was pointed last, and the third block is lost. -/
theorem after_kept_patching : (history patching).Named ∧ Kept patching ∧
    (after patching).order = [⟨1⟩, ⟨0⟩] ∧
    (history patching).edges = [(⟨1⟩, ⟨2⟩), (⟨1⟩, ⟨0⟩)] ∧
    (∃ b, (after patching).block? ⟨1⟩ = some b ∧ b.serial = some 1 ∧
      b.code = [.jump (some ⟨1⟩), .jump (some ⟨0⟩), .guardpoint none]) ∧
    ((after patching).finish patched [] 0).block? ⟨2⟩ = none := by
  have hnamed : (history patching).Named := by decide
  have hkept := after_kept hnamed
  obtain ⟨b, hb, hserial⟩ := hkept.serial 0 ⟨1⟩ (by decide)
  have hcode : (history patching).written ⟨1⟩ =
      [.jump (some ⟨1⟩), .jump (some ⟨0⟩), .guardpoint none] := by decide
  exact ⟨hnamed, hkept, by decide, by decide, ⟨b, hb, hserial, (hkept.code ⟨1⟩ b hb).trans hcode⟩,
    (hkept.found patched [] 0 ⟨2⟩).trans (by decide)⟩

end LoopTrace.Assembly
