import LoopTrace.Proofs.Supplies
import Mathlib.Data.List.Cycle
import Mathlib.Data.Set.Finite.List
import Mathlib.Dynamics.PeriodicPts.Defs
import Mathlib.Order.Preorder.Finite

/-!
# Cycles among moves

Moves make a graph: from the slot that a move reads to the slot that it writes. If the destinations
differ, a slot is written from one slot at most, so the cycles of the graph have no slot in common
(`eq_of_chain`). The ordering never looks for them. It saves a destination when every pending one is
still read; then the reader of a reader and so on comes back to where it began (`exists_isCycle`), so
the saved slot lies on a cycle, and saving it takes that cycle from the graph and no other
(`isCycle_redirect`). A transfer takes none (`isCycle_transfer`). That is why a schedule costs one
temporary for each cycle and nothing else (`schedule_optimal`).
-/

namespace LoopTrace

namespace Move

/-! ### Chains around a cycle -/

section Chain

variable {α : Type} {r r' : α → α → Prop} {c c' : Cycle α} {a : α}

theorem chain_imp (h : c.Chain r) (himp : ∀ x ∈ c, ∀ y ∈ c, r x y → r' x y) : c.Chain r' := by
  induction c with
  | nil => exact trivial
  | cons a l =>
    rw [Cycle.chain_coe_cons] at h ⊢
    have hmem : ∀ x ∈ a :: (l ++ [a]), x ∈ (↑(a :: l) : Cycle α) := by simp [or_comm]
    exact h.imp_of_mem_imp fun x y hx hy => himp x (hmem x hx) y (hmem y hy)

/-- A cycle may be read from any of its elements on. -/
theorem exists_cons_of_mem (h : a ∈ c) : ∃ l : List α, c = ↑(a :: l) := by
  induction c with
  | nil => exact absurd h (Cycle.notMem_nil a)
  | cons b l =>
    obtain ⟨s, t, he⟩ := List.append_of_mem (Cycle.mem_coe_iff.1 h)
    refine ⟨t ++ s, ?_⟩
    rw [he]
    exact Cycle.coe_eq_coe.2 List.isRotated_append

theorem exists_next (h : c.Chain r) (ha : a ∈ c) : ∃ b ∈ c, r a b := by
  obtain ⟨l, rfl⟩ := exists_cons_of_mem ha
  rw [Cycle.chain_coe_cons] at h
  cases l with
  | nil => exact ⟨a, by simp, by simpa using h⟩
  | cons b l => exact ⟨b, by simp, (List.isChain_cons_cons.1 h).1⟩

theorem exists_previous (h : c.Chain r) (ha : a ∈ c) : ∃ b ∈ c, r b a := by
  obtain ⟨l, rfl⟩ := exists_cons_of_mem ha
  rw [Cycle.chain_ne_nil r (List.cons_ne_nil a l)] at h
  have hlast := List.getLast_mem (List.cons_ne_nil a l)
  exact ⟨_, Cycle.mem_coe_iff.2 hlast, (List.isChain_cons_cons.1 h).1⟩

/-- Neighbours on a cycle of two elements or more differ. -/
theorem chain_ne (h : c.Chain r) (hnd : c.Nodup) (hlen : 2 ≤ c.length) :
    c.Chain fun a b => r a b ∧ a ≠ b := by
  induction c with
  | nil => exact trivial
  | cons a l =>
    rw [Cycle.nodup_coe_iff] at hnd
    rw [Cycle.chain_coe_cons] at h ⊢
    have hne : List.IsChain (· ≠ ·) ((a :: l) ++ [a]) := by
      refine List.isChain_append.2 ⟨hnd.isChain, List.isChain_singleton a, ?_⟩
      intro x hx y hy he
      obtain rfl : a = y := by simpa using hy
      cases l with
      | nil => simp at hlen
      | cons b l =>
        rw [List.getLast?_cons_cons] at hx
        exact (List.nodup_cons.1 hnd).1 (he ▸ List.mem_of_getLast? hx)
    rw [List.isChain_iff_getElem] at h hne ⊢
    exact fun i hi => ⟨h i hi, hne i hi⟩

/-- Where everything leads to one thing only, a way on is told by its ends. -/
theorem path_unique (hr : ∀ a b b', r a b → r a b' → b = b') {p q : List α} {e : α} (hp : e ∉ p)
    (hq : e ∉ q) (h : List.IsChain r (a :: (p ++ [e]))) (h' : List.IsChain r (a :: (q ++ [e]))) :
    p = q := by
  induction p generalizing a q with
  | nil =>
    cases q with
    | nil => rfl
    | cons y q =>
      have := hr a e y (List.isChain_cons_cons.1 h).1 (List.isChain_cons_cons.1 h').1
      exact absurd List.mem_cons_self (this ▸ hq)
  | cons x p ih =>
    cases q with
    | nil =>
      have := hr a e x (List.isChain_cons_cons.1 h').1 (List.isChain_cons_cons.1 h).1
      exact absurd List.mem_cons_self (this ▸ hp)
    | cons y q =>
      obtain ⟨hx, h⟩ := List.isChain_cons_cons.1 h
      obtain ⟨hy, h'⟩ := List.isChain_cons_cons.1 h'
      obtain rfl := hr a x y hx hy
      rw [ih (fun hm => hp (List.mem_cons_of_mem x hm)) (fun hm => hq (List.mem_cons_of_mem x hm)) h h']

/-- Where everything comes from one thing only, cycles that have an element in common are the same. -/
theorem eq_of_chain (hr : ∀ a a' b, r a b → r a' b → a = a') (hc : c.Chain r) (hc' : c'.Chain r)
    (hnd : c.Nodup) (hnd' : c'.Nodup) (ha : a ∈ c) (ha' : a ∈ c') : c = c' := by
  obtain ⟨l, rfl⟩ := exists_cons_of_mem ha
  obtain ⟨l', rfl⟩ := exists_cons_of_mem ha'
  rw [Cycle.nodup_coe_iff] at hnd hnd'
  -- the way is unique backwards, so both cycles are walked against their direction
  have hback : ∀ {l : List α}, Cycle.Chain r (a :: l) →
      List.IsChain (fun x y => r y x) (a :: (l.reverse ++ [a])) := by
    intro l h
    have := List.isChain_reverse.2 ((Cycle.chain_coe_cons r a l).1 h)
    simpa using this
  have hl : l.reverse = l'.reverse := by
    refine path_unique (fun x y y' h h' => hr y y' x h h') ?_ ?_ (hback hc) (hback hc')
    · simpa using (List.nodup_cons.1 hnd).1
    · simpa using (List.nodup_cons.1 hnd').1
  rw [List.reverse_injective hl]

end Chain

/-! ### The graph of moves -/

/-- Some move copies the first slot to the second one. -/
def Feeds (moves : List Move) (a b : Slot) : Prop := ⟨b, .slot a⟩ ∈ moves

instance (moves : List Move) (a b : Slot) : Decidable (Feeds moves a b) :=
  inferInstanceAs (Decidable (_ ∈ moves))

/-- A cycle of two slots or more, each of which is copied to the next one. -/
structure IsCycle (moves : List Move) (c : Cycle Slot) : Prop where
  nodup : c.Nodup
  two_le_length : 2 ≤ c.length
  chain : c.Chain (Feeds moves)

variable {moves moves' pending : List Move} {c c' : Cycle Slot}

theorem feeds_unique (hdest : (moves.map destination).Nodup) (a a' b : Slot) (h : Feeds moves a b)
    (h' : Feeds moves a' b) : a = a' := by
  have := List.inj_on_of_nodup_map hdest h h' rfl
  exact Operand.slot.inj (congrArg source this)

theorem IsCycle.mono (h : IsCycle moves c)
    (himp : ∀ x ∈ c, ∀ y ∈ c, Feeds moves x y → Feeds moves' x y) : IsCycle moves' c :=
  ⟨h.nodup, h.two_le_length, chain_imp h.chain himp⟩

theorem IsCycle.eq (hdest : (moves.map destination).Nodup) (h : IsCycle moves c)
    (h' : IsCycle moves c') {s : Slot} (hs : s ∈ c) (hs' : s ∈ c') : c = c' :=
  eq_of_chain (feeds_unique hdest) h.chain h'.chain h.nodup h'.nodup hs hs'

theorem IsCycle.exists_mem (h : IsCycle moves c) : ∃ s, s ∈ c := by
  have hlen := h.two_le_length
  induction c with
  | nil => simp at hlen
  | cons a l => exact ⟨a, by simp⟩

/-- What lies on a cycle is read, and it is written. -/
theorem IsCycle.read (h : IsCycle moves c) {s : Slot} (hs : s ∈ c) : isRead moves s = true := by
  obtain ⟨b, -, hb⟩ := exists_next h.chain hs
  exact isRead_iff.2 ⟨_, hb, rfl⟩

theorem IsCycle.written (h : IsCycle moves c) {s : Slot} (hs : s ∈ c) :
    ∃ m ∈ moves, m.destination = s := by
  obtain ⟨a, -, ha⟩ := exists_previous h.chain hs
  exact ⟨_, ha, rfl⟩

theorem not_isCycle_nil : ¬ IsCycle [] c := fun h => by
  obtain ⟨s, hs⟩ := h.exists_mem
  obtain ⟨m, hm, -⟩ := h.written hs
  exact List.not_mem_nil hm

/-- Moves of slots to themselves are on no cycle. -/
theorem isCycle_proper : IsCycle (proper moves) c ↔ IsCycle moves c := by
  refine ⟨fun h => h.mono fun x _ y _ hf => (mem_proper.1 hf).1, fun h => ?_⟩
  refine ⟨h.nodup, h.two_le_length, ?_⟩
  refine chain_imp (chain_ne h.chain h.nodup h.two_le_length) fun x _ y _ ⟨hf, hne⟩ => ?_
  exact mem_proper.2 ⟨hf, fun hr => hne (Operand.slot.inj hr)⟩

/-- A slot on a cycle can be reached from itself. -/
theorem IsCycle.transGen (h : IsCycle moves c) {s : Slot} (hs : s ∈ c) :
    Relation.TransGen (fun a b => Feeds moves a b ∧ a ≠ b) s s := by
  have hchain : c.Chain (Relation.TransGen fun a b => Feeds moves a b ∧ a ≠ b) :=
    (chain_ne h.chain h.nodup h.two_le_length).imp fun _ _ => Relation.TransGen.single
  exact Cycle.chain_iff_pairwise.1 hchain s hs s hs

/-! ### What a step does to the cycles -/

/-- A move that nothing reads behind is on no cycle. -/
theorem isCycle_transfer {a b : List Move} {ready : Move}
    (unread : isRead (a ++ ready :: b) ready.destination = false) :
    IsCycle (a ++ b) c ↔ IsCycle (a ++ ready :: b) c := by
  refine ⟨fun h => h.mono fun x _ y _ hf => (sublist_middle a b ready).subset hf, fun h => ?_⟩
  refine h.mono fun x _ y hy hf => ?_
  rcases List.mem_append.1 hf with hm | hm
  · exact List.mem_append_left b hm
  · rcases List.mem_cons.1 hm with rfl | hm
    · have := h.read hy
      rw [unread] at this
      cases this
    · exact List.mem_append_right a hm

/-- Saving a slot takes the cycle that it lies on, and no other. -/
theorem isCycle_redirect {saved temporary : Slot} (hnew : ∀ m ∈ pending, m.destination ≠ temporary)
    (hne : temporary ≠ saved) :
    IsCycle (redirect saved temporary pending) c ↔ IsCycle pending c ∧ saved ∉ c := by
  constructor
  · intro h
    have hsaved : saved ∉ c := fun hs => by
      have := h.read hs
      rw [isRead_redirect hne] at this
      cases this
    refine ⟨h.mono fun x hx y _ hf => ?_, hsaved⟩
    obtain ⟨⟨d, source⟩, hm, rfl, hs⟩ := mem_redirect.1 hf
    dsimp only at hs
    split at hs
    · -- the temporary is nobody's destination
      obtain rfl := Operand.slot.inj hs
      obtain ⟨m', hm', hd'⟩ := h.written hx
      obtain ⟨m, hm, hd, -⟩ := mem_redirect.1 hm'
      exact absurd (hd ▸ hd') (hnew m hm)
    · subst hs
      exact hm
  · rintro ⟨h, hs⟩
    refine h.mono fun x hx y _ hf => mem_redirect.2 ⟨_, hf, rfl, ?_⟩
    have hx' : Operand.slot x ≠ .slot saved := fun he => hs (Operand.slot.inj he ▸ hx)
    exact (if_neg hx').symm

/-! ### When no move is ready -/

/-- Where the first move that reads a slot takes it, or the slot itself if none does. -/
def onward (pending : List Move) (s : Slot) : Slot :=
  ((pending.find? fun m => m.source = .slot s).map destination).getD s

theorem onward_of_read {s : Slot} (h : isRead pending s = true) : Feeds pending s (onward pending s) := by
  rw [onward]
  cases hf : pending.find? fun m => m.source = .slot s with
  | none =>
    obtain ⟨m, hm, hs⟩ := isRead_iff.1 h
    exact absurd hs (by simpa using List.find?_eq_none.1 hf m hm)
  | some m =>
    have hs : m.source = .slot s := by simpa using List.find?_some hf
    have hm := List.mem_of_find?_eq_some hf
    obtain ⟨d, source⟩ := m
    obtain rfl : source = .slot s := hs
    exact hm

theorem onward_of_not_read {s : Slot} (h : isRead pending s = false) : onward pending s = s := by
  have hf : pending.find? (fun m => m.source = .slot s) = none := by
    refine List.find?_eq_none.2 fun m hm hs => ?_
    have := isRead_iff.2 ⟨m, hm, by simpa using hs⟩
    rw [h] at this
    cases this
  rw [onward, hf]
  rfl

/-- If every destination is read, no two slots are taken to the same place. -/
theorem onward_injective (hdest : (pending.map destination).Nodup)
    (hall : ∀ m ∈ pending, isRead pending m.destination = true) :
    Function.Injective (onward pending) := by
  -- a slot that nothing reads stays, and it is no destination
  have hmixed : ∀ {a b}, isRead pending a = true → isRead pending b = false →
      onward pending a ≠ onward pending b := by
    intro a b ha hb he
    have := hall _ (onward_of_read ha)
    rw [he, onward_of_not_read hb, hb] at this
    cases this
  intro a b he
  cases ha : isRead pending a <;> cases hb : isRead pending b
  · rwa [onward_of_not_read ha, onward_of_not_read hb] at he
  · exact absurd he.symm (hmixed hb ha)
  · exact absurd he (hmixed ha hb)
  · exact feeds_unique hdest a b _ (onward_of_read ha) (he ▸ onward_of_read hb)

/-- If every destination is read, each of them lies on a cycle: going on from it ends where it
began. -/
theorem exists_isCycle (hdest : (pending.map destination).Nodup)
    (hall : ∀ m ∈ pending, isRead pending m.destination = true)
    (hproper : ∀ m ∈ pending, ¬ m.IsRedundant) {first : Move} (hfirst : first ∈ pending) :
    ∃ c, IsCycle pending c ∧ first.destination ∈ c := by
  have hread : ∀ n, isRead pending ((onward pending)^[n] first.destination) = true := by
    intro n
    induction n with
    | zero => exact hall first hfirst
    | succ n ih =>
      rw [Function.iterate_succ_apply']
      exact hall _ (onward_of_read ih)
  have hfeeds : ∀ n, Feeds pending ((onward pending)^[n] first.destination)
      ((onward pending)^[n + 1] first.destination) := by
    intro n
    rw [Function.iterate_succ_apply']
    exact onward_of_read (hread n)
  -- destinations are finitely many, so some place is come to twice; then so is the first one
  have hperiodic : first.destination ∈ Function.periodicPts (onward pending) := by
    have hmem : ∀ n, (onward pending)^[n + 1] first.destination ∈
        {s | s ∈ pending.map destination} := fun n => List.mem_map.2 ⟨_, hfeeds n, rfl⟩
    obtain ⟨i, j, hij, he⟩ := (List.finite_toSet _).exists_lt_map_eq_of_forall_mem hmem
    refine Function.mk_mem_periodicPts (Nat.sub_pos_of_lt (Nat.succ_lt_succ hij)) ?_
    exact Function.iterate_cancel (onward_injective hdest hall) he.symm
  refine ⟨Function.periodicOrbit (onward pending) first.destination,
    ⟨Function.nodup_periodicOrbit, Cycle.length_nontrivial ?_, ?_⟩,
    Function.self_mem_periodicOrbit hperiodic⟩
  · refine ⟨_, _, fun he => ?_, Function.self_mem_periodicOrbit hperiodic,
      Function.iterate_mem_periodicOrbit hperiodic 1⟩
    exact hproper _ (hfeeds 0) (congrArg Operand.slot he)
  · exact (Function.periodicOrbit_chain' _ hperiodic).2 hfeeds

/-! ### The cost of a schedule -/

/-- A loan is spent on a cycle: a slot of the cycle, whose kind was asked for, is saved into it. -/
def Spent (steps : List Step) (c : Cycle Slot) (loan : Loan) : Prop :=
  ∃ saved ∈ c, loan.kind = saved.kind ∧ .save saved loan.slot ∈ steps

theorem Spent.cons {steps : List Step} {loan : Loan} (step : Step) (h : Spent steps c loan) :
    Spent (step :: steps) c loan :=
  let ⟨saved, hs, hkind, hm⟩ := h
  ⟨saved, hs, hkind, List.mem_cons_of_mem step hm⟩

theorem proper_redirect {saved temporary : Slot} (hproper : ∀ m ∈ pending, ¬ m.IsRedundant)
    (hnew : ∀ m ∈ pending, m.destination ≠ temporary) :
    ∀ m ∈ redirect saved temporary pending, ¬ m.IsRedundant := by
  intro m' hm' hr
  obtain ⟨m, hm, hd, hs⟩ := mem_redirect.1 hm'
  rw [IsRedundant, hs, hd] at hr
  split at hr
  · exact hnew m hm (Operand.slot.inj hr).symm
  · exact hproper m hm hr

/-- Temporaries are lent one for each cycle. -/
theorem Exhausts.cycles {steps : List Step} (h : Exhausts pending steps)
    (hdest : (pending.map destination).Nodup) (hproper : ∀ m ∈ pending, ¬ m.IsRedundant)
    (hfresh : Fresh pending (temporaries steps)) :
    ∃ cycles : List (Cycle Slot), cycles.Nodup ∧ (∀ c, c ∈ cycles ↔ IsCycle pending c) ∧
      List.Forall₂ (Spent steps) cycles (loans steps) := by
  induction h with
  | done => exact ⟨[], List.nodup_nil, fun c => by simp [not_isCycle_nil], .nil⟩
  | @transfer pending others ready steps next rest ih =>
    obtain ⟨hunread, a, b, rfl, rfl⟩ := takeReady_eq_some next
    have hsub := sublist_middle a b ready
    obtain ⟨cycles, hnd, hmem, hspent⟩ := ih (hdest.sublist (hsub.map destination))
      (fun m hm => hproper m (hsub.subset hm)) (hfresh.subset hsub.subset)
    refine ⟨cycles, hnd, fun c => (hmem c).trans (isCycle_transfer hunread), ?_⟩
    exact hspent.imp fun c loan h => h.cons (.transfer ready)
  | @save first others steps temporary stuck rest ih =>
    have hnew : ∀ m ∈ first :: others, m.destination ≠ temporary := fun m hm he =>
      hfresh.destination m hm (List.mem_cons.2 (Or.inl he))
    have hne : temporary ≠ first.destination := (hnew first List.mem_cons_self).symm
    obtain ⟨cycles, hnd, hmem, hspent⟩ := ih (by rwa [map_destination_redirect])
      (proper_redirect hproper hnew) (hfresh.redirect first.destination)
    obtain ⟨c₀, hc₀, hfirst⟩ :=
      exists_isCycle hdest (takeReady_eq_none stuck) hproper List.mem_cons_self
    -- the cycle of the slot that is saved is counted here, the others are left for the rest
    refine ⟨c₀ :: cycles, List.nodup_cons.2 ⟨fun hm => ?_, hnd⟩, fun c => ?_, ?_⟩
    · exact ((isCycle_redirect hnew hne).1 ((hmem c₀).1 hm)).2 hfirst
    · rw [List.mem_cons, hmem, isCycle_redirect hnew hne]
      constructor
      · rintro (rfl | ⟨hc, -⟩)
        · exact hc₀
        · exact hc
      · intro hc
        by_cases hs : first.destination ∈ c
        · exact Or.inl (hc.eq hdest hc₀ hs hfirst)
        · exact Or.inr ⟨hc, hs⟩
    · refine .cons ⟨first.destination, hfirst, rfl, List.mem_cons_self⟩ ?_
      exact hspent.imp fun c loan h => h.cons _

/-- The steps carry the moves out at the least cost: one temporary for each cycle, and each slot written
once. -/
structure Optimal (moves : List Move) (steps : List Step) (loans : List Loan) : Prop where
  /-- The loans are spent one on each cycle, and there is a step for each move of a slot to another one
  and for each cycle. -/
  cycles : ∃ cycles : List (Cycle Slot), cycles.Nodup ∧ (∀ c, c ∈ cycles ↔ IsCycle moves c) ∧
    List.Forall₂ (Spent steps) cycles loans ∧
    steps.length = (proper moves).length + cycles.length
  acyclic : (∀ s, ¬ Relation.TransGen (fun a b => Feeds moves a b ∧ a ≠ b) s s) → loans = []
  destination : ∀ m ∈ moves, ¬ m.IsRedundant →
    (steps.map fun step => step.move.destination).count m.destination = 1
  temporary : ∀ loan ∈ loans, (steps.map fun step => step.move.destination).count loan.slot = 1

/-- **A schedule has the least cost**, under the assumptions that it works under. -/
theorem schedule_optimal {σ : Type} {supply : Kind → StateM σ Slot} {note : Step → StateM σ Unit}
    (s : σ) (moves : List Move) (hdest : (moves.map destination).Nodup)
    (hfresh : Fresh moves ((lent supply note s moves).map Loan.slot)) :
    Optimal moves ((schedule supply note moves).run s).1 (lent supply note s moves) := by
  rw [loans_lent] at hfresh ⊢
  rw [map_slot_loans] at hfresh
  have hexhausts := schedule_exhausts hfresh
  generalize ((schedule supply note moves).run s).1 = steps at hfresh hexhausts ⊢
  have hdest' := nodup_destination_proper hdest
  obtain ⟨cycles, hnd, hmem, hspent⟩ := hexhausts.cycles hdest'
    (fun m hm => (mem_proper.1 hm).2) hfresh.proper
  have hcycle : ∀ c, c ∈ cycles ↔ IsCycle moves c := fun c => (hmem c).trans isCycle_proper
  have hperm := hexhausts.sequence.perm_destination
  -- destinations are new to one another and to the temporaries, so no slot is written twice
  have hwritten : (steps.map fun step => step.move.destination).Nodup := by
    refine hperm.nodup_iff.2 (List.nodup_append.2 ⟨hdest', hfresh.nodup, fun d hd t ht he => ?_⟩)
    obtain ⟨m, hm, rfl⟩ := List.mem_map.1 hd
    exact hfresh.proper.destination m hm (he ▸ ht)
  refine ⟨⟨cycles, hnd, hcycle, hspent, ?_⟩, fun hacyclic => ?_, fun m hm hr => ?_,
    fun loan hloan => ?_⟩
  · rw [hexhausts.sequence.length_eq, ← map_slot_loans, List.length_map, hspent.length_eq]
  · have hnil : cycles = [] := by
      refine List.eq_nil_iff_forall_not_mem.2 fun c hc => ?_
      obtain ⟨s, hs⟩ := ((hcycle c).1 hc).exists_mem
      exact hacyclic s (((hcycle c).1 hc).transGen hs)
    rw [hnil] at hspent
    exact List.forall₂_nil_left_iff.1 hspent
  · refine List.count_eq_one_of_mem hwritten (hperm.mem_iff.2 (List.mem_append_left _ ?_))
    exact List.mem_map_of_mem (mem_proper.2 ⟨hm, hr⟩)
  · refine List.count_eq_one_of_mem hwritten (hperm.mem_iff.2 (List.mem_append_right _ ?_))
    rw [← map_slot_loans]
    exact List.mem_map_of_mem hloan

theorem schedule_optimal_braid :
    (braid.map destination).Nodup ∧
    Fresh braid ((lent numbering (fun _ => pure ()) 20 braid).map Loan.slot) ∧
    Optimal braid ((schedule numbering (fun _ => pure ()) braid).run 20).1
      (lent numbering (fun _ => pure ()) 20 braid) :=
  ⟨by decide, by decide, schedule_optimal 20 braid (by decide) (by decide)⟩

-- one temporary for the swap and one for the cycle of three
example : lent numbering (fun _ => pure ()) 20 braid =
    [⟨.int, ⟨.int, 20⟩⟩, ⟨.int, ⟨.int, 21⟩⟩] := by
  decide

end Move

end LoopTrace
