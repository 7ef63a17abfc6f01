import LoopTrace.Pool.Basic
import LoopTrace.Proofs.Tables
import Mathlib.Data.List.Nodup

/-!
# What a pool keeps

A sound pool binds no two values to one slot, keeps bound slots apart from those to hand out again,
and mints only slots that are new to it. Handing out, binding, releasing and giving back keep it
sound as long as no released value is asked for.

Two relations say what becomes of bindings. `Extends` is what handing out slots to values does:
bindings stay, new ones come in. `Leaves` is what releasing one value does, bound or not.
-/

namespace LoopTrace.Pool

/-- What holds of a pool at all times. -/
structure Sound (p : Pool) : Prop where
  /-- No value has two slots. -/
  keys : (p.bindings.map Prod.fst).Nodup
  /-- No slot holds two values. -/
  slots : p.bound.Nodup
  /-- No slot is to be handed out twice. -/
  free : p.free.Nodup
  /-- A slot to hand out holds no value. -/
  apart : ∀ s ∈ p.bound, s ∉ p.free
  /-- The next serial is new. -/
  minted : ∀ s, s ∈ p.bound ∨ s ∈ p.free → s.serial < p.next
  /-- Released values are not bound. -/
  released : ∀ v ∈ p.released, p.lookup v = none

/-- A slot that the pool has handed out and knows nothing of any more. -/
structure Reserved (p : Pool) (s : Slot) : Prop where
  bound : s ∉ p.bound
  free : s ∉ p.free
  minted : s.serial < p.next

/-! ### Bindings -/

theorem mem_bound_of_lookup {p : Pool} {v : ValueId} {s : Slot} (h : p.lookup v = some s) :
    s ∈ p.bound :=
  List.mem_map.2 ⟨_, mem_of_lookup h, rfl⟩

namespace Sound

variable {p : Pool}

theorem exists_lookup (h : p.Sound) {s : Slot} (hs : s ∈ p.bound) : ∃ v, p.lookup v = some s := by
  obtain ⟨⟨v, s'⟩, hm, rfl⟩ := List.mem_map.1 hs
  exact ⟨v, lookup_of_mem h.keys hm⟩

theorem lookup_inj (h : p.Sound) {v v' : ValueId} {s : Slot} (hv : p.lookup v = some s)
    (hv' : p.lookup v' = some s) : v = v' := by
  have he := List.inj_on_of_nodup_map h.slots (mem_of_lookup hv) (mem_of_lookup hv') rfl
  exact (Prod.mk.inj he).1

theorem serial_lt (h : p.Sound) {v : ValueId} {s : Slot} (hv : p.lookup v = some s) :
    s.serial < p.next :=
  h.minted s (Or.inl (mem_bound_of_lookup hv))

end Sound

/-! ### Handing out -/

theorem reusable?_eq_some {p : Pool} {kind : Kind} {mode : Mode} {s : Slot}
    (h : p.reusable? kind mode = some s) : mode = .shared ∧ s ∈ p.free ∧ s.kind = kind := by
  cases mode with
  | exclusive => simp [reusable?] at h
  | shared =>
    rw [reusable?] at h
    split at h
    · exact ⟨rfl, List.mem_of_find?_eq_some h, by simpa using List.find?_some h⟩
    · cases h

/-- What handing out a slot does: it takes one of the slots to hand out again, or it mints one. -/
theorem allocate_cases (p : Pool) (kind : Kind) (mode : Mode) :
    (∃ s, p.allocate kind mode = (s, { p with free := p.free.erase s }) ∧ mode = .shared ∧
      s ∈ p.free ∧ s.kind = kind) ∨
    p.allocate kind mode = (⟨kind, p.next⟩, { p with next := p.next + 1 }) := by
  rw [allocate]
  cases h : p.reusable? kind mode with
  | none => exact Or.inr rfl
  | some s =>
    obtain ⟨hm, hf, hk⟩ := reusable?_eq_some h
    exact Or.inl ⟨s, rfl, hm, hf, hk⟩

theorem bindings_allocate (p : Pool) (kind : Kind) (mode : Mode) :
    (p.allocate kind mode).2.bindings = p.bindings := by
  rcases allocate_cases p kind mode with ⟨s, ha, -⟩ | ha <;> rw [ha]

theorem released_allocate (p : Pool) (kind : Kind) (mode : Mode) :
    (p.allocate kind mode).2.released = p.released := by
  rcases allocate_cases p kind mode with ⟨s, ha, -⟩ | ha <;> rw [ha]

theorem reuse_allocate (p : Pool) (kind : Kind) (mode : Mode) :
    (p.allocate kind mode).2.reuse = p.reuse := by
  rcases allocate_cases p kind mode with ⟨s, ha, -⟩ | ha <;> rw [ha]

theorem allocate_of_free_nil {p : Pool} (h : p.free = []) (kind : Kind) (mode : Mode) :
    p.allocate kind mode = (⟨kind, p.next⟩, { p with next := p.next + 1 }) := by
  rcases allocate_cases p kind mode with ⟨s, -, -, hs, -⟩ | he
  · simp [h] at hs
  · exact he

/-- The slot that is handed out is of the kind asked for, and reserved until it is bound; all else
is as before. -/
theorem Sound.allocate {p q : Pool} (h : p.Sound) {kind : Kind} {mode : Mode} {s : Slot}
    (he : p.allocate kind mode = (s, q)) :
    q.Sound ∧ q.Reserved s ∧ s ∉ p.bound ∧ s.kind = kind ∧ q.bindings = p.bindings ∧
      q.released = p.released ∧ p.next ≤ q.next ∧ q.free ⊆ p.free ∧
      (mode = .exclusive ∨ p.free = [] → s.serial = p.next) := by
  rcases allocate_cases p kind mode with ⟨s', he', hm, hf, hk⟩ | he'
  · obtain ⟨rfl, rfl⟩ := Prod.mk.inj (he.symm.trans he')
    have hsub : p.free.erase s ⊆ p.free := List.erase_subset
    refine ⟨⟨h.keys, h.slots, h.free.erase s, fun x hx hxf => h.apart x hx (hsub hxf),
      fun x hx => ?_, h.released⟩,
      ⟨fun hb => h.apart s hb hf, fun hb => ?_, h.minted s (Or.inr hf)⟩,
      fun hb => h.apart s hb hf, hk, rfl, rfl, Nat.le_refl _, hsub, fun hx => ?_⟩
    · exact h.minted x (hx.imp id fun hx => hsub hx)
    · exact absurd hb h.free.not_mem_erase
    · rcases hx with hx | hx
      · rw [hm] at hx; cases hx
      · rw [hx] at hf; cases hf
  · obtain ⟨rfl, rfl⟩ := Prod.mk.inj (he.symm.trans he')
    have hnew : ∀ x, x ∈ p.bound ∨ x ∈ p.free → x ≠ ⟨kind, p.next⟩ := by
      rintro x hx rfl
      exact absurd (h.minted _ hx) (Nat.lt_irrefl _)
    refine ⟨⟨h.keys, h.slots, h.free, h.apart, fun x hx => Nat.lt_succ_of_lt (h.minted x hx),
      h.released⟩,
      ⟨fun hb => hnew _ (Or.inl hb) rfl, fun hb => hnew _ (Or.inr hb) rfl, Nat.lt_succ_self _⟩,
      fun hb => hnew _ (Or.inl hb) rfl, rfl, rfl, rfl, Nat.le_succ _, List.Subset.refl _,
      fun _ => rfl⟩

/-- If a slot is made, it is the one that is handed out. -/
theorem made_allocate {p q : Pool} {kind : Kind} {mode : Mode} {s : Slot}
    (he : p.allocate kind mode = (s, q)) {n : Nat} (hle : p.next ≤ n) (hlt : n < q.next) :
    s.serial = n := by
  rcases allocate_cases p kind mode with ⟨s', he', -⟩ | he' <;>
    obtain ⟨rfl, rfl⟩ := Prod.mk.inj (he.symm.trans he')
  · exact absurd hlt (Nat.not_lt.2 hle)
  · exact Nat.le_antisymm hle (Nat.le_of_lt_succ hlt)

theorem Reserved.allocate {p q : Pool} {kind : Kind} {mode : Mode} {s x : Slot}
    (he : p.allocate kind mode = (s, q)) (h : p.Reserved x) : q.Reserved x ∧ x ≠ s := by
  rcases allocate_cases p kind mode with ⟨s', he', -, hf, -⟩ | he'
  · obtain ⟨rfl, rfl⟩ := Prod.mk.inj (he.symm.trans he')
    exact ⟨⟨h.bound, fun hx => h.free (List.erase_subset hx), h.minted⟩, fun hx => h.free (hx ▸ hf)⟩
  · obtain ⟨rfl, rfl⟩ := Prod.mk.inj (he.symm.trans he')
    refine ⟨⟨h.bound, h.free, Nat.lt_succ_of_lt h.minted⟩, ?_⟩
    rintro rfl
    exact absurd h.minted (Nat.lt_irrefl _)

/-! ### Binding -/

/-- Bindings stay, and new ones come in. -/
structure Extends (p q : Pool) : Prop where
  kept : ∀ {v s}, p.lookup v = some s → q.lookup v = some s
  released : q.released = p.released
  next : p.next ≤ q.next
  reserved : ∀ {s}, p.Reserved s → q.Reserved s

theorem Extends.refl (p : Pool) : p.Extends p := ⟨id, rfl, Nat.le_refl _, id⟩

theorem Extends.trans {p q o : Pool} (h : p.Extends q) (h' : q.Extends o) : p.Extends o :=
  ⟨fun hv => h'.kept (h.kept hv), h'.released.trans h.released, Nat.le_trans h.next h'.next,
    fun hs => h'.reserved (h.reserved hs)⟩

theorem lookup_bound (p : Pool) (v : ValueId) (s : Slot) (u : ValueId) :
    ({ p with bindings := (v, s) :: p.bindings } : Pool).lookup u =
      if u = v then some s else p.lookup u :=
  lookup_cons_eq _ _ _ _

/-- A value that is neither bound nor released can be bound to a reserved slot. -/
theorem bind_spec {p : Pool} (h : p.Sound) {v : ValueId} {s : Slot} (hv : v ∉ p.released)
    (hl : p.lookup v = none) (hs : p.Reserved s) :
    p.bind v s = .ok { p with bindings := (v, s) :: p.bindings } ∧
      ({ p with bindings := (v, s) :: p.bindings } : Pool).Sound := by
  refine ⟨by rw [bind, if_neg hv, if_neg (by rw [hl]; simp), if_neg hs.bound],
    ⟨?_, ?_, h.free, ?_, ?_, ?_⟩⟩
  · rw [List.map_cons, List.nodup_cons]
    refine ⟨fun hm => ?_, h.keys⟩
    obtain ⟨⟨v', s'⟩, hm', rfl⟩ := List.mem_map.1 hm
    exact Option.some_ne_none s' ((lookup_of_mem h.keys hm').symm.trans hl)
  · exact List.nodup_cons.2 ⟨hs.bound, h.slots⟩
  · intro x hx
    rcases List.mem_cons.1 hx with rfl | hx
    · exact hs.free
    · exact h.apart x hx
  · rintro x (hx | hx)
    · rcases List.mem_cons.1 hx with rfl | hx
      · exact hs.minted
      · exact h.minted x (Or.inl hx)
    · exact h.minted x (Or.inr hx)
  · intro u hu
    have hne : u ≠ v := fun e => hv (e ▸ hu)
    rw [lookup_bound, if_neg hne]
    exact h.released u hu

/-- What asking for the slot of a value does. -/
structure Serves (p q : Pool) (v : ValueId) (kind : Kind) (mode : Mode) (s : Slot) : Prop where
  sound : q.Sound
  extension : p.Extends q
  lookup : q.lookup v = some s
  others : ∀ u, u ≠ v → q.lookup u = p.lookup u
  kind : p.lookup v = none → s.kind = kind
  fresh : p.lookup v = none → mode = .exclusive ∨ p.free = [] → s.serial = p.next
  free : q.free ⊆ p.free
  /-- If a slot is made, it is this one. -/
  made : ∀ {n}, p.next ≤ n → n < q.next → s.serial = n

/-- A value that has not been released gets a slot. -/
theorem allocateFor_spec {p : Pool} (h : p.Sound) {v : ValueId} (hv : v ∉ p.released) (kind : Kind)
    (mode : Mode) : ∃ s q, p.allocateFor v kind mode = (.ok s, q) ∧ p.Serves q v kind mode s := by
  rw [allocateFor]
  cases hl : p.lookup v with
  | some s =>
    have hn : p.lookup v ≠ none := by rw [hl]; simp
    exact ⟨s, p, rfl, h, .refl p, hl, fun _ _ => rfl, fun h => absurd h hn, fun h => absurd h hn,
      List.Subset.refl _, fun hle hlt => absurd hlt (Nat.not_lt.2 hle)⟩
  | none =>
    cases ha : p.allocate kind mode with
    | mk s q =>
      obtain ⟨hq, hs, -, hk, hb, hr, hn, hf, hx⟩ := h.allocate ha
      have hlq : ∀ u, q.lookup u = p.lookup u := fun u => by rw [lookup, lookup, hb]
      obtain ⟨hbind, hq'⟩ := bind_spec hq (hr ▸ hv) (by rw [hlq, hl]) hs
      refine ⟨s, { q with bindings := (v, s) :: q.bindings }, by simp only [hbind], hq', ?_, ?_, ?_,
        fun _ => hk, fun _ => hx, hf, made_allocate ha⟩
      · refine ⟨fun {u x} hu => ?_, hr, hn, fun {x} hxr => ?_⟩
        · have hne : u ≠ v := fun e => by rw [e, hl] at hu; cases hu
          rw [lookup_bound, if_neg hne, hlq, hu]
        · obtain ⟨hxq, hxs⟩ := hxr.allocate ha
          exact ⟨fun hxb => (List.mem_cons.1 hxb).elim hxs hxq.bound, hxq.free, hxq.minted⟩
      · rw [lookup_bound, if_pos rfl]
      · intro u hu
        rw [lookup_bound, if_neg hu, hlq]

/-! ### Releasing and giving back -/

/-- What releasing a bound value does. -/
structure Frees (p q : Pool) (v : ValueId) (s : Slot) : Prop where
  sound : q.Sound
  lookup : ∀ u, q.lookup u = if u = v then none else p.lookup u
  released : q.released = v :: p.released
  next : q.next = p.next
  free : q.free = s :: p.free
  reserved : ∀ {x}, p.Reserved x → q.Reserved x

theorem release_spec {p : Pool} (h : p.Sound) {v : ValueId} {s : Slot} (hv : p.lookup v = some s) :
    ∃ q, p.release v = .ok (s, q) ∧ p.Frees q v s := by
  have hs := mem_bound_of_lookup hv
  have hsub : ∀ x, x ∈ (p.bindings.filter (·.1 ≠ v)).map Prod.snd → x ∈ p.bound ∧ x ≠ s := by
    intro x hx
    obtain ⟨⟨u, x'⟩, hm, rfl⟩ := List.mem_map.1 hx
    obtain ⟨hm, hu⟩ := List.mem_filter.1 hm
    refine ⟨List.mem_map_of_mem hm, fun he => ?_⟩
    have hu' : p.lookup u = some s := lookup_of_mem h.keys (he ▸ hm)
    exact (of_decide_eq_true hu) (h.lookup_inj hu' hv)
  rw [release, hv]
  refine ⟨_, rfl, ⟨?_, ?_, ?_, ?_, ?_, ?_⟩, fun u => lookup_filter_ne _ _ _, rfl, rfl, rfl,
    fun {x} hx => ⟨fun hb => ?_, fun hf => ?_, hx.minted⟩⟩
  · exact h.keys.sublist (List.filter_sublist.map _)
  · exact h.slots.sublist (List.filter_sublist.map _)
  · exact List.nodup_cons.2 ⟨h.apart s hs, h.free⟩
  · intro x hx hxf
    obtain ⟨hxb, hxs⟩ := hsub x hx
    exact (List.mem_cons.1 hxf).elim hxs (h.apart x hxb)
  · rintro x (hx | hx)
    · exact h.minted x (Or.inl (hsub x hx).1)
    · rcases List.mem_cons.1 hx with rfl | hx
      · exact h.minted _ (Or.inl hs)
      · exact h.minted x (Or.inr hx)
  · intro u hu
    show List.lookup u (p.bindings.filter (·.1 ≠ v)) = none
    rw [lookup_filter_ne]
    split
    · rfl
    · next hne => exact h.released u ((List.mem_cons.1 hu).resolve_left hne)
  · exact hx.bound (hsub x hb).1
  · rcases List.mem_cons.1 hf with rfl | hf
    · exact hx.bound hs
    · exact hx.free hf

/-- The pool after a value has been released, if it was bound. -/
def leave (p : Pool) (v : ValueId) : Pool :=
  match p.release v with
  | .ok (_, q) => q
  | .error _ => p

/-- What releasing a value does, bound or not. -/
structure Leaves (p : Pool) (v : ValueId) (q : Pool) : Prop where
  sound : q.Sound
  lookup : ∀ u, q.lookup u = if u = v then none else p.lookup u
  released : ∀ u ∈ q.released, u = v ∨ u ∈ p.released
  next : q.next = p.next
  reserved : ∀ {s}, p.Reserved s → q.Reserved s

theorem leave_leaves {p : Pool} (h : p.Sound) (v : ValueId) : p.Leaves v (p.leave v) := by
  cases hl : p.lookup v with
  | none =>
    have he : p.leave v = p := by rw [leave, release, hl]
    rw [he]
    refine ⟨h, fun u => ?_, fun _ hu => Or.inr hu, rfl, fun hs => hs⟩
    split
    · next hu => rw [hu, hl]
    · rfl
  | some s =>
    obtain ⟨q, hr, hq⟩ := release_spec h hl
    have he : p.leave v = q := by rw [leave, hr]
    rw [he]
    exact ⟨hq.sound, hq.lookup, fun u hu => List.mem_cons.1 (hq.released ▸ hu), hq.next,
      hq.reserved⟩

/-- A reserved slot can be given back. -/
theorem recycle_spec {p : Pool} (h : p.Sound) {s : Slot} (hs : p.Reserved s) :
    p.recycle s = .ok { p with free := s :: p.free } ∧
      ({ p with free := s :: p.free } : Pool).Sound := by
  refine ⟨by rw [recycle, if_neg hs.bound, if_neg hs.free], h.keys, h.slots,
    List.nodup_cons.2 ⟨hs.free, h.free⟩, fun x hx hxf => ?_, fun x hx => ?_, h.released⟩
  · rcases List.mem_cons.1 hxf with rfl | hxf
    · exact hs.bound hx
    · exact h.apart x hx hxf
  · rcases hx with hx | hx
    · exact h.minted x (Or.inl hx)
    · rcases List.mem_cons.1 hx with rfl | hx
      · exact hs.minted
      · exact h.minted x (Or.inr hx)

end LoopTrace.Pool
