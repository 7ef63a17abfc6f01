import Mathlib.Tactic.IntervalCases
import LoopTrace.Json.Token
import LoopTrace.Json.Writer

/-!
# The texts of numbers

Every number of a document is written as a numeral, so that reading always finds a number where one was
written (`Number.spells_text`). An integer of 64 bits is written in full and is the integer that its
numeral stands for (`Numeral.value_ofInteger`). A float is written with a point or a power of ten; which
float its numeral stands for is another matter, as numerals are read in two roundings.
-/

namespace LoopTrace.Json

namespace Numeral

/-- The value of a decimal digit. -/
def digit (c : Char) : Nat := c.toNat - 48

/-- Digits that may stand before the point: at least one, and no zero in front of others. -/
structure Leads (s : List Char) : Prop where
  digits : ∀ c ∈ s, c.isDigit = true
  ne_nil : s ≠ []
  head : ∀ c d t, s = c :: d :: t → digit c ≠ 0

/-- What follows the digits of a numeral: a power of ten, or nothing. -/
structure Ends (s : List Char) (power : Option Int) : Prop where
  read : power? s = some power
  chars : ∀ c ∈ s, isWordChar c = true
  head : ∀ c ∈ s.head?, c.isDigit = false ∧ c ≠ '.'

/-- The text of a numeral, which is one word. -/
structure Spells (s : List Char) (n : Numeral) : Prop where
  read : ofText? s = some n
  chars : ∀ c ∈ s, isWordChar c = true

/-- The sign in front of a numeral. -/
def sign (negative : Bool) : List Char := if negative then ['-'] else []

/-! ### Digits -/

theorem isWordChar_of_isDigit {c : Char} (h : c.isDigit = true) : isWordChar c = true := by
  simp [isWordChar, Char.isAlphanum, h]

theorem takeDigits_append {ds rest : List Char} (hds : ∀ c ∈ ds, c.isDigit = true)
    (hrest : ∀ c ∈ rest.head?, c.isDigit = false) :
    takeDigits (ds ++ rest) = (ds.map digit, rest) := by
  rw [takeDigits, List.takeWhile_append_of_pos hds, List.dropWhile_append_of_pos hds]
  cases rest with
  | nil => simp [digit]
  | cons c rest =>
    have hc : c.isDigit = false := hrest c rfl
    simp [hc, digit]

theorem takeDigits_of_digits {ds : List Char} (hds : ∀ c ∈ ds, c.isDigit = true) :
    takeDigits ds = (ds.map digit, []) := by
  have h : takeDigits (ds ++ []) = (ds.map digit, []) :=
    takeDigits_append hds fun c hc => by cases hc
  rwa [List.append_nil] at h

theorem isDigit_of_mem_toDigits {n : Nat} {c : Char} (h : c ∈ Nat.toDigits 10 n) :
    c.isDigit = true :=
  Nat.isDigit_of_mem_toDigits (by omega) (by omega) h

theorem ofDigits_map_digit (ds : List Char) (n : Nat) :
    ofDigits n (ds.map digit) = Nat.ofDigitChars 10 ds n := by
  rw [ofDigits, List.foldl_map]
  rfl

theorem ofDigits_toDigits (n : Nat) : ofDigits 0 ((Nat.toDigits 10 n).map digit) = n := by
  rw [ofDigits_map_digit]
  exact Nat.ofDigitChars_toDigits (by omega) (by omega)

/-- No zero stands in front of the digits of a number but zero. -/
theorem digit_head_toDigits {n : Nat} (hn : 0 < n) :
    ∃ c t, Nat.toDigits 10 n = c :: t ∧ digit c ≠ 0 := by
  induction n using Nat.strong_induction_on with
  | _ n ih =>
    by_cases h : n < 10
    · refine ⟨n.digitChar, [], Nat.toDigits_of_lt_base h, ?_⟩
      interval_cases n <;> decide
    · -- The last digit comes after those of the tenth, which is not zero either.
      obtain ⟨c, t, hc, hne⟩ := ih (n / 10) (by omega) (by omega)
      refine ⟨c, t ++ [(n % 10).digitChar], ?_, hne⟩
      rw [Nat.toDigits_of_base_le (by omega) (by omega), hc, List.cons_append]

theorem leads_toDigits (n : Nat) : Leads (Nat.toDigits 10 n) where
  digits _ hc := isDigit_of_mem_toDigits hc
  ne_nil := Nat.toDigits_ne_nil
  head c d t h := by
    rcases Nat.eq_zero_or_pos n with rfl | hn
    · cases h
    · obtain ⟨c', t', h', hne⟩ := digit_head_toDigits hn
      rw [h'] at h
      cases h
      exact hne

/-- Digits with more digits behind them, if the first is not zero. -/
theorem leads_append {s t : List Char} {n : Nat} (hn : 0 < n) (hs : Nat.toDigits 10 n = s ++ t)
    (hne : s ≠ []) (zeros : List Char) (hz : ∀ c ∈ zeros, c.isDigit = true) :
    Leads (s ++ zeros) where
  digits c hc := by
    rcases List.mem_append.1 hc with hc | hc
    · exact isDigit_of_mem_toDigits (n := n) (hs ▸ List.mem_append_left _ hc)
    · exact hz c hc
  ne_nil := by simp [hne]
  head c d rest h := by
    obtain ⟨c', t', h', hc'⟩ := digit_head_toDigits hn
    obtain ⟨a, s', rfl⟩ := List.exists_cons_of_ne_nil hne
    rw [hs, List.cons_append, List.cons.injEq] at h'
    rw [List.cons_append, List.cons.injEq] at h
    rw [← h.1, h'.1]
    exact hc'

/-! ### Powers of ten -/

theorem isWordChar_sign (negative : Bool) : ∀ c ∈ sign negative, isWordChar c = true := by
  cases negative <;> simp [sign, isWordChar]

theorem toList_toString_nat (n : Nat) : (toString n).toList = Nat.toDigits 10 n := by
  rw [Nat.toString_eq_ofList_toDigits, String.toList_ofList]

/-- The text of an integer: its digits, after a minus sign if it is negative. -/
theorem toList_toString (n : Int) :
    (toString n).toList = sign (n < 0) ++ Nat.toDigits 10 n.natAbs := by
  cases n with
  | ofNat m => exact toList_toString_nat m
  | negSucc m =>
    have hsign : sign (Int.negSucc m < 0) = ['-'] := by simp [sign, Int.negSucc_lt_zero]
    rw [hsign, ← toList_toString_nat]
    exact String.toList_append

theorem exists_cons_toDigits (n : Nat) :
    ∃ c t, Nat.toDigits 10 n = c :: t ∧ c.isDigit = true := by
  obtain ⟨c, t, h⟩ := List.exists_cons_of_ne_nil (Nat.toDigits_ne_nil (b := 10) (n := n))
  exact ⟨c, t, h, isDigit_of_mem_toDigits (n := n) (by rw [h]; exact List.mem_cons_self)⟩

theorem ends_nil : Ends [] none := ⟨rfl, by simp, by simp⟩

/-- A power of ten may be written out at the end. -/
theorem ends_power (n : Int) : ∃ power, Ends ('e' :: (toString n).toList) power := by
  obtain ⟨c, t, hct, hc⟩ := exists_cons_toDigits n.natAbs
  have hdigits : ∀ d ∈ c :: t, d.isDigit = true := fun d hd =>
    isDigit_of_mem_toDigits (n := n.natAbs) (by rwa [hct])
  have htake := takeDigits_of_digits hdigits
  have hminus : c ≠ '-' := by rintro rfl; cases hc
  have hplus : c ≠ '+' := by rintro rfl; cases hc
  rw [toList_toString, hct]
  refine ⟨some (if n < 0 then -(ofDigits 0 ((c :: t).map digit) : Int)
    else ofDigits 0 ((c :: t).map digit)), ?_, ?_, ?_⟩
  · by_cases hn : n < 0
    · simp [power?, sign, hn, htake]
    · simp [power?, sign, hn, htake, hminus, hplus]
  · intro d hd
    rw [List.mem_cons, List.mem_append] at hd
    rcases hd with rfl | hd | hd
    · rfl
    · exact isWordChar_sign _ d hd
    · exact isWordChar_of_isDigit (hdigits d hd)
  · intro d hd
    cases hd
    exact ⟨rfl, by decide⟩

/-! ### The parts of a numeral -/

/-- The digits at the front are not taken for a number with a zero in front. -/
theorem Leads.whole {s : List Char} (hs : Leads s) :
    (∃ c, c.isDigit = true ∧ s = [c]) ∨
      ∃ c d t, c.isDigit = true ∧ digit c ≠ 0 ∧ s = c :: d :: t := by
  obtain ⟨c, t, rfl⟩ := List.exists_cons_of_ne_nil hs.ne_nil
  have hc : c.isDigit = true := hs.digits c List.mem_cons_self
  cases t with
  | nil => exact .inl ⟨c, hc, rfl⟩
  | cons d t => exact .inr ⟨c, d, t, hc, hs.head c d t rfl, rfl⟩

theorem ofText?_integral {s tail : List Char} {power : Option Int} (hs : Leads s)
    (ht : Ends tail power) (negative : Bool) :
    ofText? (sign negative ++ (s ++ tail)) = some ⟨negative, s.map digit, [], power⟩ := by
  have htake := takeDigits_append hs.digits fun c hc => (ht.head c hc).1
  have hpoint : ∀ t, tail ≠ '.' :: t := by
    rintro t rfl
    exact (ht.head '.' rfl).2 rfl
  have hread := ht.read
  obtain ⟨c, hc, rfl⟩ | ⟨c, d, t, hc, hzero, rfl⟩ := hs.whole
  all_goals
    have hminus : c ≠ '-' := by rintro rfl; cases hc
    simp only [List.cons_append, List.nil_append, List.map_cons, List.map_nil] at htake
    cases negative <;> simp_all [ofText?, sign]

theorem ofText?_fractional {s fraction tail : List Char} {power : Option Int} (hs : Leads s)
    (hf : ∀ c ∈ fraction, c.isDigit = true) (hne : fraction ≠ []) (ht : Ends tail power)
    (negative : Bool) :
    ofText? (sign negative ++ (s ++ '.' :: (fraction ++ tail))) =
      some ⟨negative, s.map digit, fraction.map digit, power⟩ := by
  have hpoint : ∀ c ∈ ('.' :: (fraction ++ tail)).head?, c.isDigit = false := by
    intro c hc
    cases hc
    rfl
  have htake := takeDigits_append hs.digits hpoint
  have htake' := takeDigits_append hf fun c hc => (ht.head c hc).1
  have hread := ht.read
  obtain ⟨e, fraction, rfl⟩ := List.exists_cons_of_ne_nil hne
  obtain ⟨c, hc, rfl⟩ | ⟨c, d, t, hc, hzero, rfl⟩ := hs.whole
  all_goals
    have hminus : c ≠ '-' := by rintro rfl; cases hc
    simp only [List.cons_append, List.nil_append, List.map_cons, List.map_nil] at htake htake'
    cases negative <;> simp_all [ofText?, sign]

theorem Leads.integral {s tail : List Char} {power : Option Int} (hs : Leads s)
    (ht : Ends tail power) (negative : Bool) :
    Spells (sign negative ++ (s ++ tail)) ⟨negative, s.map digit, [], power⟩ where
  read := ofText?_integral hs ht negative
  chars c hc := by
    simp only [List.mem_append] at hc
    rcases hc with hc | hc | hc
    · exact isWordChar_sign negative c hc
    · exact isWordChar_of_isDigit (hs.digits c hc)
    · exact ht.chars c hc

theorem Leads.fractional {s fraction tail : List Char} {power : Option Int} (hs : Leads s)
    (hf : ∀ c ∈ fraction, c.isDigit = true) (hne : fraction ≠ []) (ht : Ends tail power)
    (negative : Bool) :
    Spells (sign negative ++ (s ++ '.' :: (fraction ++ tail)))
      ⟨negative, s.map digit, fraction.map digit, power⟩ where
  read := ofText?_fractional hs hf hne ht negative
  chars c hc := by
    simp only [List.mem_append, List.mem_cons] at hc
    rcases hc with hc | hc | rfl | hc | hc
    · exact isWordChar_sign negative c hc
    · exact isWordChar_of_isDigit (hs.digits c hc)
    · rfl
    · exact isWordChar_of_isDigit (hf c hc)
    · exact ht.chars c hc

/-! ### Integers -/

/-- The numeral of an integer written in full. -/
def ofInteger (n : Int) : Numeral := ⟨n < 0, (Nat.toDigits 10 n.natAbs).map digit, [], none⟩

theorem spells_toString (n : Int) : Spells (toString n).toList (ofInteger n) := by
  have h := (leads_toDigits n.natAbs).integral ends_nil (n < 0)
  rwa [List.append_nil, ← toList_toString] at h

/-- An integer of 64 bits is the one that its text stands for. -/
theorem value_ofInteger {n : Int} (hlow : -2 ^ 63 ≤ n) (hhigh : n < 2 ^ 64) :
    (ofInteger n).value = .number (.integer n) := by
  have hlimit : wordLimit = 2 ^ 64 := rfl
  have hshift : 1 <<< 63 = 2 ^ 63 := rfl
  have h : (ofInteger n).integer? = some n := by
    simp only [integer?, ofInteger, ofDigits_toDigits, hlimit, hshift]
    rw [if_neg (by simp)]
    by_cases hn : n < 0
    · have hbounds : n.natAbs ≠ 0 ∧ n.natAbs ≤ 2 ^ 63 := by omega
      have habs : -(n.natAbs : Int) = n := by omega
      rw [if_pos (decide_eq_true hn), if_pos hbounds, habs]
    · have hbound : n.natAbs < 2 ^ 64 := by omega
      have habs : (n.natAbs : Int) = n := by omega
      rw [if_neg (by simpa using hn), if_pos hbound, habs]
  rw [value, h]

end Numeral

end LoopTrace.Json

/-! ### Floats -/

namespace LoopTrace

open Json Json.Numeral

namespace BinaryFormat

variable {f : BinaryFormat}

theorem binade_pos : 0 < f.binade := by
  rw [binade, Nat.shiftLeft_eq]
  positivity

theorem significand_decode_pos {magnitude : Nat} (h : 0 < magnitude) :
    0 < (f.decode magnitude).significand := by
  have := f.binade_pos
  rw [decode]
  split
  · rename_i hfield
    have hlt := (Nat.div_eq_zero_iff_lt this).1 hfield
    simpa [Nat.mod_eq_of_lt hlt] using h
  · simp only
    omega

/-- The interval of a positive number lies above zero. -/
theorem interval_pos {magnitude : Nat} (h : 0 < magnitude) :
    0 < (f.interval magnitude).low ∧ 0 < (f.interval magnitude).value ∧
      0 < (f.interval magnitude).high := by
  have := f.significand_decode_pos h
  simp only [interval]
  split <;> omega

namespace Interval

variable {i : Interval}

theorem not_contains_zero (hlow : 0 < i.low) (hhigh : 0 < i.high) (grid : Int) :
    i.contains grid 0 = false := by
  have hpos : ∀ q, 0 < q → 0 < (i.common grid 0 q).2 := by
    intro q hq
    simp only [common, Nat.shiftLeft_eq, Nat.pow_eq]
    positivity
  have hzero : ∀ q, (i.common grid 0 q).1 = 0 := by
    intro q
    simp [common]
  have h := hpos _ hlow
  have h' := hpos _ hhigh
  simp only [contains, hzero]
  have hne : (i.common grid 0 i.low).2 ≠ 0 := by omega
  have hne' : 0 ≠ (i.common grid 0 i.high).2 := by omega
  simp [hne, hne']

theorem onGrid?_pos (hlow : 0 < i.low) (hhigh : 0 < i.high) {tie : Tie} {grid : Int} {units : Nat}
    (h : i.onGrid? tie grid = some units) : 0 < units := by
  have hzero := not_contains_zero hlow hhigh grid
  have hpos : ∀ n, i.contains grid n = true → 0 < n := by
    intro n hn
    rcases Nat.eq_zero_or_pos n with rfl | hn'
    · rw [hzero] at hn
      cases hn
    · exact hn'
  simp only [onGrid?] at h
  split at h
  · cases h
  · rename_i hbelow _
    cases h
    exact hpos _ hbelow
  · cases h
    exact Nat.succ_pos _
  · rename_i hbelow _
    have := hpos _ hbelow
    split at h <;> cases h <;> omega

theorem search_pos (hlow : 0 < i.low) (hhigh : 0 < i.high) {tie : Tie} {count : Nat} {grid : Int}
    {d : Decimal} (h : i.search tie count grid = some d) : 0 < d.digits := by
  induction count generalizing grid with
  | zero => cases h
  | succ count ih =>
    rw [search] at h
    split at h
    · rename_i units hunits
      cases h
      exact onGrid?_pos hlow hhigh hunits
    · exact ih h

theorem exact_pos (hvalue : 0 < i.value) : 0 < i.exact.digits := by
  simp only [exact, Nat.shiftLeft_eq, Nat.pow_eq]
  positivity

end Interval

/-- The decimal of a positive number is positive. -/
theorem shortest_pos {magnitude : Nat} (h : 0 < magnitude) (tie : Tie) :
    0 < (f.shortest tie magnitude).digits := by
  obtain ⟨hlow, hvalue, hhigh⟩ := f.interval_pos h
  rw [shortest]
  cases hs : (f.interval magnitude).search tie 20
      ((((f.interval magnitude).value.log2 : Int) + (f.interval magnitude).exponent) * 1233 / 4096 + 2) with
  | none => exact Interval.exact_pos hvalue
  | some d => exact Interval.search_pos hlow hhigh hs

end BinaryFormat

namespace Decimal

variable {d : Decimal}

theorem toList_digitText : d.digitText.toList = Nat.toDigits 10 d.digits := toList_toString_nat _

theorem length_digitText : d.digitText.length = (Nat.toDigits 10 d.digits).length := by
  rw [← toList_digitText, String.length_toList]

theorem toList_zeros (n : Nat) : (zeros n).toList = List.replicate n '0' := String.toList_ofList

theorem isDigit_of_mem_replicate {n : Nat} : ∀ c ∈ List.replicate n '0', c.isDigit = true := by
  intro c hc
  rw [List.eq_of_mem_replicate hc]
  rfl

/-- One digit stands in front, others after a point, and then the power of ten. -/
theorem spells_scientific (hd : 0 < d.digits) (negative : Bool) :
    ∃ n, Spells (sign negative ++ d.scientific.toList) n := by
  obtain ⟨power, hpower⟩ := ends_power (d.point - 1)
  obtain ⟨c, rest, hdigits, hc⟩ := exists_cons_toDigits d.digits
  have hlead : Leads [c] := by
    simpa using leads_append (s := [c]) (t := rest) hd hdigits (by simp) [] (by simp)
  have hrest : ∀ e ∈ rest, e.isDigit = true := fun e he =>
    isDigit_of_mem_toDigits (n := d.digits) (by rw [hdigits]; exact List.mem_cons_of_mem _ he)
  cases rest with
  | nil =>
    have htext : d.scientific.toList = [c] ++ 'e' :: (toString (d.point - 1)).toList := by
      simp [scientific, toList_digitText, hdigits]
    rw [htext]
    exact ⟨_, hlead.integral hpower negative⟩
  | cons e rest =>
    have htext : d.scientific.toList =
        [c] ++ '.' :: (e :: rest ++ 'e' :: (toString (d.point - 1)).toList) := by
      simp [scientific, toList_digitText, hdigits]
    rw [htext]
    exact ⟨_, hlead.fractional hrest (by simp) hpower negative⟩

/-- A whole number gets a point and a zero. -/
theorem spells_positional_whole (hd : 0 < d.digits) (he : 0 ≤ d.exponent) (negative : Bool) :
    ∃ n, Spells (sign negative ++ (d.positional ++ ".0").toList) n := by
  have hlead : Leads (Nat.toDigits 10 d.digits ++ List.replicate d.exponent.toNat '0') :=
    leads_append (t := []) hd (by simp) Nat.toDigits_ne_nil _ isDigit_of_mem_replicate
  have htext : (d.positional ++ ".0").toList =
      (Nat.toDigits 10 d.digits ++ List.replicate d.exponent.toNat '0') ++ '.' :: (['0'] ++ []) := by
    simp [positional, he, toList_digitText, toList_zeros]
  rw [htext]
  exact ⟨_, hlead.fractional (by simp) (by simp) ends_nil negative⟩

/-- The point stands between digits, or there are zeros between the two. -/
theorem spells_positional (hd : 0 < d.digits) (he : d.exponent < 0) (negative : Bool) :
    ∃ n, Spells (sign negative ++ d.positional.toList) n := by
  have hdigits : ∀ c ∈ Nat.toDigits 10 d.digits, c.isDigit = true := fun c =>
    isDigit_of_mem_toDigits
  have hpoint : d.point = (Nat.toDigits 10 d.digits).length + d.exponent := by
    rw [point, length_digitText]
  by_cases hp : 0 < d.point
  · have hlead : Leads ((Nat.toDigits 10 d.digits).take d.point.toNat) := by
      have h := leads_append (s := (Nat.toDigits 10 d.digits).take d.point.toNat) hd
        (List.take_append_drop _ _).symm ?_ [] (by simp)
      · rwa [List.append_nil] at h
      · rw [ne_eq, List.take_eq_nil_iff, not_or]
        exact ⟨by omega, Nat.toDigits_ne_nil⟩
    have hdrop : (Nat.toDigits 10 d.digits).drop d.point.toNat ≠ [] := by
      rw [ne_eq, List.drop_eq_nil_iff]
      omega
    have htext : d.positional.toList = (Nat.toDigits 10 d.digits).take d.point.toNat ++
        '.' :: ((Nat.toDigits 10 d.digits).drop d.point.toNat ++ []) := by
      simp [positional, not_le.2 he, hp, toList_digitText]
    rw [htext]
    exact ⟨_, hlead.fractional (fun c hc => hdigits c (List.mem_of_mem_drop hc)) hdrop ends_nil
      negative⟩
  · have hlead : Leads ['0'] := leads_toDigits 0
    have htext : d.positional.toList = ['0'] ++ '.' ::
        (List.replicate (-d.point).toNat '0' ++ Nat.toDigits 10 d.digits ++ []) := by
      simp [positional, not_le.2 he, hp, toList_digitText, toList_zeros]
    rw [htext]
    refine ⟨_, hlead.fractional (fun c hc => ?_) (by simp [Nat.toDigits_ne_nil]) ends_nil negative⟩
    rcases List.mem_append.1 hc with hc | hc
    · exact isDigit_of_mem_replicate c hc
    · exact hdigits c hc

theorem spells_stored (hd : 0 < d.digits) (negative : Bool) :
    ∃ n, Spells (sign negative ++ d.stored.toList) n := by
  rw [stored]
  split
  · exact spells_scientific hd negative
  · split
    · rename_i he
      exact spells_positional_whole hd he negative
    · rename_i he
      exact spells_positional hd (not_le.1 he) negative

end Decimal

namespace BinaryFormat

/-- Every pattern of bits is stored as a numeral. -/
theorem spells_stored (f : BinaryFormat) (bits : Nat) : ∃ n, Spells (f.stored bits).toList n := by
  have hplace : ∀ c ∈ ['0'], c.isDigit = true := by simp
  have hzero : ∀ negative, ∃ n, Spells (sign negative ++ "0.0".toList) n := fun negative =>
    ⟨_, (leads_toDigits 0).fractional hplace (by simp) ends_nil negative⟩
  have hdigits : ∃ n, Spells (sign (f.split bits).1 ++
      (if (f.split bits).2 = 0 then "0.0" else (f.shortest .even (f.split bits).2).stored).toList) n := by
    split
    · exact hzero _
    · rename_i hne
      exact Decimal.spells_stored (f.shortest_pos (Nat.pos_of_ne_zero hne) _) _
  have htext : (f.stored bits).toList = sign (f.split bits).1 ++
      (if (f.split bits).2 = 0 then "0.0" else (f.shortest .even (f.split bits).2).stored).toList := by
    simp only [stored]
    cases (f.split bits).1 <;> simp [sign]
  rwa [htext]

end BinaryFormat

namespace Json.Number

/-- Every number of a document is written as a numeral. -/
theorem spells_text (n : Number) : ∃ numeral, Spells n.text.toList numeral := by
  cases n with
  | integer n => exact ⟨_, spells_toString n⟩
  | single x => exact BinaryFormat.single.spells_stored _
  | double x => exact BinaryFormat.double.spells_stored _

/-- What the text of a number stands for. -/
def reread (n : Number) : Json := ((Numeral.ofText? n.text.toList).map Numeral.value).getD .unreadable

theorem reread_integer {n : Int} (hlow : -2 ^ 63 ≤ n) (hhigh : n < 2 ^ 64) :
    reread (.integer n) = .number (.integer n) := by
  have h : Numeral.ofText? (text (.integer n)).toList = some (ofInteger n) := (spells_toString n).read
  rw [reread, h, Option.map_some, Option.getD_some, value_ofInteger hlow hhigh]

end Json.Number

end LoopTrace
