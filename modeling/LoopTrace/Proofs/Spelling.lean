import Mathlib.Data.List.Forall2
import LoopTrace.Proofs.Numerals

/-!
# Documents as tokens

What the texts of documents are split into. A text spells a list of tokens if the machine, wherever it
starts between tokens, comes to its end with those tokens read, the last one perhaps a word that only
what follows will end (`Spelled`). Brackets, commas, colons, blanks and quotes end words, so that texts
can be joined with any of these in between (`Spelled.join`). Both layouts of a document spell the same
tokens (`spelled_compact`, `spelled_indented`).
-/

namespace LoopTrace.Json

/-! ### Texts that spell tokens -/

/-- The machine has read these tokens, from the last to the first, once a word it is in is over. -/
inductive Lexer.Settles : Lexer → List Token → Prop where
  | between {tokens : List Token} : Settles ⟨tokens, .between⟩ tokens
  | word {tokens : List Token} {letters : List Char} {t : Token}
      (h : ofWord? letters.reverse = some t) : Settles ⟨tokens, .word letters⟩ (t :: tokens)

/-- The text spells the tokens, and what comes next may be anything. -/
def Closed (s : List Char) (ts : List Token) : Prop :=
  ∀ before, s.foldlM Lexer.step ⟨before, .between⟩ = some ⟨ts.reverse ++ before, .between⟩

/-- The text spells the tokens, unless the last one is a word that goes on. -/
def Spelled (s : List Char) (ts : List Token) : Prop :=
  ∀ before, ∃ l, s.foldlM Lexer.step ⟨before, .between⟩ = some l ∧ l.Settles (ts.reverse ++ before)

/-- The text ends the word before it, and spells the tokens. -/
structure Breaks (s : List Char) (ts : List Token) : Prop where
  closed : Closed s ts
  head : ∃ c t, s = c :: t ∧ isWordChar c = false

namespace Lexer.Settles

variable {l : Lexer} {tokens : List Token} {c : Char}

/-- What is no part of a word ends it. -/
theorem step (h : l.Settles tokens) (hc : isWordChar c = false) :
    l.step c = Lexer.step ⟨tokens, .between⟩ c := by
  cases h with
  | between => rfl
  | word h => simp [Lexer.step, hc, endWord, h]

theorem finish (h : l.Settles tokens) : l.finish = some tokens.reverse := by
  cases h with
  | between => rfl
  | word h => simp [Lexer.finish, endWord, h]

end Lexer.Settles

section Joining

variable {s s' : List Char} {ts ts' : List Token}

theorem Closed.spelled (h : Closed s ts) : Spelled s ts := fun before => ⟨_, h before, .between⟩

theorem closed_nil : Closed [] [] := fun _ => rfl

theorem Closed.append (h : Closed s ts) (h' : Closed s' ts') : Closed (s ++ s') (ts ++ ts') := by
  intro before
  rw [List.foldlM_append, h before, List.reverse_append, List.append_assoc]
  exact h' _

theorem Closed.append_spelled (h : Closed s ts) (h' : Spelled s' ts') :
    Spelled (s ++ s') (ts ++ ts') := by
  intro before
  rw [List.foldlM_append, h before, List.reverse_append, List.append_assoc]
  exact h' _

theorem Breaks.append (h : Breaks s ts) (h' : Closed s' ts') : Breaks (s ++ s') (ts ++ ts') := by
  obtain ⟨c, t, rfl, hc⟩ := h.head
  exact ⟨h.closed.append h', c, t ++ s', rfl, hc⟩

/-- The word at the end of a text is over when the next text ends it. -/
theorem Spelled.join (h : Spelled s ts) (h' : Breaks s' ts') : Closed (s ++ s') (ts ++ ts') := by
  intro before
  obtain ⟨l, hl, hs⟩ := h before
  obtain ⟨c, t, rfl, hc⟩ := h'.head
  have hrest := h'.closed (ts.reverse ++ before)
  rw [List.foldlM_cons] at hrest
  rw [List.foldlM_append, hl, List.reverse_append, List.append_assoc, ← hrest]
  simp only [Option.bind_eq_bind, Option.bind_some, List.foldlM_cons]
  rw [hs.step hc]

theorem tokens?_of_spelled (h : Spelled s ts) : tokens? s = some ts := by
  obtain ⟨l, hl, hs⟩ := h []
  rw [tokens?, hl, Option.bind_some, hs.finish, List.append_nil, List.reverse_reverse]

/-- Texts with commas between them spell their tokens with commas between them. -/
theorem spelled_intercalate {sep : String} (hsep : Breaks sep.toList [.comma]) {lines : List String}
    {tss : List (List Token)} (h : List.Forall₂ (fun line ts => Spelled line.toList ts) lines tss) :
    Spelled (sep.intercalate lines).toList ([Token.comma].intercalate tss) := by
  rw [String.toList_intercalate]
  induction h with
  | nil => exact closed_nil.spelled
  | @cons line ts lines tss hline h ih =>
    cases h with
    | nil => simpa using hline
    | cons hnext h =>
      rw [List.map_cons, List.map_cons, List.intercalate_cons_cons, List.intercalate_cons_cons]
      exact (hline.join hsep).append_spelled ih

end Joining

/-! ### Words and numbers -/

section Words

variable {w : List Char} {c : Char}

theorem start_of_isWordChar (hc : isWordChar c = true) (tokens : List Token) :
    Lexer.step ⟨tokens, .between⟩ c = some ⟨tokens, .word [c]⟩ := by
  have hblank : isBlank c = false := by
    rw [Bool.eq_false_iff]
    intro hb
    simp only [isBlank, Bool.or_eq_true, decide_eq_true_eq] at hb
    rcases hb with ((rfl | rfl) | rfl) | rfl <;> cases hc
  have hquote : c ≠ '\x22' := by
    rintro rfl
    cases hc
  simp [Lexer.step, Lexer.start, hblank, hquote, hc]

theorem foldlM_word (hw : ∀ c ∈ w, isWordChar c = true) (tokens : List Token)
    (letters : List Char) :
    w.foldlM Lexer.step ⟨tokens, .word letters⟩ = some ⟨tokens, .word (w.reverse ++ letters)⟩ := by
  induction w generalizing letters with
  | nil => rfl
  | cons c w ih =>
    have hc : isWordChar c = true := hw c List.mem_cons_self
    have hstep : Lexer.step ⟨tokens, .word letters⟩ c = some ⟨tokens, .word (c :: letters)⟩ := by
      simp [Lexer.step, hc]
    rw [List.foldlM_cons, hstep, List.reverse_cons, List.append_assoc]
    exact ih (fun d hd => hw d (List.mem_cons_of_mem _ hd)) _

theorem spelled_word (hne : w ≠ []) (hw : ∀ c ∈ w, isWordChar c = true) {t : Token}
    (h : ofWord? w = some t) : Spelled w [t] := by
  intro before
  obtain ⟨c, w, rfl⟩ := List.exists_cons_of_ne_nil hne
  refine ⟨⟨before, .word (w.reverse ++ [c])⟩, ?_, ?_⟩
  · rw [List.foldlM_cons, start_of_isWordChar (hw c List.mem_cons_self)]
    exact foldlM_word (fun d hd => hw d (List.mem_cons_of_mem _ hd)) _ _
  · exact .word (by simpa using h)

/-- A numeral is none of the three literals. -/
theorem ofWord?_of_spells {n : Numeral} (h : Numeral.Spells w n) :
    ofWord? w = some (.literal n.value) := by
  have hnull : w ≠ "null".toList := by rintro rfl; cases h.read
  have htrue : w ≠ "true".toList := by rintro rfl; cases h.read
  have hfalse : w ≠ "false".toList := by rintro rfl; cases h.read
  rw [ofWord?, if_neg hnull, if_neg htrue, if_neg hfalse, h.read, Option.map_some]

theorem spelled_number (n : Number) : Spelled n.text.toList [.literal n.reread] := by
  obtain ⟨numeral, h⟩ := n.spells_text
  have hne : n.text.toList ≠ [] := by
    intro he
    have hread := h.read
    rw [he] at hread
    cases hread
  refine spelled_word hne h.chars ?_
  rw [ofWord?_of_spells h, Number.reread, h.read, Option.map_some, Option.getD_some]

theorem spelled_null : Spelled "null".toList [.literal .null] :=
  spelled_word (by simp) (by simp [isWordChar]) rfl

theorem spelled_bool (b : Bool) :
    Spelled (if b then "true" else "false").toList [.literal (.bool b)] := by
  cases b
  · exact spelled_word (by simp) (by simp [isWordChar]) rfl
  · exact spelled_word (by simp) (by simp [isWordChar]) rfl

end Words

/-! ### Strings -/

/-- A piece that puts a character into a string. -/
def Piece.Stands (p : Piece) (c : Char) : Prop :=
  ∀ done rest, assemble none done (p :: rest) = assemble none (c :: done) rest

theorem Piece.stands_char (c : Char) : Stands (.char c) c := fun _ _ => rfl

theorem Piece.stands_unit {c : Char} (hc : c.toNat < 32) : Stands (.unit c.toNat) c := by
  intro done rest
  have hlow : ¬ IsLow c.toNat := by
    intro h
    have := h.1
    omega
  have hhigh : ¬ IsHigh c.toNat := by
    intro h
    have := h.1
    omega
  rw [assemble]
  simp [hlow, hhigh, Char.ofNat_toNat]

theorem hexDigit?_digitChar {n : Nat} (hn : n < 16) : hexDigit? n.digitChar = some n := by
  interval_cases n <;> rfl

/-- A character has a short escape, or is escaped as a unit, or stands as it is. -/
theorem escape_cases (c : Char) :
    (∃ e, (escape c).toList = ['\\', e] ∧ e ≠ 'u' ∧ escaped? e = some c) ∨
      (c.toNat < 32 ∧ (escape c).toList =
        ['\\', 'u', '0', '0', (c.toNat / 16).digitChar, (c.toNat % 16).digitChar]) ∨
      ((escape c).toList = [c] ∧ c ≠ '\x22' ∧ c ≠ '\\' ∧ ¬ c < ' ') := by
  rw [escape]
  split_ifs with h1 h2 h3 h4 h5 h6 h7 h8
  any_goals
    subst ‹c = _›
    exact .inl ⟨_, rfl, by decide, rfl⟩
  · have hc : c.toNat < 32 := h8
    have hhex : ∀ n, n < 16 → Nat.toDigits 16 n = [n.digitChar] := fun _ =>
      Nat.toDigits_of_lt_base
    refine .inr (.inl ⟨hc, ?_⟩)
    simp [hhex (c.toNat / 16) (by omega), hhex (c.toNat % 16) (by omega)]
  · exact .inr (.inr ⟨String.toList_singleton c, h1, h2, h8⟩)

/-- The machine undoes the escape of a character. -/
theorem foldlM_escape (c : Char) : ∃ p : Piece, p.Stands c ∧ ∀ tokens pieces,
    (escape c).toList.foldlM Lexer.step ⟨tokens, .text pieces⟩ = some ⟨tokens, .text (p :: pieces)⟩ := by
  obtain ⟨e, he, hu, hc⟩ | ⟨hc, he⟩ | ⟨he, hquote, hslash, hblank⟩ := escape_cases c
  · refine ⟨.char c, Piece.stands_char c, fun tokens pieces => ?_⟩
    rw [he]
    simp [Lexer.step, hu, hc]
  · refine ⟨.unit c.toNat, Piece.stands_unit hc, fun tokens pieces => ?_⟩
    have hzero : hexDigit? '0' = some 0 := rfl
    have hhigh := hexDigit?_digitChar (n := c.toNat / 16) (by omega)
    have hlow := hexDigit?_digitChar (n := c.toNat % 16) (by omega)
    have hsum : 16 * (c.toNat / 16) + c.toNat % 16 = c.toNat := Nat.div_add_mod ..
    rw [he]
    simp [Lexer.step, hzero, hhigh, hlow, hsum]
  · refine ⟨.char c, Piece.stands_char c, fun tokens pieces => ?_⟩
    rw [he]
    simp [Lexer.step, hquote, hslash, hblank]

/-- The machine undoes the escapes of a string. -/
theorem foldlM_escapes (s : List Char) : ∃ ps : List Piece,
    (∀ tokens pieces, (s.flatMap fun c => (escape c).toList).foldlM Lexer.step
      ⟨tokens, .text pieces⟩ = some ⟨tokens, .text (ps ++ pieces)⟩) ∧
    ∀ done rest, Piece.assemble none done (ps ++ rest) = Piece.assemble none (s ++ done) rest := by
  induction s with
  | nil => exact ⟨[], fun _ _ => rfl, fun _ _ => rfl⟩
  | cons c s ih =>
    obtain ⟨p, hp, hstep⟩ := foldlM_escape c
    obtain ⟨ps, hsteps, hps⟩ := ih
    -- Pieces are kept from the last to the first.
    refine ⟨ps ++ [p], fun tokens pieces => ?_, fun done rest => ?_⟩
    · rw [List.flatMap_cons, List.foldlM_append, hstep]
      simpa using hsteps tokens (p :: pieces)
    · rw [List.append_assoc, hps, List.singleton_append, hp]
      rfl

/-- A string in quotes is one token. -/
theorem closed_quote (s : String) : Closed (quote s).toList [.text (some s)] := by
  intro before
  obtain ⟨ps, hsteps, hps⟩ := foldlM_escapes s.toList
  have htext : (quote s).toList =
      '\x22' :: ((s.toList.flatMap fun c => (escape c).toList) ++ ['\x22']) := by
    simp [quote, List.flatMap_map]
  have hopen : Lexer.step ⟨before, .between⟩ '\x22' = some ⟨before, .text []⟩ := rfl
  have hstring : Piece.string? ps = some s := by
    have h := hps [] []
    rw [List.append_nil, List.append_nil] at h
    rw [Piece.string?, h, Piece.assemble]
    simp
  rw [htext, List.foldlM_cons, hopen]
  simp only [Option.bind_eq_bind, Option.bind_some]
  rw [List.foldlM_append, hsteps, List.append_nil]
  simp [Lexer.step, hstring]

/-! ### Documents -/

mutual

/-- The tokens of a document. -/
def tokens : Json → List Token
  | .null | .unreadable => [.literal .null]
  | .bool b => [.literal (.bool b)]
  | .number n => [.literal n.reread]
  | .string s => [.text (some s)]
  | .array elements => [.openArray] ++ [Token.comma].intercalate (elementTokens elements) ++ [.closeArray]
  | .object members => [.openObject] ++ [Token.comma].intercalate (memberTokens members) ++ [.closeObject]

/-- The tokens of each element. -/
def elementTokens : List Json → List (List Token)
  | [] => []
  | j :: rest => j.tokens :: elementTokens rest

/-- The tokens of each member. -/
def memberTokens : List (String × Json) → List (List Token)
  | [] => []
  | (name, j) :: rest => ([.text (some name), .colon] ++ j.tokens) :: memberTokens rest

end

theorem closed_blanks {s : List Char} (hs : ∀ c ∈ s, isBlank c = true) : Closed s [] := by
  intro before
  induction s with
  | nil => rfl
  | cons c s ih =>
    have hc : isBlank c = true := hs c List.mem_cons_self
    have hstep : Lexer.step ⟨before, .between⟩ c = some ⟨before, .between⟩ := by
      simp [Lexer.step, Lexer.start, hc]
    rw [List.foldlM_cons, hstep]
    exact ih fun d hd => hs d (List.mem_cons_of_mem _ hd)

theorem breaks_comma : Breaks ",".toList [.comma] := ⟨fun _ => rfl, ',', [], rfl, rfl⟩

theorem breaks_comma_line : Breaks ",\n".toList [.comma] := ⟨fun _ => rfl, ',', ['\n'], rfl, rfl⟩

theorem breaks_closeArray : Breaks "]".toList [.closeArray] := ⟨fun _ => rfl, ']', [], rfl, rfl⟩

theorem breaks_closeObject : Breaks "\x7d".toList [.closeObject] :=
  ⟨fun _ => rfl, '\x7d', [], rfl, rfl⟩

theorem breaks_line : Breaks "\n".toList [] := ⟨fun _ => rfl, '\n', [], rfl, rfl⟩

theorem closed_openArray : Closed "[".toList [.openArray] := fun _ => rfl

theorem closed_openObject : Closed "\x7b".toList [.openObject] := fun _ => rfl

/-- The name of a member, with its colon. -/
theorem closed_name (name : String) {colon : String} (hcolon : Closed colon.toList [.colon]) :
    Closed (quote name ++ colon).toList [.text (some name), .colon] := by
  rw [String.toList_append]
  exact (closed_quote name).append hcolon

/-! ### One line -/

/-- Elements or members between brackets, on one line. -/
theorem closed_bracketed {opening closing : String} {o c : Token} (ho : Closed opening.toList [o])
    (hc : Breaks closing.toList [c]) {lines : List String} {tss : List (List Token)}
    (h : List.Forall₂ (fun line ts => Spelled line.toList ts) lines tss) :
    Closed (opening ++ ",".intercalate lines ++ closing).toList
      ([o] ++ [Token.comma].intercalate tss ++ [c]) := by
  rw [String.toList_append, String.toList_append]
  exact (ho.append_spelled (spelled_intercalate breaks_comma h)).join hc

mutual

/-- The document on one line spells its tokens. -/
theorem spelled_compact : ∀ j : Json, Spelled j.compact.toList j.tokens
  | .null | .unreadable => spelled_null
  | .bool b => spelled_bool b
  | .number n => spelled_number n
  | .string s => (closed_quote s).spelled
  | .array elements =>
    (closed_bracketed closed_openArray breaks_closeArray (spelled_compactElements elements)).spelled
  | .object members =>
    (closed_bracketed closed_openObject breaks_closeObject (spelled_compactMembers members)).spelled

theorem spelled_compactElements : ∀ elements : List Json,
    List.Forall₂ (fun line ts => Spelled line.toList ts) (compactElements elements)
      (elementTokens elements)
  | [] => .nil
  | j :: rest => .cons (spelled_compact j) (spelled_compactElements rest)

theorem spelled_compactMembers : ∀ members : List (String × Json),
    List.Forall₂ (fun line ts => Spelled line.toList ts) (compactMembers members)
      (memberTokens members)
  | [] => .nil
  | (name, j) :: rest => by
    have hname : Closed (quote name ++ ":").toList [.text (some name), .colon] :=
      closed_name name fun _ => rfl
    refine .cons ?_ (spelled_compactMembers rest)
    rw [String.toList_append]
    exact hname.append_spelled (spelled_compact j)

end

/-! ### Indented lines -/

/-- A margin two spaces wider. -/
theorem closed_deeper {margin : String} (hm : Closed margin.toList []) :
    Closed (margin ++ "  ").toList [] := by
  rw [String.toList_append]
  exact hm.append (closed_blanks (by simp [isBlank]))

/-- Elements or members between brackets, on lines of their own. -/
theorem closed_enclose {opening closing margin : String} {o c : Token}
    (ho : Closed opening.toList [o]) (hc : Breaks closing.toList [c])
    (hm : Closed margin.toList []) {lines : List String} {tss : List (List Token)}
    (h : List.Forall₂ (fun line ts => Spelled line.toList ts) lines tss) :
    Closed (enclose opening closing margin lines).toList
      ([o] ++ [Token.comma].intercalate tss ++ [c]) := by
  rw [enclose]
  split
  · rename_i he
    obtain rfl := List.isEmpty_iff.1 he
    cases h
    rw [String.toList_append]
    exact ho.append hc.closed
  · have hindent := closed_deeper hm
    have hlines : List.Forall₂ (fun line ts => Spelled line.toList ts)
        (lines.map fun line => margin ++ "  " ++ line) tss := by
      refine List.forall₂_map_left_iff.2 (h.imp fun line ts hline => ?_)
      rw [String.toList_append]
      exact hindent.append_spelled hline
    have hclose : Breaks ("\n" ++ margin ++ closing).toList [c] := by
      rw [String.toList_append, String.toList_append]
      exact (breaks_line.append hm).append hc.closed
    have hopen : Closed (opening ++ "\n").toList ([o] ++ []) := by
      rw [String.toList_append]
      exact ho.append breaks_line.closed
    have h := (hopen.append_spelled (spelled_intercalate breaks_comma_line hlines)).join hclose
    simpa only [String.toList_append, List.append_assoc, List.append_nil] using h

mutual

/-- The document on indented lines spells its tokens. -/
theorem spelled_indented : ∀ (j : Json) {margin : String}, Closed margin.toList [] →
    Spelled (j.indented margin).toList j.tokens
  | .null, _, _ | .unreadable, _, _ => spelled_null
  | .bool b, _, _ => spelled_bool b
  | .number n, _, _ => spelled_number n
  | .string s, _, _ => (closed_quote s).spelled
  | .array elements, _, hm =>
    (closed_enclose closed_openArray breaks_closeArray hm
      (spelled_indentedElements elements hm)).spelled
  | .object members, _, hm =>
    (closed_enclose closed_openObject breaks_closeObject hm
      (spelled_indentedMembers members hm)).spelled

theorem spelled_indentedElements : ∀ (elements : List Json) {margin : String},
    Closed margin.toList [] → List.Forall₂ (fun line ts => Spelled line.toList ts)
      (indentedElements (margin ++ "  ") elements) (elementTokens elements)
  | [], _, _ => .nil
  | j :: rest, _, hm => .cons (spelled_indented j (closed_deeper hm)) (spelled_indentedElements rest hm)

theorem spelled_indentedMembers : ∀ (members : List (String × Json)) {margin : String},
    Closed margin.toList [] → List.Forall₂ (fun line ts => Spelled line.toList ts)
      (indentedMembers (margin ++ "  ") members) (memberTokens members)
  | [], _, _ => .nil
  | (name, j) :: rest, _, hm => by
    have hname : Closed (quote name ++ ": ").toList [.text (some name), .colon] :=
      closed_name name fun _ => rfl
    refine .cons ?_ (spelled_indentedMembers rest hm)
    rw [String.toList_append]
    exact hname.append_spelled (spelled_indented j (closed_deeper hm))

end

end LoopTrace.Json
