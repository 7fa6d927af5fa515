import CatalogQuery.Json.Parser
import CatalogQuery.Json.Printer
import Mathlib.Data.List.Infix

/-!
# Arrays of texts

The text of an array of texts, as columns with several values hold it. Main statements: it is read
back as that array, and which texts without characters to escape stand between quotes in it.
-/

namespace CatalogQuery.Json

/-! ## Characters that are escaped -/

/-- Whether a character stands for itself between quotes. -/
def isKept (c : Char) : Bool := c != '"' && c != '\\' && 0x20 ≤ c.toNat

theorem escape_kept {c : Char} (h : isKept c = true) : escape c = [c] := by
  simp only [isKept, Bool.and_eq_true, bne_iff_ne, decide_eq_true_eq] at h
  obtain ⟨⟨hquote, hback⟩, hlow⟩ := h
  have hne {d : Char} (hd : d.toNat < 0x20) : c ≠ d := by
    rintro rfl
    omega
  rw [escape, if_neg hquote, if_neg hback, if_neg (hne (by decide)), if_neg (hne (by decide)),
    if_neg (hne (by decide)), if_neg (by omega), if_neg (by omega), if_neg (by omega)]

theorem hex?_hexDigit {n : Nat} (h : n < 16) : Parser.hex? (hexDigit n) = some n := by
  have hall : ∀ m < 16, Parser.hex? (hexDigit m) = some m := by decide
  exact hall n h

theorem hexDigit_ne_quote {n : Nat} (h : n < 16) : hexDigit n ≠ '"' := by
  have hall : ∀ m < 16, hexDigit m ≠ '"' := by decide
  exact hall n h

/-- The escape of a control character is read as its number. -/
theorem escaped_control {c : Char} (h : c.toNat < 0x20) (rest : List Char) :
    Parser.escaped
        ('u' :: '0' :: '0' :: hexDigit (c.toNat / 16) :: hexDigit (c.toNat % 16) :: rest) =
      some (c, rest) := by
  have hzero : Parser.hex? '0' = some 0 := rfl
  have hhex : Parser.hex4
      ('0' :: '0' :: hexDigit (c.toNat / 16) :: hexDigit (c.toNat % 16) :: rest) =
      some (c.toNat, rest) := by
    rw [Parser.hex4, hzero, hex?_hexDigit (by omega), hex?_hexDigit (by omega)]
    simp only [Option.bind_eq_bind, Option.bind_some, Option.some.injEq, Prod.mk.injEq, and_true]
    omega
  rw [Parser.escaped, hhex]
  simp only [Option.bind_eq_bind, Option.bind_some]
  rw [if_neg (by simp; omega), if_neg (by simp; omega), Char.ofNat_toNat]

/-- What stands for any other character is a backslash and what is read as that character. A quote
is only in what stands for one. -/
theorem escape_not_kept {c : Char} (h : isKept c = false) :
    ∃ tail, escape c = '\\' :: tail ∧ (tail = ['"'] ∧ c = '"' ∨ '"' ∉ tail) ∧
      ∀ rest, Parser.escaped (tail ++ rest) = some (c, rest) := by
  have hlow (hquote : c ≠ '"') (hback : c ≠ '\\') : c.toNat < 0x20 := by
    simpa [isKept, hquote, hback] using h
  have hnat {n : Nat} (hn : c.toNat = n) : c = Char.ofNat n := by
    rw [← hn, Char.ofNat_toNat]
  unfold escape
  split
  · exact ⟨['"'], rfl, .inl ⟨rfl, ‹_›⟩, by simp [Parser.escaped, *]⟩
  split
  · exact ⟨['\\'], rfl, .inr (by decide), by simp [Parser.escaped, *]⟩
  split
  · exact ⟨['n'], rfl, .inr (by decide), by simp [Parser.escaped, *]⟩
  split
  · exact ⟨['r'], rfl, .inr (by decide), by simp [Parser.escaped, *]⟩
  split
  · exact ⟨['t'], rfl, .inr (by decide), by simp [Parser.escaped, *]⟩
  split
  · exact ⟨['b'], rfl, .inr (by decide), by simp [Parser.escaped, hnat ‹_›]⟩
  split
  · exact ⟨['f'], rfl, .inr (by decide), by simp [Parser.escaped, hnat ‹_›]⟩
  have hsmall := hlow ‹_› ‹_›
  rw [if_pos hsmall]
  refine ⟨_, rfl, .inr ?_, escaped_control hsmall⟩
  have hhigh := hexDigit_ne_quote (n := c.toNat / 16) (by omega)
  have hrest := hexDigit_ne_quote (n := c.toNat % 16) (by omega)
  simp [hhigh.symm, hrest.symm]

/-! ## Reading -/

namespace Parser

variable {size depth : Nat}

/-- What stands for a character is read as that character. -/
theorem string_escape (fuel : Nat) (c : Char) (rest : List Char) :
    string (fuel + 1) (escape c ++ rest) =
      (string fuel rest).map fun (cs, after) => (c :: cs, after) := by
  cases hkept : isKept c with
  | true =>
    rw [escape_kept hkept, List.singleton_append]
    simp only [isKept, Bool.and_eq_true, bne_iff_ne, decide_eq_true_eq] at hkept
    obtain ⟨⟨hquote, hback⟩, hlow⟩ := hkept
    rw [string]
    · rw [if_neg (by omega)]
    · exact hquote
    · exact hback
  | false =>
    obtain ⟨tail, htail, -, hread⟩ := escape_not_kept hkept
    rw [htail, List.cons_append, string, hread]
    simp only [Option.bind_eq_bind, Option.bind_some]
    cases string fuel rest <;> rfl

/-- A quoted text is read as that text. -/
theorem string_quoted {fuel : Nat} {s : List Char} (h : s.length < fuel) (rest : List Char) :
    string fuel (s.flatMap escape ++ '"' :: rest) = some (s, rest) := by
  induction s generalizing fuel with
  | nil =>
    obtain ⟨fuel, rfl⟩ := Nat.exists_eq_add_of_lt h
    rfl
  | cons c s ih =>
    obtain ⟨fuel, rfl⟩ := Nat.exists_eq_add_of_lt h
    rw [List.flatMap_cons, List.append_assoc, string_escape,
      ih (by simp only [List.length_cons]; omega)]
    rfl

theorem value_quoted {s : String} (h : s.toList.length < size) (rest : List Char) :
    value size depth (quoted s ++ rest) = some (.str s, rest) := by
  have hskip : skip (quoted s ++ rest) = '"' :: (s.toList.flatMap escape ++ '"' :: rest) := by
    rw [quoted, List.append_assoc]
    rfl
  rw [value, hskip]
  change (string size (s.toList.flatMap escape ++ '"' :: rest)).map _ = _
  rw [string_quoted h, Option.map_some]
  dsimp only
  rw [String.ofList_toList]

/-- Quoted texts up to the closing bracket are read as those texts. -/
theorem items_quoted {fuel : Nat} {x : String} {xs : List String}
    (hsize : ∀ s ∈ x :: xs, s.toList.length < size) (hfuel : xs.length < fuel) (rest : List Char) :
    items (value size depth) fuel (quoted x ++ writeItems (xs.map str) (']' :: rest)) =
      some ((x :: xs).map str, rest) := by
  induction xs generalizing fuel x with
  | nil =>
    obtain ⟨fuel, rfl⟩ := Nat.exists_eq_add_of_lt hfuel
    rw [items, value_quoted (hsize x List.mem_cons_self)]
    rfl
  | cons y ys ih =>
    obtain ⟨fuel, rfl⟩ := Nat.exists_eq_add_of_lt hfuel
    rw [List.forall_mem_cons] at hsize
    rw [items, value_quoted hsize.1]
    simp only [List.map_cons, writeItems, write, Option.bind_eq_bind, Option.bind_some]
    change (items (value size depth) _ _).bind _ = _
    rw [ih hsize.2 (by simp only [List.length_cons]; omega)]
    rfl

theorem value_strings {x : String} {xs : List String}
    (hsize : ∀ s ∈ x :: xs, s.toList.length < size) (hfuel : xs.length < size) :
    value size (depth + 1) ('[' :: (quoted x ++ writeItems (xs.map str) [']'])) =
      some (strings (x :: xs), []) := by
  rw [value]
  change (items (value size depth) size (quoted x ++ writeItems (xs.map str) [']'])).map _ = _
  rw [items_quoted hsize hfuel]
  rfl

end Parser

/-! ## The text of an array -/

theorem toList_text_cons (x : String) (xs : List String) :
    (strings (x :: xs)).text.toList = '[' :: (quoted x ++ writeItems (xs.map str) [']']) := by
  rw [text, String.toList_ofList]
  rfl

theorem length_le_flatMap_escape (s : List Char) : s.length ≤ (s.flatMap escape).length := by
  induction s with
  | nil => exact Nat.le_refl _
  | cons c s ih =>
    have hpos : 1 ≤ (escape c).length := by
      cases hkept : isKept c with
      | true => simp [escape_kept hkept]
      | false =>
        obtain ⟨tail, htail, -⟩ := escape_not_kept hkept
        simp [htail]
    rw [List.flatMap_cons, List.length_append, List.length_cons]
    omega

/-- There are more characters than items, and more than in each of them. -/
theorem length_le_writeItems (xs : List String) (rest : List Char) :
    xs.length ≤ (writeItems (xs.map str) rest).length ∧
      ∀ x ∈ xs, x.toList.length ≤ (writeItems (xs.map str) rest).length := by
  induction xs with
  | nil => exact ⟨Nat.zero_le _, by simp⟩
  | cons y ys ih =>
    have hy := length_le_flatMap_escape y.toList
    simp only [List.map_cons, writeItems, write, quoted, List.length_cons, List.length_append,
      List.length_nil, List.forall_mem_cons]
    refine ⟨by omega, by omega, fun x hx => ?_⟩
    have hx := ih.2 x hx
    omega

/-- The text of an array of texts is read as that array. -/
theorem parse_text_strings (xs : List String) : parse (strings xs).text = some (strings xs) := by
  cases xs with
  | nil => rfl
  | cons x xs =>
    have hx := length_le_flatMap_escape x.toList
    have hxs := length_le_writeItems xs [']']
    rw [parse, parseWithin, toList_text_cons]
    rw [maxDepth, Parser.value_strings]
    · rfl
    · simp only [quoted, List.length_cons, List.length_append, List.forall_mem_cons]
      refine ⟨by omega, fun s hs => ?_⟩
      have hs := hxs.2 s hs
      omega
    · simp only [quoted, List.length_cons, List.length_append]
      omega

/-! ## What stands between quotes -/

/-- A text with quotes around it. -/
def between (m : List Char) : List Char := '"' :: (m ++ ['"'])

section

variable {m : List Char}

theorem between_infix_cons {c : Char} (hc : c ≠ '"') {t : List Char} :
    between m <:+: c :: t ↔ between m <:+: t := by
  rw [List.infix_cons_iff, or_iff_right]
  rw [between, List.cons_prefix_cons]
  exact fun h => hc h.1.symm

theorem between_infix_quote {t : List Char} :
    between m <:+: '"' :: t ↔ m ++ ['"'] <+: t ∨ between m <:+: t := by
  rw [List.infix_cons_iff, between, List.cons_prefix_cons, eq_self, true_and]

theorem between_infix_append {w : List Char} (hw : '"' ∉ w) {t : List Char} :
    between m <:+: w ++ t ↔ between m <:+: t := by
  induction w with
  | nil => exact Iff.rfl
  | cons c w ih =>
    rw [List.mem_cons, not_or] at hw
    rw [List.cons_append, between_infix_cons (Ne.symm hw.1), ih hw.2]

/-- Up to its closing quote a text is one that is kept as it is if it is that text. -/
theorem kept_prefix_quoted {s rest : List Char} (hm : ∀ c ∈ m, isKept c = true) :
    m ++ ['"'] <+: s.flatMap escape ++ '"' :: rest ↔ s = m := by
  induction m generalizing s with
  | nil =>
    cases s with
    | nil => simp
    | cons c s =>
      rw [List.flatMap_cons]
      cases hkept : isKept c with
      | true =>
        have hc : c ≠ '"' := by
          rintro rfl
          cases hkept
        simp [escape_kept hkept, hc.symm]
      | false =>
        obtain ⟨tail, htail, -⟩ := escape_not_kept hkept
        simp [htail]
  | cons a m ih =>
    rw [List.forall_mem_cons] at hm
    cases s with
    | nil =>
      have ha : a ≠ '"' := by
        rintro rfl
        cases hm.1
      simp [ha]
    | cons c s =>
      rw [List.flatMap_cons]
      cases hkept : isKept c with
      | true =>
        rw [escape_kept hkept, List.singleton_append, List.cons_append, List.cons_append,
          List.cons_prefix_cons, ih hm.2, List.cons.injEq, eq_comm]
      | false =>
        -- An escape begins with a backslash, which is not kept itself.
        obtain ⟨tail, htail, -⟩ := escape_not_kept hkept
        have ha : a ≠ '\\' := by
          rintro rfl
          cases hm.1
        have hca : c ≠ a := by
          rintro rfl
          cases hkept.symm.trans hm.1
        simp [htail, ha, hca]

/-- In a quoted text, a text that is kept as it is stands between quotes at its end only, behind a
quote that is part of it. -/
theorem between_infix_quoted {s rest : List Char} (hm : ∀ c ∈ m, isKept c = true) :
    between m <:+: s.flatMap escape ++ '"' :: rest ↔
      '"' :: m <:+ s ∨ between m <:+: '"' :: rest := by
  induction s with
  | nil => simp
  | cons c s ih =>
    rw [List.flatMap_cons, List.append_assoc, List.suffix_cons_iff, List.cons.injEq]
    cases hkept : isKept c with
    | true =>
      have hc : c ≠ '"' := by
        rintro rfl
        cases hkept
      rw [escape_kept hkept, List.singleton_append, between_infix_cons hc, ih]
      simp [hc.symm]
    | false =>
      obtain ⟨tail, htail, ⟨rfl, rfl⟩ | hquote, -⟩ := escape_not_kept hkept
      · rw [htail, List.cons_append, between_infix_cons (by decide), List.singleton_append,
          between_infix_quote, kept_prefix_quoted hm, ih, or_assoc, eq_self, true_and, eq_comm]
      · have hc : c ≠ '"' := by
          rintro rfl
          cases htail
          exact hquote List.mem_cons_self
        rw [htail, between_infix_append (by simp [hquote]), ih]
        simp [hc.symm]

/-- Where a text stands between quotes in an array without being one of its items: it is the comma
between two of them, or what follows a quote in one of them. -/
def Straddles (m : String) (xs : List String) : Prop :=
  m = "," ∧ 2 ≤ xs.length ∨ ∃ x ∈ xs, '"' :: m.toList <:+ x.toList

theorem comma_begins {t : List Char} (hm : ∀ c ∈ m, isKept c = true) :
    m ++ ['"'] <+: ',' :: '"' :: t ↔ m = [','] := by
  match m with
  | [] => simp
  | [c] => simp
  | c :: d :: m =>
    have hd : d ≠ '"' := by
      rintro rfl
      cases hm '"' (by simp)
    simp [hd]

/-- What stands between quotes from the closing quote of one item on. -/
theorem between_infix_items {m : String} (hm : ∀ c ∈ m.toList, isKept c = true)
    (xs : List String) : between m.toList <:+: '"' :: writeItems (xs.map str) [']'] ↔
      m = "," ∧ xs ≠ [] ∨ m ∈ xs ∨ ∃ x ∈ xs, '"' :: m.toList <:+ x.toList := by
  induction xs with
  | nil =>
    refine iff_of_false (fun h => ?_) (by simp)
    rcases between_infix_quote.1 h with hstart | hwithin
    · exact absurd (hstart.subset (by simp : '"' ∈ m.toList ++ ['"'])) (by decide)
    · exact absurd (hwithin.subset List.mem_cons_self) (by decide)
  | cons x xs ih =>
    have hcomma : m.toList = [','] ↔ m = "," := by
      rw [← String.toList_inj]
      rfl
    rw [List.map_cons, writeItems, write, quoted, between_infix_quote]
    simp only [List.cons_append, List.append_assoc, List.nil_append]
    rw [comma_begins hm, hcomma, between_infix_cons (by decide), between_infix_quote,
      kept_prefix_quoted hm, between_infix_quoted hm, ih, String.toList_inj, List.mem_cons,
      List.exists_mem_cons_iff, eq_comm (a := x)]
    have hne : x :: xs ≠ [] := List.cons_ne_nil x xs
    grind

/-- A text that is kept as it is stands between quotes in the text of an array if it is one of the
items, or by accident. -/
theorem between_infix_text {m : String} (hm : ∀ c ∈ m.toList, isKept c = true)
    (xs : List String) :
    between m.toList <:+: (strings xs).text.toList ↔ m ∈ xs ∨ Straddles m xs := by
  cases xs with
  | nil =>
    refine iff_of_false (fun h => ?_) (by simp [Straddles])
    exact absurd (h.subset List.mem_cons_self) (by decide)
  | cons x xs =>
    rw [toList_text_cons, between_infix_cons (by decide), quoted]
    simp only [List.cons_append, List.append_assoc, List.nil_append]
    rw [between_infix_quote, kept_prefix_quoted hm, between_infix_quoted hm, between_infix_items hm,
      String.toList_inj, List.mem_cons, Straddles, List.exists_mem_cons_iff, eq_comm (a := x)]
    have hlength : 2 ≤ (x :: xs).length ↔ xs ≠ [] := by
      cases xs <;> simp
    rw [hlength]
    grind

end

end CatalogQuery.Json
