import CatalogQuery.Proofs.Number.Numeral
import CatalogQuery.Proofs.Sql.Scan
import CatalogQuery.Sql.Statement
import Mathlib.Data.List.TakeWhile
import Mathlib.Tactic.ByContra
import Mathlib.Tactic.Tauto

/-!
# Statements that are read as they were put together

A sealed statement consists of words of a fixed vocabulary, quoted names, quoted texts, numbers and
calls of functions, and two quoted pieces never touch. Main statement: reading a sealed statement
gives the tokens of its pieces one after another and ends outside of all marks.
-/

namespace CatalogQuery.Sql

/-- The words that statements are made of. -/
def vocabulary : List String :=
  [" ", ".", ", ", "(", ")", "=", "<>", "<", ">", "<=", ">=", " = ", "0", "1", "1 = 0", "1 = 1",
    "NULL", " IS ", "NOT ", "LIKE ", "IN (", "BETWEEN ", " AND ", " OR ", "NULLIF(", ", '') IS ",
    "EXISTS (SELECT 1 FROM ", "DATE(", "CURDATE()", "NOW()", "FIND_IN_SET(",
    "JSON_UNQUOTE(JSON_EXTRACT(", ", CONCAT(SUBSTRING_INDEX(JSON_UNQUOTE(JSON_SEARCH(", ", 'one', ",
    ")), '.', 1), ", ")))", "(SELECT ", "COALESCE(SUM(", "COALESCE(COUNT(", "), 0)", "AVG(", "MAX(",
    "MIN(", " AS ", " ON ", " LEFT JOIN ", " INNER JOIN ", "SELECT ", "SELECT DISTINCT ", ".*",
    "COUNT(DISTINCT ", ") AS ", " FROM ", " WHERE ", " ORDER BY ", " ASC", " DESC", " LIMIT ",
    " OFFSET ", "INSERT INTO ", " (", ") VALUES (", ") SELECT ",
    " FROM DUAL WHERE NOT EXISTS (SELECT 1 FROM ", "UPDATE ", " SET ", "DELETE FROM "]

namespace Piece

/-- Whether what a piece holds unquoted is a word of the vocabulary, a number or the call of a
function. -/
def Fits : Piece → Prop
  | raw w => w ∈ vocabulary
  | number n => IsNumeral n.text
  | call s => ∃ t, isCall t = true ∧ s = Text.trim t
  | name _ | text _ => True

def isQuoted : Piece → Bool
  | name _ | text _ => true
  | _ => false

/-- What a piece is to be read as. -/
def tokens : Piece → List Token
  | raw w => (scan .normal w.toList).1
  | name s => [.name s.toList]
  | text s => [.text s.toList]
  | number n => n.text.map .plain
  | call s => s.map .plain

end Piece

def tokens (sql : Sql) : List Token := sql.flatMap Piece.tokens

/-- Every piece fits, and no quoted piece follows another one at once. -/
def Sealed : Sql → Prop
  | [] => True
  | p :: rest => p.Fits ∧ (p.isQuoted → ∀ q ∈ rest.head?, q.isQuoted = false) ∧ Sealed rest

@[simp]
theorem sealed_nil : Sealed [] := trivial

@[simp]
theorem sealed_singleton (p : Piece) : Sealed [p] ↔ p.Fits := by
  simp [Sealed]

@[simp]
theorem Piece.fits_raw (w : String) : (Piece.raw w).Fits ↔ w ∈ vocabulary := Iff.rfl

@[simp]
theorem Piece.fits_name (s : String) : (Piece.name s).Fits := trivial

@[simp]
theorem Piece.fits_text (s : String) : (Piece.text s).Fits := trivial

@[simp]
theorem Piece.fits_number (n : Number) : (Piece.number n).Fits := isNumeral_numberText n

/-- A word keeps apart what is on either side of it. -/
@[simp]
theorem sealed_append_raw {a b : Sql} {w : String} :
    Sealed (a ++ .raw w :: b) ↔ Sealed a ∧ w ∈ vocabulary ∧ Sealed b := by
  induction a with
  | nil => simp [Sealed, Piece.Fits, Piece.isQuoted]
  | cons p a ih =>
    have hnext : (p.isQuoted = true → ∀ q ∈ (a ++ .raw w :: b).head?, q.isQuoted = false) ↔
        (p.isQuoted = true → ∀ q ∈ a.head?, q.isQuoted = false) := by
      cases a with
      | nil => simp [Piece.isQuoted]
      | cons q a => simp
    simp only [List.cons_append, Sealed, hnext, ih]
    tauto

@[simp]
theorem sealed_raw_cons {b : Sql} {w : String} :
    Sealed (.raw w :: b) ↔ w ∈ vocabulary ∧ Sealed b := by
  simpa using sealed_append_raw (a := []) (b := b) (w := w)

@[simp]
theorem sealed_piece_raw {p : Piece} {b : Sql} {w : String} :
    Sealed (p :: .raw w :: b) ↔ p.Fits ∧ w ∈ vocabulary ∧ Sealed b := by
  simpa using sealed_append_raw (a := [p]) (b := b) (w := w)

theorem Sealed.fits {sql : Sql} (h : Sealed sql) : ∀ p ∈ sql, p.Fits := by
  induction sql with
  | nil => simp
  | cons p rest ih =>
    intro q hq
    rcases List.mem_cons.1 hq with rfl | hq
    · exact h.1
    · exact ih h.2.2 q hq

/-! ## Reading -/

/-- Whether a text is read as some tokens whatever follows it. -/
def Reads (s : List Char) (ts : List Token) : Prop :=
  ∀ rest, scan .normal (s ++ rest) = emitAll ts (scan .normal rest)

theorem Reads.nil : Reads [] [] := fun _ => rfl

theorem Reads.append {s t : List Char} {ts us : List Token} (hs : Reads s ts) (ht : Reads t us) :
    Reads (s ++ t) (ts ++ us) := by
  intro rest
  rw [List.append_assoc, hs, ht, emitAll_emitAll]

theorem Reads.cons {c : Char} (hc : isSingle c = true) {s : List Char} {ts : List Token}
    (hs : Reads s ts) : Reads (c :: s) (.plain c :: ts) := by
  intro rest
  rw [List.cons_append, scan_single hc, hs, emit_emitAll]

theorem reads_singles {s : List Char} (h : ∀ c ∈ s, isSingle c = true) : Reads s (s.map .plain) :=
  fun rest => scan_singles (List.all_eq_true.2 h) rest

/-- The characters that are not read by themselves. -/
theorem of_not_isSingle {c : Char} (h : isSingle c = false) :
    c = '`' ∨ c = '\'' ∨ c = '"' ∨ c = '#' ∨ c = '-' ∨ c = '/' := by
  simp only [isSingle, isMark, Bool.and_eq_false_iff, Bool.not_eq_false', Bool.or_eq_true,
    beq_iff_eq, bne_eq_false_iff_eq] at h
  tauto

theorem isSingle_of_isNamePart {c : Char} (h : Text.isNamePart c = true) : isSingle c = true := by
  by_contra hs
  rcases of_not_isSingle (by simpa using hs) with rfl | rfl | rfl | rfl | rfl | rfl <;>
    exact absurd h (by decide)

theorem isSingle_of_isDigit {c : Char} (h : c.isDigit = true) : isSingle c = true :=
  isSingle_of_isNamePart (by simp [Text.isNamePart, Char.isAlphanum, h])

theorem isSingle_of_isBlank {c : Char} (h : Text.isBlank c = true) : isSingle c = true := by
  by_contra hs
  rcases of_not_isSingle (by simpa using hs) with rfl | rfl | rfl | rfl | rfl | rfl <;>
    exact absurd h (by decide)

theorem reads_digits {ds : List Char} (h : IsDigits ds) : Reads ds (ds.map .plain) :=
  reads_singles fun c hc => isSingle_of_isDigit (h.2 c hc)

/-- A minus in front of digits does not open a comment. -/
theorem reads_minus_digits {ds : List Char} (h : IsDigits ds) :
    Reads ('-' :: ds) (('-' :: ds).map .plain) := by
  intro rest
  obtain ⟨d, tail, rfl⟩ := List.exists_cons_of_ne_nil h.1
  have hd : d ≠ '-' := fun hd => by
    have := h.2 d (by simp)
    rw [hd] at this
    exact absurd this (by decide)
  rw [List.cons_append, List.cons_append, scan_minus hd, ← List.cons_append, reads_digits h,
    emit_emitAll]
  rfl

theorem reads_fraction {s : List Char} (h : IsFraction s) : Reads s (s.map .plain) := by
  cases h with
  | none => exact .nil
  | digits hd => exact .cons (by decide) (reads_digits hd)

theorem reads_exponent {s : List Char} (h : IsExponent s) : Reads s (s.map .plain) := by
  cases h with
  | none => exact .nil
  | unsigned hd => exact .cons (by decide) (reads_digits hd)
  | plus hd => exact .cons (by decide) (.cons (by decide) (reads_digits hd))
  | minus hd => exact .cons (by decide) (reads_minus_digits hd)

theorem reads_numeral {s : List Char} (h : IsNumeral s) : Reads s (s.map .plain) := by
  cases h with
  | parts hs hw hf he =>
    have htail := (reads_fraction hf).append (reads_exponent he)
    simp only [List.map_append]
    cases hs with
    | none => exact (reads_digits hw.1).append htail
    | minus => exact (reads_minus_digits hw.1).append htail

/-- A call consists of the characters of a name, blanks and a pair of parentheses. -/
theorem isSingle_of_mem_call {s : List Char} (h : isCall s = true) :
    ∀ c ∈ Text.trim s, isSingle c = true := by
  intro c hc
  simp only [isCall, Bool.and_eq_true] at h
  obtain ⟨-, hrest⟩ := h
  rw [← List.takeWhile_append_dropWhile (p := Text.isNamePart) (l := Text.trim s)] at hc
  rcases List.mem_append.1 hc with hc | hc
  · exact isSingle_of_isNamePart (List.mem_takeWhile_imp hc)
  split at hrest
  · rename_i rest hopen
    rw [hopen] at hc
    rcases List.mem_cons.1 hc with rfl | hc
    · rfl
    rw [← List.takeWhile_append_dropWhile (p := Text.isBlank) (l := rest)] at hc
    rcases List.mem_append.1 hc with hc | hc
    · exact isSingle_of_isBlank (List.mem_takeWhile_imp hc)
    · rw [beq_iff_eq] at hrest
      rw [hrest, List.mem_singleton] at hc
      rw [hc]
      rfl
  · exact absurd hrest (by simp)

/-- Of the vocabulary only three words have quotes in them, and these end outside of the quotes. -/
theorem reads_word {w : String} (h : w ∈ vocabulary) :
    Reads w.toList (scan .normal w.toList).1 := by
  by_cases hs : w.toList.all isSingle = true
  · have hw := scan_singles hs []
    rw [List.append_nil] at hw
    rw [hw]
    simpa [emitAll, scan] using reads_singles (List.all_eq_true.1 hs)
  · have hall : ∀ w ∈ vocabulary, w.toList.all isSingle = true ∨
        w = ", '') IS " ∨ w = ", 'one', " ∨ w = ")), '.', 1), " := by decide +kernel
    rcases (hall w h).resolve_left hs with rfl | rfl | rfl <;> exact fun _ => rfl

theorem head?_call {s : List Char} (h : isCall s = true) :
    ∃ c, (Text.trim s).head? = some c ∧ isMark c = false := by
  simp only [isCall, Bool.and_eq_true] at h
  obtain ⟨hname, -⟩ := h
  cases hs : Text.trim s with
  | nil => simp [hs, Text.isName] at hname
  | cons c rest =>
    refine ⟨c, rfl, ?_⟩
    by_contra hm
    have hpart : Text.isNamePart c = false := by
      simp only [isMark, Bool.not_eq_false, Bool.or_eq_true, beq_iff_eq] at hm
      rcases hm with (rfl | rfl) | rfl <;> rfl
    simp [hs, hpart, Text.isName] at hname

theorem head?_numeral {s : List Char} (h : IsNumeral s) :
    ∃ c, s.head? = some c ∧ isMark c = false := by
  cases h with
  | @parts _ whole _ _ hs hw hf he =>
    cases hs with
    | minus => exact ⟨'-', rfl, rfl⟩
    | none =>
      obtain ⟨d, tail, rfl⟩ := List.exists_cons_of_ne_nil hw.1.1
      have hd := isSingle_of_isDigit (hw.1.2 d (by simp))
      simp only [isSingle, Bool.and_eq_true, Bool.not_eq_true'] at hd
      exact ⟨d, rfl, hd.1.1.1⟩

/-- What is not quoted does not begin with a mark. -/
theorem Piece.head?_chars {p : Piece} (h : p.Fits) (hq : p.isQuoted = false) :
    ∃ c, p.chars.head? = some c ∧ isMark c = false := by
  cases p with
  | raw w =>
    have hall : ∀ w ∈ vocabulary, (w.toList.head?.any fun c => !isMark c) = true := by
      decide +kernel
    simpa [Piece.chars, Option.any_eq_true] using hall w h
  | name s => exact absurd hq (by simp [isQuoted])
  | text s => exact absurd hq (by simp [isQuoted])
  | number n => exact head?_numeral h
  | call s =>
    obtain ⟨t, ht, rfl⟩ := h
    exact head?_call ht

/-- What follows a quoted piece in a sealed statement does not go on with it. -/
theorem Sealed.head?_chars {c : Char} (hc : isMark c = true) {rest : Sql} (h : Sealed rest)
    (hq : ∀ q ∈ rest.head?, q.isQuoted = false) : (chars rest).head? ≠ some c := by
  cases rest with
  | nil => simp [chars]
  | cons p rest =>
    obtain ⟨d, hd, hm⟩ := Piece.head?_chars h.1 (hq p rfl)
    intro hh
    rw [chars, List.flatMap_cons, List.head?_append, hd] at hh
    rw [← Option.some.inj hh, hm] at hc
    exact absurd hc (by decide)

/-- Reading a sealed statement gives the tokens of its pieces and ends outside of all marks. -/
theorem Sealed.scan_chars {sql : Sql} (h : Sealed sql) :
    scan .normal sql.chars = (tokens sql, .normal) := by
  induction sql with
  | nil => rfl
  | cons p rest ih =>
    obtain ⟨hfits, hnext, hrest⟩ := h
    have key : scan .normal (p.chars ++ chars rest) =
        emitAll p.tokens (scan .normal (chars rest)) := by
      cases p with
      | raw w => exact reads_word hfits _
      | name s => exact scan_quoteName _ (hrest.head?_chars (by decide) (hnext rfl))
      | text s => exact scan_quoteText _ (hrest.head?_chars (by decide) (hnext rfl))
      | number n => exact reads_numeral hfits _
      | call s =>
        obtain ⟨t, ht, rfl⟩ := hfits
        exact reads_singles (isSingle_of_mem_call ht) _
    rw [show chars (p :: rest) = p.chars ++ chars rest from rfl, key, ih hrest]
    rfl

end CatalogQuery.Sql
