import CatalogQuery.Proofs.Sql.Evaluation
import Mathlib.Data.List.Infix

/-!
# Patterns

The database reads a pattern character by character: a percent sign stands for any text, an
underscore for any one character, and a backslash takes its meaning from the character behind it.
Main statements: a text that is looked for at some place is itself read as a pattern for what stands
there, and one without signs of its own is found where it stands.
-/

namespace CatalogQuery.Sql

/-- What a pattern asks for next. -/
inductive PatternPart where
  | anything
  | one
  | char (c : Char)

namespace PatternPart

/-- What a character asks for that no backslash stands in front of. -/
def ofChar (c : Char) : PatternPart :=
  if c = '%' then anything else if c = '_' then one else char c

/-- How the database reads a pattern. A backslash at its end is a character. -/
def read : List Char → List PatternPart
  | '\\' :: c :: rest => char c :: read rest
  | c :: rest => ofChar c :: read rest
  | [] => []

/-- Whether a text is what the parts of a pattern ask for. -/
def fits : List PatternPart → List Char → Bool
  | [], t => t.isEmpty
  | anything :: rest, t => t.tails.any (fits rest)
  | one :: _, [] => false
  | one :: rest, _ :: t => fits rest t
  | char _ :: _, [] => false
  | char c :: rest, d :: t => c == d && fits rest t

/-- Whether a character of a pattern stands for itself. -/
def isPlain (c : Char) : Bool := c != '%' && c != '_' && c != '\\'

/-- Whether the last character of a pattern is a backslash that still takes the meaning from
whatever comes behind it. -/
def isOpen : List Char → Bool
  | '\\' :: _ :: rest => isOpen rest
  | '\\' :: [] => true
  | _ :: rest => isOpen rest
  | [] => false

theorem ofChar_plain {c : Char} (h : isPlain c = true) : ofChar c = char c := by
  simp only [isPlain, Bool.and_eq_true, bne_iff_ne] at h
  rw [ofChar, if_neg h.1.1, if_neg h.1.2]

theorem read_cons {c : Char} (hc : c ≠ '\\') (s : List Char) :
    read (c :: s) = ofChar c :: read s := by
  cases s with
  | nil => simp [read]
  | cons d s =>
    rw [read]
    intro c' rest h _
    exact hc h

/-- What is read of a pattern does not depend on what follows, unless it ends in the middle of an
escape. -/
theorem read_append {s : List Char} (h : isOpen s = false) (p : List Char) :
    read (s ++ p) = read s ++ read p := by
  induction s using isOpen.induct with
  | case1 c rest ih =>
    show char c :: read (rest ++ p) = char c :: read rest ++ read p
    rw [ih h, List.cons_append]
  | case2 => cases h
  | case3 c rest hpair hsingle ih =>
    have hc : c ≠ '\\' := by
      rintro rfl
      cases rest with
      | nil => exact hsingle rfl rfl
      | cons d rest => exact hpair d rest rfl rfl
    rw [isOpen] at h
    · rw [List.cons_append, read_cons hc, read_cons hc, ih h, List.cons_append]
    · exact hpair
    · exact hsingle
  | case4 => rfl

theorem isOpen_of_no_backslash {s : List Char} (h : ∀ c ∈ s, c ≠ '\\') : isOpen s = false := by
  induction s with
  | nil => rfl
  | cons c s ih =>
    rw [List.forall_mem_cons] at h
    rw [isOpen]
    · exact ih h.2
    · exact fun _ _ hc _ => h.1 hc
    · exact fun hc _ => h.1 hc

/-- Without backslashes each character is a part by itself. -/
theorem read_of_no_backslash {s : List Char} (h : ∀ c ∈ s, c ≠ '\\') : read s = s.map ofChar := by
  induction s with
  | nil => rfl
  | cons c s ih =>
    rw [List.forall_mem_cons] at h
    rw [read_cons h.1, ih h.2, List.map_cons]

theorem no_backslash_of_plain {s : List Char} (h : ∀ c ∈ s, isPlain c = true) :
    ∀ c ∈ s, c ≠ '\\' := by
  intro c hc
  have := h c hc
  simp only [isPlain, Bool.and_eq_true, bne_iff_ne] at this
  exact this.2

theorem fits_anything {p : List PatternPart} {t : List Char} :
    fits (anything :: p) t = true ↔ ∃ rest, rest <:+ t ∧ fits p rest = true := by
  rw [fits, List.any_eq_true]
  simp only [List.mem_tails]

/-- A text fits two patterns in turn if it can be divided between them. -/
theorem fits_append {p q : List PatternPart} {t : List Char} :
    fits (p ++ q) t = true ↔ ∃ a b, t = a ++ b ∧ fits p a = true ∧ fits q b = true := by
  induction p generalizing t with
  | nil => simp [fits]
  | cons part p ih =>
    rw [List.cons_append]
    cases part with
    | anything =>
      rw [fits_anything]
      constructor
      · rintro ⟨rest, ⟨front, rfl⟩, hrest⟩
        obtain ⟨a, b, rfl, ha, hb⟩ := ih.1 hrest
        refine ⟨front ++ a, b, (List.append_assoc ..).symm, ?_, hb⟩
        exact fits_anything.2 ⟨a, List.suffix_append front a, ha⟩
      · rintro ⟨x, b, rfl, hx, hb⟩
        obtain ⟨a, ⟨front, rfl⟩, ha⟩ := fits_anything.1 hx
        exact ⟨a ++ b, ⟨front, (List.append_assoc ..).symm⟩, ih.2 ⟨a, b, rfl, ha, hb⟩⟩
    | one =>
      cases t with
      | nil => simp [fits]
      | cons d t =>
        rw [fits, ih]
        constructor
        · rintro ⟨a, b, rfl, ha, hb⟩
          exact ⟨d :: a, b, rfl, ha, hb⟩
        · rintro ⟨a, b, heq, ha, hb⟩
          cases a with
          | nil => cases ha
          | cons d' a =>
            rw [List.cons_append, List.cons.injEq] at heq
            exact ⟨a, b, heq.2, ha, hb⟩
    | char c =>
      cases t with
      | nil => simp [fits]
      | cons d t =>
        rw [fits, Bool.and_eq_true, beq_iff_eq, ih]
        constructor
        · rintro ⟨rfl, a, b, rfl, ha, hb⟩
          exact ⟨c :: a, b, rfl, by rw [fits, ha, beq_self_eq_true, Bool.and_self], hb⟩
        · rintro ⟨a, b, heq, ha, hb⟩
          cases a with
          | nil => cases ha
          | cons d' a =>
            rw [List.cons_append, List.cons.injEq] at heq
            obtain ⟨rfl, rfl⟩ := heq
            rw [fits, Bool.and_eq_true, beq_iff_eq] at ha
            exact ⟨ha.1, a, b, rfl, ha.2, hb⟩

/-- Before a percent sign stands the beginning of a text. -/
theorem fits_append_anything {p : List PatternPart} {t : List Char} :
    fits (p ++ [anything]) t = true ↔ ∃ w, w <+: t ∧ fits p w = true := by
  rw [fits_append]
  constructor
  · rintro ⟨a, b, rfl, ha, -⟩
    exact ⟨a, List.prefix_append a b, ha⟩
  · rintro ⟨a, ⟨b, rfl⟩, ha⟩
    exact ⟨a, b, rfl, ha, fits_anything.2 ⟨[], List.nil_suffix, rfl⟩⟩

/-- Characters that stand for themselves are one text. -/
theorem fits_chars {s t : List Char} : fits (s.map char) t = true ↔ t = s := by
  induction s generalizing t with
  | nil => simp [fits]
  | cons c s ih =>
    cases t with
    | nil => simp [fits]
    | cons d t =>
      rw [List.map_cons, fits, Bool.and_eq_true, beq_iff_eq, ih, List.cons.injEq, eq_comm (a := c)]

/-- A part fits the character that it is read from. -/
theorem fits_self (s : List Char) : fits (s.map ofChar) s = true := by
  induction s with
  | nil => rfl
  | cons c s ih =>
    rw [List.map_cons, ofChar]
    split
    · exact fits_anything.2 ⟨s, List.suffix_cons c s, ih⟩
    · split
      · exact ih
      · rw [fits, ih, beq_self_eq_true, Bool.and_self]

end PatternPart

/-- Whether a text is like a pattern. Characters are compared as they are. -/
def like (pattern text : String) : Bool :=
  PatternPart.fits (PatternPart.read pattern.toList) text.toList

/-- Where in a text another one stands. -/
def Pattern.Places (p : Pattern) (s t : String) : Prop :=
  match p with
  | contains => s.toList <:+: t.toList
  | beginsWith => s.toList <+: t.toList
  | endsWith => s.toList <:+ t.toList

/-- What a text says as a pattern. -/
theorem like_of_plain {s : String} (h : ∀ c ∈ s.toList, PatternPart.isPlain c = true) (w : String) :
    like s w = true ↔ w = s := by
  have hchars : s.toList.map PatternPart.ofChar = s.toList.map PatternPart.char :=
    List.map_congr_left fun c hc => PatternPart.ofChar_plain (h c hc)
  rw [like, PatternPart.read_of_no_backslash (PatternPart.no_backslash_of_plain h), hchars,
    PatternPart.fits_chars, String.toList_inj]

/-- Whatever its other signs, a text without backslashes is like itself. -/
theorem like_self {s : String} (h : ∀ c ∈ s.toList, c ≠ '\\') : like s s = true := by
  rw [like, PatternPart.read_of_no_backslash h]
  exact PatternPart.fits_self s.toList

/-- With a wildcard around it a text is looked for as a pattern for what stands at that place. A
backslash at its end would take the wildcard behind it for a character. -/
theorem like_around {p : Pattern} {s t : String}
    (h : p = .endsWith ∨ PatternPart.isOpen s.toList = false) :
    like (p.around s) t = true ↔ ∃ w, p.Places w t ∧ like s w = true := by
  have htext : Function.Surjective String.toList := fun w => ⟨String.ofList w, String.toList_ofList⟩
  cases p with
  | contains =>
    have hclosed := h.resolve_left nofun
    rw [like, Pattern.around, String.toList_append, String.toList_append, List.append_assoc]
    show PatternPart.fits (.anything :: PatternPart.read (s.toList ++ ['%'])) t.toList = true ↔ _
    rw [PatternPart.read_append hclosed, PatternPart.fits_anything]
    have hwithin : (∃ rest, rest <:+ t.toList ∧
        PatternPart.fits (PatternPart.read s.toList ++ [.anything]) rest = true) ↔
        ∃ w, w <:+: t.toList ∧ PatternPart.fits (PatternPart.read s.toList) w = true := by
      simp only [PatternPart.fits_append_anything]
      -- What stands in a text is the beginning of one of its ends.
      constructor
      · rintro ⟨rest, hrest, w, hw, hfits⟩
        exact ⟨w, hw.isInfix.trans hrest.isInfix, hfits⟩
      · rintro ⟨w, ⟨front, rest, heq⟩, hfits⟩
        exact ⟨w ++ rest, ⟨front, by rw [← List.append_assoc, heq]⟩, w, List.prefix_append w rest,
          hfits⟩
    exact hwithin.trans htext.exists
  | beginsWith =>
    have hclosed := h.resolve_left nofun
    rw [like, Pattern.around, String.toList_append]
    show PatternPart.fits (PatternPart.read (s.toList ++ ['%'])) t.toList = true ↔ _
    rw [PatternPart.read_append hclosed]
    exact PatternPart.fits_append_anything.trans htext.exists
  | endsWith =>
    rw [like, Pattern.around, String.toList_append]
    show PatternPart.fits (.anything :: PatternPart.read s.toList) t.toList = true ↔ _
    exact PatternPart.fits_anything.trans htext.exists

/-- A text without signs of its own is looked for as it is. -/
theorem like_around_of_plain {p : Pattern} {s t : String}
    (h : ∀ c ∈ s.toList, PatternPart.isPlain c = true) :
    like (p.around s) t = true ↔ p.Places s t := by
  have hclosed := PatternPart.isOpen_of_no_backslash (PatternPart.no_backslash_of_plain h)
  rw [like_around (.inr hclosed)]
  simp only [like_of_plain h, exists_eq_right]

/-- A text without backslashes is found where it stands, and perhaps elsewhere. -/
theorem like_around_of_places {p : Pattern} {s t : String} (h : ∀ c ∈ s.toList, c ≠ '\\')
    (hst : p.Places s t) : like (p.around s) t = true :=
  (like_around (.inr (PatternPart.isOpen_of_no_backslash h))).2 ⟨s, hst, like_self h⟩

end CatalogQuery.Sql
