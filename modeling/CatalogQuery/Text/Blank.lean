/-!
# Blank characters and plain words

White space as the Unicode property of that name, trimming, and the three character classes that
names are made of. Main statement: a text split at a mark is the part before it, the mark and the part
after it.
-/

namespace CatalogQuery.Text

/-- The characters of the Unicode property White_Space. -/
def isBlank (c : Char) : Bool :=
  let n := c.toNat
  (9 ≤ n && n ≤ 13) || n == 0x20 || n == 0x85 || n == 0xA0 || n == 0x1680 ||
    (0x2000 ≤ n && n ≤ 0x200A) || n == 0x2028 || n == 0x2029 || n == 0x202F || n == 0x205F ||
    n == 0x3000

/-- Every character that core calls white space is blank. -/
theorem isBlank_of_isWhitespace {c : Char} (h : c.isWhitespace = true) : isBlank c = true := by
  simp only [Char.isWhitespace, Bool.or_eq_true, decide_eq_true_eq] at h
  rcases h with ((rfl | rfl) | rfl) | rfl <;> decide

/-- An ASCII letter or an underscore: how a name begins. -/
def isNameStart (c : Char) : Bool := c.isAlpha || c == '_'

/-- An ASCII letter, a digit or an underscore: how a name goes on. -/
def isNamePart (c : Char) : Bool := c.isAlphanum || c == '_'

/-- A plain name: a letter or underscore, then letters, digits and underscores. -/
def isName : List Char → Bool
  | [] => false
  | c :: rest => isNameStart c && rest.all isNamePart

theorem isNamePart_of_isNameStart {c : Char} (h : isNameStart c = true) : isNamePart c = true := by
  rw [isNameStart, Bool.or_eq_true] at h
  rw [isNamePart, Char.isAlphanum]
  cases h with
  | inl h => rw [h]; rfl
  | inr h => rw [h, Bool.or_true]

theorem all_isNamePart_of_isName {s : List Char} (h : isName s = true) :
    s.all isNamePart = true := by
  cases s with
  | nil => rfl
  | cons c s =>
    rw [isName, Bool.and_eq_true] at h
    rw [List.all_cons, isNamePart_of_isNameStart h.1, h.2]
    rfl

/-- A name goes on as one with whatever may stand in a name. -/
theorem isName_append {s t : List Char} (hs : isName s = true) (ht : t.all isNamePart = true) :
    isName (s ++ t) = true := by
  cases s with
  | nil => cases hs
  | cons c s =>
    rw [isName, Bool.and_eq_true] at hs
    rw [List.cons_append, isName, List.all_append, hs.1, hs.2, ht]
    rfl

def trimStart (s : List Char) : List Char := s.dropWhile isBlank

def trimEnd (s : List Char) : List Char := (s.reverse.dropWhile isBlank).reverse

/-- The text without the blanks at either end. -/
def trim (s : List Char) : List Char := trimEnd (trimStart s)

/-- Whether two texts are equal once ASCII letters lose their case. -/
def sameWord (a b : String) : Bool := a.toList.map Char.toLower == b.toList.map Char.toLower

/-- The text before the first `mark` and the text after it. -/
def splitAtFirst (mark : Char) : List Char → Option (List Char × List Char)
  | [] => none
  | c :: rest =>
    if c = mark then some ([], rest)
    else (splitAtFirst mark rest).map fun (before, after) => (c :: before, after)

theorem splitAtFirst_eq_some {mark : Char} {s a b : List Char}
    (h : splitAtFirst mark s = some (a, b)) : s = a ++ mark :: b ∧ mark ∉ a := by
  induction s generalizing a b with
  | nil => simp [splitAtFirst] at h
  | cons c rest ih =>
    unfold splitAtFirst at h
    split at h
    · rename_i hc
      simp only [Option.some.injEq, Prod.mk.injEq] at h
      simp [← h.1, ← h.2, hc]
    · rename_i hc
      obtain ⟨⟨a', b'⟩, hr, he⟩ := Option.map_eq_some_iff.1 h
      simp only [Prod.mk.injEq] at he
      obtain ⟨hs, hm⟩ := ih hr
      refine ⟨by rw [hs, ← he.1, ← he.2]; rfl, ?_⟩
      rw [← he.1]
      simp [Ne.symm hc, hm]

end CatalogQuery.Text
