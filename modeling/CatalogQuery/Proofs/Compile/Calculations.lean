import CatalogQuery.Compile.Frame
import CatalogQuery.Proofs.Session.Outcomes
import Mathlib.Data.List.Infix

/-!
# What calculations are compiled to

A formula is copied into the statement between two parentheses, with columns in place of its slots; of
what is not a slot only the characters are looked at. Main statement: every slot becomes a column of a
field that has one, and the text is one group without a comment in it just if the formula's own text
is balanced and opens no comment.
-/

namespace CatalogQuery

namespace Sql

/-! ## Text outside of quoted names -/

/-- What a text shows outside of quoted names; none stands for a backtick, so that characters that a
name separates stay apart. -/
def unquoted : (inside : Bool) → List Char → List (Option Char)
  | _, [] => []
  | inside, c :: rest =>
    if c = '`' then none :: unquoted (!inside) rest
    else if inside then unquoted inside rest
    else some c :: unquoted inside rest

theorem unquoted_inside (s : List Char) : ∃ n, ∀ rest,
    unquoted true (s.flatMap (fun c => if c = '`' then ['`', '`'] else [c]) ++ rest) =
      List.replicate n none ++ unquoted true rest := by
  induction s with
  | nil => exact ⟨0, fun _ => rfl⟩
  | cons c s ih =>
    obtain ⟨n, hn⟩ := ih
    by_cases hc : c = '`'
    · exact ⟨n + 2, fun rest => by simp [hc, unquoted, hn, List.replicate_succ]⟩
    · exact ⟨n, fun rest => by simp [hc, unquoted, hn]⟩

theorem unquoted_quoteName (s : List Char) : ∃ n, ∀ rest,
    unquoted false (quoteName s ++ rest) = none :: List.replicate n none ++ unquoted false rest := by
  obtain ⟨n, hn⟩ := unquoted_inside s
  refine ⟨n + 1, fun rest => ?_⟩
  rw [quoteName, List.cons_append, List.cons_append, List.append_assoc, List.singleton_append,
    unquoted, if_pos rfl, Bool.not_false, hn, unquoted, if_pos rfl, List.replicate_succ']
  simp

/-- What a quoted column leaves: marks and the point between its two names. -/
def IsGap (s : List (Option Char)) : Prop := s ≠ [] ∧ ∀ x ∈ s, x = none ∨ x = some '.'

theorem unquoted_column (c : Column) : ∃ gap, IsGap gap ∧ ∀ rest,
    unquoted false (c.sql.chars ++ rest) = gap ++ unquoted false rest := by
  obtain ⟨m, hm⟩ := unquoted_quoteName c.table.toList
  obtain ⟨n, hn⟩ := unquoted_quoteName c.name.toList
  refine ⟨none :: List.replicate m none ++ some '.' :: none :: List.replicate n none, ?_,
    fun rest => ?_⟩
  · refine ⟨by simp, fun x hx => ?_⟩
    simp only [List.mem_append, List.mem_cons, List.mem_replicate] at hx
    rcases hx with (rfl | ⟨-, rfl⟩) | rfl | rfl | ⟨-, rfl⟩
    · exact .inl rfl
    · exact .inl rfl
    · exact .inr rfl
    · exact .inl rfl
    · exact .inl rfl
  · have hchars : c.sql.chars ++ rest =
        quoteName c.table.toList ++ '.' :: (quoteName c.name.toList ++ rest) := by
      simp [Column.sql, chars, Piece.chars]
    rw [hchars, hm, unquoted, if_neg (by decide), if_neg (by simp), hn]
    simp

/-! ## Parentheses -/

/-- What a character adds to the parentheses that are open. -/
def weight : Option Char → Int
  | some '(' => 1
  | some ')' => -1
  | _ => 0

/-- How many more parentheses a text opens than it closes. -/
def excess : List (Option Char) → Int
  | [] => 0
  | x :: s => weight x + excess s

@[simp]
theorem excess_nil : excess [] = 0 := rfl

@[simp]
theorem excess_cons (x : Option Char) (s : List (Option Char)) :
    excess (x :: s) = weight x + excess s := rfl

@[simp]
theorem excess_append (s t : List (Option Char)) : excess (s ++ t) = excess s + excess t := by
  induction s with
  | nil => simp
  | cons x s ih =>
    rw [List.cons_append, excess_cons, excess_cons, ih]
    omega

/-- Every parenthesis that closes has one that it closes, and the other way round. -/
structure IsBalanced (s : List (Option Char)) : Prop where
  opened : ∀ p, p <+: s → 0 ≤ excess p
  closed : excess s = 0

/-- The first character opens a parenthesis that nothing closes but the last. -/
structure IsGroup (s : List (Option Char)) : Prop where
  inside : ∀ p q, s = p ++ q → p ≠ [] → q ≠ [] → 0 < excess p
  closed : excess s = 0

instance : DecidablePred IsBalanced := fun s =>
  decidable_of_iff ((∀ p ∈ s.inits, 0 ≤ excess p) ∧ excess s = 0)
    ⟨fun h => ⟨fun p hp => h.1 p ((List.mem_inits p s).2 hp), h.2⟩,
      fun h => ⟨fun p hp => h.opened p ((List.mem_inits p s).1 hp), h.closed⟩⟩

theorem isGroup_iff {s : List (Option Char)} :
    IsGroup (some '(' :: s ++ [some ')']) ↔ IsBalanced s := by
  have htotal : excess (some '(' :: s ++ [some ')']) = excess s := by
    simp only [excess_append, excess_cons, excess_nil, weight]
    omega
  constructor
  · rintro ⟨hinside, hclosed⟩
    refine ⟨fun p ⟨q, hq⟩ => ?_, htotal ▸ hclosed⟩
    have hp := hinside (some '(' :: p) (q ++ [some ')']) (by simp [← hq]) (by simp) (by simp)
    rw [excess_cons] at hp
    have hopen : weight (some '(') = 1 := rfl
    omega
  · rintro ⟨hopened, hclosed⟩
    refine ⟨fun p q hpq hp hq => ?_, htotal.trans hclosed⟩
    obtain ⟨x, p, rfl⟩ := List.exists_cons_of_ne_nil hp
    rw [List.cons_append, List.cons_append, List.cons_eq_cons] at hpq
    obtain ⟨rfl, hpq⟩ := hpq
    -- The last character is not in a part that others follow.
    have hprefix : p <+: s := by
      refine (List.prefix_concat_iff.1 ⟨q, hpq.symm⟩).resolve_left fun hall => hq ?_
      rw [hall] at hpq
      exact List.self_eq_append_right.1 hpq
    have hp := hopened p hprefix
    rw [excess_cons]
    have hopen : weight (some '(') = 1 := rfl
    omega

theorem excess_filter (s : List (Option Char)) : excess (s.filter (weight · ≠ 0)) = excess s := by
  induction s with
  | nil => rfl
  | cons x s ih =>
    by_cases hx : weight x = 0
    · rw [List.filter_cons_of_neg (by simp [hx]), ih, excess_cons, hx, Int.zero_add]
    · rw [List.filter_cons_of_pos (by simp [hx]), excess_cons, excess_cons, ih]

/-- Only the parentheses matter. -/
theorem isBalanced_filter {s : List (Option Char)} :
    IsBalanced (s.filter (weight · ≠ 0)) ↔ IsBalanced s := by
  constructor
  · rintro ⟨hopened, hclosed⟩
    refine ⟨fun p hp => ?_, (excess_filter s).symm.trans hclosed⟩
    rw [← excess_filter]
    exact hopened _ (hp.filter _)
  · rintro ⟨hopened, hclosed⟩
    refine ⟨fun p hp => ?_, (excess_filter s).trans hclosed⟩
    obtain ⟨q, hq, rfl⟩ := List.prefix_filter_iff.1 hp
    rw [excess_filter]
    exact hopened q hq

/-! ## Comments -/

/-- Whether a comment opens before the last character: a slash and a star, or two dashes and a
blank. -/
def OpensComment (s : List (Option Char)) : Prop :=
  [some '/', some '*'] <:+: s ∨ ∃ c, Text.isBlank c = true ∧ [some '-', some '-', some c] <:+: s

instance : DecidablePred OpensComment := fun s =>
  decidable_of_iff ([some '/', some '*'] <:+: s ∨
      ∃ x ∈ s, x.any Text.isBlank = true ∧ [some '-', some '-', x] <:+: s) <| by
    refine or_congr_right ⟨?_, ?_⟩
    · rintro ⟨_ | c, -, hblank, hs⟩
      · cases hblank
      · exact ⟨c, hblank, hs⟩
    · rintro ⟨c, hblank, hs⟩
      exact ⟨some c, hs.subset (by simp), hblank, hs⟩

/-- Whether a text has a comment in it, be it one that opens where the text ends. -/
def HasComment (s : List (Option Char)) : Prop := OpensComment s ∨ [some '-', some '-'] <:+ s

/-- Whether a character is neither in a quoted column nor a parenthesis. -/
def IsPlain (x : Option Char) : Prop := x ≠ none ∧ x ≠ some '.' ∧ x ≠ some '(' ∧ x ≠ some ')'

theorem opensComment_congr {s t : List (Option Char)}
    (h : ∀ w, w ≠ [] → (∀ x ∈ w, IsPlain x) → (w <:+: s ↔ w <:+: t)) :
    OpensComment s ↔ OpensComment t := by
  have hstar := h [some '/', some '*'] (by simp) (by unfold IsPlain; decide)
  have hdashes (c : Char) (hc : Text.isBlank c = true) :
      [some '-', some '-', some c] <:+: s ↔ [some '-', some '-', some c] <:+: t := by
    refine h _ (by simp) ?_
    have hblank : IsPlain (some c) := by
      refine ⟨by simp, ?_, ?_, ?_⟩ <;> rintro ⟨⟩ <;> revert hc <;> decide
    have hdash : IsPlain (some '-') := by
      unfold IsPlain
      decide
    simpa [hblank] using hdash
  exact or_congr hstar (exists_congr fun c => and_congr_right (hdashes c))

section

variable {α : Type} {w s b : List α} {x : α}

theorem infix_cons_of_not_mem (hne : w ≠ []) (hx : x ∉ w) : w <:+: x :: s ↔ w <:+: s := by
  refine List.infix_cons_iff.trans (or_iff_right fun h => ?_)
  obtain ⟨y, w, rfl⟩ := List.exists_cons_of_ne_nil hne
  exact hx ((List.cons_prefix_cons.1 h).1 ▸ List.mem_cons_self)

theorem infix_append_of_not_mem (hne : w ≠ []) (hb : ∀ x ∈ b, x ∉ w) :
    w <:+: b ++ s ↔ w <:+: s := by
  induction b with
  | nil => exact .rfl
  | cons x b ih =>
    obtain ⟨hx, hb⟩ := List.forall_mem_cons.1 hb
    exact (infix_cons_of_not_mem hne hx).trans (ih hb)

theorem infix_concat_of_not_mem (hne : w ≠ []) (hx : x ∉ w) : w <:+: s ++ [x] ↔ w <:+: s := by
  refine List.infix_concat_iff.trans (or_iff_right fun h => ?_)
  have hlast : w.getLast hne = x := by
    rw [h.getLast hne]
    simp
  exact hx (hlast ▸ List.getLast_mem hne)

end

/-- Two parentheses around a text open no comment. -/
theorem hasComment_group {s : List (Option Char)} :
    HasComment (some '(' :: s ++ [some ')']) ↔ OpensComment s := by
  have hend : ¬[some '-', some '-'] <:+ some '(' :: s ++ [some ')'] := by
    intro h
    have hlast := h.getLast (by simp)
    simp at hlast
  rw [HasComment, or_iff_left hend]
  refine opensComment_congr fun w hne hw => ?_
  have hleft : some '(' ∉ w := fun h => (hw _ h).2.2.1 rfl
  have hright : some ')' ∉ w := fun h => (hw _ h).2.2.2 rfl
  rw [infix_concat_of_not_mem hne hright, infix_cons_of_not_mem hne hleft]

/-! ## Gaps -/

/-- Whether a text shows a character, or a quoted column in its place. -/
inductive Shows : Option Char → List (Option Char) → Prop
  | char (c : Char) : Shows (some c) [some c]
  | gap {s : List (Option Char)} (h : IsGap s) : Shows none s

theorem filter_shown {own : List (Option Char)} {shown : List (List (Option Char))}
    (h : List.Forall₂ Shows own shown) :
    shown.flatten.filter (weight · ≠ 0) = own.filter (weight · ≠ 0) := by
  induction h with
  | nil => rfl
  | cons hfirst _ ih =>
    rw [List.flatten_cons, List.filter_append, ih]
    cases hfirst with
    | char c => exact (List.filter_append [some c] _).symm
    | gap hgap =>
      -- Neither a mark nor a point is a parenthesis.
      rw [List.filter_cons_of_neg (by simp [weight]), List.append_left_eq_self,
        List.filter_eq_nil_iff]
      intro x hx
      rcases hgap.2 x hx with rfl | rfl <;> decide

theorem isBalanced_shown {own : List (Option Char)} {shown : List (List (Option Char))}
    (h : List.Forall₂ Shows own shown) : IsBalanced shown.flatten ↔ IsBalanced own := by
  rw [← isBalanced_filter, filter_shown h, isBalanced_filter]

theorem not_mem_gap {s w : List (Option Char)} (hs : IsGap s) (hw : ∀ x ∈ w, IsPlain x) :
    ∀ x ∈ s, x ∉ w := by
  intro x hx hmem
  rcases hs.2 x hx with rfl | rfl
  · exact (hw _ hmem).1 rfl
  · exact (hw _ hmem).2.1 rfl

theorem prefix_shown {own : List (Option Char)} {shown : List (List (Option Char))}
    (h : List.Forall₂ Shows own shown) {w : List (Option Char)} (hw : ∀ x ∈ w, IsPlain x) :
    w <+: shown.flatten ↔ w <+: own := by
  induction h generalizing w with
  | nil => rfl
  | cons hfirst _ ih =>
    rw [List.flatten_cons]
    cases w with
    | nil => simp
    | cons x w =>
      obtain ⟨hx, hrest⟩ := List.forall_mem_cons.1 hw
      cases hfirst with
      | char c => rw [List.singleton_append, List.cons_prefix_cons, List.cons_prefix_cons, ih hrest]
      | gap hgap =>
        obtain ⟨y, s, rfl⟩ := List.exists_cons_of_ne_nil hgap.1
        have hy : x ≠ y := fun h => not_mem_gap hgap hw y (by simp) (by simp [h])
        simp [List.cons_prefix_cons, hy, hx.1]

theorem infix_shown {own : List (Option Char)} {shown : List (List (Option Char))}
    (h : List.Forall₂ Shows own shown) {w : List (Option Char)} (hne : w ≠ [])
    (hw : ∀ x ∈ w, IsPlain x) : w <:+: shown.flatten ↔ w <:+: own := by
  induction h with
  | nil => rfl
  | @cons x s own shown hfirst hrest ih =>
    rw [List.flatten_cons]
    cases hfirst with
    | char c =>
      have hprefix := prefix_shown (.cons (.char c) hrest) hw
      rw [List.singleton_append, List.infix_cons_iff, List.infix_cons_iff, ih]
      exact or_congr_left hprefix
    | gap hgap =>
      have hnone : none ∉ w := fun h => (hw _ h).1 rfl
      rw [infix_append_of_not_mem hne (not_mem_gap hgap hw), infix_cons_of_not_mem hne hnone, ih]

theorem opensComment_shown {own : List (Option Char)} {shown : List (List (Option Char))}
    (h : List.Forall₂ Shows own shown) : OpensComment shown.flatten ↔ OpensComment own :=
  opensComment_congr fun _ hne hw => infix_shown h hne hw

/-- What a part of a calculation shows. -/
def CalculationPart.shown (part : CalculationPart) : List (Option Char) :=
  unquoted false part.sql.chars

theorem shown_column (c : Column) : IsGap (CalculationPart.column c).shown ∧ ∀ rest,
    unquoted false (c.sql.chars ++ rest) = (CalculationPart.column c).shown ++ unquoted false rest := by
  obtain ⟨gap, hgap, hrest⟩ := unquoted_column c
  have hshown : (CalculationPart.column c).shown = gap := by
    have hnil := hrest []
    rw [List.append_nil] at hnil
    exact hnil.trans (List.append_nil gap)
  rw [hshown]
  exact ⟨hgap, hrest⟩

theorem shown_char {c : Char} (hc : c ≠ '`') : (CalculationPart.char c).shown = [some c] := by
  simp [CalculationPart.shown, CalculationPart.sql, word, chars, Piece.chars, unquoted, hc]

/-- Columns end outside of quotes, so that a calculation shows what its parts show. -/
theorem unquoted_parts {parts : List CalculationPart} (h : ∀ part ∈ parts, part ≠ .char '`')
    (rest : List Char) :
    unquoted false (chars (parts.flatMap CalculationPart.sql) ++ rest) =
      (parts.map CalculationPart.shown).flatten ++ unquoted false rest := by
  induction parts with
  | nil => rfl
  | cons part parts ih =>
    obtain ⟨hpart, hparts⟩ := List.forall_mem_cons.1 h
    rw [List.flatMap_cons, chars_append, List.append_assoc, List.map_cons, List.flatten_cons,
      List.append_assoc, ← ih hparts]
    cases part with
    | char c =>
      have hc : c ≠ '`' := fun h => hpart (congrArg _ h)
      rw [shown_char hc]
      simp [CalculationPart.sql, word, chars, Piece.chars, unquoted, hc]
    | column c => exact (shown_column c).2 _

/-- A calculation stands between two parentheses. -/
theorem unquoted_calculation {parts : List CalculationPart} (h : ∀ part ∈ parts, part ≠ .char '`') :
    unquoted false (Expr.calculation parts).sql.chars =
      some '(' :: (parts.map CalculationPart.shown).flatten ++ [some ')'] := by
  have hchars : (Expr.calculation parts).sql.chars =
      '(' :: (chars (parts.flatMap CalculationPart.sql) ++ [')']) := by
    rw [Expr.sql, chars_append, chars_append]
    simp [word, chars, Piece.chars]
  rw [hchars, unquoted, if_neg (by decide), if_neg (by simp), unquoted_parts h]
  rfl

end Sql

namespace Compile

open Sql

/-- Whether a part of a formula becomes a part of a calculation: a character is arithmetic and stays
as it is, and a slot becomes the column of a field that has one and goes by the name in the slot. -/
def Becomes (e : Entity) (table : String) : Text.TemplatePart → CalculationPart → Prop
  | .char c, found => isArithmetic c = true ∧ found = .char c
  | .slot name, found => ∃ f ∈ e.fields, f.isVirtual = false ∧ found = .column ⟨table, f.column⟩ ∧
      String.ofList (Text.trim name) ∈ [f.column, f.label, f.id]

/-- What a formula shows outside of its slots. -/
def ownText : Text.TemplatePart → Option Char
  | .char c => some c
  | .slot _ => none

section

variable {e : Entity} {table formula : String}

theorem becomes_of_calculationPart {part : Text.TemplatePart} {found : CalculationPart}
    (h : calculationPart e table part = .ok found)
    (hplain : ∀ c, found = .char c → isArithmetic c = true) : Becomes e table part found := by
  cases part with
  | char c =>
    cases h
    exact ⟨hplain c rfl, rfl⟩
  | slot name =>
    dsimp only [calculationPart] at h
    split at h
    · rename_i f hf
      cases h
      have hnamed := List.find?_some hf
      simp only [Bool.and_eq_true, Bool.not_eq_true', Bool.or_eq_true, beq_iff_eq] at hnamed
      obtain ⟨hvirtual, hname⟩ := hnamed
      refine ⟨f, List.mem_of_find?_eq_some hf, hvirtual, rfl, ?_⟩
      simp only [List.mem_cons, List.not_mem_nil, or_false]
      rcases hname with (h | h) | h
      · exact .inl h.symm
      · exact .inr (.inl h.symm)
      · exact .inr (.inr h.symm)
    · cases h

theorem becomes_of_mapM {parts : List Text.TemplatePart} {found : List CalculationPart}
    (h : parts.mapM (calculationPart e table) = .ok found)
    (hplain : ∀ c, .char c ∈ found → isArithmetic c = true) :
    List.Forall₂ (Becomes e table) parts found := by
  have hparts := (List.forall₂_and_left found parts).2 ⟨fun _ h => h, (Result.mapM_ok.1 h).flip⟩
  refine (hparts.imp fun first part h => ?_).flip
  exact becomes_of_calculationPart h.2 fun c hc => hplain c (hc ▸ h.1)

theorem not_backtick_of_isArithmetic {c : Char} (h : isArithmetic c = true) : c ≠ '`' := by
  rintro rfl
  revert h
  decide

/-- Accepted formulas come to their parts, one by one, all plain. -/
theorem becomes_of_calculation {expr : Expr} (h : calculation e table formula = .ok expr) :
    ∃ parts, expr = .calculation parts ∧ (∀ c, .char c ∈ parts → isArithmetic c = true) ∧
      List.Forall₂ (Becomes e table) (Text.templateParts formula) parts := by
  rw [calculation] at h
  split at h
  · cases h
  · rename_i parts hparts
    dsimp only at h
    split at h
    · rename_i hplain
      cases h
      have harithmetic (c : Char) (hc : .char c ∈ parts) : isArithmetic c = true :=
        List.all_eq_true.1 hplain (.char c) hc
      exact ⟨parts, rfl, harithmetic, becomes_of_mapM hparts harithmetic⟩
    · cases h

theorem shows_of_becomes {part : Text.TemplatePart} {found : CalculationPart}
    (h : Becomes e table part found) : Shows (ownText part) found.shown := by
  cases part with
  | char c =>
    obtain ⟨hplain, rfl⟩ := h
    rw [shown_char (not_backtick_of_isArithmetic hplain)]
    exact .char c
  | slot name =>
    obtain ⟨f, -, -, rfl, -⟩ := h
    exact .gap (shown_column _).1

/-- An accepted formula is copied with a column in place of each slot: that of a field that is not
computed and goes by the name in the slot. Outside of quoted names the text is one group just if the
formula's own text is balanced, and has no comment in it just if the formula opens none. -/
theorem calculation_accepted {expr : Expr} (h : calculation e table formula = .ok expr) :
    let own := (Text.templateParts formula).map ownText
    let text := unquoted false expr.sql.chars
    (∃ parts, expr = .calculation parts ∧
      List.Forall₂ (Becomes e table) (Text.templateParts formula) parts) ∧
    (IsGroup text ↔ IsBalanced own) ∧ (HasComment text ↔ OpensComment own) := by
  intro own text
  obtain ⟨parts, rfl, hplain, hparts⟩ := becomes_of_calculation h
  have hquoted : ∀ part ∈ parts, part ≠ .char '`' := by
    rintro _ hpart rfl
    exact not_backtick_of_isArithmetic (hplain _ hpart) rfl
  have hshown : List.Forall₂ Shows own (parts.map CalculationPart.shown) := by
    rw [List.forall₂_map_left_iff, List.forall₂_map_right_iff]
    exact hparts.imp fun _ _ => shows_of_becomes
  have htext : text = some '(' :: (parts.map CalculationPart.shown).flatten ++ [some ')'] :=
    unquoted_calculation hquoted
  rw [htext, isGroup_iff, hasComment_group]
  exact ⟨⟨parts, rfl, hparts⟩, isBalanced_shown hshown, opensComment_shown hshown⟩

end

/-- The sum of two columns, halved. -/
theorem calculation_accepted_half :
    let invoice := Entity.new "invoice" "Invoice" "INVOICE"
      [.new "n" "net" .number, .new "t" "tax" .number]
    let parts : List CalculationPart := [.char '(', .column ⟨"INVOICE", "net"⟩, .char '+',
      .column ⟨"INVOICE", "tax"⟩, .char ')', .char '/', .char '2']
    let text := unquoted false (Expr.calculation parts).sql.chars
    calculation invoice "INVOICE" "({net}+{ t })/2" = .ok (.calculation parts) ∧
      IsGroup text ∧ ¬HasComment text := by
  intro invoice parts text
  have haccepted : calculation invoice "INVOICE" "({net}+{ t })/2" = .ok (.calculation parts) := rfl
  obtain ⟨-, hgroup, hcomment⟩ := calculation_accepted haccepted
  exact ⟨haccepted, hgroup.2 (by decide +kernel), mt hcomment.1 (by decide +kernel)⟩

/-- A formula that closes the parenthesis around it, and two that open a comment. -/
theorem calculation_not_group :
    let note := Entity.new "note" "Note" "NOTE" [.new "a" "a" .number]
    let parts (s : String) : List CalculationPart := s.toList.map .char
    let shown (parts : List CalculationPart) := unquoted false (Expr.calculation parts).sql.chars
    (calculation note "NOTE" "1) - (1" = .ok (.calculation (parts "1) - (1")) ∧
      ¬IsGroup (shown (parts "1) - (1"))) ∧
    (calculation note "NOTE" "{a} /* 2" =
        .ok (.calculation (.column ⟨"NOTE", "a"⟩ :: parts " /* 2")) ∧
      HasComment (shown (.column ⟨"NOTE", "a"⟩ :: parts " /* 2"))) ∧
    calculation note "NOTE" "1 -- 2" = .ok (.calculation (parts "1 -- 2")) ∧
      HasComment (shown (parts "1 -- 2")) := by
  intro note parts shown
  refine ⟨⟨rfl, fun h => ?_⟩, ⟨rfl, .inl ?_⟩, rfl, .inl ?_⟩
  · -- The first parenthesis is closed after the first number.
    have hinside := h.inside ("(1)".toList.map some) (" - (1)".toList.map some) (by decide +kernel)
      (by decide) (by decide)
    revert hinside
    decide
  · decide +kernel
  · decide +kernel

end Compile

end CatalogQuery
