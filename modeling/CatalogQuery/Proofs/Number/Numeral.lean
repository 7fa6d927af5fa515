import CatalogQuery.Json.Printer

/-!
# Numbers as they are written

Main statement: the text of every number is a JSON number, with a sign only in front, no leading
zeros, and at least one digit on either side of a point and behind an exponent.
-/

namespace CatalogQuery

def IsDigits (s : List Char) : Prop := s ≠ [] ∧ ∀ c ∈ s, c.isDigit = true

inductive IsSign : List Char → Prop where
  | none : IsSign []
  | minus : IsSign ['-']

/-- Digits of which a zero leads only when it is alone. -/
def IsWhole (s : List Char) : Prop := IsDigits s ∧ (s.head? = some '0' → s = ['0'])

inductive IsFraction : List Char → Prop where
  | none : IsFraction []
  | digits {ds : List Char} : IsDigits ds → IsFraction ('.' :: ds)

inductive IsExponent : List Char → Prop where
  | none : IsExponent []
  | unsigned {ds : List Char} : IsDigits ds → IsExponent ('e' :: ds)
  | plus {ds : List Char} : IsDigits ds → IsExponent ('e' :: '+' :: ds)
  | minus {ds : List Char} : IsDigits ds → IsExponent ('e' :: '-' :: ds)

/-- A JSON number. -/
inductive IsNumeral : List Char → Prop where
  | parts {sign whole fraction exponent : List Char} : IsSign sign → IsWhole whole →
    IsFraction fraction → IsExponent exponent →
    IsNumeral (sign ++ (whole ++ (fraction ++ exponent)))

theorem IsDigits.append {s t : List Char} (hs : IsDigits s) (ht : ∀ c ∈ t, c.isDigit = true) :
    IsDigits (s ++ t) := by
  refine ⟨by simp [hs.1], fun c hc => ?_⟩
  rcases List.mem_append.1 hc with hc | hc
  · exact hs.2 c hc
  · exact ht c hc

theorem isDigits_toDigits (n : Nat) : IsDigits (Nat.toDigits 10 n) :=
  ⟨Nat.toDigits_ne_nil, fun _ hc => Nat.isDigit_of_mem_toDigits (by decide) (by decide) hc⟩

theorem digitChar_ne_zero {n : Nat} (h : 0 < n) (hn : n < 10) : n.digitChar ≠ '0' := by
  have : ∀ m : Fin 10, 0 < m.val → m.val.digitChar ≠ '0' := by decide
  exact this ⟨n, hn⟩ h

theorem head?_toDigits_ne_zero (n : Nat) (h : 0 < n) : (Nat.toDigits 10 n).head? ≠ some '0' := by
  induction n using Nat.strongRecOn with
  | ind n ih =>
    by_cases hn : n < 10
    · rw [Nat.toDigits_of_lt_base hn]
      simpa using digitChar_ne_zero h hn
    · have hpos : 0 < n / 10 := Nat.div_pos (by omega) (by decide)
      have hlt : n / 10 < n := Nat.div_lt_self h (by decide)
      rw [Nat.toDigits_of_base_le (by decide) (by omega), List.head?_append]
      cases hd : (Nat.toDigits 10 (n / 10)).head? with
      | none => exact absurd (List.head?_eq_none_iff.1 hd) Nat.toDigits_ne_nil
      | some c => simpa [hd] using ih _ hlt hpos

theorem isWhole_toDigits (n : Nat) : IsWhole (Nat.toDigits 10 n) := by
  refine ⟨isDigits_toDigits n, fun h => ?_⟩
  by_cases hn : n = 0
  · rw [hn]; rfl
  · exact absurd h (head?_toDigits_ne_zero n (by omega))

theorem isNumeral_intText (n : Int) : IsNumeral (intText n) := by
  unfold intText
  split
  · simpa using IsNumeral.parts .minus (isWhole_toDigits n.natAbs) .none .none
  · simpa using IsNumeral.parts .none (isWhole_toDigits n.natAbs) .none .none

namespace Binary64

/-- Digits for the shortest text: no zero leads, except in the text of zero itself. -/
def Leads (p : List Char × Int) : Prop :=
  IsDigits p.1 ∧ (p.1.head? = some '0' → p = (['0'], 0))

theorem head?_trimZeros {ds : List Char} (hd : ds ≠ []) (h : ds.head? ≠ some '0') :
    (shortestFrom.trimZeros ds).head? = ds.head? := by
  obtain ⟨c, rest, rfl⟩ := List.exists_cons_of_ne_nil hd
  have hc : (c == '0') = false := by simpa using h
  have hlast : (rest.reverse ++ [c]).dropWhile (· == '0') =
      rest.reverse.dropWhile (· == '0') ++ [c] := by
    rw [List.dropWhile_append]
    split
    · rename_i hnil
      rw [List.isEmpty_iff.1 hnil]
      simp [hc]
    · rfl
  simp [shortestFrom.trimZeros, hlast]

theorem leads_trimZeros {n : Nat} (hn : 0 < n) (e : Int) :
    Leads (shortestFrom.trimZeros (digits n), e) := by
  have hne : digits n ≠ [] := Nat.toDigits_ne_nil
  have hhead := head?_toDigits_ne_zero n hn
  have hsame := head?_trimZeros hne hhead
  refine ⟨⟨fun hnil => ?_, fun c hc => ?_⟩, fun h => absurd (hsame ▸ h) hhead⟩
  · rw [show shortestFrom.trimZeros (digits n) = [] from hnil] at hsame
    exact hne (List.head?_eq_none_iff.1 hsame.symm)
  · have hmem : c ∈ digits n :=
      List.mem_reverse.1 ((List.dropWhile_sublist _).mem (List.mem_reverse.1 hc))
    exact (isDigits_toDigits n).2 c hmem

theorem first_of_two {p : Nat → Bool} {a b q : Nat}
    (h : (if p a then some a else if p b then some b else none) = some q) : p q = true := by
  split at h
  · rename_i ha
    rwa [← Option.some.inj h]
  · split at h
    · rename_i hb
      rwa [← Option.some.inj h]
    · exact absurd h (by simp)

/-- The lower end of the interval that rounds to a number other than zero is above zero. -/
theorem interval_low_pos {x : Binary64} (hx : x.isZero = false) : 0 < x.interval.1.1 := by
  have hm : 0 < x.significand := Nat.pos_of_ne_zero (by simpa [isZero] using hx)
  simp only [interval]
  split
  · refine Nat.mul_pos ?_ (Nat.pow_pos (by decide))
    split <;> omega
  · simp only
    split <;> omega

/-- Only a multiple above zero reads back as a number other than zero. -/
theorem pos_of_onGrid {x : Binary64} (hx : x.isZero = false) {unit : Int} {q : Nat}
    (h : x.onGrid unit = some q) : 0 < q := by
  have hlow : 0 < x.interval.1.1 * Nat.pow 10 (-unit).toNat :=
    Nat.mul_pos (interval_low_pos hx) (Nat.pow_pos (by decide))
  let up := Nat.pow 10 (-unit).toNat
  let d := x.interval.2 * Nat.pow 10 unit.toNat
  let closed := x.significand % 2 == 0
  let inside (q : Nat) : Bool :=
    (x.interval.1.1 * up < q * d || (closed && x.interval.1.1 * up == q * d)) &&
      (q * d < x.interval.1.2.2 * up || (closed && q * d == x.interval.1.2.2 * up))
  have hin : inside q = true := by
    unfold onGrid at h
    exact first_of_two (p := inside) h
  refine Nat.pos_of_ne_zero fun hq => ?_
  simp only [inside, up, hq, Nat.zero_mul, Bool.and_eq_true, Bool.or_eq_true, decide_eq_true_eq,
    beq_iff_eq] at hin
  omega

theorem leads_shortestFrom {x : Binary64} (hx : x.isZero = false) (first : Int) (more count : Nat) :
    Leads (shortestFrom x first more count) := by
  induction more generalizing count with
  | zero => exact ⟨⟨by simp [shortestFrom], by simp [shortestFrom]⟩, fun _ => rfl⟩
  | succ more ih =>
    simp only [shortestFrom]
    split
    · rename_i q hq
      exact leads_trimZeros (pos_of_onGrid hx hq) _
    · exact ih (count + 1)

theorem isNumeral_scientific {sign ds : List Char} (hs : IsSign sign) (hd : IsDigits ds)
    (layout : Layout) (e : Int) : IsNumeral (sign ++ scientific layout ds e) := by
  obtain ⟨d, rest, rfl⟩ := List.exists_cons_of_ne_nil hd.1
  have hone : IsWhole [d] :=
    ⟨⟨by simp, by simpa using hd.2 d (by simp)⟩, by simp⟩
  have hexp : IsExponent (['e'] ++
      (if e < 0 then ['-'] else if layout.plusSign then ['+'] else []) ++ digits e.natAbs) := by
    have := isDigits_toDigits e.natAbs
    split
    · exact .minus this
    · split
      · exact .plus this
      · exact .unsigned this
  cases rest with
  | nil => simpa [scientific] using IsNumeral.parts hs hone .none hexp
  | cons c rest =>
    have hfrac : IsFraction ('.' :: c :: rest) :=
      .digits ⟨by simp, fun a ha => hd.2 a (List.mem_cons_of_mem _ ha)⟩
    simpa [scientific] using IsNumeral.parts hs hone hfrac hexp

theorem isDigit_of_mem_zeros {n : Nat} {c : Char} (h : c ∈ List.replicate n '0') :
    c.isDigit = true := by
  rw [(List.mem_replicate.1 h).2]; rfl

theorem isNumeral_positional {sign ds : List Char} (hs : IsSign sign) {e : Int}
    (h : Leads (ds, e)) : IsNumeral (sign ++ positional ds e) := by
  obtain ⟨hd, hzero⟩ := h
  unfold positional
  split
  · have hfrac : IsFraction ('.' :: (List.replicate (e.natAbs - 1) '0' ++ ds)) := by
      refine .digits ⟨by simp [hd.1], fun c hc => ?_⟩
      exact (List.mem_append.1 hc).elim isDigit_of_mem_zeros (hd.2 c)
    have hwhole : IsWhole ['0'] := ⟨⟨by simp, by simp⟩, fun _ => rfl⟩
    simpa using IsNumeral.parts hs hwhole hfrac .none
  · generalize hn : e.toNat + 1 = n
    obtain ⟨d, rest, rfl⟩ := List.exists_cons_of_ne_nil hd.1
    have hn' : n = (n - 1) + 1 := by omega
    -- The first digit is in front of the point, so it decides whether a zero leads.
    have hwhole : IsWhole ((d :: rest).take n ++ List.replicate (n - (d :: rest).length) '0') := by
      refine ⟨IsDigits.append ⟨by rw [hn']; simp, fun c hc => hd.2 c (List.mem_of_mem_take hc)⟩
        (fun c hc => isDigit_of_mem_zeros hc), fun hh => ?_⟩
      rw [hn'] at hh
      have hd0 : d = '0' := by simpa using hh
      have hp := hzero (by simp [hd0])
      simp only [Prod.mk.injEq, List.cons.injEq] at hp
      have : n = 1 := by omega
      simp [this, hp.1.1, hp.1.2]
    have hfrac : IsFraction ('.' ::
        (if ((d :: rest).drop n).isEmpty then ['0'] else (d :: rest).drop n)) := by
      refine .digits ?_
      split
      · exact ⟨by simp, by simp⟩
      · rename_i hne
        exact ⟨by simpa using hne, fun c hc => hd.2 c (List.mem_of_mem_drop hc)⟩
    simpa using IsNumeral.parts hs hwhole hfrac .none

theorem isNumeral_text (layout : Layout) (x : Binary64) : IsNumeral (x.text layout) := by
  have hs : IsSign (if x.negative then ['-'] else []) := by
    split
    · exact .minus
    · exact .none
  unfold text
  by_cases hx : x.isZero
  · have hwhole : IsWhole ['0'] := ⟨⟨by simp, by simp⟩, fun _ => rfl⟩
    have hfrac : IsFraction ['.', '0'] := .digits ⟨by simp, by simp⟩
    simpa [hx] using IsNumeral.parts hs hwhole hfrac .none
  · have hlead : Leads x.shortest := leads_shortestFrom (by simpa using hx) _ _ _
    simp only [hx, Bool.false_eq_true, if_false]
    generalize x.shortest = p at hlead
    obtain ⟨ds, e⟩ := p
    generalize (if x.negative then ['-'] else []) = sign at hs
    simp only
    split
    · exact isNumeral_positional hs hlead
    · exact isNumeral_scientific hs hlead.1 layout _

end Binary64

/-- Every number is written as JSON writes numbers. -/
theorem isNumeral_numberText (n : Number) : IsNumeral n.text := by
  cases n with
  | int n => exact isNumeral_intText n
  | float x => exact Binary64.isNumeral_text _ x

end CatalogQuery
