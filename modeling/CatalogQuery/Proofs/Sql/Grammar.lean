import CatalogQuery.Proofs.Sql.Composed
import CatalogQuery.Proofs.Sql.Reading

/-!
# How the database reads tests

Outside of quotes the database reads words, single characters and what stands in parentheses. "And"
binds tighter than "or", except for the one that belongs to "between", and parentheses around a test
bind tightest. Main statement: the text of a composed predicate is read as the predicate.
-/

namespace CatalogQuery.Sql

inductive Item where
  | word (w : List Char)
  /-- A word with an opening parenthesis directly behind it. -/
  | function (w : List Char)
  | quoted (t : Token)
  | mark (c : Char)
  | blank
  | group (items : List Item)

namespace Item

def isBlank : Item → Bool
  | blank => true
  | _ => false

def isGroup : Item → Bool
  | group _ => true
  | _ => false

/-- Whether an item is a word of the language, in letters of either case. -/
def isKeyword (k : String) : Item → Bool
  | word w => w.map Char.toUpper == k.toList
  | _ => false

end Item

/-- Puts one more character of a word in front of what follows it. -/
def front (c : Char) : List Item → List Item
  | .word w :: rest => .word (c :: w) :: rest
  | .function w :: rest => .function (c :: w) :: rest
  | .group items :: rest => .function [c] :: .group items :: rest
  | items => .word [c] :: items

/-- Takes up the token in front of what was read so far. Of the parentheses that are closed but not
opened yet the innermost one comes first; there are none left when a parenthesis is opened in
vain. -/
def build (t : Token) : List (List Item) → List (List Item)
  | [] => []
  | items :: outer =>
    match t with
    | .plain c =>
      if Text.isNamePart c then front c items :: outer
      else if Text.isBlank c then (.blank :: items) :: outer
      else if c = ')' then [] :: items :: outer
      else if c = '(' then
        match outer with
        | [] => []
        | next :: rest => (.group items :: next) :: rest
      else (.mark c :: items) :: outer
    | .name s => (.quoted (.name s) :: items) :: outer
    | .text s => (.quoted (.text s) :: items) :: outer

/-- The items of a text; none when its parentheses do not match. -/
def nest (ts : List Token) : Option (List Item) :=
  match ts.foldr build [[]] with
  | [items] => some items
  | _ => none

/-- An item with what it is read as when it stands by itself. -/
abbrev Annotated := Item × Reading (List Item)

/-- Puts items in front of the first of several parts. -/
def prepend (l : List Annotated) : List (List Annotated) → List (List Annotated)
  | [] => [l]
  | first :: rest => (l ++ first) :: rest

/-- The parts between one "or" and the next. -/
def disjuncts : List Annotated → List (List Annotated)
  | [] => [[]]
  | i :: rest => if i.1.isKeyword "OR" then [] :: disjuncts rest else prepend [i] (disjuncts rest)

/-- The parts between one "and" and the next; behind "between" the first one does not count. -/
def conjuncts : (between : Bool) → List Annotated → List (List Annotated)
  | _, [] => [[]]
  | between, i :: rest =>
    if i.1.isKeyword "BETWEEN" then prepend [i] (conjuncts true rest)
    else if i.1.isKeyword "AND" then
      if between then prepend [i] (conjuncts false rest) else [] :: conjuncts false rest
    else prepend [i] (conjuncts between rest)

/-- What stands between connectives; a group by itself is read inside. -/
def factor : List Annotated → Reading (List Item)
  | [i] => i.2
  | l => .atom (l.map (·.1))

def conjunction (l : List Annotated) : Reading (List Item) :=
  .join .and ((conjuncts false l).map factor)

def assemble (l : List Annotated) : Reading (List Item) :=
  .join .or ((disjuncts l).map conjunction)

mutual
def Item.reading : Item → Reading (List Item)
  | .group items => assemble (annotated items)
  | .word w => .atom [.word w]
  | .function w => .atom [.function w]
  | .quoted t => .atom [.quoted t]
  | .mark c => .atom [.mark c]
  | .blank => .atom [.blank]
/-- Items with their readings, less the blanks. -/
def annotated : List Item → List Annotated
  | [] => []
  | .blank :: rest => annotated rest
  | i :: rest => (i, i.reading) :: annotated rest
end

/-- How the database reads a text as tests. -/
def readText (s : String) : Option (Reading (List Item)) :=
  match scan .normal s.toList with
  | (ts, .normal) => (nest ts).map fun items => assemble (annotated items)
  | _ => none

/-! ## Items of a statement -/

/-- What a part of a statement makes of what follows it. -/
def run (sql : Sql) (levels : List (List Item)) : List (List Item) :=
  (tokens sql).foldr build levels

theorem run_append (a b : Sql) (levels : List (List Item)) :
    run (a ++ b) levels = run a (run b levels) := by
  rw [run, tokens, List.flatMap_append, List.foldr_append]
  rfl

/-- Whether a word that ends in front of some items is not a part of what begins them. -/
def Clean : List Item → Prop
  | .word _ :: _ | .function _ :: _ | .group _ :: _ => False
  | _ => True

theorem front_of_clean {items : List Item} (h : Clean items) (c : Char) :
    front c items = .word [c] :: items := by
  cases items with
  | nil => rfl
  | cons i rest => cases i <;> first | rfl | exact h.elim

theorem Clean.append {is items : List Item} (his : Clean is) (h : Clean items) :
    Clean (is ++ items) := by
  cases is with
  | nil => exact h
  | cons i rest => cases i <;> trivial

/-- Whether a part of a statement adds some items to what follows it. -/
def Builds (sql : Sql) (is : List Item) : Prop :=
  ∀ items outer, Clean items → run sql (items :: outer) = (is ++ items) :: outer

theorem Builds.nest {sql : Sql} {is : List Item} (h : Builds sql is) :
    nest (tokens sql) = some is := by
  have hrun := h [] [] trivial
  rw [run, List.append_nil] at hrun
  rw [Sql.nest, hrun]

/-- Whether an item takes part in how tests are joined. -/
def Item.isConnective (i : Item) : Bool :=
  i.isKeyword "OR" || i.isKeyword "AND" || i.isKeyword "BETWEEN"

/-- Whether no item joins tests. -/
def Plain (is : List Item) : Prop := is.all (fun i => !i.isConnective) = true

/-- Whether an item begins one of the clauses by which the rows of a read are told from the rest. -/
def Item.isClause (i : Item) : Bool :=
  i.isKeyword "FROM" || i.isKeyword "ORDER" || i.isKeyword "LIMIT"

/-- Whether no item begins a clause. -/
def Level (is : List Item) : Prop := is.all (fun i => !i.isClause) = true

theorem Level.append {is js : List Item} (hi : Level is) (hj : Level js) : Level (is ++ js) := by
  rw [Level, List.all_append, hi, hj]
  rfl

theorem Plain.append {is js : List Item} (hi : Plain is) (hj : Plain js) : Plain (is ++ js) := by
  rw [Plain, List.all_append, hi, hj]
  rfl

/-! ## Values -/

/-- Whether a character may stand in a numeral. -/
def isNumeralChar (c : Char) : Bool :=
  c.isDigit || c == 'e' || c == 'E' || c == '.' || c == '-' || c == '+'

theorem isNumeralChar_of_digits {ds : List Char} (h : IsDigits ds) :
    ∀ c ∈ ds, isNumeralChar c = true := by
  intro c hc
  simp [isNumeralChar, h.2 c hc]

theorem isNumeralChar_of_numeral {s : List Char} (h : IsNumeral s) :
    ∀ c ∈ s, isNumeralChar c = true := by
  obtain ⟨hs, hw, hf, he⟩ := h
  simp only [List.forall_mem_append]
  refine ⟨?_, isNumeralChar_of_digits hw.1, ?_, ?_⟩
  · cases hs with
    | none => simp
    | minus => exact List.forall_mem_singleton.2 rfl
  · cases hf with
    | none => simp
    | digits hd => exact List.forall_mem_cons.2 ⟨rfl, isNumeralChar_of_digits hd⟩
  · cases he with
    | none => simp
    | unsigned hd => exact List.forall_mem_cons.2 ⟨rfl, isNumeralChar_of_digits hd⟩
    | plus hd =>
      exact List.forall_mem_cons.2 ⟨rfl, List.forall_mem_cons.2 ⟨rfl, isNumeralChar_of_digits hd⟩⟩
    | minus hd =>
      exact List.forall_mem_cons.2 ⟨rfl, List.forall_mem_cons.2 ⟨rfl, isNumeralChar_of_digits hd⟩⟩

theorem toUpper_of_isDigit {c : Char} (h : c.isDigit = true) : c.toUpper = c := by
  simp only [Char.isDigit, Bool.and_eq_true, decide_eq_true_eq] at h
  unfold Char.toUpper
  split
  · -- Digits come before the letters.
    rename_i hlower
    have h97 : (97 : UInt32) ≤ 57 := UInt32.le_trans hlower.1 h.2
    exact absurd h97 (by decide)
  · rfl

/-- No word of the language begins like a part of a numeral. -/
theorem isKeyword_of_numeral {w : List Char} (h : ∀ c ∈ w, isNumeralChar c = true) :
    Item.isConnective (.word w) = false ∧ Item.isClause (.word w) = false := by
  cases w with
  | nil => exact ⟨rfl, rfl⟩
  | cons c rest =>
    have hc := h c (by simp)
    have hupper : c.toUpper ≠ 'O' ∧ c.toUpper ≠ 'A' ∧ c.toUpper ≠ 'B' ∧ c.toUpper ≠ 'F' ∧
        c.toUpper ≠ 'L' := by
      simp only [isNumeralChar, Bool.or_eq_true, beq_iff_eq] at hc
      rcases hc with ((((hd | rfl) | rfl) | rfl) | rfl) | rfl
      · rw [toUpper_of_isDigit hd]
        refine ⟨?_, ?_, ?_, ?_, ?_⟩ <;> rintro rfl <;> exact absurd hd (by decide)
      all_goals decide
    -- The first letter already differs from that of every word of the language.
    simp [Item.isConnective, Item.isClause, Item.isKeyword, hupper]

/-- Whether an item is a word or a character of a numeral. -/
def Item.IsNumeral : Item → Prop
  | .word w => ∀ c ∈ w, isNumeralChar c = true
  | .mark _ => True
  | _ => False

theorem plain_of_isNumeral {is : List Item} (h : ∀ i ∈ is, i.IsNumeral) : Plain is ∧ Level is := by
  refine ⟨List.all_eq_true.2 fun i hi => ?_, List.all_eq_true.2 fun i hi => ?_⟩
  all_goals
    have hi := h i hi
    cases i with
    | word w => simp [isKeyword_of_numeral hi]
    | mark c => rfl
    | _ => exact hi.elim

/-- A character of a numeral goes on with a word that is there or begins a new one. -/
theorem front_numeral {c : Char} (hc : isNumeralChar c = true) {is : List Item}
    (his : ∀ i ∈ is, i.IsNumeral) :
    ∃ js : List Item, (∀ i ∈ js, i.IsNumeral) ∧ ∀ items, Clean items →
      front c (is ++ items) = js ++ items := by
  have hword : ∀ d ∈ [c], isNumeralChar d = true := List.forall_mem_singleton.2 hc
  cases is with
  | nil =>
    refine ⟨[.word [c]], List.forall_mem_singleton.2 hword, fun items h => ?_⟩
    exact front_of_clean h c
  | cons i rest =>
    obtain ⟨hi, hrest⟩ := List.forall_mem_cons.1 his
    cases i with
    | word w =>
      refine ⟨.word (c :: w) :: rest, List.forall_mem_cons.2 ⟨?_, hrest⟩, fun _ _ => rfl⟩
      exact List.forall_mem_cons.2 ⟨hc, hi⟩
    | mark d =>
      exact ⟨.word [c] :: .mark d :: rest, List.forall_mem_cons.2 ⟨hword, his⟩, fun _ _ => rfl⟩
    | _ => exact hi.elim

/-- The characters of a numeral, taken up from the last one on. -/
theorem builds_numeralChars {s : List Char} (hs : ∀ c ∈ s, isNumeralChar c = true) :
    ∃ is : List Item, (∀ i ∈ is, i.IsNumeral) ∧ ∀ items outer, Clean items →
      (s.map Token.plain).foldr build (items :: outer) = (is ++ items) :: outer := by
  induction s with
  | nil => exact ⟨[], by simp, fun _ _ _ => rfl⟩
  | cons c s ih =>
    rw [List.forall_mem_cons] at hs
    obtain ⟨is, his, hrun⟩ := ih hs.2
    -- A digit or letter goes on with the word behind it, a sign or point stands by itself.
    by_cases hpart : Text.isNamePart c = true
    · obtain ⟨js, hjs, hfront⟩ := front_numeral hs.1 his
      refine ⟨js, hjs, fun items outer h => ?_⟩
      rw [List.map_cons, List.foldr_cons, hrun items outer h]
      simp only [build, hpart, if_true, hfront items h]
    · -- What is no part of a name in a numeral stands by itself.
      have hmark : c = '.' ∨ c = '-' ∨ c = '+' := by
        have hc := hs.1
        simp only [isNumeralChar, Bool.or_eq_true, beq_iff_eq] at hc
        rcases hc with ((((hd | rfl) | rfl) | hc) | hc) | hc
        · exact absurd (by simp [Text.isNamePart, Char.isAlphanum, hd]) hpart
        · exact absurd rfl hpart
        · exact absurd rfl hpart
        · exact .inl hc
        · exact .inr (.inl hc)
        · exact .inr (.inr hc)
      refine ⟨.mark c :: is, List.forall_mem_cons.2 ⟨trivial, his⟩, fun items outer h => ?_⟩
      rw [List.map_cons, List.foldr_cons, hrun items outer h]
      rcases hmark with rfl | rfl | rfl <;> rfl

/-- The characters of a word directly in front of parentheses. -/
theorem foldr_function {w : List Char} (hw : ∀ c ∈ w, Text.isNamePart c = true) (hne : w ≠ [])
    (inside items : List Item) (outer : List (List Item)) :
    (w.map Token.plain).foldr build ((.group inside :: items) :: outer) =
      (.function w :: .group inside :: items) :: outer := by
  induction w with
  | nil => exact absurd rfl hne
  | cons c w ih =>
    rw [List.forall_mem_cons] at hw
    rw [List.map_cons, List.foldr_cons]
    -- The last character comes directly in front of the parenthesis.
    cases w with
    | nil => simp [build, hw.1, front]
    | cons d w =>
      rw [ih hw.2 (by simp)]
      simp [build, hw.1, front]

theorem isNamePart_of_isBlank {c : Char} (h : Text.isBlank c = true) :
    Text.isNamePart c = false := by
  by_contra hpart
  rw [Bool.not_eq_false] at hpart
  change (((decide (c.val ≥ 65 ∧ c.val ≤ 90) || (c.val ≥ 97 && c.val ≤ 122)) ||
    (c.val ≥ 48 && c.val ≤ 57)) || c == '_') = true at hpart
  simp only [Bool.or_eq_true, Bool.and_eq_true, decide_eq_true_eq, beq_iff_eq, ge_iff_le,
    UInt32.le_iff_toNat_le] at hpart
  have hrange : 48 ≤ c.toNat ∧ c.toNat ≤ 122 := by
    rcases hpart with ((h | h) | h) | rfl
    · exact ⟨Nat.le_trans (by decide) h.1, Nat.le_trans h.2 (by decide)⟩
    · exact ⟨Nat.le_trans (by decide) h.1, Nat.le_trans h.2 (by decide)⟩
    · exact ⟨Nat.le_trans (by decide) h.1, Nat.le_trans h.2 (by decide)⟩
    · decide
  simp only [Text.isBlank, Bool.or_eq_true, Bool.and_eq_true, decide_eq_true_eq, beq_iff_eq] at h
  omega

theorem foldr_blanks {s : List Char} (hs : ∀ c ∈ s, Text.isBlank c = true) (items : List Item)
    (outer : List (List Item)) :
    (s.map Token.plain).foldr build (items :: outer) =
      (s.map (fun _ => Item.blank) ++ items) :: outer := by
  induction s with
  | nil => rfl
  | cons c s ih =>
    rw [List.forall_mem_cons] at hs
    rw [List.map_cons, List.foldr_cons, ih hs.2]
    simp [build, isNamePart_of_isBlank hs.1, hs.1]

/-- What a call consists of. -/
theorem exists_of_isCall {s : List Char} (h : isCall s = true) :
    ∃ w blanks, Text.trim s = w ++ '(' :: (blanks ++ [')']) ∧ w ≠ [] ∧
      (∀ c ∈ w, Text.isNamePart c = true) ∧ ∀ c ∈ blanks, Text.isBlank c = true := by
  simp only [isCall, Bool.and_eq_true] at h
  obtain ⟨hname, hrest⟩ := h
  split at hrest
  · rename_i rest hopen
    refine ⟨(Text.trim s).takeWhile Text.isNamePart, rest.takeWhile Text.isBlank, ?_, ?_,
      fun c hc => List.mem_takeWhile_imp hc, fun c hc => List.mem_takeWhile_imp hc⟩
    · rw [beq_iff_eq] at hrest
      rw [← hrest, List.takeWhile_append_dropWhile, ← hopen, List.takeWhile_append_dropWhile]
    · intro hnil
      rw [hnil] at hname
      exact absurd hname (by decide)
  · exact absurd hrest (by simp)

theorem builds_call {s : List Char} (h : isCall s = true) :
    ∃ is, Builds [.call (Text.trim s)] is ∧ Plain is ∧ Level is := by
  obtain ⟨w, blanks, hs, hne, hw, hblanks⟩ := exists_of_isCall h
  refine ⟨[.function w, .group (blanks.map fun _ => .blank)], fun items outer _ => ?_, rfl, rfl⟩
  have htokens : tokens [.call (Text.trim s)] =
      w.map Token.plain ++ (.plain '(' :: (blanks.map Token.plain ++ [.plain ')'])) := by
    simp [tokens, Piece.tokens, hs]
  rw [run, htokens, List.foldr_append, List.foldr_cons, List.foldr_append]
  show (w.map Token.plain).foldr build
    (build (.plain '(') ((blanks.map Token.plain).foldr build ([] :: items :: outer))) = _
  rw [foldr_blanks hblanks, List.append_nil]
  exact foldr_function hw hne _ items outer

/-- Whether a part of a statement adds some items to what follows it, also when that begins with a
word. -/
def Adds (sql : Sql) (is : List Item) : Prop :=
  ∀ items outer, run sql (items :: outer) = (is ++ items) :: outer

theorem Adds.builds {sql : Sql} {is : List Item} (h : Adds sql is) : Builds sql is :=
  fun items outer _ => h items outer

theorem Adds.append {a b : Sql} {is js : List Item} (ha : Adds a is) (hb : Adds b js) :
    Adds (a ++ b) (is ++ js) := by
  intro items outer
  rw [run_append, hb items outer, ha, List.append_assoc]

theorem Adds.append_builds {a b : Sql} {is js : List Item} (ha : Adds a is) (hb : Builds b js) :
    Builds (a ++ b) (is ++ js) := by
  intro items outer h
  rw [run_append, hb items outer h, ha, List.append_assoc]

theorem Builds.append {a b : Sql} {is js : List Item} (ha : Builds a is) (hb : Builds b js)
    (hj : Clean js) : Builds (a ++ b) (is ++ js) := by
  intro items outer h
  rw [run_append, hb items outer h, ha _ _ (hj.append h), List.append_assoc]

theorem builds_null : Builds (word "NULL") [.word "NULL".toList] := by
  intro items outer h
  show (front 'N' (front 'U' (front 'L' (front 'L' items)))) :: outer = _
  rw [front_of_clean h]
  rfl

theorem builds_number (n : Number) :
    ∃ is, Builds [.number n] is ∧ Plain is ∧ Level is := by
  have hnumeral := isNumeralChar_of_numeral (isNumeral_numberText n)
  obtain ⟨is, his, hrun⟩ := builds_numeralChars hnumeral
  refine ⟨is, fun items outer h => ?_, plain_of_isNumeral his⟩
  have htokens : tokens [.number n] = n.text.map .plain := by
    simp [tokens, Piece.tokens]
  rw [run, htokens, hrun items outer h]

theorem builds_ofValue (v : Json) : ∃ is, Builds (ofValue v) is ∧ Plain is ∧ Level is := by
  have htext (s : String) : ∃ is, Builds [.text s] is ∧ Plain is ∧ Level is :=
    ⟨[.quoted (.text s.toList)], fun _ _ _ => rfl, rfl, rfl⟩
  cases v with
  | null => exact ⟨_, builds_null, rfl, rfl⟩
  | bool b =>
    refine ⟨[.word (if b then ['1'] else ['0'])], fun items outer h => ?_, ?_⟩
    · cases b with
      | false =>
        show front '0' items :: outer = _
        rw [front_of_clean h]
        rfl
      | true =>
        show front '1' items :: outer = _
        rw [front_of_clean h]
        rfl
    · cases b <;> exact ⟨rfl, rfl⟩
  | num n => exact builds_number n
  | str s =>
    rw [ofValue]
    split
    · rename_i h
      exact builds_call h
    · exact htext s
  | arr items => exact htext _
  | obj members => exact htext _

/-- What stands in the parentheses of a function. -/
theorem adds_function {w : String} {f : List Char}
    (hw : ∀ is items outer, run (word w) (is :: items :: outer) =
      (.function f :: .group is :: items) :: outer)
    {sql : Sql} {is : List Item} (h : Builds sql is) :
    Adds (word w ++ sql ++ word ")") [.function f, .group is] := by
  intro items outer
  rw [run_append, run_append]
  show run (word w) (run sql ([] :: items :: outer)) = _
  rw [h [] _ trivial, List.append_nil, hw]
  rfl

theorem adds_date {sql : Sql} {is : List Item} (h : Builds sql is) :
    Adds (word "DATE(" ++ sql ++ word ")") [.function "DATE".toList, .group is] :=
  adds_function (fun _ _ _ => rfl) h

theorem Operand.builds {o : Operand} (h : o.Composed) :
    ∃ is, Builds o.sql is ∧ Plain is ∧ Level is := by
  cases o with
  | value v => exact builds_ofValue v
  | day v =>
    obtain ⟨is, hv, -⟩ := builds_ofValue v
    exact ⟨_, (adds_date hv).builds, rfl, rfl⟩
  | today => exact ⟨[.function "CURDATE".toList, .group []], fun _ _ _ => rfl, rfl, rfl⟩
  | now => exact ⟨[.function "NOW".toList, .group []], fun _ _ _ => rfl, rfl, rfl⟩
  | text s => exact ⟨[.quoted (.text s.toList)], fun _ _ _ => rfl, rfl, rfl⟩
  | raw s => exact h.elim

/-! ## Expressions -/

theorem Column.adds (c : Column) :
    Adds c.sql [.quoted (.name c.table.toList), .mark '.', .quoted (.name c.name.toList)] :=
  fun _ _ => rfl

theorem ColumnPair.adds (p : ColumnPair) : ∃ is, Adds p.sql is ∧ Level is := by
  have heq : Adds (word " = ") [.blank, .mark '=', .blank] := fun _ _ => rfl
  exact ⟨_, ((p.left.adds).append heq).append p.right.adds, rfl⟩

theorem adds_aliased (table called : String) :
    Adds (aliased table called) [.quoted (.name table.toList), .blank, .word "AS".toList, .blank,
      .quoted (.name called.toList)] := fun _ _ => rfl

theorem Joined.adds (j : Joined) : ∃ is, Adds j.sql is ∧ Level is := by
  obtain ⟨is, hon, his⟩ := j.on.adds
  have hword : ∃ js, Adds (word (if j.outer then " LEFT JOIN " else " INNER JOIN ")) js ∧
      Level js := by
    cases j.outer with
    | false => exact ⟨[.blank, .word "INNER".toList, .blank, .word "JOIN".toList, .blank],
        fun _ _ => rfl, rfl⟩
    | true => exact ⟨[.blank, .word "LEFT".toList, .blank, .word "JOIN".toList, .blank],
        fun _ _ => rfl, rfl⟩
  obtain ⟨js, hjs, hlevel⟩ := hword
  have hOn : Adds (word " ON ") [.blank, .word "ON".toList, .blank] := fun _ _ => rfl
  have haliased : Level [.quoted (.name j.table.toList), .blank, .word "AS".toList, .blank,
      .quoted (.name j.called.toList)] := rfl
  have hlevelOn : Level [.blank, .word "ON".toList, .blank] := rfl
  exact ⟨_, ((hjs.append (adds_aliased j.table j.called)).append hOn).append hon,
    ((hlevel.append haliased).append hlevelOn).append his⟩

theorem Source.adds (s : Source) : ∃ is, Adds s.sql is ∧ Level is := by
  have hjoins (joins : List Joined) : ∃ is, Adds (joins.flatMap Joined.sql) is ∧ Level is := by
    induction joins with
    | nil => exact ⟨[], fun _ _ => rfl, rfl⟩
    | cons j joins ih =>
      obtain ⟨is, hj, his⟩ := j.adds
      obtain ⟨js, hjs, hlevel⟩ := ih
      exact ⟨_, hj.append hjs, his.append hlevel⟩
  obtain ⟨js, hjs, hlevel⟩ := hjoins s.joins
  rw [Source.sql]
  cases s.called with
  | none =>
    have hname : Adds (name s.table) [.quoted (.name s.table.toList)] := fun _ _ => rfl
    exact ⟨_, hname.append hjs, .append rfl hlevel⟩
  | some called => exact ⟨_, (adds_aliased s.table called).append hjs, .append rfl hlevel⟩

/-- Sums and counts stand inside one more function, whose second argument is zero. -/
theorem adds_orZero {w : String} {g : List Char}
    (hw : ∀ is js items outer, run (word w) (is :: js :: items :: outer) =
      (.function "COALESCE".toList :: .group (.function g :: .group is :: js) :: items) :: outer)
    {sql : Sql} {is : List Item} (h : Builds sql is) :
    Adds (word w ++ sql ++ word "), 0)") [.function "COALESCE".toList,
      .group [.function g, .group is, .mark ',', .blank, .word ['0']]] := by
  intro items outer
  rw [run_append, run_append]
  show run (word w) (run sql ([] :: [.mark ',', .blank, .word ['0']] :: items :: outer)) = _
  rw [h [] _ trivial, List.append_nil, hw]
  rfl

theorem adds_aggregate (f : Aggregate) (c : Column) : ∃ is, Adds (aggregateSql f c) is := by
  have hc := c.adds.builds
  cases f with
  | sum => exact ⟨_, adds_orZero (g := "SUM".toList) (fun _ _ _ _ => rfl) hc⟩
  | count => exact ⟨_, adds_orZero (g := "COUNT".toList) (fun _ _ _ _ => rfl) hc⟩
  | average => exact ⟨_, adds_function (f := "AVG".toList) (fun _ _ _ => rfl) hc⟩
  | max => exact ⟨_, adds_function (f := "MAX".toList) (fun _ _ _ => rfl) hc⟩
  | min => exact ⟨_, adds_function (f := "MIN".toList) (fun _ _ _ => rfl) hc⟩

/-! ## Connectives -/

theorem annotated_append (is js : List Item) :
    annotated (is ++ js) = annotated is ++ annotated js := by
  induction is with
  | nil => rfl
  | cons i rest ih =>
    cases i with
    | blank => exact ih
    | _ => exact congrArg (_ :: ·) ih

theorem map_fst_annotated (is : List Item) :
    (annotated is).map (·.1) = is.filter fun i => !i.isBlank := by
  induction is with
  | nil => rfl
  | cons i rest ih =>
    cases i with
    | blank => exact ih
    | _ => exact congrArg (_ :: ·) ih

theorem mem_annotated {is : List Item} {x : Annotated} (h : x ∈ annotated is) :
    x.1 ∈ is ∧ x.2 = x.1.reading := by
  induction is with
  | nil => cases h
  | cons i rest ih =>
    cases i with
    | blank =>
      have h := ih h
      exact ⟨List.mem_cons_of_mem _ h.1, h.2⟩
    | _ =>
      rcases List.mem_cons.1 h with rfl | h
      · exact ⟨by simp, rfl⟩
      · have h := ih h
        exact ⟨List.mem_cons_of_mem _ h.1, h.2⟩

theorem prepend_append (a b : List Annotated) (ls : List (List Annotated)) :
    prepend (a ++ b) ls = prepend a (prepend b ls) := by
  cases ls with
  | nil => rfl
  | cons first rest => simp [prepend]

theorem disjuncts_append {l : List Annotated} (h : ∀ x ∈ l, x.1.isKeyword "OR" = false)
    (rest : List Annotated) : disjuncts (l ++ rest) = prepend l (disjuncts rest) := by
  induction l with
  | nil =>
    -- There is always a first part, even of nothing.
    have hne : disjuncts rest ≠ [] := by
      cases rest with
      | nil => simp [disjuncts]
      | cons x rest =>
        rw [disjuncts]
        split
        · simp
        · cases disjuncts rest <;> simp [prepend]
    obtain ⟨first, others, hd⟩ := List.exists_cons_of_ne_nil hne
    rw [List.nil_append, hd]
    rfl
  | cons x l ih =>
    rw [List.forall_mem_cons] at h
    rw [List.cons_append, disjuncts, h.1, ih h.2]
    exact (prepend_append [x] l (disjuncts rest)).symm

theorem conjuncts_ne_nil (between : Bool) (l : List Annotated) : conjuncts between l ≠ [] := by
  have hprepend (a : List Annotated) (ls : List (List Annotated)) : prepend a ls ≠ [] := by
    cases ls <;> simp [prepend]
  cases l with
  | nil => simp [conjuncts]
  | cons x rest =>
    rw [conjuncts]
    split
    · exact hprepend _ _
    split
    · split
      · exact hprepend _ _
      · simp
    · exact hprepend _ _

theorem prepend_nil {ls : List (List Annotated)} (h : ls ≠ []) : prepend [] ls = ls := by
  obtain ⟨first, rest, rfl⟩ := List.exists_cons_of_ne_nil h
  rfl

theorem conjuncts_append {is : List Item} (h : Plain is) (between : Bool)
    (rest : List Annotated) :
    conjuncts between (annotated is ++ rest) = prepend (annotated is) (conjuncts between rest) := by
  have hplain : ∀ x ∈ annotated is, x.1.isConnective = false := fun x hx => by
    simpa using List.all_eq_true.1 h x.1 (mem_annotated hx).1
  generalize annotated is = l at hplain ⊢
  induction l with
  | nil => exact (prepend_nil (conjuncts_ne_nil between rest)).symm
  | cons x l ih =>
    rw [List.forall_mem_cons] at hplain
    have hx := hplain.1
    simp only [Item.isConnective, Bool.or_eq_false_iff] at hx
    rw [List.cons_append, conjuncts, hx.1.2, hx.2, ih hplain.2]
    exact (prepend_append [x] l (conjuncts between rest)).symm

/-- Whether items are read as one test between connectives, and how. -/
structure IsFactor (is : List Item) (r : Reading (List Item)) : Prop where
  noOr : ∀ x ∈ annotated is, x.1.isKeyword "OR" = false
  whole : ∀ rest, conjuncts false (annotated is ++ rest) =
    prepend (annotated is) (conjuncts false rest)
  factor : factor (annotated is) = r

theorem Plain.noOr {is : List Item} (h : Plain is) :
    ∀ x ∈ annotated is, x.1.isKeyword "OR" = false := by
  intro x hx
  have hx : x.1.isConnective = false := by simpa using List.all_eq_true.1 h x.1 (mem_annotated hx).1
  simp only [Item.isConnective, Bool.or_eq_false_iff] at hx
  exact hx.1.1

/-- Items of which at least one is no group are read as a test of their own. -/
theorem factor_of_not_group {is : List Item} {i : Item} (hi : i ∈ is) (hb : i.isBlank = false)
    (hg : i.isGroup = false) : factor (annotated is) = .atom (is.filter fun i => !i.isBlank) := by
  have hmem : i ∈ (annotated is).map (·.1) := by
    rw [map_fst_annotated]
    exact List.mem_filter.2 ⟨hi, by simp [hb]⟩
  rw [← map_fst_annotated]
  match h : annotated is with
  | [] => rfl
  | [x] =>
    -- An item by itself would be read inside if it was a group.
    rw [h, List.map_singleton, List.mem_singleton] at hmem
    have hmemx : x ∈ annotated is := by simp [h]
    have hx : x.2 = x.1.reading := (mem_annotated hmemx).2
    rw [factor, hx, List.map_singleton, ← hmem]
    cases i with
    | group items => cases hg
    | _ => rfl
  | _ :: _ :: _ => rfl

theorem Plain.isFactor {is : List Item} (h : Plain is) {i : Item} (hi : i ∈ is)
    (hb : i.isBlank = false) (hg : i.isGroup = false) :
    IsFactor is (.atom (is.filter fun i => !i.isBlank)) where
  noOr := h.noOr
  whole := conjuncts_append h false
  factor := factor_of_not_group hi hb hg

theorem isFactor_group (is : List Item) : IsFactor [.group is] (assemble (annotated is)) where
  noOr := by
    intro x hx
    rw [List.mem_singleton.1 hx]
    rfl
  whole := by
    have hplain : Plain [.group is] := rfl
    exact conjuncts_append hplain false
  factor := rfl

theorem IsFactor.conjuncts_and {is : List Item} {r : Reading (List Item)} (h : IsFactor is r)
    {k : Annotated} (hk : k.1 = .word "AND".toList) (rest : List Annotated) :
    conjuncts false (annotated is ++ k :: rest) = annotated is :: conjuncts false rest := by
  rw [h.whole, conjuncts, hk]
  show prepend (annotated is) ([] :: conjuncts false rest) = _
  rw [prepend, List.append_nil]

theorem IsFactor.disjuncts_or {is : List Item} {r : Reading (List Item)} (h : IsFactor is r)
    {k : Annotated} (hk : k.1 = .word "OR".toList) (rest : List Annotated) :
    disjuncts (annotated is ++ k :: rest) = annotated is :: disjuncts rest := by
  rw [disjuncts_append h.noOr, disjuncts, hk]
  show prepend (annotated is) ([] :: disjuncts rest) = _
  rw [prepend, List.append_nil]

theorem IsFactor.conjuncts {is : List Item} {r : Reading (List Item)} (h : IsFactor is r) :
    conjuncts false (annotated is) = [annotated is] := by
  have hwhole := h.whole []
  rw [List.append_nil] at hwhole
  rw [hwhole, Sql.conjuncts, prepend, List.append_nil]

theorem IsFactor.disjuncts {is : List Item} {r : Reading (List Item)} (h : IsFactor is r) :
    disjuncts (annotated is) = [annotated is] := by
  have hall := disjuncts_append h.noOr []
  rw [List.append_nil] at hall
  rw [hall, Sql.disjuncts, prepend, List.append_nil]

theorem IsFactor.conjunction {is : List Item} {r : Reading (List Item)} (h : IsFactor is r) :
    conjunction (annotated is) = r := by
  rw [Sql.conjunction, h.conjuncts, List.map_singleton, h.factor]
  rfl

theorem IsFactor.assemble {is : List Item} {r : Reading (List Item)} (h : IsFactor is r) :
    assemble (annotated is) = r := by
  rw [Sql.assemble, h.disjuncts, List.map_singleton, h.conjunction]
  rfl

end CatalogQuery.Sql
