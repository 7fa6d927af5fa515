import CatalogQuery.Proofs.Sql.Grammar

/-!
# Predicates are read as they are

Main statement: the text of a composed predicate is read as the predicate, with the tests that are
not joined to others as they stand in the text.
-/

namespace CatalogQuery.Sql

/-- The items that a test is read as, less the blanks. -/
def Predicate.items (p : Predicate) : List Item :=
  ((nest (tokens p.sql)).getD []).filter fun i => !i.isBlank

/-- What a predicate is read as. -/
def Predicate.itemReading (p : Predicate) : Reading (List Item) :=
  p.reading.bind fun q => .atom q.items

/-- Whether the text of a predicate is read as the predicate between connectives. -/
def Predicate.IsRead (p : Predicate) : Prop :=
  ∃ is, Builds p.sql is ∧ IsFactor is p.itemReading

/-- Whether a predicate is written as one test: no item joins tests or begins a clause, and it is
not only a group. -/
def Predicate.IsTest (p : Predicate) : Prop :=
  ∃ is, Builds p.sql is ∧ Plain is ∧ Level is ∧ ∃ i ∈ is, i.isBlank = false ∧ i.isGroup = false

theorem Predicate.IsTest.isRead {p : Predicate} (h : p.IsTest) (hp : p.reading = .atom p) :
    p.IsRead := by
  obtain ⟨is, hb, hplain, -, i, hi, hblank, hgroup⟩ := h
  have hitems : p.items = is.filter fun i => !i.isBlank := by
    rw [items, hb.nest]
    rfl
  refine ⟨is, hb, ?_⟩
  rw [itemReading, hp]
  show IsFactor is (.atom p.items)
  rw [hitems]
  exact hplain.isFactor hi hblank hgroup

/-- The items of a negation. -/
def notItems (negated : Bool) : List Item := if negated then [.word "NOT".toList, .blank] else []

theorem adds_notWord (negated : Bool) : Adds (notWord negated) (notItems negated) := by
  cases negated <;> exact fun _ _ => rfl

theorem plain_notItems (negated : Bool) : Plain (notItems negated) ∧ Level (notItems negated) := by
  cases negated <;> exact ⟨rfl, rfl⟩

theorem builds_symbol (c : Comparison) : ∃ is, Adds (word c.symbol) is ∧ Plain is ∧ Level is ∧
    ∃ i ∈ is, i.isBlank = false ∧ i.isGroup = false := by
  cases c with
  | eq => exact ⟨[.mark '='], fun _ _ => rfl, rfl, rfl, _, List.mem_singleton_self _, rfl, rfl⟩
  | ne => exact ⟨[.mark '<', .mark '>'], fun _ _ => rfl, rfl, rfl, .mark '<', by simp, rfl, rfl⟩
  | lt => exact ⟨[.mark '<'], fun _ _ => rfl, rfl, rfl, _, List.mem_singleton_self _, rfl, rfl⟩
  | gt => exact ⟨[.mark '>'], fun _ _ => rfl, rfl, rfl, _, List.mem_singleton_self _, rfl, rfl⟩
  | le => exact ⟨[.mark '<', .mark '='], fun _ _ => rfl, rfl, rfl, .mark '<', by simp, rfl, rfl⟩
  | ge => exact ⟨[.mark '>', .mark '='], fun _ _ => rfl, rfl, rfl, .mark '>', by simp, rfl, rfl⟩

theorem builds_sepBy {parts : List Sql} (h : ∀ a ∈ parts, ∃ is, Builds a is ∧ Level is) :
    ∃ is, Builds (sepBy ", " parts) is ∧ Level is := by
  induction parts with
  | nil => exact ⟨[], fun _ _ _ => rfl, rfl⟩
  | cons a rest ih =>
    obtain ⟨⟨is, ha, his⟩, hrest⟩ := List.forall_mem_cons.1 h
    -- Nothing is written behind the last part.
    cases rest with
    | nil => exact ⟨is, ha, his⟩
    | cons b rest =>
      obtain ⟨js, hjs, hlevel⟩ := ih hrest
      have hcomma : Adds (word ", ") [.mark ',', .blank] := fun _ _ => rfl
      refine ⟨is ++ ([Item.mark ',', .blank] ++ js), ?_, his.append (.append rfl hlevel)⟩
      rw [show sepBy ", " (a :: b :: rest) = a ++ word ", " ++ sepBy ", " (b :: rest) from rfl,
        List.append_assoc]
      exact ha.append (hcomma.append_builds hjs) trivial

theorem builds_constant (truth : Bool) :
    Builds (word (if truth then "1 = 1" else "1 = 0"))
      [.word ['1'], .blank, .mark '=', .blank, .word [if truth then '1' else '0']] := by
  intro items outer h
  cases truth with
  | false =>
    show (.word ['1'] :: .blank :: .mark '=' :: .blank :: front '0' items) :: outer = _
    rw [front_of_clean h]
    rfl
  | true =>
    show (.word ['1'] :: .blank :: .mark '=' :: .blank :: front '1' items) :: outer = _
    rw [front_of_clean h]
    rfl

theorem builds_translation {sql : Sql} {es : List Item} (h : Builds sql es)
    (language column : String) :
    ∃ is, Adds (word "JSON_UNQUOTE(JSON_EXTRACT(" ++ sql ++
      word ", CONCAT(SUBSTRING_INDEX(JSON_UNQUOTE(JSON_SEARCH(" ++ sql ++ word ", 'one', " ++
      [Piece.text language] ++ word ")), '.', 1), " ++ [Piece.text column] ++ word ")))") is ∧
      Plain is ∧ Level is := by
  -- What stands in the parentheses behind the expression, from the inside out.
  let search : List Item := [.mark ',', .blank, .quoted (.text "one".toList), .mark ',', .blank,
    .quoted (.text language.toList)]
  let index : List Item := [.mark ',', .blank, .quoted (.text ['.']), .mark ',', .blank,
    .word ['1']]
  let path : List Item := [.mark ',', .blank, .quoted (.text column.toList)]
  let concat : List Item := [.mark ',', .blank, .function "CONCAT".toList,
    .group (.function "SUBSTRING_INDEX".toList :: .group (.function "JSON_UNQUOTE".toList ::
      .group [.function "JSON_SEARCH".toList, .group (es ++ search)] :: index) :: path)]
  refine ⟨[.function "JSON_UNQUOTE".toList,
    .group [.function "JSON_EXTRACT".toList, .group (es ++ concat)]], fun items outer => ?_, rfl,
    rfl⟩
  simp only [run_append]
  show run (word "JSON_UNQUOTE(JSON_EXTRACT(") (run sql
    (run (word ", CONCAT(SUBSTRING_INDEX(JSON_UNQUOTE(JSON_SEARCH(") (run sql
      (search :: [] :: index :: path :: [] :: [] :: items :: outer)))) = _
  rw [h search _ trivial]
  show run (word "JSON_UNQUOTE(JSON_EXTRACT(") (run sql (concat :: [] :: items :: outer)) = _
  rw [h concat _ trivial]
  rfl

theorem adds_space : Adds (word " ") [.blank] := fun _ _ => rfl

theorem adds_and : Adds (word " AND ") [.blank, .word "AND".toList, .blank] := fun _ _ => rfl

theorem adds_from : Adds (word " FROM ") [.blank, .word "FROM".toList, .blank] := fun _ _ => rfl

theorem adds_where : Adds (word " WHERE ") [.blank, .word "WHERE".toList, .blank] := fun _ _ => rfl

/-- The subquery of an aggregate stands in parentheses. -/
theorem adds_aggregateExpr (f : Aggregate) (column : Column) (source : Source) (on : ColumnPair)
    {filter : Option Predicate} {fs : List Item} (hfilter : Builds (filterSql filter) fs) :
    ∃ is, Adds (Expr.sql (.aggregate f column source on filter)) [.group is] := by
  obtain ⟨as, ha⟩ := adds_aggregate f column
  obtain ⟨ss, hs, -⟩ := source.adds
  obtain ⟨os, ho, -⟩ := on.adds
  refine ⟨.word "SELECT".toList :: .blank :: (as ++ ([Item.blank, .word "FROM".toList, .blank] ++
    (ss ++ ([Item.blank, .word "WHERE".toList, .blank] ++ (os ++ fs))))), fun items outer => ?_⟩
  simp only [Expr.sql, run_append]
  rw [show run (word ")") (items :: outer) = [] :: items :: outer from rfl, hfilter [] _ trivial,
    List.append_nil, ho, adds_where, hs, adds_from, ha]
  rfl

theorem run_exists (is items : List Item) (outer : List (List Item)) :
    run (word "EXISTS (SELECT 1 FROM ") (is :: items :: outer) =
      (.word "EXISTS".toList :: .blank :: .group (.word "SELECT".toList :: .blank :: .word ['1'] ::
        .blank :: .word "FROM".toList :: .blank :: is) :: items) :: outer := rfl

/-- The test for linked rows. -/
theorem adds_related (source : Source) (on : ColumnPair) {filter : Option Predicate}
    {fs : List Item} (hfilter : Builds (filterSql filter) fs) (negated : Bool) :
    ∃ is, Adds (Predicate.sql (.related source on filter negated))
      (notItems negated ++ [Item.word "EXISTS".toList, .blank, .group is]) := by
  obtain ⟨ss, hs, -⟩ := source.adds
  obtain ⟨os, ho, -⟩ := on.adds
  refine ⟨.word "SELECT".toList :: .blank :: .word ['1'] :: .blank :: .word "FROM".toList ::
    .blank :: (ss ++ ([Item.blank, .word "WHERE".toList, .blank] ++ (os ++ fs))),
    fun items outer => ?_⟩
  simp only [Predicate.sql, run_append]
  rw [show run (word ")") (items :: outer) = [] :: items :: outer from rfl, hfilter [] _ trivial,
    List.append_nil, ho, adds_where, hs, run_exists, adds_notWord, List.append_assoc]
  simp only [List.cons_append, List.nil_append]

theorem isTest_compare {e : Expr} {es : List Item} (he : Builds e.sql es) (hes : Plain es)
    (hlevel : Level es) (c : Comparison) {o : Operand} (ho : o.Composed) :
    (Predicate.compare e c o).IsTest := by
  obtain ⟨os, hos, hplain, hlo⟩ := o.builds ho
  obtain ⟨cs, hcs, hpcs, hlcs, i, hi, hblank, hgroup⟩ := builds_symbol c
  have hright : Builds (word " " ++ (word c.symbol ++ (word " " ++ o.sql)))
      ([Item.blank] ++ (cs ++ ([Item.blank] ++ os))) :=
    adds_space.append_builds (hcs.append_builds (adds_space.append_builds hos))
  have hall := he.append hright trivial
  have hsql : (Predicate.compare e c o).sql =
      e.sql ++ (word " " ++ (word c.symbol ++ (word " " ++ o.sql))) := by
    simp [Predicate.sql]
  rw [← hsql] at hall
  exact ⟨_, hall, hes.append (.append rfl (hpcs.append (.append rfl hplain))),
    hlevel.append (.append rfl (hlcs.append (.append rfl hlo))), i, by simp [hi], hblank, hgroup⟩

theorem isTest_isNull {e : Expr} {es : List Item} (he : Builds e.sql es) (hes : Plain es)
    (hlevel : Level es) (negated : Bool) : (Predicate.isNull e negated).IsTest := by
  have his : Adds (word " IS ") [.blank, .word "IS".toList, .blank] := fun _ _ => rfl
  have hall := he.append
    (his.append_builds ((adds_notWord negated).append_builds builds_null)) trivial
  have hsql : (Predicate.isNull e negated).sql =
      e.sql ++ (word " IS " ++ (notWord negated ++ word "NULL")) := by
    simp [Predicate.sql]
  rw [← hsql] at hall
  obtain ⟨hnot, hlnot⟩ := plain_notItems negated
  exact ⟨_, hall, hes.append (.append rfl (hnot.append rfl)),
    hlevel.append (.append rfl (hlnot.append rfl)), .word "IS".toList, by simp, rfl, rfl⟩

theorem run_orEmpty (items : List Item) (outer : List (List Item)) :
    run (word ", '') IS ") (items :: outer) =
      [.mark ',', .blank, .quoted (.text [])] ::
        (.blank :: .word "IS".toList :: .blank :: items) :: outer := rfl

theorem run_nullif (is items : List Item) (outer : List (List Item)) :
    run (word "NULLIF(") (is :: items :: outer) =
      (.function "NULLIF".toList :: .group is :: items) :: outer := rfl

theorem isTest_isEmpty {e : Expr} {es : List Item} (he : Builds e.sql es) (negated : Bool) :
    (Predicate.isEmpty e negated).IsTest := by
  have hall : Builds (Predicate.isEmpty e negated).sql
      ([Item.function "NULLIF".toList, .group (es ++ [Item.mark ',', .blank, .quoted (.text [])]),
        .blank, .word "IS".toList, .blank] ++ (notItems negated ++ [Item.word "NULL".toList])) := by
    intro items outer h
    simp only [Predicate.sql, run_append]
    -- The text is taken up from its end, so its last parenthesis comes first.
    rw [builds_null items outer h, adds_notWord, run_orEmpty,
      he [.mark ',', .blank, .quoted (.text [])] _ trivial, run_nullif]
    simp only [List.cons_append, List.nil_append, List.append_assoc]
  obtain ⟨hnot, hlnot⟩ := plain_notItems negated
  exact ⟨_, hall, .append rfl (hnot.append rfl), .append rfl (hlnot.append rfl),
    .word "IS".toList, by simp, rfl, rfl⟩

theorem isTest_like {e : Expr} {es : List Item} (he : Builds e.sql es) (hes : Plain es)
    (hlevel : Level es) (pattern : String) (negated : Bool) :
    (Predicate.like e pattern negated).IsTest := by
  have hlike : Adds (word "LIKE " ++ [Piece.text pattern])
      [.word "LIKE".toList, .blank, .quoted (.text pattern.toList)] := fun _ _ => rfl
  have hall := he.append (adds_space.append ((adds_notWord negated).append hlike)).builds trivial
  have hsql : (Predicate.like e pattern negated).sql =
      e.sql ++ (word " " ++ (notWord negated ++ (word "LIKE " ++ [Piece.text pattern]))) := by
    simp [Predicate.sql]
  rw [← hsql] at hall
  obtain ⟨hnot, hlnot⟩ := plain_notItems negated
  exact ⟨_, hall, hes.append (.append rfl (hnot.append rfl)),
    hlevel.append (.append rfl (hlnot.append rfl)), .word "LIKE".toList, by simp, rfl, rfl⟩

theorem isTest_oneOf {e : Expr} {es : List Item} (he : Builds e.sql es) (hes : Plain es)
    (hlevel : Level es) {items : List Operand} (hi : ∀ o ∈ items, o.Composed) (negated : Bool) :
    (Predicate.oneOf e items negated).IsTest := by
  obtain ⟨is, his, -⟩ : ∃ is, Builds (sepBy ", " (items.map Operand.sql)) is ∧ Level is := by
    refine builds_sepBy fun a ha => ?_
    obtain ⟨o, ho, rfl⟩ := List.mem_map.1 ha
    obtain ⟨os, hos, -, hlo⟩ := o.builds (hi o ho)
    exact ⟨os, hos, hlo⟩
  -- The list is a group of its own, whatever commas are in it.
  have hin : Adds (word "IN (" ++ (sepBy ", " (items.map Operand.sql) ++ word ")"))
      [.word "IN".toList, .blank, .group is] := by
    intro items' outer
    rw [run_append, run_append]
    show run (word "IN (") (run _ ([] :: items' :: outer)) = _
    rw [his [] _ trivial, List.append_nil]
    rfl
  have hall := he.append (adds_space.append ((adds_notWord negated).append hin)).builds trivial
  have hsql : (Predicate.oneOf e items negated).sql = e.sql ++ (word " " ++ (notWord negated ++
      (word "IN (" ++ (sepBy ", " (items.map Operand.sql) ++ word ")")))) := by
    simp [Predicate.sql]
  rw [← hsql] at hall
  obtain ⟨hnot, hlnot⟩ := plain_notItems negated
  exact ⟨_, hall, hes.append (.append rfl (hnot.append rfl)),
    hlevel.append (.append rfl (hlnot.append rfl)), .word "IN".toList, by simp, rfl, rfl⟩

/-- The "and" of "between" does not end a test. -/
theorem isFactor_between {es os os' : List Item} (he : Plain es) (ho : Plain os) (ho' : Plain os')
    (negated : Bool) :
    let is := es ++ ([Item.blank] ++ (notItems negated ++ ([Item.word "BETWEEN".toList, .blank] ++
      (os ++ ([Item.blank, .word "AND".toList, .blank] ++ os')))))
    IsFactor is (.atom (is.filter fun i => !i.isBlank)) := by
  have hfront : Plain (es ++ ([Item.blank] ++ notItems negated)) :=
    he.append (.append rfl (plain_notItems negated).1)
  have hannotated : annotated (es ++ ([Item.blank] ++ (notItems negated ++
      ([Item.word "BETWEEN".toList, .blank] ++
        (os ++ ([Item.blank, .word "AND".toList, .blank] ++ os')))))) =
      annotated (es ++ ([Item.blank] ++ notItems negated)) ++
        ((.word "BETWEEN".toList, .atom [.word "BETWEEN".toList]) :: (annotated os ++
          (.word "AND".toList, .atom [.word "AND".toList]) :: annotated os')) := by
    simp only [annotated_append, List.append_assoc]
    rfl
  refine ⟨?_, fun rest => ?_, ?_⟩
  · rw [hannotated]
    intro x hx
    simp only [List.mem_append, List.mem_cons] at hx
    rcases hx with hx | rfl | hx | rfl | hx
    · exact hfront.noOr x hx
    · rfl
    · exact ho.noOr x hx
    · rfl
    · exact ho'.noOr x hx
  · rw [hannotated, List.append_assoc, conjuncts_append hfront, prepend_append]
    congr 1
    rw [List.cons_append, List.append_assoc, List.cons_append]
    -- From "between" on the first "and" does not count, and after it the next one does again.
    show prepend [_] (conjuncts true (annotated os ++ (_ :: (annotated os' ++ rest)))) = _
    rw [conjuncts_append ho]
    show prepend [_] (prepend (annotated os) (prepend [_] (conjuncts false _))) = _
    rw [conjuncts_append ho', ← prepend_append, ← prepend_append, ← prepend_append]
    simp
  · exact factor_of_not_group (i := .word "BETWEEN".toList) (by simp) rfl rfl

theorem builds_between {e : Expr} {es os os' : List Item} (he : Builds e.sql es)
    {low high : Operand} (hlow : Builds low.sql os) (hhigh : Builds high.sql os')
    (negated : Bool) : Builds (Predicate.between e low high negated).sql
      (es ++ ([Item.blank] ++ (notItems negated ++ ([Item.word "BETWEEN".toList, .blank] ++
        (os ++ ([Item.blank, .word "AND".toList, .blank] ++ os')))))) := by
  have hbetween : Adds (word "BETWEEN ") [.word "BETWEEN".toList, .blank] := fun _ _ => rfl
  have hall := he.append (adds_space.append_builds ((adds_notWord negated).append_builds
    (hbetween.append_builds (hlow.append (adds_and.append_builds hhigh) trivial)))) trivial
  have hsql : (Predicate.between e low high negated).sql = e.sql ++ (word " " ++
      (notWord negated ++ (word "BETWEEN " ++ (low.sql ++ (word " AND " ++ high.sql))))) := by
    simp [Predicate.sql]
  rw [← hsql] at hall
  exact hall

theorem isRead_between {e : Expr} {es : List Item} (he : Builds e.sql es) (hes : Plain es)
    {low high : Operand} (hlow : low.Composed) (hhigh : high.Composed) (negated : Bool) :
    (Predicate.between e low high negated).IsRead := by
  obtain ⟨os, hos, hplain, -⟩ := low.builds hlow
  obtain ⟨os', hos', hplain', -⟩ := high.builds hhigh
  have hall := builds_between he hos hos' negated
  have hitems := hall.nest
  refine ⟨_, hall, ?_⟩
  rw [Predicate.itemReading]
  show IsFactor _ (.atom (Predicate.items _))
  rw [Predicate.items, hitems]
  exact isFactor_between hes hplain hplain' negated

theorem isTest_related (source : Source) (on : ColumnPair) {filter : Option Predicate}
    {fs : List Item} (hfilter : Builds (filterSql filter) fs) (negated : Bool) :
    (Predicate.related source on filter negated).IsTest := by
  obtain ⟨is, hall⟩ := adds_related source on hfilter negated
  obtain ⟨hnot, hlnot⟩ := plain_notItems negated
  exact ⟨_, hall.builds, hnot.append rfl, hlnot.append rfl, .word "EXISTS".toList, by simp, rfl,
    rfl⟩

theorem isTest_constant (truth : Bool) : (Predicate.constant truth).IsTest := by
  have hplain : Plain [.word ['1'], .blank, .mark '=', .blank,
      .word [if truth then '1' else '0']] ∧ Level [.word ['1'], .blank, .mark '=', .blank,
      .word [if truth then '1' else '0']] := by cases truth <;> exact ⟨rfl, rfl⟩
  exact ⟨_, builds_constant truth, hplain.1, hplain.2, .mark '=', by simp, rfl, rfl⟩

/-! ## Groups -/

/-- The parts of a group as they are read between its connectives. -/
def IsParts : Glue → List Item → List (Reading (List Item)) → Prop
  | .and, is, rs =>
    (∀ x ∈ annotated is, x.1.isKeyword "OR" = false) ∧
      (conjuncts false (annotated is)).map factor = rs
  | .or, is, rs => (disjuncts (annotated is)).map conjunction = rs

theorem IsFactor.isParts {is : List Item} {r : Reading (List Item)} (h : IsFactor is r) (g : Glue) :
    IsParts g is [r] := by
  cases g with
  | and =>
    refine ⟨h.noOr, ?_⟩
    rw [h.conjuncts, List.map_singleton, h.factor]
  | or =>
    show (Sql.disjuncts (annotated is)).map Sql.conjunction = [r]
    rw [h.disjuncts, List.map_singleton, h.conjunction]

/-- The items of a connective. -/
def glueItems : Glue → List Item
  | .and => [.blank, .word "AND".toList, .blank]
  | .or => [.blank, .word "OR".toList, .blank]

theorem adds_glueWord (g : Glue) : Adds (word (glueWord g)) (glueItems g) := by
  cases g with
  | and => exact adds_and
  | or => exact fun _ _ => rfl

theorem clean_glueItems (g : Glue) (is : List Item) : Clean (glueItems g ++ is) := by
  cases g <;> trivial

theorem IsFactor.isParts_cons {is js : List Item} {r : Reading (List Item)}
    {rs : List (Reading (List Item))} (h : IsFactor is r) {g : Glue} (hjs : IsParts g js rs) :
    IsParts g (is ++ (glueItems g ++ js)) (r :: rs) := by
  -- The connective is the first one outside of parentheses that counts.
  cases g with
  | and =>
    have hannotated : annotated (is ++ (glueItems .and ++ js)) =
        annotated is ++ (.word "AND".toList, .atom [.word "AND".toList]) :: annotated js := by
      rw [annotated_append, annotated_append]
      rfl
    refine ⟨?_, ?_⟩
    · rw [hannotated]
      intro x hx
      rw [List.mem_append, List.mem_cons] at hx
      rcases hx with hx | rfl | hx
      · exact h.noOr x hx
      · rfl
      · exact hjs.1 x hx
    · rw [hannotated, h.conjuncts_and rfl, List.map_cons, h.factor, hjs.2]
  | or =>
    have hannotated : annotated (is ++ (glueItems .or ++ js)) =
        annotated is ++ (.word "OR".toList, .atom [.word "OR".toList]) :: annotated js := by
      rw [annotated_append, annotated_append]
      rfl
    show (Sql.disjuncts _).map Sql.conjunction = r :: rs
    rw [hannotated, h.disjuncts_or rfl, List.map_cons, h.conjunction]
    exact congrArg (r :: ·) hjs

theorem IsParts.assemble {g : Glue} {is : List Item} {rs : List (Reading (List Item))}
    (h : IsParts g is rs) : assemble (annotated is) = .join g rs := by
  cases g with
  | and =>
    have hall := disjuncts_append h.1 []
    rw [List.append_nil] at hall
    rw [Sql.assemble, hall, disjuncts, prepend, List.append_nil, List.map_singleton, conjunction,
      h.2]
    rfl
  | or =>
    show Reading.join .or _ = _
    rw [show (disjuncts (annotated is)).map conjunction = rs from h]

theorem adds_group {sql : Sql} {is : List Item} (h : Builds sql is) :
    Adds (word "(" ++ sql ++ word ")") [.group is] := by
  intro items outer
  rw [run_append, run_append]
  show run (word "(") (run sql ([] :: items :: outer)) = _
  rw [h [] _ trivial, List.append_nil]
  rfl

/-! ## Whatever is composed -/

mutual
theorem Expr.builds : (e : Expr) → e.Composed → ∃ is, Builds e.sql is ∧ Plain is ∧ Level is
  | .raw _, h => h.elim
  | .column c, _ => ⟨_, c.adds.builds, rfl, rfl⟩
  | .bare c, _ => ⟨[.quoted (.name c.toList)], fun _ _ _ => rfl, rfl, rfl⟩
  | .null, _ => ⟨_, builds_null, rfl, rfl⟩
  | .date e, h => by
    obtain ⟨is, he, -⟩ := Expr.builds e h
    exact ⟨_, (adds_date he).builds, rfl, rfl⟩
  | .translation e language column, h => by
    obtain ⟨es, he, -⟩ := Expr.builds e h
    obtain ⟨is, hall, hplain⟩ := builds_translation he language (translationPath column)
    exact ⟨is, hall.builds, hplain⟩
  | .position e items, h => by
    obtain ⟨es, he, -⟩ := Expr.builds e h
    have htext : Adds (word ", " ++ [Piece.text (",".intercalate items)])
        [.mark ',', .blank, .quoted (.text (",".intercalate items).toList)] := fun _ _ => rfl
    have hall := adds_function (w := "FIND_IN_SET(") (f := "FIND_IN_SET".toList) (fun _ _ _ => rfl)
      (he.append htext.builds trivial)
    have hsql : (Expr.position e items).sql = word "FIND_IN_SET(" ++
        (e.sql ++ (word ", " ++ [Piece.text (",".intercalate items)])) ++ word ")" := by
      simp [Expr.sql]
    rw [← hsql] at hall
    exact ⟨_, hall.builds, rfl, rfl⟩
  | .calculation _, h => h.elim
  | .aggregate f column source on filter, h => by
    obtain ⟨fs, hfs⟩ := filter_builds filter h
    obtain ⟨is, hall⟩ := adds_aggregateExpr f column source on hfs
    exact ⟨_, hall.builds, rfl, rfl⟩
/-- The text of a composed predicate is read as the predicate. -/
theorem Predicate.isRead : (p : Predicate) → p.Composed → p.IsRead
  | .raw _, h => h.elim
  | .constant truth, _ => (isTest_constant truth).isRead rfl
  | .compare e c o, h => by
    obtain ⟨es, he, hes, hlevel⟩ := Expr.builds e h.1
    exact (isTest_compare he hes hlevel c h.2).isRead rfl
  | .isNull e negated, h => by
    obtain ⟨es, he, hes, hlevel⟩ := Expr.builds e h
    exact (isTest_isNull he hes hlevel negated).isRead rfl
  | .isEmpty e negated, h => by
    obtain ⟨es, he, -⟩ := Expr.builds e h
    exact (isTest_isEmpty he negated).isRead rfl
  | .like e pattern negated, h => by
    obtain ⟨es, he, hes, hlevel⟩ := Expr.builds e h
    exact (isTest_like he hes hlevel pattern negated).isRead rfl
  | .between e low high negated, h => by
    obtain ⟨es, he, hes, -⟩ := Expr.builds e h.1
    exact isRead_between he hes h.2.1 h.2.2 negated
  | .oneOf e items negated, h => by
    obtain ⟨es, he, hes, hlevel⟩ := Expr.builds e h.1
    exact (isTest_oneOf he hes hlevel h.2 negated).isRead rfl
  | .inSubquery _ _ _, h => h.elim
  | .existsIn _ _, h => h.elim
  | .related source on filter negated, h => by
    obtain ⟨fs, hfs⟩ := filter_builds filter h
    exact (isTest_related source on hfs negated).isRead rfl
  | .glued g parts, h => by
    have hne : parts ≠ [] := List.ne_nil_of_length_pos (Nat.lt_of_lt_of_le (by decide) h.1)
    obtain ⟨is, his, hparts⟩ := parts_builds g parts h.2 hne
    refine ⟨[.group is], (adds_group his).builds, ?_⟩
    have hreading : (Predicate.glued g parts).itemReading = assemble (annotated is) := by
      rw [hparts.assemble]
      match parts, h.1 with
      | _ :: _ :: _, _ => rfl
    rw [hreading]
    exact isFactor_group is
theorem filter_builds : (filter : Option Predicate) → FilterComposed filter →
    ∃ is, Builds (filterSql filter) is
  | none, _ => ⟨[], fun _ _ _ => rfl⟩
  | some p, h => by
    obtain ⟨is, hp, -⟩ := Predicate.isRead p h
    exact ⟨_, adds_and.append_builds hp⟩
theorem parts_builds (g : Glue) : (parts : List Predicate) → PartsComposed parts → parts ≠ [] →
    ∃ is, Builds (partsSql g parts) is ∧
      IsParts g is (Reading.binds (fun q => .atom q.items) (readings parts))
  | [], _, h => absurd rfl h
  | [p], h, _ => by
    obtain ⟨is, hp, hfactor⟩ := Predicate.isRead p h.1
    exact ⟨is, hp, hfactor.isParts g⟩
  | p :: q :: rest, h, _ => by
    obtain ⟨is, hp, hfactor⟩ := Predicate.isRead p h.1
    obtain ⟨js, hjs, hparts⟩ := parts_builds g (q :: rest) h.2 (by simp)
    refine ⟨is ++ (glueItems g ++ js), ?_, hfactor.isParts_cons hparts⟩
    rw [show partsSql g (p :: q :: rest) =
      p.sql ++ word (glueWord g) ++ partsSql g (q :: rest) from rfl, List.append_assoc]
    exact hp.append ((adds_glueWord g).append_builds hjs) (clean_glueItems g js)
end

/-- What stands in the text of a composed predicate is the predicate. -/
theorem Predicate.readText_sql {p : Predicate} (h : p.Composed) :
    readText p.sql.toText = some p.itemReading := by
  obtain ⟨is, hb, hf⟩ := Predicate.isRead p h
  rw [readText, toText, String.toList_ofList, (Predicate.sealed p h).scan_chars]
  show (nest (tokens p.sql)).map (fun items => assemble (annotated items)) = _
  rw [hb.nest, Option.map_some, hf.assemble]

/-- "And" binds tighter than "or", and the one of "between" joins nothing. -/
example : readText "a = 1 OR b BETWEEN 1 AND 2 AND c = 3" = some (.glued .or
    [.atom [.word ['a'], .mark '=', .word ['1']],
      .glued .and [.atom [.word ['b'], .word "BETWEEN".toList, .word ['1'], .word "AND".toList,
        .word ['2']], .atom [.word ['c'], .mark '=', .word ['3']]]]) := by rfl

end CatalogQuery.Sql
