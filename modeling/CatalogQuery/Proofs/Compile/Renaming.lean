import CatalogQuery.Proofs.Compile.Hidden
import CatalogQuery.Proofs.Link.Rows

/-!
# One condition under two names

Compiled in frames of one object, a condition comes to tests that differ in the names of tables and
agree on what they say of a row, as long as no table goes by a name that a subquery takes. Main
statement: this, with as many levels or more for the second frame.
-/

namespace CatalogQuery

/-! ## Results that go together -/

namespace Traced

variable {α β γ δ : Type} {R : α → β → Prop}

/-- Whether the second comes to something that goes with what the first comes to, if that comes to
anything. -/
def Refines (x : Traced α) (R : α → β → Prop) (y : Traced β) : Prop :=
  ∀ a, x.result = .ok a → ∃ b, y.result = .ok b ∧ R a b

theorem Refines.pure {a : α} {b : β} (h : R a b) : (Pure.pure a : Traced α).Refines R (Pure.pure b) := by
  intro a' ha
  cases ha
  exact ⟨b, rfl, h⟩

theorem Refines.fail {e : QueryError} {y : Traced β} : (Traced.fail e).Refines R y := by
  intro a ha
  cases ha

theorem Refines.bind {S : γ → δ → Prop} {x : Traced γ} {y : Traced δ} {f : γ → Traced α}
    {g : δ → Traced β} (h : x.Refines S y)
    (hrest : ∀ c d, x.result = .ok c → S c d → (f c).Refines R (g d)) :
    (x >>= f).Refines R (y >>= g) := by
  intro a ha
  obtain ⟨c, hc, ha⟩ := result_bind_ok.1 ha
  obtain ⟨d, hd, hcd⟩ := h c hc
  obtain ⟨b, hb, hab⟩ := hrest c d hc hcd a ha
  exact ⟨b, result_bind_ok.2 ⟨d, hd, hb⟩, hab⟩

/-- After the same beginning. -/
theorem Refines.bind_left {x : Traced γ} {f : γ → Traced α} {g : γ → Traced β}
    (h : ∀ c, x.result = .ok c → (f c).Refines R (g c)) : (x >>= f).Refines R (x >>= g) := by
  intro a ha
  obtain ⟨c, hc, ha⟩ := result_bind_ok.1 ha
  obtain ⟨b, hb, hab⟩ := h c hc a ha
  exact ⟨b, result_bind_ok.2 ⟨c, hc, hb⟩, hab⟩

end Traced

namespace Compile

open Sql

section

variable (D : Dialect) (T : Tables)

/-- What a test that restricts something comes to in a scene. -/
abbrev outcome (scene : Scene) (p : Option Predicate) : Option Truth := p.map (·.truth D T scene)

/-- Whether two expressions have one value wherever two names stand for one row. -/
def SameValue (t t' : String) (e e' : Expr) : Prop :=
  ∀ scene scene' : Scene, scene t = scene' t' → e.value D T scene = e'.value D T scene'

/-- Whether two tests say the same wherever two names stand for one row. -/
def SameTruth (t t' : String) (p p' : Option Predicate) : Prop :=
  ∀ scene scene' : Scene, scene t = scene' t' → outcome D T scene p = outcome D T scene' p'

end

variable {D : Dialect} {T : Tables}

/-! ## Rules on a value -/

section

variable {scene scene' : Scene} {e e' : Expr}

theorem value_day (h : e.value D T scene = e'.value D T scene') (byDay : Bool) :
    (if byDay then Expr.date e else e).value D T scene =
      (if byDay then Expr.date e' else e').value D T scene' := by
  cases byDay with
  | false => exact h
  | true => simp only [if_true, Expr.value, h]

theorem outcome_comparisonRule (h : e.value D T scene = e'.value D T scene') (c : Comparison)
    (v : Json) (byDay : Bool) : outcome D T scene (comparisonRule c e v byDay) =
      outcome D T scene' (comparisonRule c e' v byDay) := by
  have hday := value_day h byDay
  rw [comparisonRule.eq_def, comparisonRule.eq_def]
  cases v with
  | null =>
    dsimp only
    split
    · simp only [outcome, Predicate.compareValue, Json.isNull, if_true, Option.map_some,
        Predicate.truth, h]
    · rfl
  | arr items =>
    dsimp only
    split
    · simp only [outcome, Option.map_some, truth_among, hday]
    · simp only [outcome, Option.map_some, Predicate.truth, hday]
  | bool | num | str | obj => simp only [outcome, Option.map_some, Predicate.truth, hday]

/-- A rule says the same of two expressions with one value. -/
theorem map_scalarRule (h : e.value D T scene = e'.value D T scene') (op : RuleOp) (v : Json)
    (byDay : Bool) : (scalarRule op e v byDay).map (outcome D T scene) =
      (scalarRule op e' v byDay).map (outcome D T scene') := by
  have hday := value_day h byDay
  rw [scalarRule.eq_def, scalarRule.eq_def]
  dsimp only
  cases comparison op with
  | some c => exact congrArg Except.ok (outcome_comparisonRule h c v byDay)
  | none =>
    dsimp only
    cases pattern op with
    | some p =>
      dsimp only
      split
      · rfl
      · simp only [Except.map, outcome, Option.map_some, Predicate.likeValue, Predicate.truth, h]
    | none =>
      cases op with
      | between | notBetween =>
        dsimp only
        split
        · simp only [Except.map, outcome, Option.map_some, Predicate.truth, hday]
        · rfl
      | isEmpty | isNotEmpty | isNull | isNotNull | «in» | notIn | isCurrentDate =>
        simp only [Except.map, outcome, Option.map_some, truth_among, Predicate.truth, Expr.value,
          h, hday]
      | _ => rfl

theorem truth_member (h : e.value D T scene = e'.value D T scene') (item : String) (negated : Bool) :
    (Predicate.member e item negated).truth D T scene =
      (Predicate.member e' item negated).truth D T scene' := by
  cases negated <;>
    simp only [Predicate.member, if_true, Bool.false_eq_true, if_false, Predicate.truth, truths, h]

theorem outcome_glue (g : Glue) {ps ps' : List Predicate}
    (h : ps.map (·.truth D T scene) = ps'.map (·.truth D T scene')) :
    outcome D T scene (Predicate.glue g ps) = outcome D T scene' (Predicate.glue g ps') := by
  have hempty : ps.isEmpty = ps'.isEmpty := by
    have hlength := congrArg List.isEmpty h
    simpa only [List.isEmpty_map] using hlength
  rw [outcome, outcome, truth_glue, truth_glue, hempty, h]

/-- So does a rule on a column that holds a JSON array. -/
theorem map_arrayRule (h : e.value D T scene = e'.value D T scene') (op : RuleOp) (v : Json) :
    (arrayRule op e v).map (outcome D T scene) =
      (arrayRule op e' v).map (outcome D T scene') := by
  have hglue (g : Glue) (negated : Bool) :
      outcome D T scene (Predicate.glue g
        (((valuesOf v).map Json.plain).map fun i => Predicate.member e i negated)) =
      outcome D T scene' (Predicate.glue g
        (((valuesOf v).map Json.plain).map fun i => Predicate.member e' i negated)) := by
    apply outcome_glue
    simp only [List.map_map]
    exact List.map_congr_left fun item _ => truth_member h item.plain negated
  have hany {p p' : Option Predicate} (hp : outcome D T scene p = outcome D T scene' p') :
      outcome D T scene (some (p.getD (.constant false))) =
        outcome D T scene' (some (p'.getD (.constant false))) := by
    cases p <;> cases p' <;> first | rfl | cases hp | exact hp
  rw [arrayRule.eq_def, arrayRule.eq_def]
  cases op with
  | equals | contains | «in» => exact congrArg Except.ok (hany (hglue .or false))
  | notEqual | notContains | notIn => exact congrArg Except.ok (hglue .and true)
  | isEmpty | isNotEmpty =>
    simp only [Except.map, outcome, Option.map_some, Predicate.truth, truths, h]
  | _ => exact map_scalarRule h _ v false

end

variable {t t' : String}

theorem refines_of_map {x y : Result (Option Predicate)}
    (h : ∀ scene scene' : Scene, scene t = scene' t' →
      x.map (outcome D T scene) = y.map (outcome D T scene')) :
    (Traced.ofResult x).Refines (SameTruth D T t t') (Traced.ofResult y) := by
  intro p hp
  have hp : x = .ok p := hp
  subst hp
  cases y with
  | error e => cases h Scene.empty Scene.empty rfl
  | ok p' => exact ⟨p', rfl, fun scene scene' hrow => Except.ok.inj (h scene scene' hrow)⟩

theorem SameValue.column (name : String) :
    SameValue D T t t' (.column ⟨t, name⟩) (.column ⟨t', name⟩) := by
  intro scene scene' hrow
  simp only [Expr.value, Scene.cell, hrow]

/-- Rows pass both tests or none. -/
theorem SameTruth.filterHolds_eq {p p' : Option Predicate} (h : SameTruth D T t t' p p')
    {scene scene' : Scene} (hrow : scene t = scene' t') :
    filterHolds D T p scene = filterHolds D T p' scene' := by
  have houtcome := h scene scene' hrow
  cases p <;> cases p' <;> first
    | rfl
    | cases houtcome
    | simp only [filterHolds, Option.some.inj houtcome]

/-- Whether a row passes a test, which tells no more of a scene than the row. -/
def rowPasses (D : Dialect) (T : Tables) (t : String) (p : Option Predicate) (r : Stored) : Bool :=
  filterHolds D T p (Scene.empty.add t r)

theorem SameTruth.passes_right {p p' : Option Predicate} (h : SameTruth D T t t' p p')
    (scene' : Scene) : filterHolds D T p' scene' = rowPasses D T t p (scene' t') :=
  (h.filterHolds_eq (Scene.add_self ..)).symm

theorem SameTruth.passes_left {p p' : Option Predicate} (h : SameTruth D T t t' p p')
    (scene : Scene) : filterHolds D T p scene = rowPasses D T t p (scene t) := by
  have hrow : scene t = (Scene.empty.add t' (scene t)) t' := (Scene.add_self ..).symm
  rw [h.filterHolds_eq hrow, h.passes_right, Scene.add_self]

/-! ## Frames -/

/-- The beginnings of the names that tables take in subqueries. -/
def heads : List String := ["__r", "__f"]

/-- The name that a table takes in a subquery at a depth. -/
def levelName (head : String) (depth : Nat) : String :=
  head ++ String.ofList (Nat.toDigits 10 depth)

theorem length_of_mem_heads {head : String} (h : head ∈ heads) : head.toList.length = 3 := by
  simp only [heads, List.mem_cons, List.not_mem_nil, or_false] at h
  rcases h with rfl | rfl <;> rfl

theorem depth_of_levelName {head head' : String} (hhead : head ∈ heads) (hhead' : head' ∈ heads)
    {depth depth' : Nat} (h : levelName head depth = levelName head' depth') : depth = depth' := by
  have hheads : head.toList.length = head'.toList.length := by
    rw [length_of_mem_heads hhead, length_of_mem_heads hhead']
  have hdigits := congrArg String.toList h
  simp only [levelName, String.toList_append, String.toList_ofList] at hdigits
  have hvalue := congrArg (Nat.ofDigitChars 10 · 0) (List.append_inj_right hdigits hheads)
  simpa only [Nat.ofDigitChars_toDigits (by decide : 1 < 10) (by decide : 10 ≤ 10)] using hvalue

theorem levelName_ne_junctionAlias {head head' : String} (hhead : head ∈ heads)
    (hhead' : head' ∈ heads) (depth depth' : Nat) :
    levelName head depth ≠ Link.junctionAlias (levelName head' depth') := by
  intro h
  have hheads : head.toList.length = head'.toList.length := by
    rw [length_of_mem_heads hhead, length_of_mem_heads hhead']
  have hdigits := congrArg String.toList h
  simp only [levelName, Link.junctionAlias, String.toList_append, String.toList_ofList,
    List.append_assoc] at hdigits
  have hbar : '_' ∈ Nat.toDigits 10 depth := by
    rw [List.append_inj_right hdigits hheads]
    exact List.mem_append_right _ (by decide)
  exact absurd (Nat.isDigit_of_mem_toDigits (by decide) (by decide) hbar) (by decide)

/-- Whether the table of a frame goes by another name than those of the subqueries in it. -/
def Frame.Apart (frame : Frame) : Prop :=
  ∀ head ∈ heads, frame.table ≠ (frame.inner frame.entity head).table ∧
    frame.table ≠ Link.junctionAlias (frame.inner frame.entity head).table

/-- The names of two levels differ, and none is that of a junction. -/
theorem Frame.apart_inner (frame : Frame) (e : Entity) {head : String} (hhead : head ∈ heads) :
    (frame.inner e head).Apart := by
  intro head' hhead'
  refine ⟨fun h => ?_, levelName_ne_junctionAlias hhead hhead' _ _⟩
  exact absurd (depth_of_levelName hhead hhead' h) (Nat.succ_ne_self _).symm

/-- Whether two frames of one object differ in nothing but the name of its table. -/
structure Frame.Like (frame frame' : Frame) : Prop where
  entity : frame'.entity = frame.entity
  aliases : frame.aliases = []
  aliases' : frame'.aliases = []
  apart : frame.Apart
  apart' : frame'.Apart

theorem Frame.Like.left {frame frame' : Frame} (h : frame.Like frame') : frame.Like frame :=
  ⟨rfl, h.aliases, h.aliases, h.apart, h.apart⟩

theorem Frame.Like.symm {frame frame' : Frame} (h : frame.Like frame') : frame'.Like frame :=
  ⟨h.entity.symm, h.aliases', h.aliases, h.apart', h.apart⟩

theorem Frame.Like.right {frame frame' : Frame} (h : frame.Like frame') : frame'.Like frame' :=
  ⟨rfl, h.aliases', h.aliases', h.apart', h.apart'⟩

theorem Frame.Like.inner (frame frame' : Frame) (e : Entity) {head : String} (hhead : head ∈ heads) :
    (frame.inner e head).Like (frame'.inner e head) :=
  ⟨rfl, rfl, rfl, frame.apart_inner e hhead, frame'.apart_inner e hhead⟩

/-- Whether two subjects differ in nothing but the name of the table. -/
inductive Subject.Like (t t' : String) : Subject → Subject → Prop
  | column (name : String) : Like t t' (.column ⟨t, name⟩) (.column ⟨t', name⟩)
  | field (e : Entity) (f : Field) : Like t t' (.field e t f) (.field e t' f)

theorem owner_of_bare {frame : Frame} (h : frame.aliases = []) {joined : Option String} {e : Entity}
    {table : String} (howner : owner frame joined = .ok (e, table)) :
    e = frame.entity ∧ table = frame.table := by
  cases joined with
  | some name =>
    rw [owner, Frame.aliased?, h] at howner
    cases howner
  | none =>
    cases howner
    exact ⟨rfl, rfl⟩

theorem refines_subject {frame frame' : Frame} (hlike : frame.Like frame') (key : String)
    (joined : Option String) : (Traced.ofResult (subject frame key joined)).Refines
      (Subject.Like frame.table frame'.table) (Traced.ofResult (subject frame' key joined)) := by
  intro s hs
  have hs : subject frame key joined = .ok s := hs
  cases joined with
  | some name =>
    rw [subject, owner, Frame.aliased?, hlike.aliases] at hs
    cases hs
  | none =>
    have hs : subjectOf frame.entity frame.table key = .ok s := hs
    show ∃ s', subjectOf frame'.entity frame'.table key = .ok s' ∧ _
    rw [hlike.entity]
    rw [subjectOf] at hs ⊢
    split at hs
    · cases hs
      exact ⟨_, by rw [if_pos ‹_›], .column _⟩
    rw [if_neg ‹_›]
    split at hs
    · cases hs
      exact ⟨_, rfl, .field _ _⟩
    split at hs
    · cases hs
      rw [if_pos ‹_›]
      exact ⟨_, rfl, .column _⟩
    · cases hs

/-! ## Expressions -/

/-- Whether two parts of calculations differ in nothing but the name of the table. -/
inductive CalculationPart.Like (t t' : String) : CalculationPart → CalculationPart → Prop
  | char (c : Char) : Like t t' (.char c) (.char c)
  | column (name : String) : Like t t' (.column ⟨t, name⟩) (.column ⟨t', name⟩)

theorem exists_calculationPart (t' : String) {e : Entity} {part : Text.TemplatePart}
    {found : CalculationPart} (h : calculationPart e t part = .ok found) :
    ∃ found', calculationPart e t' part = .ok found' ∧ CalculationPart.Like t t' found found' := by
  rw [calculationPart.eq_def] at h ⊢
  cases part with
  | char c =>
    cases h
    exact ⟨_, rfl, .char c⟩
  | slot name =>
    dsimp only at h ⊢
    split at h
    · cases h
      exact ⟨_, rfl, .column _⟩
    · cases h

theorem exists_calculationParts (t' : String) {e : Entity} {parts : List Text.TemplatePart}
    {found : List CalculationPart} (h : parts.mapM (calculationPart e t) = .ok found) :
    ∃ found', parts.mapM (calculationPart e t') = .ok found' ∧
      List.Forall₂ (CalculationPart.Like t t') found found' := by
  simp only [Result.mapM_ok] at h ⊢
  induction h with
  | nil => exact ⟨[], .nil, .nil⟩
  | cons hpart _ ih =>
    obtain ⟨first', hpart', hfirst⟩ := exists_calculationPart t' hpart
    obtain ⟨others', hrest', hothers⟩ := ih
    exact ⟨first' :: others', .cons hpart' hrest', .cons hfirst hothers⟩

theorem refines_calculation (e : Entity) (expression : String) :
    (Traced.ofResult (calculation e t expression)).Refines (SameValue D T t t')
      (Traced.ofResult (calculation e t' expression)) := by
  intro expr hexpr
  have hexpr : calculation e t expression = .ok expr := hexpr
  show ∃ expr', calculation e t' expression = .ok expr' ∧ _
  rw [calculation] at hexpr ⊢
  cases hparts : (Text.templateParts expression).mapM (calculationPart e t) with
  | error err =>
    rw [hparts] at hexpr
    cases hexpr
  | ok parts =>
    obtain ⟨parts', hparts', hlike⟩ := exists_calculationParts t' hparts
    rw [hparts] at hexpr
    rw [hparts']
    have hmap {γ : Type} {f g : CalculationPart → γ}
        (h : ∀ part part', CalculationPart.Like t t' part part' → f part = g part') :
        parts.map f = parts'.map g := by
      rw [← List.forall₂_eq_eq_eq, List.forall₂_map_left_iff, List.forall₂_map_right_iff]
      exact hlike.imp h
    -- What is plain does not depend on the table, and neither does what a column holds in a row.
    have hplain {φ : CalculationPart → Bool}
        (h : ∀ part part', CalculationPart.Like t t' part part' → φ part = φ part') :
        parts.all φ = parts'.all φ := by
      have hall := congrArg (List.all · id) (hmap h)
      simpa only [List.all_map, Function.comp_def, id_eq] using hall
    dsimp only at hexpr ⊢
    split at hexpr
    · rename_i htrue
      cases hexpr
      refine ⟨_, if_pos ((hplain ?_).symm.trans htrue), fun scene scene' hrow => ?_⟩
      · rintro _ _ (c | name) <;> rfl
      rw [Expr.value, Expr.value]
      refine congrArg D.calculation (hmap ?_)
      rintro _ _ (c | name)
      · rfl
      · simp only [Scene.cell, hrow]
    · cases hexpr

/-- The same with other filters in force for formula fields. -/
def Env.withFilters (env : Env) (filters : List (String × Condition)) : Env := { env with filters }

/-- What the filter of a subquery is compiled to, if there is one. -/
def narrowed (inner : Condition → Traced (Option Predicate)) :
    Option Condition → Traced (Option Predicate)
  | some c => inner c
  | none => pure none

section

variable {env : Env} {filters : List (String × Condition)} {inner inner' : Inner}
  {frame frame' : Frame}

theorem refines_formulaExpr (hlike : frame.Like frame') {e : Entity} {f : Field} {formula : Formula}
    (hinner : ∀ target, Linked env e formula.field target →
      (narrowed (inner (frame.inner target "__f")) (env.filterOf f formula)).Refines
        (SameTruth D T (frame.inner target "__f").table (frame'.inner target "__f").table)
        (narrowed (inner' (frame'.inner target "__f"))
          ((env.withFilters filters).filterOf f formula))) :
    (formulaExpr env inner frame e frame.table f formula).Refines
      (SameValue D T frame.table frame'.table)
      (formulaExpr (env.withFilters filters) inner' frame' e frame'.table f formula) := by
  rw [formulaExpr, formulaExpr]
  refine .bind_left fun l hl => .bind_left fun target htarget => ?_
  split
  · exact .fail
  rename_i column hcolumn
  have hapart := hlike.apart "__f" (by decide)
  have hapart' := hlike.apart' "__f" (by decide)
  have hrest (p p' : Option Predicate) (hp : SameTruth D T (frame.inner target "__f").table
      (frame'.inner target "__f").table p p') (scene scene' : Scene)
      (hrow : scene frame.table = scene' frame'.table) := by
    have h := Link.value_aggregate (l := l) hapart.1 hapart.2 hp.passes_left formula.aggregate
      column.column scene
    have h' := Link.value_aggregate (l := l) hapart'.1 hapart'.2 hp.passes_right formula.aggregate
      column.column scene'
    rw [← hrow] at h'
    exact h.trans h'.symm
  have hfilter := hinner target ⟨l, hl, htarget⟩
  revert hfilter
  cases env.filterOf f formula <;> cases (env.withFilters filters).filterOf f formula <;>
    exact fun hfilter => hfilter.bind fun p p' _ hp => .pure (hrest p p' hp)

theorem refines_fieldExpr (hlike : frame.Like frame') {e : Entity} {f : Field}
    (hinner : ∀ formula, f.type = .formula formula → ∀ target, Linked env e formula.field target →
      (narrowed (inner (frame.inner target "__f")) (env.filterOf f formula)).Refines
        (SameTruth D T (frame.inner target "__f").table (frame'.inner target "__f").table)
        (narrowed (inner' (frame'.inner target "__f"))
          ((env.withFilters filters).filterOf f formula))) :
    (fieldExpr env inner frame e frame.table f).Refines (SameValue D T frame.table frame'.table)
      (fieldExpr (env.withFilters filters) inner' frame' e frame'.table f) := by
  rw [fieldExpr, fieldExpr]
  split
  · exact refines_formulaExpr hlike (hinner _ ‹_›)
  · exact refines_calculation e _
  split
  · refine .pure fun scene scene' hrow => ?_
    simp only [Expr.value, Scene.cell, hrow]
    rfl
  · exact .pure (.column _)

theorem refines_fieldRule (hlike : frame.Like frame') {e : Entity} {f : Field} (r : Rule)
    (hinner : ∀ formula, f.type = .formula formula → ∀ target, Linked env e formula.field target →
      (narrowed (inner (frame.inner target "__f")) (env.filterOf f formula)).Refines
        (SameTruth D T (frame.inner target "__f").table (frame'.inner target "__f").table)
        (narrowed (inner' (frame'.inner target "__f"))
          ((env.withFilters filters).filterOf f formula))) :
    (fieldRule env inner frame e frame.table f r).Refines (SameTruth D T frame.table frame'.table)
      (fieldRule (env.withFilters filters) inner' frame' e frame'.table f r) := by
  rw [fieldRule, fieldRule]
  refine (refines_fieldExpr hlike hinner).bind fun expr expr' _ hexpr => refines_of_map ?_
  intro scene scene' hrow
  split
  · exact map_arrayRule (hexpr scene scene' hrow) r.op _
  · exact map_scalarRule (hexpr scene scene' hrow) r.op _ _

theorem refines_linkedTest (op : RuleOp) (f : Field) (name : String) (keys : List Json) (v : Json) :
    (Traced.ofResult (linkedTest op f ⟨t, name⟩ keys v)).Refines
      (fun test test' => SameTruth D T t t' test.1 test'.1 ∧ test.2 = test'.2)
      (Traced.ofResult (linkedTest op f ⟨t', name⟩ keys v)) := by
  have hcolumn : SameValue D T t t' (.column ⟨t, name⟩) (.column ⟨t', name⟩) := .column name
  intro test htest
  have htest : linkedTest op f ⟨t, name⟩ keys v = .ok test := htest
  show ∃ test', linkedTest op f ⟨t', name⟩ keys v = .ok test' ∧ _
  rw [linkedTest.eq_def] at htest ⊢
  split at htest <;> cases htest
  case h_1 | h_2 | h_3 | h_4 =>
    refine ⟨_, rfl, fun scene scene' hrow => ?_, rfl⟩
    simp only [outcome, Option.map_some, truth_among, hcolumn scene scene' hrow]
  case h_5 | h_6 =>
    refine ⟨_, rfl, fun scene scene' hrow => ?_, rfl⟩
    simp only [outcome, Option.map_some, Predicate.likeValue, Predicate.truth,
      hcolumn scene scene' hrow]
  case h_7 | h_8 | h_9 | h_10 => exact ⟨_, rfl, fun _ _ _ => rfl, rfl⟩

theorem refines_connectionRule (hlike : frame.Like frame') {e : Entity} {f : Field} (r : Rule)
    (hinner : isRelational r.op = true → ∀ target d, Linked env e f.id target →
      relationFilter r.value = some d → (inner (frame.inner target "__r") d).Refines
        (SameTruth D T (frame.inner target "__r").table (frame'.inner target "__r").table)
        (inner' (frame'.inner target "__r") d)) :
    (connectionRule env inner frame e frame.table f r).Refines
      (SameTruth D T frame.table frame'.table)
      (connectionRule (env.withFilters filters) inner' frame' e frame'.table f r) := by
  rw [connectionRule, connectionRule]
  refine .bind_left fun l hl => .bind_left fun target htarget => ?_
  dsimp only
  have hapart := hlike.apart "__r" (by decide)
  have hapart' := hlike.apart' "__r" (by decide)
  -- Tests for linked rows say the same when their filters do.
  have hrest (negated : Bool) (p p' : Option Predicate)
      (hp : SameTruth D T (frame.inner target "__r").table (frame'.inner target "__r").table p p')
      (scene scene' : Scene) (hrow : scene frame.table = scene' frame'.table) := by
    have h := Link.truth_related (l := l) hapart.1 hapart.2 hp.passes_left negated scene
    have h' := Link.truth_related (l := l) hapart'.1 hapart'.2 hp.passes_right negated scene'
    rw [← hrow] at h'
    exact congrArg some (h.trans h'.symm)
  split
  · rename_i hop
    have hrel : isRelational r.op = true := by simpa [isRelational] using hop
    have hfilter := hinner hrel target
    revert hfilter
    cases relationFilter r.value with
    | none => exact fun _ => .pure (hrest _ _ _ fun _ _ _ => rfl)
    | some d =>
      exact fun hfilter => (hfilter d ⟨l, hl, htarget⟩ rfl).bind fun p p' _ hp =>
        .pure (hrest _ p p' hp)
  split
  · refine refines_of_map fun scene scene' hrow => ?_
    exact map_scalarRule (SameValue.column _ scene scene' hrow) r.op _ false
  · refine (refines_linkedTest (D := D) (T := T) r.op f _ _ _).bind fun test test' _ htest => ?_
    rw [← htest.2]
    exact .pure (hrest _ _ _ htest.1)

/-- Whether what a condition leads to says the same in two frames. -/
structure LeadsAlike (D : Dialect) (T : Tables) (env : Env) (filters : List (String × Condition))
    (inner inner' : Inner) (frame frame' : Frame) (c : Condition) : Prop where
  carried : ∀ target d, CarriesFilter env frame c target d →
    (inner (frame.inner target "__r") d).Refines
      (SameTruth D T (frame.inner target "__r").table (frame'.inner target "__r").table)
      (inner' (frame'.inner target "__r") d)
  formula : ∀ owner f formula target, NamesFormula env frame c owner f formula target →
    (narrowed (inner (frame.inner target "__f")) (env.filterOf f formula)).Refines
      (SameTruth D T (frame.inner target "__f").table (frame'.inner target "__f").table)
      (narrowed (inner' (frame'.inner target "__f")) ((env.withFilters filters).filterOf f formula))

variable {c : Condition}

theorem refines_rule (hlike : frame.Like frame')
    (hleads : LeadsAlike D T env filters inner inner' frame frame' c) {r : Rule}
    (hr : r ∈ c.rules) : (rule env inner frame r).Refines (SameTruth D T frame.table frame'.table)
      (rule (env.withFilters filters) inner' frame' r) := by
  rw [rule, rule]
  split
  · exact .fail
  split_ifs with hkey
  · refine refines_of_map fun scene scene' _ => ?_
    rw [constantRule.eq_def]
    split <;> rfl
  refine (refines_subject hlike r.key r.joined).bind fun s s' hs hlikes => ?_
  cases hlikes with
  | column name =>
    refine refines_of_map fun scene scene' hrow => ?_
    exact map_scalarRule (SameValue.column name scene scene' hrow) r.op r.value false
  | field e f =>
    dsimp only
    split_ifs with hf
    · refine refines_connectionRule hlike r fun hrel target d hl hd => ?_
      exact hleads.carried target d ⟨r, hr, hkey, hrel, hd, e, _, f, hs, hf, hl⟩
    · refine refines_fieldRule hlike r fun formula htype target hl => ?_
      exact hleads.formula e f formula target ⟨r, hr, hkey, _, hs, htype, hl⟩

end

mutual
theorem refines_tree {rule rule' : Rule → Traced (Option Predicate)} :
    (c : Condition) → (∀ r ∈ c.rules, (rule r).Refines (SameTruth D T t t') (rule' r)) →
      (tree rule c).Refines (SameTruth D T t t') (tree rule' c)
  | .group g nodes, h => by
    rw [tree, tree]
    refine (refines_trees nodes h).bind fun parts parts' _ hparts => .pure ?_
    exact fun scene scene' hrow => outcome_glue g (hparts scene scene' hrow)
  | .rule r, h => by
    rw [tree, tree]
    exact h r (by simp [Condition.rules])
  | .malformed node, _ => by
    rw [tree]
    exact .fail
theorem refines_trees {rule rule' : Rule → Traced (Option Predicate)} :
    (cs : List Condition) →
      (∀ r ∈ Condition.rulesOf cs, (rule r).Refines (SameTruth D T t t') (rule' r)) →
      (trees rule cs).Refines
        (fun parts parts' => ∀ scene scene' : Scene, scene t = scene' t' →
          parts.map (·.truth D T scene) = parts'.map (·.truth D T scene')) (trees rule' cs)
  | [], _ => by
    rw [trees, trees]
    exact .pure fun _ _ _ => rfl
  | c :: rest, h => by
    rw [Condition.rulesOf, List.forall_mem_append] at h
    rw [trees, trees]
    refine (refines_tree c h.1).bind fun part part' _ hpart => ?_
    refine (refines_trees rest h.2).bind fun parts parts' _ hparts => .pure ?_
    intro scene scene' hrow
    have houtcome := congrArg Option.toList (hpart scene scene' hrow)
    rw [outcome, outcome, Option.toList_map, Option.toList_map] at houtcome
    rw [List.map_append, List.map_append, houtcome, hparts scene scene' hrow]
end

/-! ## Conditions -/

/-- Whether filters are in force in place of filters with placeholders and of no others. -/
def Env.StandIn (env : Env) (filters : List (String × Condition)) : Prop :=
  ∀ e ∈ env.catalog.entities, ∀ f ∈ e.fields, ∀ formula, f.type = .formula formula →
    (∀ d, env.filterOf f formula = some d → d.Resolved) →
    (env.withFilters filters).filterOf f formula = env.filterOf f formula

variable {env : Env} {filters : List (String × Condition)}

theorem resolved_of_within {levels : Nat} {frame : Frame} {c : Condition} {p : Option Predicate}
    (h : (within env levels frame c).result = .ok p) : c.Resolved := by
  intro r hr
  by_contra hplaceholder
  rw [Bool.not_eq_false] at hplaceholder
  obtain ⟨e, he⟩ := exists_within_error_of_stands ⟨r, hr, hplaceholder, rfl, rfl⟩ levels
  rw [h] at he
  cases he

/-- What a condition is compiled to depends on its frame only as far as names go, and more levels or
filters that stand in for others do no harm. -/
theorem refines_within (hfilters : env.StandIn filters) {levels levels' : Nat}
    (hlevels : levels ≤ levels') {frame frame' : Frame} (hlike : frame.Like frame')
    (hentity : frame.entity ∈ env.catalog.entities) (c : Condition) :
    (within env levels frame c).Refines (SameTruth D T frame.table frame'.table)
      (within (env.withFilters filters) levels' frame' c) := by
  induction levels generalizing levels' frame frame' c with
  | zero => exact .fail
  | succ n ih =>
    obtain ⟨m, rfl⟩ := Nat.exists_eq_add_of_le' hlevels
    rw [← Nat.add_assoc, within, within]
    -- The linked objects are in the catalog too, and their tables go by names of subqueries.
    have hinner {head : String} (hhead : head ∈ heads) {owner target : Entity} {field : String}
        (hlinked : Linked env owner field target) (d : Condition) :
        (within env n (frame.inner target head) d).Refines
          (SameTruth D T (frame.inner target head).table (frame'.inner target head).table)
          (within (env.withFilters filters) (m + n) (frame'.inner target head) d) := by
      obtain ⟨l, -, htarget⟩ := hlinked
      exact ih (Nat.le_add_left n m) (.inner frame frame' target hhead)
        (Catalog.mem_of_entity htarget) d
    refine refines_tree c fun r hr => refines_rule hlike ⟨?_, ?_⟩ hr
    · rintro target d ⟨s, -, -, -, -, owner, table, f, -, -, hlinked⟩
      exact hinner (by decide) hlinked d
    · rintro owner f formula target ⟨s, -, -, table, hs, htype, hlinked⟩
      obtain ⟨howner, hfield⟩ := field_of_subject hs
      have hmem : owner ∈ env.catalog.entities := by
        rwa [(owner_of_bare hlike.aliases howner).1]
      by_cases hresolved : ∀ d, env.filterOf f formula = some d → d.Resolved
      · rw [hfilters owner hmem f (Entity.mem_of_field hfield) formula htype hresolved]
        cases env.filterOf f formula with
        | none => exact .pure fun _ _ _ => rfl
        | some d => exact hinner (by decide) hlinked d
      · -- A filter with placeholders is compiled to nothing.
        rw [not_forall] at hresolved
        obtain ⟨d, hd⟩ := hresolved
        rw [Classical.not_imp] at hd
        rw [hd.1]
        exact fun p hp => absurd (resolved_of_within hp) hd.2

end Compile

end CatalogQuery
