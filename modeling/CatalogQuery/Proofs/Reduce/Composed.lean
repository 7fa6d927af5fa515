import CatalogQuery.Proofs.Session.Composed
import CatalogQuery.Reduce.Tree

/-!
# What reducing sends is composed

Main statement: on a catalog without calculated fields, reducing a condition reads with composed
statements only, whatever the database answers.
-/

namespace CatalogQuery

open Program (Composed)
open Sql

namespace Reduce

section

variable {env : Compile.Env} (hc : env.catalog.Uncalculated)
include hc

theorem ensures_joinAll (e : Entity) (links : LinkMap) (joins : List String)
    (found : Source × Compile.Frame) (hf : found.2.Uncalculated) :
    (joinAll env e links joins found).Ensures fun found => found.2.Uncalculated := by
  induction joins generalizing found with
  | nil => exact .pure hf
  | cons field rest ih =>
    obtain ⟨source, frame⟩ := found
    rw [joinAll]
    split
    · exact Traced.Ensures.trivial.bind fun _ _ => .fail
    · exact (Compile.ensures_entity hc _).bind fun target ht => ih _ (hf.withAlias ht _)

theorem ensures_storedRows {e : Entity} (he : e.Uncalculated) (joins : List String)
    (c : Condition) :
    (storedRows env e joins c).Ensures fun found => FilterComposed found.2 := by
  have hbase := Compile.Frame.Uncalculated.base he
  have hfilter (source : Source) {frame : Compile.Frame} (hf : frame.Uncalculated) :
      Traced.Ensures (do let filter ← Compile.condition env frame c; pure (source, filter))
        fun found => FilterComposed found.2 :=
    (Compile.ensures_condition hc hf c).bind fun _ hp => .pure hp
  rw [storedRows]
  dsimp only
  split
  · exact hfilter _ hbase
  · refine Traced.Ensures.trivial.bind fun links _ => ?_
    exact (ensures_joinAll hc e links joins _ hbase).bind fun found hf => hfilter _ hf

theorem ensures_membershipSelect (e : Entity) (r : Rule) (stored : StoredSource)
    (reduced : Condition) (column : Option String) :
    (membershipSelect env e r stored reduced column).Ensures fun found => found.1.Composed := by
  have hplain (c : Column) (source : Source) {filter : Option Predicate}
      (hf : FilterComposed filter) :
      (Select.plain true [.expr (.column c)] source filter).Composed :=
    Select.composed_plain (by simp [Selected.Composed, Expr.Composed]) hf
  rw [membershipSelect]
  refine (Compile.ensures_entity hc _).bind fun target ht => ?_
  refine (ensures_storedRows hc ht _ _).bind fun found hf => ?_
  obtain ⟨source, filter⟩ := found
  dsimp only
  -- Whichever key is read, the rows are those of the stored filter.
  split
  · exact .pure (hplain _ _ hf)
  · exact .pure (hplain _ _ hf)
  · refine Traced.Ensures.trivial.bind fun links _ => ?_
    split
    · exact .pure (hplain _ _ hf)
    · exact .pure (hplain _ _ hf)

theorem ensures_hopSelect (startKey username : String) (before : Option Hop) (hop : Hop)
    (keys : List Json) :
    (hopSelect env startKey username before hop keys).Ensures Select.Composed := by
  rw [hopSelect]
  refine (Compile.ensures_entity hc _).bind fun e he => ?_
  refine Traced.Ensures.trivial.bind fun key _ => ?_
  refine (Compile.ensures_condition hc (.base he) _).bind fun filter hf => .pure ?_
  refine Select.composed_plain (by simp [Selected.Composed, Expr.Composed]) ?_
  cases filter with
  | none => trivial
  | some p => exact hf

end

theorem composed_walk (s : Session) {env : Links → Compile.Env}
    (hc : ∀ links, (env links).catalog.Uncalculated) (startKey username : String)
    (hops : List (Option Hop × Hop)) (keys : List Json) :
    Composed (walk s env startKey username hops keys) fun _ => True := by
  induction hops generalizing keys with
  | nil => trivial
  | cons hop rest ih =>
    obtain ⟨before, hop⟩ := hop
    rw [walk]
    refine (Composed.withLinks fun links =>
      ensures_hopSelect (hc links) startKey username before hop keys).bind fun select hs => ?_
    refine (s.composed_fetch hs).next fun rows => ?_
    dsimp only
    split
    · trivial
    · exact ih _

section

variable {ctx : Context} (hc : ctx.catalog.Uncalculated)
include hc

theorem composed_membership {expand : Expand}
    (hx : ∀ stored, Composed (expand stored) fun _ => True) (e : Entity) (r : Rule) (stored : StoredSource) (column : Option String) :
    Composed (membership ctx expand e r stored column) fun _ => True := by
  rw [membership]
  refine (hx stored).next fun reduced => ?_
  have henv (links : Links) : (ctx.env links).catalog.Uncalculated := hc
  refine (Composed.withLinks fun links =>
    ensures_membershipSelect (henv links) e r stored reduced column).bind fun found hs => ?_
  exact (ctx.session.composed_fetch hs).next fun rows => trivial

theorem composed_sameAsCaller (e : Entity) (r : Rule) :
    Composed (sameAsCaller ctx e r) fun _ => True := by
  rw [sameAsCaller]
  refine (Composed.withLinks fun _ => .trivial).next fun found => ?_
  cases found with
  | settled c => trivial
  | chain path startKey =>
    exact (composed_walk ctx.session (fun _ => hc) _ _ _ _).next fun keys => trivial

theorem composed_placeholder {expand : Expand}
    (hx : ∀ stored, Composed (expand stored) fun _ => True) (e : Entity) (r : Rule) :
    Composed (placeholder ctx expand e r) fun _ => True := by
  have hmembership := composed_membership hc hx e r
  rw [placeholder.eq_def]
  split
  case h_1 | h_2 | h_3 | h_4 | h_5 | h_6 =>
    exact (Composed.withLinks fun _ => .trivial).next fun found => hmembership _ _
  case h_7 | h_8 => exact Composed.withLinks fun _ => .trivial
  case h_9 | h_10 => exact composed_sameAsCaller hc e r
  case h_11 => exact Composed.anyResult

end

theorem composed_replaceEach {f : Rule → Program Condition}
    (hf : ∀ r, Composed (f r) fun _ => True) (p : Rule → Bool) (turns : Nat) (c : Condition) :
    Composed (replaceEach p f turns c) fun _ => True := by
  induction turns generalizing c with
  | zero => trivial
  | succ turns ih =>
    rw [replaceEach]
    split
    · trivial
    · refine (hf _).next fun node => ?_
      split
      · exact ih _
      · trivial

theorem composed_cyclic (chain : List String) : Composed (cyclic chain) fun _ => True :=
  (Composed.notice _).next fun _ => Composed.anyResult

section

variable {ctx : Context} (hc : ctx.catalog.Uncalculated)
include hc

theorem composed_reduceWith {expand : Expand}
    (hx : ∀ stored, Composed (expand stored) fun _ => True) (entity : String) (c : Condition) :
    Composed (reduceWith ctx expand entity c) fun _ => True := by
  have hall (e : Entity) (passes : List (List RuleOp)) (c : Condition) :
      Composed (replaceAll ctx expand e passes c) fun _ => True := by
    induction passes generalizing c with
    | nil => trivial
    | cons ops rest ih =>
      exact (composed_replaceEach (composed_placeholder hc hx e) _ _ _).next ih
  exact Composed.anyResult.next fun e => hall e passes _

theorem composed_reduceTree (levels : Nat) (visiting : List String) (entity : String)
    (c : Condition) : Composed (reduceTree ctx levels visiting entity c) fun _ => True := by
  induction levels generalizing visiting entity c with
  | zero => exact composed_reduceWith hc (fun _ => composed_cyclic _) entity c
  | succ levels ih =>
    refine composed_reduceWith hc (fun stored => ?_) entity c
    split
    · exact composed_cyclic _
    · exact ih _ _ _

theorem composed_fieldFilters (links : LinkMap) (fields : List Field)
    (filters : List (String × Condition)) :
    Composed (fieldFilters ctx links fields filters) fun _ => True := by
  induction fields generalizing filters with
  | nil => trivial
  | cons f rest ih =>
    rw [fieldFilters]
    split
    · split
      · exact ih _
      · exact ih _
      · exact (composed_reduceTree hc _ _ _ _).next fun c => ih _
    · exact ih _

theorem composed_entityFilters (entities : List Entity) (filters : List (String × Condition)) :
    Composed (entityFilters ctx entities filters) fun _ => True := by
  induction entities generalizing filters with
  | nil => trivial
  | cons e rest ih =>
    exact (Composed.linksOf _).next fun links =>
      (composed_fieldFilters hc links e.fields filters).next ih

end

theorem composed_reduce (s : Session) (entity : String) (c : Condition) (caller : Caller) :
    Composed (reduce s entity c caller) fun _ => True :=
  Composed.catalog.bind fun _ hc => Composed.anyResult.next fun _ =>
    (s.composed_sight caller).next fun _ => composed_reduceTree hc _ _ _ _

theorem composed_formulaFilters (s : Session) (entities : List Entity) (caller : Caller) :
    Composed (formulaFilters s entities caller) fun _ => True :=
  Composed.catalog.bind fun _ hc => composed_entityFilters hc _ _

end Reduce

end CatalogQuery
