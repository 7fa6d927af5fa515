import CatalogQuery.Proofs.Reduce.Composed
import CatalogQuery.Save

/-!
# What a session sends is read back

Main statement: on a catalog without calculated fields, the database reads every statement of a
session as the pieces it was put together from, whatever the database answered before.
-/

namespace CatalogQuery

open Program (Composed)
open Sql

/-! ## Finding records -/

namespace Linked

theorem composed_select (l : Link) (keys : List Json) : (select l keys).1.Composed := by
  have hfilter (c : Column) :
      FilterComposed (some (.oneOf (.column c) (keys.map Operand.value) false)) := by
    refine ⟨trivial, fun o ho => ?_⟩
    obtain ⟨v, -, rfl⟩ := List.mem_map.1 ho
    trivial
  rw [select]
  dsimp only
  split
  · exact Select.composed_plain (by simp [Selected.Composed]) (hfilter _)
  · exact Select.composed_plain (by simp [Selected.Composed]) (hfilter _)
  · exact Select.composed_plain (by simp [Selected.Composed, Expr.Composed]) (hfilter _)

theorem composed_mergeNames (s : Session) (target : Entity) (found : List (String × Row)) :
    Composed (mergeNames s target found) fun _ => True := by
  rw [mergeNames]
  dsimp only
  split
  · trivial
  split
  · trivial
  · exact (s.directory.composed_displayNames s.channel _).next fun names => trivial

theorem composed_read (s : Session) (target : Entity) (l : Link) (keys : List Json)
    (minimal : Bool) : Composed (read s target l keys minimal) fun _ => True := by
  rw [read]
  split
  · trivial
  · exact (s.composed_fetch (composed_select l keys)).next fun rows =>
      composed_mergeNames s target _

theorem composed_readAll (s : Session) (catalog : Catalog) (rows : List Row) (minimal : Bool)
    (links : List Link) : Composed (readAll s catalog rows minimal links) fun _ => True := by
  induction links with
  | nil => trivial
  | cons l rest ih =>
    rw [readAll]
    split
    · exact (composed_read s _ l _ minimal).next fun found => ih.next fun others => trivial
    · exact ih.next fun others => trivial

theorem composed_populate (s : Session) (e : Entity) (rows : List Row) (p : Populate)
    (minimal : Bool) : Composed (populate s e rows p minimal) fun _ => True := by
  rw [populate]
  split
  · trivial
  · exact Composed.catalog.bind fun catalog _ => (Composed.linksOf e.id).next fun links =>
      (composed_readAll s catalog rows minimal _).next fun found => trivial

end Linked

section

variable {env : Compile.Env} (hc : env.catalog.Uncalculated)
include hc

theorem ensures_joinRequested (e : Entity) (links : LinkMap) (joins : List JoinRequest)
    (found : Source × Compile.Frame) (hf : found.2.Uncalculated) :
    (joinRequested env e links joins found).Ensures fun found => found.2.Uncalculated := by
  induction joins generalizing found with
  | nil => exact .pure hf
  | cons request rest ih =>
    obtain ⟨source, frame⟩ := found
    rw [joinRequested]
    split
    · exact .fail
    · exact (Compile.ensures_entity hc _).bind fun target ht => ih _ (hf.withAlias ht _)

theorem ensures_findSource {e : Entity} (he : e.Uncalculated) (joins : List JoinRequest) :
    (findSource env e joins).Ensures fun found => found.2.Uncalculated := by
  have hbase := Compile.Frame.Uncalculated.base he
  rw [findSource]
  split
  · exact .pure hbase
  · exact Traced.Ensures.trivial.bind fun links _ => ensures_joinRequested hc e links joins _ hbase

theorem ensures_findSelect {e : Entity} (he : e.Uncalculated) (o : FindOptions) (c : Condition) :
    (findSelect env e o c).Ensures Select.Composed := by
  rw [findSelect]
  refine (ensures_findSource hc he o.joins).bind fun found hf => ?_
  refine (Compile.ensures_virtualColumns hc hf).bind fun computed hcolumns => ?_
  refine (Compile.ensures_condition hc hf c).bind fun filter hfilter => ?_
  refine (Compile.ensures_ordering hc hf o.sort).bind fun order horder => .pure ?_
  exact ⟨List.forall_mem_cons.2 ⟨trivial, hcolumns⟩, hfilter, horder⟩

theorem ensures_countSelect {e : Entity} (he : e.Uncalculated) (o : FindOptions) (c : Condition) :
    (countSelect env e o c).Ensures Select.Composed := by
  rw [countSelect]
  refine (ensures_findSource hc he o.joins).bind fun found hf => ?_
  refine (Compile.ensures_condition hc hf c).bind fun filter hfilter => .pure ?_
  exact Select.composed_plain (by simp [Selected.Composed]) hfilter

end

namespace Session

theorem composed_formulaFilters (s : Session) (catalog : Catalog) (e : Entity) (o : FindOptions)
    (caller : Caller) : Composed (s.formulaFilters catalog e o caller) fun _ => True := by
  rw [formulaFilters]
  split
  · exact Reduce.composed_formulaFilters s _ caller
  · exact (Composed.linksOf e.id).next fun links => Reduce.composed_formulaFilters s _ caller

/-- The object that a program goes on with has no calculated fields. -/
theorem composed_entity {catalog : Catalog} (hc : catalog.Uncalculated) (entity : String) :
    Composed (Program.ofResult (catalog.entity entity)) Entity.Uncalculated :=
  .ofResult fun _ h => hc.entity h

theorem composed_find (s : Session) (entity : String) (o : FindOptions) (caller : Caller) :
    Composed (s.find entity o caller) fun _ => True := by
  rw [find]
  refine Composed.catalog.bind fun catalog hc => (composed_entity hc entity).bind fun e he => ?_
  refine (Reduce.composed_reduce s entity o.condition caller).next fun c => ?_
  refine (s.composed_formulaFilters catalog e o caller).next fun filters => ?_
  have henv (links : Links) : (s.env catalog links caller filters).catalog.Uncalculated := hc
  refine (Composed.withLinks fun links =>
    ensures_findSelect (henv links) he o c).bind fun statement hs => ?_
  exact (s.composed_fetch hs).next fun rows => Linked.composed_populate s e rows _ _

theorem composed_count (s : Session) (entity : String) (o : FindOptions) (caller : Caller) :
    Composed (s.count entity o caller) fun _ => True := by
  rw [count]
  refine Composed.catalog.bind fun catalog hc => (composed_entity hc entity).bind fun e he => ?_
  refine (Reduce.composed_reduce s entity o.condition caller).next fun c => ?_
  refine (s.composed_formulaFilters catalog e o caller).next fun filters => ?_
  have henv (links : Links) : (s.env catalog links caller filters).catalog.Uncalculated := hc
  refine (Composed.withLinks fun links =>
    ensures_countSelect (henv links) he o c).bind fun statement hs => ?_
  exact (s.composed_fetch hs).next fun rows => trivial

theorem composed_findOne (s : Session) (entity : String) (key : Json) (p : Populate)
    (caller : Caller) : Composed (s.findOne entity key p caller) fun _ => True :=
  (s.composed_find entity _ caller).next fun _ => trivial

theorem composed_readRow (s : Session) {e : Entity} (he : e.Uncalculated) (key : Json)
    (caller : Caller) : Composed (s.readRow e key caller) fun _ => True := by
  rw [readRow]
  refine Composed.catalog.bind fun catalog hc => ?_
  refine (s.composed_formulaFilters catalog e _ caller).next fun filters => ?_
  have henv (links : Links) : (s.env catalog links caller filters).catalog.Uncalculated := hc
  refine (Composed.withLinks fun links =>
    ensures_findSelect (henv links) he _ _).bind fun statement hs => ?_
  exact (s.composed_fetch hs).next fun rows => trivial

end Session

/-! ## Changing records -/

namespace Write

theorem composed_columnIs (column : String) (v : Json) : (columnIs column v).Composed :=
  ⟨trivial, trivial⟩

theorem composed_columnAmong (column : String) (vs : List Json) :
    (columnAmong column vs).Composed := by
  refine ⟨trivial, fun o ho => ?_⟩
  obtain ⟨v, -, rfl⟩ := List.mem_map.1 ho
  trivial

/-- A row in which each column is set to a value. -/
theorem composed_update {table : String} {row : List Assignment} {tests : List Predicate}
    (hrow : ∀ a ∈ row, a.value.Composed) (htests : ∀ p ∈ tests, p.Composed) :
    (Write.update table row tests).Composed := ⟨hrow, htests⟩

theorem composed_relate (b : Base) (l : Link) (keyColumn : String) (target : Json) :
    ∀ w ∈ relate b l keyColumn target, w.Composed := by
  have hset (column : String) (v : Json) : ∀ a ∈ [setTo column v], a.value.Composed := by
    simp [setTo, Operand.Composed]
  have hnull (column : String) : ∀ a ∈ [setNull column], a.value.Composed := by
    simp [setNull, Operand.Composed]
  have his (column : String) (v : Json) : ∀ p ∈ [columnIs column v], p.Composed := by
    simp [composed_columnIs]
  have hamong (column : String) (vs : List Json) : ∀ p ∈ [columnAmong column vs], p.Composed := by
    simp [composed_columnAmong]
  -- One case for each way in which a link is held, as in the definition.
  rw [relate]
  split
  · split
    · simp only [List.forall_mem_cons]
      exact ⟨⟨hnull _, hamong _ _⟩, ⟨hset _ _, his _ _⟩, ⟨hset _ _, his _ _⟩, by simp⟩
    · simp only [List.forall_mem_cons]
      exact ⟨⟨hset _ _, his _ _⟩, by simp⟩
  · split
    · simp only [List.cons_append, List.nil_append, List.forall_mem_cons]
      exact ⟨⟨hnull _, his _ _⟩, ⟨hset _ _, his _ _⟩, by simp⟩
    · simp only [List.nil_append, List.forall_mem_cons]
      exact ⟨⟨hset _ _, his _ _⟩, by simp⟩
  · simp only [List.forall_mem_cons]
    exact ⟨⟨trivial, trivial⟩, by simp⟩

theorem composed_unrelate (b : Base) (l : Link) (keyColumn : String) (target : Json) :
    ∀ w ∈ unrelate b l keyColumn target, w.Composed := by
  have hnull (column : String) : ∀ a ∈ [setNull column], a.value.Composed := by
    simp [setNull, Operand.Composed]
  have his (c₁ c₂ : String) (v₁ v₂ : Json) :
      ∀ p ∈ [columnIs c₁ v₁, columnIs c₂ v₂], p.Composed := by
    simp [composed_columnIs]
  rw [unrelate]
  split
  · split
    · simp only [List.forall_mem_cons]
      exact ⟨⟨hnull _, his _ _ _ _⟩, ⟨hnull _, his _ _ _ _⟩, by simp⟩
    · simp only [List.forall_mem_cons]
      exact ⟨⟨hnull _, his _ _ _ _⟩, by simp⟩
  · simp only [List.forall_mem_cons]
    exact ⟨⟨hnull _, his _ _ _ _⟩, by simp⟩
  · simp only [List.forall_mem_cons]
    exact ⟨his _ _ _ _, by simp⟩

theorem composed_relink (b : Base) (v : LinkValues) (current : List Json) :
    ∀ w ∈ relink b v current, w.Composed := by
  intro w hw
  rcases List.mem_append.1 hw with hw | hw
  · obtain ⟨k, -, hw⟩ := List.mem_flatMap.1 hw
    exact composed_unrelate b _ _ k w hw
  · obtain ⟨k, -, hw⟩ := List.mem_flatMap.1 hw
    exact composed_relate b _ _ k w hw

theorem composed_leaveJunctions (b : Base) (links : LinkMap) :
    ∀ w ∈ leaveJunctions b links, w.Composed := by
  intro w hw
  obtain ⟨l, -, hl⟩ := List.mem_filterMap.1 hw
  split at hl
  · cases hl
    show ∀ p ∈ [_], Predicate.Composed p
    simp [composed_columnIs]
  · cases hl

theorem composed_currentSelect {b : Base} {v : LinkValues} {statement : Select}
    (h : currentSelect b v = some statement) : statement.Composed := by
  have hplain (column called table : String) (test : String) (value : Json) :
      (Select.plain false [.named (.bare column) called] ⟨table, none, []⟩
        (some (columnIs test value))).Composed :=
    Select.composed_plain (by simp [Selected.Composed, Expr.Composed]) (composed_columnIs _ _)
  rw [currentSelect] at h
  split at h
  · cases h
  · cases h
    exact hplain _ _ _ _ _
  · cases h
    exact hplain _ _ _ _ _

end Write

namespace Session

open Write

theorem composed_executeAll (s : Session) {ws : List Sql.Write} (h : ∀ w ∈ ws, w.Composed) :
    Composed (s.executeAll ws) fun _ => True := by
  induction ws with
  | nil => trivial
  | cons w rest ih =>
    rw [List.forall_mem_cons] at h
    exact (s.composed_execute h.1).next fun _ => ih h.2

theorem composed_orNotFound {α : Type} (e : Entity) (key : Json) (a : Option α) :
    Composed (orNotFound e key a) fun _ => True := by
  cases a <;> trivial

theorem composed_saved (s : Session) {e : Entity} (he : e.Uncalculated) (key : Json)
    (caller : Caller) : Composed (s.saved e key caller) fun _ => True :=
  (s.composed_readRow he key caller).next fun row => (composed_orNotFound e key row).map

theorem composed_keyFor (e : Entity) (input : Json.Members) :
    Composed (keyFor e input) fun _ => True := by
  rw [keyFor]
  split
  · split
    · exact Composed.newKey.map
    · trivial
  · exact Composed.newKey.map

theorem composed_assignments (columns : List (String × Json)) :
    ∀ a ∈ assignments columns, a.value.Composed := by
  intro a ha
  obtain ⟨c, -, rfl⟩ := List.mem_map.1 ha
  trivial

theorem composed_newTimes (settings : Settings) : ∀ a ∈ newTimes settings, a.value.Composed := by
  rw [newTimes]
  cases settings.createdAt <;> cases settings.updatedAt <;> simp [Operand.Composed]

theorem composed_insertRow (s : Session) (e : Entity) (input : Json.Members) (p : Prepared) :
    Composed (s.insertRow e input p) fun _ => True := by
  have hinsert (columns : List (String × Json)) :
      (Sql.Write.insert e.table (assignments columns ++ newTimes s.settings)).Composed := by
    intro a ha
    rcases List.mem_append.1 ha with ha | ha
    · exact composed_assignments columns a ha
    · exact composed_newTimes s.settings a ha
  rw [insertRow]
  split
  · exact (composed_keyFor e input).next fun key =>
      (s.composed_execute (hinsert _)).next fun number => trivial
  · exact (s.composed_execute (hinsert _)).next fun number => trivial

theorem composed_lockedRow (s : Session) (e : Entity) (key : Json) (caller : Caller)
    (entity : String) : Composed (s.lockedRow e key caller entity) fun _ => True :=
  (Composed.lock _ _).next fun _ => (s.composed_findOne entity key .none caller).next fun found =>
    (composed_orNotFound e key found).next fun _ => trivial

theorem composed_currentKeys (s : Session) (b : Base) (v : LinkValues) :
    Composed (s.currentKeys b v) fun _ => True := by
  rw [currentKeys]
  split
  · trivial
  · rename_i statement h
    exact (s.composed_fetch (composed_currentSelect h)).next fun rows => trivial

theorem composed_create (s : Session) (entity : String) (values : Json) (caller : Caller) :
    Composed (s.create entity values caller) fun _ => True := by
  rw [create]
  refine Composed.catalog.bind fun catalog hc => (composed_entity hc entity).bind fun e he => ?_
  refine (Composed.linksOf entity).next fun links => ?_
  refine Composed.anyResult.next fun input => Composed.anyResult.next fun p => ?_
  split
  · trivial
  · refine (s.composed_insertRow e input p).next fun base => ?_
    refine (s.composed_executeAll fun w hw => ?_).next fun _ => s.composed_saved he _ caller
    obtain ⟨v, -, hw⟩ := List.mem_flatMap.1 hw
    obtain ⟨k, -, hw⟩ := List.mem_flatMap.1 hw
    exact composed_relate base _ _ k w hw

theorem composed_update (s : Session) (entity : String) (key values : Json) (caller : Caller) :
    Composed (s.update entity key values caller) fun _ => True := by
  rw [update]
  refine Composed.catalog.bind fun catalog hc => (composed_entity hc entity).bind fun e he => ?_
  refine (Composed.linksOf entity).next fun links => ?_
  refine Composed.anyResult.next fun input => Composed.anyResult.next fun p => ?_
  split
  · trivial
  refine (s.composed_lockedRow e key caller entity).next fun base => ?_
  refine (Composed.mapM (s.composed_currentKeys base) p.links).next fun current => ?_
  have hlast : Composed (do
      s.executeAll ((p.links.zip current).flatMap fun x => relink base x.1 x.2)
      s.saved e base.key caller) fun _ => True := by
    refine (s.composed_executeAll fun w hw => ?_).next fun _ => s.composed_saved he _ caller
    obtain ⟨v, -, hw⟩ := List.mem_flatMap.1 hw
    exact composed_relink base _ _ w hw
  have hrow : ∀ a ∈ assignments p.columns ++
      (if s.settings.updatedAt then [⟨"updated_at", .now⟩] else []), a.value.Composed := by
    intro a ha
    rcases List.mem_append.1 ha with ha | ha
    · exact composed_assignments _ a ha
    · split at ha
      · rw [List.mem_singleton.1 ha]
        trivial
      · cases ha
  dsimp only
  generalize (assignments p.columns ++
    if s.settings.updatedAt then [⟨"updated_at", .now⟩] else []) = row at hrow ⊢
  split
  · have htests : ∀ p ∈ [base.isRow], p.Composed := by simp [Base.isRow, composed_columnIs]
    exact (s.composed_execute (Write.composed_update hrow htests)).next fun _ => hlast
  · exact hlast

theorem composed_delete (s : Session) (entity : String) (key : Json) (caller : Caller) :
    Composed (s.delete entity key caller) fun _ => True := by
  rw [delete]
  refine Composed.anyCatalog.next fun catalog => Composed.anyResult.next fun e => ?_
  refine (Composed.linksOf entity).next fun links => ?_
  refine (s.composed_lockedRow e key caller entity).next fun base => ?_
  refine s.composed_executeAll fun w hw => ?_
  rcases List.mem_append.1 hw with hw | hw
  · exact composed_leaveJunctions base links w hw
  · rw [List.mem_singleton.1 hw]
    show ∀ p ∈ [_], Predicate.Composed p
    simp [Base.isRow, composed_columnIs]

theorem composed_changeLinks (s : Session) (entity : String) (key : Json) (field : String)
    (linked : Json) (caller : Caller) (add : Bool) :
    Composed (s.changeLinks entity key field linked caller add) fun _ => True := by
  rw [changeLinks]
  refine Composed.anyCatalog.next fun catalog => Composed.anyResult.next fun e => ?_
  refine (Composed.linksOf entity).next fun links => ?_
  split
  · trivial
  refine Composed.anyResult.next fun target => ?_
  refine (s.composed_lockedRow e key caller entity).next fun base => ?_
  refine s.composed_executeAll fun w hw => ?_
  obtain ⟨k, -, hw⟩ := List.mem_flatMap.1 hw
  cases add with
  | true => exact composed_relate base _ _ k w hw
  | false => exact composed_unrelate base _ _ k w hw

end Session

/-! ## Whatever is asked for -/

/-- What a caller can ask of a session, and what a session asks of its directory. -/
inductive Call where
  | find (entity : String) (o : FindOptions)
  | count (entity : String) (o : FindOptions)
  | create (entity : String) (values : Json)
  | update (entity : String) (key values : Json)
  | delete (entity : String) (key : Json)
  | relate (entity : String) (key : Json) (field : String) (linked : Json)
  | unrelate (entity : String) (key : Json) (field : String) (linked : Json)
  | user (username : String)
  | roles (username : String)
  | scopes (roles : List Role)
  | scopesOf (username : String)
  | displayNames (usernames : List String)

/-- What a call does, less what comes of it. -/
def Call.program (s : Session) (caller : Caller) : Call → Program Unit
  | find entity o => (fun _ => ()) <$> s.find entity o caller
  | count entity o => (fun _ => ()) <$> s.count entity o caller
  | create entity values => (fun _ => ()) <$> s.create entity values caller
  | update entity key values => (fun _ => ()) <$> s.update entity key values caller
  | delete entity key => s.delete entity key caller
  | relate entity key field linked => s.relate entity key field linked caller
  | unrelate entity key field linked => s.unrelate entity key field linked caller
  | user username => (fun _ => ()) <$> s.directory.user s.channel username
  | roles username => (fun _ => ()) <$> s.directory.roles s.channel username
  | scopes held => (fun _ => ()) <$> s.directory.scopes s.channel held
  | scopesOf username => (fun _ => ()) <$> s.directory.scopesOf s.channel username
  | displayNames usernames => (fun _ => ()) <$> s.directory.displayNames s.channel usernames

theorem Call.composed_program (s : Session) (caller : Caller) (call : Call) :
    Composed (call.program s caller) fun _ => True := by
  cases call with
  | find entity o => exact (s.composed_find entity o caller).map
  | count entity o => exact (s.composed_count entity o caller).map
  | create entity values => exact (s.composed_create entity values caller).map
  | update entity key values => exact (s.composed_update entity key values caller).map
  | delete entity key => exact s.composed_delete entity key caller
  | relate entity key field linked =>
    exact s.composed_changeLinks entity key field linked caller true
  | unrelate entity key field linked =>
    exact s.composed_changeLinks entity key field linked caller false
  | user username => exact (s.directory.composed_user s.channel username).map
  | roles username => exact (s.directory.composed_roles s.channel username).map
  | scopes held => exact (s.directory.composed_scopes s.channel held).map
  | scopesOf username => exact (s.directory.composed_scopesOf s.channel username).map
  | displayNames usernames => exact (s.directory.composed_displayNames s.channel usernames).map

/-- The statement that a request hands to the database. -/
def Request.statement? : Request → Option Sql
  | .fetch _ s => some s.sql
  | .execute _ w => some w.sql
  | _ => none

/-- Whether the database reads a statement as the tokens of its pieces and what stands unquoted in
it is a word of the vocabulary, a number or the call of a function. -/
structure Sql.IsReadBack (sql : Sql) : Prop where
  scan_toText : scan .normal sql.toText.toList = (tokens sql, .normal)
  fits : ∀ p ∈ sql, p.Fits

theorem Sql.Sealed.isReadBack {sql : Sql} (h : sql.Sealed) : sql.IsReadBack where
  scan_toText := by
    rw [toText, String.toList_ofList]
    exact h.scan_chars
  fits := h.fits

theorem Request.Composed.isReadBack {r : Request} (h : r.Composed) :
    ∀ sql ∈ r.statement?, sql.IsReadBack := by
  cases r with
  | fetch channel statement =>
    intro sql hsql
    cases hsql
    exact (Select.sealed h).isReadBack
  | execute channel statement =>
    intro sql hsql
    cases hsql
    exact (Write.sealed h).isReadBack
  | catalog | links | consult | notice | lock | newKey =>
    intro sql hsql
    cases hsql

/-- On a catalog without calculated fields, every statement of a call is read back by the database
as the pieces it was put together from: none of the names, texts and values in it ends its
quotes. -/
theorem Call.meets_isReadBack (s : Session) (caller : Caller) (call : Call) :
    (call.program s caller).Meets Request.Uncalculated
      (fun r => ∀ sql ∈ r.statement?, sql.IsReadBack) fun _ => True :=
  (call.composed_program s caller).weaken fun _ h => h.isReadBack

end CatalogQuery
