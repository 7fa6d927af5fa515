import CatalogQuery.Proofs.Compile.Composed
import CatalogQuery.Proofs.Compile.Meaning
import CatalogQuery.Proofs.Condition.Retain
import CatalogQuery.Proofs.Reduce.Substitution
import CatalogQuery.Proofs.Session.Failures

/-!
# Placeholders that compiling comes upon

Compiling a condition leads to the filters that its rules carry and to those of the formula fields
that they name, and so on. Main statement: compiling fails over an unreplaced placeholder only where
it stands in the condition itself or hidden in such a filter, and not in one of those that are in
force for the formula fields of objects that were seen to beforehand.
-/

namespace CatalogQuery.Compile

open Sql

/-! ## Where compiling leads -/

/-- Whether a field of an object is resolved and leads to another object. -/
def Linked (env : Env) (e : Entity) (field : String) (target : Entity) : Prop :=
  ∃ l, (link env e field).result = .ok l ∧ env.catalog.entity l.target = .ok target

/-- Whether a rule of a condition carries a filter on linked records. -/
def CarriesFilter (env : Env) (frame : Frame) (c : Condition) (target : Entity) (d : Condition) :
    Prop :=
  ∃ r ∈ c.rules, r.key ≠ Rule.constantKey ∧ isRelational r.op = true ∧
    relationFilter r.value = some d ∧ ∃ owner table f,
      subject frame r.key r.joined = .ok (.field owner table f) ∧
        f.isConnection = true ∧ Linked env owner f.id target

/-- Whether a rule of a condition names a formula field. -/
def NamesFormula (env : Env) (frame : Frame) (c : Condition) (owner : Entity) (f : Field)
    (formula : Formula) (target : Entity) : Prop :=
  ∃ r ∈ c.rules, r.key ≠ Rule.constantKey ∧ ∃ table,
    subject frame r.key r.joined = .ok (.field owner table f) ∧ f.type = .formula formula ∧
      Linked env owner formula.field target

/-- What compiling a condition goes on with inside a subquery. -/
inductive Enters (env : Env) (frame : Frame) (c : Condition) : Frame → Condition → Prop
  | carried {target : Entity} {d : Condition} (h : CarriesFilter env frame c target d) :
    Enters env frame c (frame.inner target "__r") d
  | formula {owner target : Entity} {f : Field} {formula : Formula} {d : Condition}
      (h : NamesFormula env frame c owner f formula target)
      (hd : env.filterOf f formula = some d) : Enters env frame c (frame.inner target "__f") d

/-- Whether a placeholder with the given operator and key stands in a condition. -/
def Stands (c : Condition) (op : RuleOp) (key : String) : Prop :=
  ∃ p ∈ c.rules, p.op.isPlaceholder = true ∧ p.op = op ∧ p.key = key

/-- Whether a placeholder is hidden from whoever looks at the rules of a condition: it stands in a
filter that a rule carries, or in the stored filter of a formula field of an object other than those
in `reduced`, which the condition leads to directly or through other filters. -/
inductive Hidden (env : Env) (reduced : List Entity) : Frame → Condition → RuleOp → String → Prop
  | carried {frame : Frame} {c : Condition} {target : Entity} {d : Condition} {op : RuleOp}
      {key : String} (h : CarriesFilter env frame c target d) (hd : Stands d op key) :
    Hidden env reduced frame c op key
  | formula {frame : Frame} {c : Condition} {owner target : Entity} {f : Field} {formula : Formula}
      {d : Condition} {op : RuleOp} {key : String}
      (h : NamesFormula env frame c owner f formula target) (howner : owner ∉ reduced)
      (hfilter : env.filterOf f formula = some d) (hstored : formula.filter = some d)
      (hd : Stands d op key) : Hidden env reduced frame c op key
  | within {frame frame' : Frame} {c d : Condition} {op : RuleOp} {key : String}
      (h : Enters env frame c frame' d) (hd : Hidden env reduced frame' d op key) :
    Hidden env reduced frame c op key

/-- Whether the filters that stand in for those of formula fields hold no placeholders and are there
for every formula field of some objects whose own filter does. -/
structure Covers (env : Env) (reduced : List Entity) : Prop where
  resolved : ∀ q ∈ env.filters, q.2.Resolved
  covered : ∀ e ∈ reduced, ∀ f ∈ e.fields, ∀ formula, f.type = .formula formula →
    ∀ d, formula.filter = some d → ¬ d.Resolved →
      (∃ l, (link env e formula.field).result = .ok l) → ∃ q ∈ env.filters, q.1 = f.id

theorem Covers.nil {env : Env} (h : env.filters = []) : Covers env [] :=
  ⟨by simp [h], by simp⟩

theorem Stands.not_resolved {c : Condition} {op : RuleOp} {key : String} (h : Stands c op key) :
    ¬ c.Resolved := by
  obtain ⟨p, hp, hop, -, -⟩ := h
  intro hc
  rw [hc p hp] at hop
  cases hop

/-! ## Errors of the parts -/

section

variable {op : RuleOp} {err : QueryError}

theorem isPlain_scalarRule {e : Expr} {v : Json} {byDay : Bool}
    (h : scalarRule op e v byDay = .error err) : err.isPlain = true := by
  rw [scalarRule.eq_def] at h
  dsimp only at h
  split at h
  · cases h
  split at h
  · cases h
  cases op <;> dsimp only at h <;> first
    | (cases h; done)
    | (cases h; rfl)
    | (split at h <;> cases h; rfl)

theorem isPlain_arrayRule {e : Expr} {v : Json} (h : arrayRule op e v = .error err) :
    err.isPlain = true := by
  rw [arrayRule.eq_def] at h
  dsimp only at h
  cases op <;> dsimp only at h <;> first | exact isPlain_scalarRule h | cases h

theorem isPlain_constantRule {v : Json} (h : constantRule op v = .error err) :
    err.isPlain = true := by
  rw [constantRule.eq_def] at h
  split at h <;> cases h
  rfl

theorem isPlain_linkedTest {f : Field} {column : Column} {keys : List Json} {v : Json}
    (h : linkedTest op f column keys v = .error err) : err.isPlain = true := by
  rw [linkedTest.eq_def] at h
  split at h <;> cases h
  rfl

theorem isPlain_subject {frame : Frame} {k : String} {joined : Option String}
    (h : subject frame k joined = .error err) : err.isPlain = true := by
  rw [subject.eq_def] at h
  split at h
  · rw [subjectOf] at h
    split at h
    · cases h
    split at h
    · cases h
    split at h <;> cases h
    rfl
  · rename_i e he
    rw [owner.eq_def] at he
    split at he
    · cases he
    split at he <;> cases he
    cases h
    rfl

end

theorem field_of_subject {frame : Frame} {k : String} {joined : Option String} {e : Entity}
    {table : String} {f : Field} (h : subject frame k joined = .ok (.field e table f)) :
    owner frame joined = .ok (e, table) ∧ e.field k = some f := by
  rw [subject] at h
  split at h
  · rename_i howner
    rw [subjectOf] at h
    split at h
    · cases h
    split at h
    · rename_i hfield
      cases h
      exact ⟨howner, hfield⟩
    split at h <;> cases h
  · cases h

theorem isPlain_calculation {e : Entity} {table formula : String} {err : QueryError}
    (h : calculation e table formula = .error err) : err.isPlain = true := by
  rw [calculation] at h
  split at h
  · rename_i he
    cases h
    obtain ⟨part, -, hpart⟩ := Result.exists_of_mapM_error he
    rw [calculationPart.eq_def] at hpart
    cases part with
    | char c => cases hpart
    | slot name =>
      dsimp only at hpart
      split at hpart <;> cases hpart
      rfl
  · dsimp only at h
    split at h <;> cases h
    rfl

/-! ## Errors of a condition -/

section

variable {env : Env} {E : QueryError → Prop} (hE : ∀ e, e.isPlain = true → E e)

include hE

theorem failsAs_entity (id : String) : (entity env id).FailsAs E :=
  .ofResult fun _ h => hE _ (Catalog.isPlain_entity h)

omit hE in
theorem linked_of_ok {e : Entity} {field : String} {l : Link} {target : Entity}
    (hl : (link env e field).result = .ok l) (ht : (entity env l.target).result = .ok target) :
    Linked env e field target := ⟨l, hl, ht⟩

variable (hlinks : ∀ id e, env.links id = .error e → E e)

include hlinks

theorem failsAs_link (e : Entity) (field : String) : (link env e field).FailsAs E := by
  rw [link]
  refine Traced.FailsAs.bind (hlinks e.id) fun m _ => ?_
  split
  · exact .pure
  · exact Traced.FailsAs.notice.bind fun _ _ => .fail (hE _ rfl)

theorem failsAs_formulaExpr {inner : Inner} {frame : Frame} {e : Entity} {f : Field}
    {formula : Formula} (table : String)
    (hinner : ∀ target d, Linked env e formula.field target → env.filterOf f formula = some d →
      (inner (frame.inner target "__f") d).FailsAs E) :
    (formulaExpr env inner frame e table f formula).FailsAs E := by
  rw [formulaExpr]
  refine (failsAs_link hE hlinks e formula.field).bind fun l hl => ?_
  refine (failsAs_entity hE l.target).bind fun target ht => ?_
  split
  · exact .fail (hE _ rfl)
  dsimp only
  split
  · exact (hinner target _ (linked_of_ok hl ht) ‹_›).bind fun _ _ => .pure
  · exact .pure

theorem failsAs_fieldExpr {inner : Inner} {frame : Frame} {e : Entity} {f : Field}
    (table : String)
    (hinner : ∀ formula, f.type = .formula formula → ∀ target d,
      Linked env e formula.field target → env.filterOf f formula = some d →
      (inner (frame.inner target "__f") d).FailsAs E) :
    (fieldExpr env inner frame e table f).FailsAs E := by
  rw [fieldExpr]
  split
  · exact failsAs_formulaExpr hE hlinks table (hinner _ ‹_›)
  · exact .ofResult fun _ h => hE _ (isPlain_calculation h)
  · split <;> exact .pure

theorem failsAs_connectionRule {inner : Inner} {frame : Frame} {e : Entity} {f : Field} {r : Rule}
    (table : String)
    (hinner : isRelational r.op = true → ∀ target d, Linked env e f.id target →
      relationFilter r.value = some d → (inner (frame.inner target "__r") d).FailsAs E) :
    (connectionRule env inner frame e table f r).FailsAs E := by
  rw [connectionRule]
  refine (failsAs_link hE hlinks e f.id).bind fun l hl => ?_
  refine (failsAs_entity hE l.target).bind fun target ht => ?_
  dsimp only
  split
  · rename_i hop
    have hrel : isRelational r.op = true := by simpa [isRelational] using hop
    split
    · exact (hinner hrel target _ (linked_of_ok hl ht) ‹_›).bind fun _ _ => .pure
    · exact .pure
  split
  · exact .ofResult fun _ h => hE _ (isPlain_scalarRule h)
  · refine Traced.FailsAs.bind (.ofResult fun _ h => hE _ (isPlain_linkedTest h)) fun test _ => ?_
    exact .pure

theorem failsAs_fieldRule {inner : Inner} {frame : Frame} {e : Entity} {f : Field} {r : Rule}
    (table : String)
    (hinner : ∀ formula, f.type = .formula formula → ∀ target d,
      Linked env e formula.field target → env.filterOf f formula = some d →
      (inner (frame.inner target "__f") d).FailsAs E) :
    (fieldRule env inner frame e table f r).FailsAs E := by
  rw [fieldRule]
  refine (failsAs_fieldExpr hE hlinks table hinner).bind fun expr _ => .ofResult ?_
  intro err h
  split at h
  · exact hE _ (isPlain_arrayRule h)
  · exact hE _ (isPlain_scalarRule h)

/-- A rule fails over itself or with a condition that it leads to. -/
theorem failsAs_rule {inner : Inner} {frame : Frame} {c : Condition} {r : Rule} (hr : r ∈ c.rules)
    (hself : r.op.isPlaceholder = true → E (.unreplaced r.op r.key))
    (hinner : ∀ frame' d, Enters env frame c frame' d → (inner frame' d).FailsAs E) :
    (rule env inner frame r).FailsAs E := by
  rw [rule]
  split
  · rename_i hp
    exact .fail (hself hp)
  split_ifs with hkey
  · refine .ofResult fun err h => ?_
    cases hc : constantRule r.op r.value with
    | ok p =>
      rw [hc] at h
      cases h
    | error e =>
      rw [hc] at h
      cases h
      exact hE _ (isPlain_constantRule hc)
  refine Traced.FailsAs.bind (.ofResult fun _ h => hE _ (isPlain_subject h)) fun s hs => ?_
  cases s with
  | column column => exact .ofResult fun _ h => hE _ (isPlain_scalarRule h)
  | field owner table f =>
    dsimp only
    split
    · rename_i hf
      exact failsAs_connectionRule hE hlinks table fun hrel target d hl hd =>
        hinner _ d (.carried ⟨r, hr, hkey, hrel, hd, owner, table, f, hs, hf, hl⟩)
    · exact failsAs_fieldRule hE hlinks table fun formula htype target d hl hd =>
        hinner _ d (.formula ⟨r, hr, hkey, table, hs, htype, hl⟩ hd)

end

mutual
theorem failsAs_tree {rule : Rule → Traced (Option Predicate)} {E : QueryError → Prop}
    (hE : ∀ e, e.isPlain = true → E e) :
    (c : Condition) → (∀ r ∈ c.rules, (rule r).FailsAs E) → (tree rule c).FailsAs E
  | .group g nodes, h => by
    rw [tree]
    exact (failsAs_trees hE nodes h).bind fun _ _ => .pure
  | .rule r, h => h r (by simp [Condition.rules])
  | .malformed node, _ => by
    rw [tree]
    exact .fail (hE _ rfl)
theorem failsAs_trees {rule : Rule → Traced (Option Predicate)} {E : QueryError → Prop}
    (hE : ∀ e, e.isPlain = true → E e) : (cs : List Condition) →
      (∀ r ∈ Condition.rulesOf cs, (rule r).FailsAs E) → (trees rule cs).FailsAs E
  | [], _ => by
    rw [trees]
    exact .pure
  | c :: rest, h => by
    rw [Condition.rulesOf, List.forall_mem_append] at h
    rw [trees]
    exact (failsAs_tree hE c h.1).bind fun _ _ =>
      (failsAs_trees hE rest h.2).bind fun _ _ => .pure
end

/-- Compiling adds no error to those that are plain, those of links and those of placeholders. -/
theorem failsAs_within {env : Env} {E : QueryError → Prop} (hE : ∀ e, e.isPlain = true → E e)
    (hlinks : ∀ id e, env.links id = .error e → E e) (hself : ∀ op key, E (.unreplaced op key))
    (levels : Nat) (frame : Frame) (c : Condition) : (within env levels frame c).FailsAs E := by
  induction levels generalizing frame c with
  | zero => exact .fail (hE _ rfl)
  | succ levels ih =>
    exact failsAs_tree hE c fun r hr =>
      failsAs_rule hE hlinks hr (fun _ => hself _ _) fun frame' d _ => ih frame' d

theorem links_over {links : Links} (hlinks : ∀ id op key, links id ≠ .error (.unreplaced op key))
    {blame : RuleOp → String → Prop} (id : String) (e : QueryError) (h : links id = .error e) :
    e.Over blame :=
  fun op key he => absurd (he ▸ h) (hlinks id op key)

section

variable {env : Env} {reduced : List Entity}

/-- Filters that stand in for others hold no placeholders. -/
theorem Covers.stored_of_not_resolved (hcovers : Covers env reduced) {f : Field}
    {formula : Formula} {d : Condition} (hd : env.filterOf f formula = some d)
    (hnot : ¬ d.Resolved) : formula.filter = some d := by
  rw [Env.filterOf] at hd
  split at hd
  · rename_i q hq
    cases hd
    exact absurd (hcovers.resolved _ (List.mem_of_find?_eq_some hq)) hnot
  · exact hd

theorem Covers.resolved_of_mem (hcovers : Covers env reduced) {e : Entity} (he : e ∈ reduced)
    {f : Field} (hf : f ∈ e.fields) {formula : Formula} (htype : f.type = .formula formula)
    (hl : ∃ l, (link env e formula.field).result = .ok l) {d : Condition}
    (hd : env.filterOf f formula = some d) : d.Resolved := by
  by_contra hnot
  have hstored := hcovers.stored_of_not_resolved hd hnot
  obtain ⟨q, hq, hid⟩ := hcovers.covered e he f hf formula htype d hstored hnot hl
  -- There is a filter that stands in for this one, so it is the one in force.
  rw [Env.filterOf] at hd
  split at hd
  · rename_i q' hq'
    cases hd
    exact hnot (hcovers.resolved _ (List.mem_of_find?_eq_some hq'))
  · rename_i hnone
    have hne := List.find?_eq_none.1 hnone q hq
    simp [hid] at hne

/-- What a filter in force for a formula field holds is hidden, unless the field was seen to. -/
theorem hidden_of_enters (hcovers : Covers env reduced) {frame frame' : Frame} {c d : Condition}
    (h : Enters env frame c frame' d) {op : RuleOp} {key : String}
    (hd : Stands d op key ∨ Hidden env reduced frame' d op key) :
    Hidden env reduced frame c op key := by
  rcases hd with hd | hd
  · cases h with
    | carried h => exact .carried h hd
    | formula h hfilter =>
      rename_i owner target f formula
      obtain ⟨r, hr, -, table, hs, htype, l, hl, -⟩ := id h
      have hstored := hcovers.stored_of_not_resolved hfilter hd.not_resolved
      refine .formula h (fun howner => ?_) hfilter hstored hd
      have hf := Entity.mem_of_field (field_of_subject hs).2
      exact hd.not_resolved (hcovers.resolved_of_mem howner hf htype ⟨l, hl⟩ hfilter)
  · exact .within h hd

/-- Compiling fails over placeholders that stand in the condition or are hidden. -/
theorem failsOver_within (hlinks : ∀ id op key, env.links id ≠ .error (.unreplaced op key))
    (hcovers : Covers env reduced) (levels : Nat) (frame : Frame) (c : Condition) :
    (within env levels frame c).FailsOver fun op key =>
      Stands c op key ∨ Hidden env reduced frame c op key := by
  induction levels generalizing frame c with
  | zero =>
    rintro op key ⟨⟩
  | succ levels ih =>
    refine Traced.failsAs_over.1 (failsAs_tree QueryError.over_of_isPlain c fun r hr => ?_)
    refine failsAs_rule QueryError.over_of_isPlain (links_over hlinks) hr ?_ fun frame' d h => ?_
    · rintro hp op key ⟨⟩
      exact .inl ⟨r, hr, hp, rfl, rfl⟩
    · refine Traced.failsAs_over.2 ((ih frame' d).mono fun op key hd => ?_)
      exact .inr (hidden_of_enters hcovers h hd)

theorem failsOver_condition (hlinks : ∀ id op key, env.links id ≠ .error (.unreplaced op key))
    (hcovers : Covers env reduced) (frame : Frame) {c : Condition} (hc : c.Resolved) :
    (condition env frame c).FailsOver (Hidden env reduced frame c) :=
  (failsOver_within hlinks hcovers _ frame c).mono fun _ _ h =>
    h.resolve_left fun hstands => hstands.not_resolved hc

/-! ## What is hidden is an error -/

theorem exists_formulaExpr_error {inner : Inner} {frame : Frame} {e : Entity} (table : String)
    {f : Field} {formula : Formula} {target : Entity} {d : Condition}
    (hl : Linked env e formula.field target) (hfilter : env.filterOf f formula = some d)
    (hd : ∃ err, (inner (frame.inner target "__f") d).result = .error err) :
    ∃ err, (formulaExpr env inner frame e table f formula).result = .error err := by
  obtain ⟨l, hl, htarget⟩ := hl
  obtain ⟨err, hd⟩ := hd
  simp only [formulaExpr, Traced.result_bind_error]
  cases hfield : target.field formula.target with
  | none =>
    refine ⟨.fieldNotFound target.name formula.target, .inr ⟨l, hl, .inr ⟨target, htarget, ?_⟩⟩⟩
    rw [hfield]
    rfl
  | some field =>
    refine ⟨err, .inr ⟨l, hl, .inr ⟨target, htarget, ?_⟩⟩⟩
    rw [hfield]
    dsimp only
    rw [hfilter]
    exact Traced.result_bind_error.2 (.inl hd)

/-- A rule is in error if a condition that it leads to is. -/
theorem exists_rule_error_of_enters {inner : Inner} {frame frame' : Frame} {c d : Condition}
    (h : Enters env frame c frame' d) (hd : ∃ e, (inner frame' d).result = .error e) :
    ∃ r ∈ c.rules, ∃ e, (rule env inner frame r).result = .error e := by
  obtain ⟨e, hd⟩ := hd
  cases h with
  | carried h =>
    rename_i target
    obtain ⟨r, hr, hkey, hrel, hfilter, owner, table, f, hs, hf, l, hl, htarget⟩ := h
    refine ⟨r, hr, e, ?_⟩
    have hop : r.op = .haveRelation ∨ r.op = .haveNoRelation := by simpa [isRelational] using hrel
    rw [rule_of_field (isPlaceholder_of_isRelational hrel) hkey hs, if_pos hf, connectionRule,
      Traced.result_bind_error]
    refine .inr ⟨l, hl, ?_⟩
    rw [entity, htarget, Traced.result_bind_error]
    refine .inr ⟨target, rfl, ?_⟩
    dsimp only
    rw [if_pos hop, hfilter]
    exact Traced.result_bind_error.2 (.inl hd)
  | formula h hfilter =>
    rename_i owner target f formula
    obtain ⟨r, hr, hkey, table, hs, htype, l, hl, htarget⟩ := h
    refine ⟨r, hr, ?_⟩
    cases hp : r.op.isPlaceholder with
    | true =>
      rw [rule, hp]
      exact ⟨_, rfl⟩
    | false =>
      have hconnection : f.isConnection = false := by
        rw [Field.isConnection, Field.connection?, htype]
        rfl
      obtain ⟨err, herr⟩ := exists_formulaExpr_error table ⟨l, hl, htarget⟩ hfilter ⟨e, hd⟩
      refine ⟨err, ?_⟩
      rw [rule_of_field hp hkey hs, hconnection, if_neg (by simp), fieldRule,
        Traced.result_bind_error, fieldExpr, htype]
      exact .inl herr

theorem exists_within_error_of_enters {frame frame' : Frame} {c d : Condition}
    (h : Enters env frame c frame' d)
    (hd : ∀ levels, ∃ e, (within env levels frame' d).result = .error e) (levels : Nat) :
    ∃ e, (within env levels frame c).result = .error e := by
  cases levels with
  | zero => exact ⟨_, rfl⟩
  | succ levels =>
    obtain ⟨r, hr, herr⟩ := exists_rule_error_of_enters h (hd levels)
    exact exists_tree_eq_error.2 ⟨.rule r, (Condition.rule_mem_leaves c).2 hr, herr⟩

theorem exists_within_error_of_stands {frame : Frame} {c : Condition} {op : RuleOp} {key : String}
    (h : Stands c op key) (levels : Nat) : ∃ e, (within env levels frame c).result = .error e := by
  cases levels with
  | zero => exact ⟨_, rfl⟩
  | succ levels =>
    obtain ⟨p, hp, hop, -, -⟩ := h
    have hfault : Fault env frame (.rule p) (.unreplaced p.op p.key) := .placeholder hop
    exact exists_tree_eq_error.2
      ⟨.rule p, (Condition.rule_mem_leaves c).2 hp, _, hfault.result (within env levels)⟩

/-- Where a placeholder is hidden nothing can be compiled. -/
theorem exists_within_error_of_hidden {frame : Frame} {c : Condition} {op : RuleOp} {key : String}
    (h : Hidden env reduced frame c op key) (levels : Nat) :
    ∃ e, (within env levels frame c).result = .error e := by
  induction h generalizing levels with
  | carried h hd =>
    exact exists_within_error_of_enters (.carried h) (exists_within_error_of_stands hd) levels
  | formula h _ hfilter _ hd =>
    exact exists_within_error_of_enters (.formula h hfilter) (exists_within_error_of_stands hd)
      levels
  | within h _ ih => exact exists_within_error_of_enters h ih levels

/-! ## Errors of computed fields -/

/-- Whether a placeholder is hidden below the filter in force for a formula field of an object, which
holds none itself. -/
def HiddenInField (env : Env) (reduced : List Entity) (frame : Frame) (op : RuleOp) (key : String) :
    Prop :=
  ∃ f ∈ frame.entity.fields, ∃ formula target d, f.type = .formula formula ∧
    Linked env frame.entity formula.field target ∧ env.filterOf f formula = some d ∧ d.Resolved ∧
    Hidden env reduced (frame.inner target "__f") d op key

variable (hlinks : ∀ id op key, env.links id ≠ .error (.unreplaced op key))
  (hcovers : Covers env reduced)

include hlinks hcovers

theorem failsOver_computed {frame : Frame} (hframe : frame.entity ∈ reduced) (levels : Nat)
    (table : String) {f : Field} (hf : f ∈ frame.entity.fields) :
    (fieldExpr env (within env levels) frame frame.entity table f).FailsOver
      (HiddenInField env reduced frame) := by
  refine Traced.failsAs_over.1 (failsAs_fieldExpr QueryError.over_of_isPlain (links_over hlinks)
    table fun formula htype target d hl hd => ?_)
  obtain ⟨l, hlink, htarget⟩ := id hl
  have hresolved := hcovers.resolved_of_mem hframe hf htype ⟨l, hlink⟩ hd
  refine Traced.failsAs_over.2 ((failsOver_within hlinks hcovers levels _ d).mono fun op key h => ?_)
  exact ⟨f, hf, formula, target, d, htype, hl, hd, hresolved,
    h.resolve_left fun hstands => hstands.not_resolved hresolved⟩

theorem failsOver_sortExpr {frame : Frame} (hframe : frame.entity ∈ reduced) (s : SortKey) :
    (sortExpr env frame s).FailsOver (HiddenInField env reduced frame) := by
  rw [sortExpr]
  refine Traced.FailsOver.bind ?_ fun found hfound => ?_
  · exact Traced.failsAs_over.1 (.ofResult fun err h => err.over_of_isPlain (isPlain_subject h))
  cases found with
  | column c => exact .pure
  | field e table f =>
    have hsubject : subject frame s.key none = .ok (.field e table f) := hfound
    obtain ⟨howner, hfield⟩ := field_of_subject hsubject
    cases howner
    have hplain := failsOver_computed hlinks hcovers hframe (formulaLevels env) frame.table
      (Entity.mem_of_field hfield)
    dsimp only
    split
    · split
      · exact hplain
      · exact .pure
    · exact hplain

theorem failsOver_ordering {frame : Frame} (hframe : frame.entity ∈ reduced)
    (sort : List SortKey) :
    (ordering env frame sort).FailsOver (HiddenInField env reduced frame) :=
  Traced.failsAs_over.1 <| .mapM fun s _ => Traced.failsAs_over.2 <|
    (failsOver_sortExpr hlinks hcovers hframe s).bind fun _ _ => .pure

theorem failsOver_virtualColumns {frame : Frame} (hframe : frame.entity ∈ reduced) :
    (virtualColumns env frame).FailsOver (HiddenInField env reduced frame) := by
  rw [virtualColumns]
  refine Traced.FailsOver.bind (fun op key h => absurd h (hlinks _ op key)) fun links _ => ?_
  refine Traced.failsAs_over.1 (.mapM fun f hf => Traced.failsAs_over.2 ?_)
  refine Traced.FailsOver.bind ?_ fun _ _ => .pure
  have hplain := failsOver_computed hlinks hcovers hframe (formulaLevels env) frame.table
    (List.mem_of_mem_filter hf)
  rw [virtualExpr]
  split
  · split
    · exact Traced.FailsOver.notice.bind fun _ _ => .pure
    · exact hplain
  · exact hplain

end

end CatalogQuery.Compile
