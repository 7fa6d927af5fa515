import CatalogQuery.Proofs.Compile.Calculations
import CatalogQuery.Proofs.Compile.Composed
import CatalogQuery.Proofs.Link.Accounting
import CatalogQuery.Reduce.Stored

/-!
# Columns that stored definitions read

A formula names the field that it aggregates, a calculation its operands, a rule the field of a stored
query, and a connection the fields that take the place of primary keys. Only some of these names are
looked up among the fields that have a column. Main statement: what each of the four lookups gives.
-/

namespace CatalogQuery

/-- Whether the table of an object has a column for one of its fields. -/
def Entity.Stores (e : Entity) (column : String) : Prop :=
  ∃ f ∈ e.fields, f.isVirtual = false ∧ f.column = column

namespace Compile

variable {env : Env} {inner : Inner} {frame : Frame} {e : Entity}

/-- The columns in a calculation are those of fields that are not computed themselves. -/
theorem stores_of_calculation {table formula : String} {expr : Sql.Expr}
    (h : calculation e table formula = .ok expr) :
    ∃ parts, expr = .calculation parts ∧
      ∀ c, .column c ∈ parts → c.table = table ∧ e.Stores c.name := by
  obtain ⟨parts, rfl, -, hbecomes⟩ := becomes_of_calculation h
  refine ⟨parts, rfl, fun c hc => ?_⟩
  obtain ⟨part, -, hpart⟩ := exists_of_forall₂ hbecomes.flip hc
  cases part with
  | char _ => cases hpart.2
  | slot name =>
    obtain ⟨f, hf, hstored, heq, -⟩ := hpart
    cases heq
    exact ⟨rfl, f, hf, hstored, rfl⟩

/-- A formula is compiled to an aggregate of the column of whichever field its target names. -/
theorem formulaExpr_ok {f : Field} {formula : Formula} {table : String} {expr : Sql.Expr} :
    (formulaExpr env inner frame e table f formula).result = .ok expr ↔
      ∃ l target g filter, (link env e formula.field).result = .ok l ∧
        env.catalog.entity l.target = .ok target ∧ target.field formula.target = some g ∧
        let within := frame.inner target "__f"
        let (source, on) := l.correlated table within.table
        ((env.filterOf f formula).elim (pure none) (inner within)).result = .ok filter ∧
          expr = .aggregate formula.aggregate ⟨within.table, g.column⟩ source on filter := by
  rw [formulaExpr, Traced.result_bind_ok]
  constructor
  · rintro ⟨l, hl, h⟩
    obtain ⟨target, htarget, h⟩ := Traced.result_bind_ok.1 h
    split at h
    · cases h
    · rename_i g hg
      refine ⟨l, target, g, ?_⟩
      cases hf : env.filterOf f formula with
      | none =>
        rw [hf] at h
        cases h
        exact ⟨none, hl, htarget, hg, rfl, rfl⟩
      | some c =>
        rw [hf] at h
        obtain ⟨filter, hfilter, h⟩ := Traced.result_bind_ok.1 h
        cases h
        exact ⟨filter, hl, htarget, hg, hfilter, rfl⟩
  · rintro ⟨l, target, g, filter, hl, htarget, hg, hfilter, rfl⟩
    refine ⟨l, hl, Traced.result_bind_ok.2 ⟨target, htarget, ?_⟩⟩
    rw [hg]
    cases hf : env.filterOf f formula with
    | none =>
      rw [hf] at hfilter
      cases hfilter
      rfl
    | some c =>
      rw [hf] at hfilter
      exact Traced.result_bind_ok.2 ⟨filter, hfilter, rfl⟩

end Compile

namespace Reduce

/-- A statement that reads the column of a stored query selects nothing else. -/
theorem select_of_membershipSelect {env : Compile.Env} {e : Entity} {r : Rule}
    {stored : StoredSource} {reduced : Condition} {column key : String} {select : Sql.Select}
    (h : (membershipSelect env e r stored reduced (some column)).result = .ok (select, key)) :
    ∃ target source filter, env.catalog.entity stored.entity = .ok target ∧
      select = .plain true [.expr (.column ⟨target.table, column⟩)] source filter := by
  rw [membershipSelect] at h
  obtain ⟨target, htarget, h⟩ := Traced.result_bind_ok.1 h
  obtain ⟨⟨source, filter⟩, -, h⟩ := Traced.result_bind_ok.1 h
  cases h
  exact ⟨target, source, filter, htarget, rfl⟩

/-- The field of a stored query is one that is not computed. -/
theorem stores_of_queryField {catalog : Catalog} {r : Rule} {stored : StoredSource}
    {column : String} (h : (queryField catalog r).result = .ok (stored, column)) :
    ∃ target, catalog.entity stored.entity = .ok target ∧ target.Stores column := by
  rw [queryField] at h
  dsimp only at h
  split at h
  · cases h
  obtain ⟨stored, -, h⟩ := Traced.result_bind_ok.1 h
  obtain ⟨target, htarget, h⟩ := Traced.result_bind_ok.1 h
  split at h
  · rename_i f hf
    cases h
    obtain ⟨hnamed, hstored⟩ := Option.filter_eq_some_iff.1 hf
    exact ⟨target, htarget, f, Entity.mem_of_field hnamed, by simpa using hstored, rfl⟩
  · cases h

end Reduce

namespace Link

/-- A link is resolved without a word just if each field in the place of a primary key is unique. -/
theorem quiet_iff {settings : Settings} {catalog : Catalog} {e : Entity} {f : Field}
    {c : Connection} {l : Link} (hc : f.connection? = some c)
    (hl : (ofField settings catalog e f c).1 = some l) :
    ∃ target, catalog.entity? c.target = some target ∧ HeldBy e target f c l.keys ∧
      ((ofField settings catalog e f c).2 = [] ↔
        (∀ g ∈ e.sourceOverride c.overrideIds, e.isUniqueKey g.id = true) ∧
          ∀ g ∈ e.targetOverride target c.overrideIds, target.isUniqueKey g.id = true) := by
  obtain ⟨target, htarget, -, -, -, hkeys⟩ := exists_of_ofField hl
  refine ⟨target, htarget, heldBy_keysOf hkeys, ?_⟩
  have homission : f.omission? catalog e = none := by
    cases h : f.omission? catalog e with
    | none => rfl
    | some n => simp [ofField_of_omission hc h] at hl
  obtain ⟨doubts, hperm, hnotices⟩ := exists_notices_ofField settings catalog e hc
  rw [homission, Option.toList_none, List.append_nil] at hnotices
  have hdoubt {owner : Entity} {g : Field} : owner.doubt g = [] ↔ owner.isUniqueKey g.id = true := by
    simp [Entity.doubt]
  rw [hnotices, ← List.perm_nil, hperm.congr_left]
  simp [Field.doubts, hc, htarget, hdoubt]

end Link

/-- What a stored definition reads of the field that it names. The operands of a calculation and the
field of a stored query are columns of fields that are not computed, or there is an error. The target
of a formula is the column of the field with that name, computed or not. A field in the place of a
primary key is its column as well, and nothing is told of it just if it is unique. -/
theorem definitions_read (settings : Settings) (env : Compile.Env) (inner : Compile.Inner) :
    (∀ frame e table f formula expr, f.type = .calculate formula →
      (Compile.fieldExpr env inner frame e table f).result = .ok expr →
        ∃ parts, expr = .calculation parts ∧
          ∀ c, .column c ∈ parts → c.table = table ∧ e.Stores c.name) ∧
    (∀ r stored column, (Reduce.queryField env.catalog r).result = .ok (stored, column) →
      ∃ target, env.catalog.entity stored.entity = .ok target ∧ target.Stores column ∧
        ∀ e reduced select key,
          (Reduce.membershipSelect env e r stored reduced (some column)).result =
            .ok (select, key) →
          ∃ source filter,
            select = .plain true [.expr (.column ⟨target.table, column⟩)] source filter) ∧
    (∀ frame e table f formula expr, f.type = .formula formula →
      ((Compile.fieldExpr env inner frame e table f).result = .ok expr ↔
        ∃ l target g filter, (Compile.link env e formula.field).result = .ok l ∧
          env.catalog.entity l.target = .ok target ∧ target.field formula.target = some g ∧
          let within := frame.inner target "__f"
          let (source, on) := l.correlated table within.table
          ((env.filterOf f formula).elim (pure none) (inner within)).result = .ok filter ∧
            expr = .aggregate formula.aggregate ⟨within.table, g.column⟩ source on filter)) ∧
    ∀ e f c l, f.connection? = some c → (Link.ofField settings env.catalog e f c).1 = some l →
      ∃ target, env.catalog.entity? c.target = some target ∧ Link.HeldBy e target f c l.keys ∧
        ((Link.ofField settings env.catalog e f c).2 = [] ↔
          (∀ g ∈ e.sourceOverride c.overrideIds, e.isUniqueKey g.id = true) ∧
            ∀ g ∈ e.targetOverride target c.overrideIds, target.isUniqueKey g.id = true) := by
  refine ⟨?calculation, ?queryField, ?formula, fun _ _ _ _ hc hl => Link.quiet_iff hc hl⟩
  case calculation =>
    intro frame e table f formula expr htype h
    rw [Compile.fieldExpr, htype] at h
    exact Compile.stores_of_calculation h
  case queryField =>
    intro r stored column h
    obtain ⟨target, htarget, hstores⟩ := Reduce.stores_of_queryField h
    refine ⟨target, htarget, hstores, fun e reduced select key hselect => ?_⟩
    obtain ⟨found, source, filter, hfound, rfl⟩ := Reduce.select_of_membershipSelect hselect
    cases htarget.symm.trans hfound
    exact ⟨source, filter, rfl⟩
  case formula =>
    intro frame e table f formula expr htype
    rw [Compile.fieldExpr, htype]
    exact Compile.formulaExpr_ok

/-- The gross amount of an invoice is computed from a column that the table has. -/
theorem definitions_read_gross :
    let gross := Field.new "g" "gross" (.calculate "{net}*2")
    let invoice := Entity.new "invoice" "Invoice" "INVOICE" [.new "n" "net" .number, gross]
    let catalog : Catalog := ⟨[invoice], [], []⟩
    let env : Compile.Env := ⟨{}, catalog, LinkMap.ofCatalog {} catalog, "en", []⟩
    (Compile.fieldExpr env (Compile.within env 0) (.base invoice) invoice "INVOICE" gross).result =
        .ok (.calculation [.column ⟨"INVOICE", "net"⟩, .char '*', .char '2']) ∧
      invoice.Stores "net" := by
  intro gross invoice catalog env
  have hexpr : (Compile.fieldExpr env (Compile.within env 0) (.base invoice) invoice "INVOICE"
      gross).result = .ok (.calculation [.column ⟨"INVOICE", "net"⟩, .char '*', .char '2']) := rfl
  obtain ⟨hcalculation, -⟩ := definitions_read {} env (Compile.within env 0)
  obtain ⟨parts, hparts, hstores⟩ := hcalculation _ _ _ _ _ _ rfl hexpr
  cases hparts
  exact ⟨hexpr, (hstores ⟨"INVOICE", "net"⟩ (.head _)).2⟩

/-- The turnover of a customer sums up what is computed for each invoice, and notes reach their tags
by a key that is computed for each tag and listed as unique: neither column is in any table, and
nothing is told of either. -/
theorem definitions_read_computed :
    let gross := Field.new "g" "gross" (.calculate "{net} * 2")
    let invoice := Entity.new "invoice" "Invoice" "INVOICE" [.new "n" "net" .number, gross,
      .new "c" "customer" (.connection ⟨"customer", some "i", .one, .many, true, none, none⟩)]
    let customer := Entity.new "customer" "Customer" "CUSTOMER" [
      .new "i" "invoices" (.connection ⟨"invoice", some "c", .many, .one, false, none, none⟩),
      .new "t" "turnover" (.formula ⟨"i", "g", .sum, none⟩)]
    let code := Field.new "k" "code" (.calculate "{number} + 1000")
    let tag : Entity := { Entity.new "tag" "Tag" "TAG" [.new "m" "number" .number, code] with
      indexes := [⟨"x", "tag_code", ["k"], true⟩] }
    let note := Entity.new "note" "Note" "NOTE" [
      .new "h" "tag" (.connection ⟨"tag", none, .one, .many, true, some "k", none⟩)]
    let catalog : Catalog := ⟨[invoice, customer, tag, note], [], []⟩
    let env : Compile.Env := ⟨{}, catalog, LinkMap.ofCatalog {} catalog, "en", []⟩
    (gross.isVirtual = true ∧ Compile.virtualColumns env (.base customer) =
      ⟨[.consulted "customer", .consulted "customer"],
        .ok [.named (.aggregate .sum ⟨"__f1", "gross"⟩ ⟨"INVOICE", some "__f1", []⟩
          ⟨⟨"__f1", "customer"⟩, ⟨"CUSTOMER", "uuid"⟩⟩ none) "turnover"]⟩) ∧
    code.isVirtual = true ∧ (LinkMap.resolve {} catalog note).2 = [] ∧
      (LinkMap.resolve {} catalog note).1.links.map Link.keys = [.own "tag" "code"] := by
  intro gross invoice customer code tag note catalog env
  refine ⟨⟨rfl, ?_⟩, rfl, ?_, ?_⟩
  · with_unfolding_all rfl
  · decide
  · decide

end CatalogQuery
