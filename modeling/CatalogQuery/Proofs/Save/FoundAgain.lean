import CatalogQuery.Proofs.Compile.Keys
import CatalogQuery.Proofs.Save.Data

/-!
# Values that are found again

A value is brought into the form of its column twice: where it is written and where a rule asks for
it. Main statement: for a field with one value both come to the same, alone and within a list,
unless the field is a flag and the list is one.
-/

namespace CatalogQuery

open Sql

/-- Whether a value is neither a list nor an object. -/
def Json.isSimple : Json → Bool
  | .arr _ | .obj _ => false
  | _ => true

/-- Whether a field has at most one value, which is kept as it is or as its option or flag. -/
def Field.isSingle (f : Field) : Bool :=
  match f.type with
  | .text | .longText | .number | .boolean | .uuid => true
  | .list _ multiple | .user multiple => !multiple
  | _ => false

/-- Whether the values of a field are kept in another form than they are given in. -/
def Field.isConverted (f : Field) : Bool :=
  match f.type with
  | .boolean | .list _ _ => true
  | _ => false

theorem Field.type_of_isConverted {f : Field} (h : f.isConverted = true) :
    f.type = .boolean ∨ ∃ options multiple, f.type = .list options multiple := by
  rw [Field.isConverted] at h
  cases htype : f.type with
  | boolean => exact .inl rfl
  | list options multiple => exact .inr ⟨options, multiple, rfl⟩
  | _ =>
    rw [htype] at h
    cases h

theorem Field.isMultiValued_of_isSingle {f : Field} (h : f.isSingle = true) :
    f.isMultiValued = false := by
  rw [Field.isSingle] at h
  rw [Field.isMultiValued]
  cases htype : f.type with
  | list | user => simpa [htype] using h
  | _ => rfl

theorem Field.isVirtual_of_isSingle {f : Field} (h : f.isSingle = true) : f.isVirtual = false := by
  rw [Field.isSingle] at h
  rw [Field.isVirtual]
  cases htype : f.type with
  | formula | calculate =>
    rw [htype] at h
    cases h
  | _ => rfl

theorem Field.isConnection_of_isSingle {f : Field} (h : f.isSingle = true) :
    f.isConnection = false := by
  rw [Field.isSingle] at h
  rw [Field.isConnection, Field.connection?]
  cases htype : f.type with
  | connection =>
    rw [htype] at h
    cases h
  | _ => rfl

/-! ## The two forms of a value -/

section

variable {f : Field} {v : Json}

theorem Compile.stored_of_not_isConverted (h : f.isConverted = false) (v : Json) :
    stored f v = v := by
  rw [Field.isConverted] at h
  cases htype : f.type with
  | boolean | list =>
    rw [htype] at h
    cases h
  | _ => simp only [stored, htype]

theorem Write.columnValue_of_not_isConverted (hf : f.isSingle = true)
    (hplain : f.isConverted = false) (hv : v.isSimple = true) : columnValue f v = v := by
  rw [Field.isSingle] at hf
  rw [Field.isConverted] at hplain
  cases htype : f.type with
  | text | longText | number | uuid => simp only [columnValue, htype]
  | user multiple =>
    rw [htype] at hf
    cases multiple with
    | true => cases hf
    | false =>
      simp only [columnValue, htype]
      cases v with
      | obj members => cases hv
      | null | bool | num | str | arr => rfl
  | boolean | list =>
    rw [htype] at hplain
    cases hplain
  | date | dateTime | formula | calculate | connection | json | autoIndex =>
    rw [htype] at hf
    cases hf

/-- A value is converted alike for its column and for a rule. -/
theorem Write.stored_eq_columnValue (hf : f.isSingle = true) (hv : v.isSimple = true)
    (hcheck : f.type.check v = none) : Compile.stored f v = columnValue f v := by
  cases hconverted : f.isConverted with
  | false =>
    rw [Compile.stored_of_not_isConverted hconverted,
      columnValue_of_not_isConverted hf hconverted hv]
  | true =>
    rcases Field.type_of_isConverted hconverted with htype | ⟨options, multiple, htype⟩
    · simp only [Compile.stored, columnValue, htype]
    · simp only [Compile.stored, columnValue, htype]
      -- Nothing but the name of an option is accepted.
      cases v with
      | null | str => rfl
      | bool | num =>
        rw [htype] at hcheck
        cases hcheck
      | arr | obj => cases hv

theorem Compile.isSimple_stored (hv : v.isSimple = true) : (stored f v).isSimple = true := by
  cases hconverted : f.isConverted with
  | false => rwa [stored_of_not_isConverted hconverted]
  | true =>
    rcases Field.type_of_isConverted hconverted with htype | ⟨options, multiple, htype⟩
    all_goals
      simp only [stored, htype]
      cases v with
      | null | bool | num | str => rfl
      | arr | obj => cases hv

/-- Within a list a value is converted as it is alone. -/
theorem Compile.keyOf_eq_stored (htype : f.type ≠ .boolean) (hv : v.isSimple = true) :
    keyOf f v = stored f v := by
  cases hconverted : f.isConverted with
  | false =>
    rw [stored_of_not_isConverted hconverted]
    rw [Field.isConverted] at hconverted
    cases hf : f.type with
    | list =>
      rw [hf] at hconverted
      cases hconverted
    | _ => simp only [keyOf, hf]
  | true =>
    obtain ⟨options, multiple, hf⟩ := (Field.type_of_isConverted hconverted).resolve_left htype
    simp only [keyOf, stored, hf]
    cases v with
    | null | bool | num | str => rfl
    | arr | obj => cases hv

theorem Compile.stored_arr_of_boolean (htype : f.type = .boolean) (vs : List Json) :
    stored f (.arr vs) = Json.ofInt 0 := by
  simp only [stored, htype]
  rfl

/-- Null and what is not set are not kept as zero and one. -/
theorem Write.columnValue_eq_zero (htype : f.type = .boolean) :
    columnValue f v = Json.ofInt 0 ↔ v.isNull = false ∧ v.isTruthy = false := by
  simp only [columnValue, htype]
  cases v.isTruthy <;> cases v <;> simp [Json.isNull, Json.ofInt]

end

/-! ## Rules on a field -/

namespace Compile

/-- Whether the rules with a key compare a column with the values of a field: the key stands for the
field, or for the primary key, whose values are compared as they are. -/
inductive Asks (frame : Frame) (key : String) (joined : Option String) (f : Field) : Column → Prop
  | field {e : Entity} {table : String} (hs : subject frame key joined = .ok (.field e table f)) :
    Asks frame key joined f ⟨table, f.column⟩
  | key {c : Column} (hs : subject frame key joined = .ok (.column c))
    (hplain : f.isConverted = false) : Asks frame key joined f c

section

variable {env : Env} {inner : Inner} {frame : Frame} {key : String} {joined : Option String}
  {f : Field} {c : Column} {op : RuleOp}

theorem fieldRule_of_isSingle (hf : f.isSingle = true) (hlanguage : f.multilingual = false)
    (e : Entity) (table : String) (r : Rule) : (fieldRule env inner frame e table f r).result =
      scalarRule r.op (.column ⟨table, f.column⟩) (stored f r.value) false := by
  have hmultiple := Field.isMultiValued_of_isSingle hf
  obtain ⟨id, name, label, type, multilingual, required, default⟩ := f
  cases hlanguage
  rw [Field.isSingle] at hf
  rw [fieldRule, hmultiple]
  cases type with
  | date | dateTime | formula | calculate | connection | json | autoIndex => cases hf
  | _ => rfl

/-- A rule on a field with one value is one on a column. -/
theorem rule_of_asks (hf : f.isSingle = true) (hlanguage : f.multilingual = false)
    (hkey : key ≠ Rule.constantKey) (h : Asks frame key joined f c)
    (hop : op.isPlaceholder = false) (v : Json) :
    (rule env inner frame ⟨key, op, v, joined⟩).result =
      scalarRule op (.column c) (stored f v) false := by
  cases h with
  | field hs =>
    rw [rule_of_field hop hkey hs, Field.isConnection_of_isSingle hf, if_neg (by simp)]
    exact fieldRule_of_isSingle hf hlanguage _ _ _
  | key hs hplain =>
    rw [stored_of_not_isConverted hplain]
    exact rule_of_column hop hkey hs

theorem comparisonRule_simple {v : Json} (hv : v.isSimple = true) (x : Expr) :
    comparisonRule .eq x v false = some (.compareValue x .eq v) := by
  cases v with
  | null | bool | num | str => rfl
  | arr | obj => cases hv

/-- A list of values is compared value by value, unless it is taken for one flag. -/
theorem stored_list (f : Field) (vs : List Json) :
    f.type ≠ .boolean ∧ stored f (.arr vs) = .arr (vs.map (keyOf f)) ∨
      f.type = .boolean ∧ stored f (.arr vs) = Json.ofInt 0 := by
  by_cases htype : f.type = .boolean
  · exact .inr ⟨htype, stored_arr_of_boolean htype vs⟩
  · exact .inl ⟨htype, stored_keys htype vs⟩

end

end Compile

/-! ## Values that are saved -/

namespace Write

/-- Whether a value is the one that a field takes: the given one, or that of a new record. -/
def Takes (input : Json.Members) (creating : Bool) (f : Field) (v : Json) : Prop :=
  supplied input f = some v ∨ creating = true ∧ supplied input f = none ∧ f.default = some v

section

variable {catalog : Catalog} {links : LinkMap} {input : Json.Members} {creating : Bool} {f : Field}
  {v : Json}

theorem accept_of_isSingle (hf : f.isSingle = true) (hcheck : f.type.check v = none) :
    accept catalog links f v =
      .ok (if f.required && lacksValue v then required f
        else .column f.column (columnValue f v)) := by
  rw [accept, hcheck, Field.isConnection_of_isSingle hf]
  split <;> rfl

theorem taken_of_takes (h : Takes input creating f v) : taken input creating f = some v := by
  rcases h with hv | ⟨rfl, hnone, hv⟩
  · exact taken_of_supplied hv
  · exact taken_of_default hnone hv

theorem sets_of_takes (s : Session) {e : Entity} (hmem : f ∈ e.fields) (hf : f.isSingle = true)
    (hlanguage : f.multilingual = false) (h : Takes input creating f v) :
    s.Sets catalog e input creating f.column (columnValue f v) := by
  intro links p hprepare herrors
  have haccepted := accepted_of_prepare hprepare herrors hmem (Field.isVirtual_of_isSingle hf)
    hlanguage (taken_of_takes h)
  exact haccepted.column (Field.isConnection_of_isSingle hf)

end

/-- What is written for a value of a field is what a rule asks for that asks for the value, and is
among what a rule asks for that asks for one of several, whatever the others are. A list of flags is
the exception: it counts as one flag that is not set, so that the rule asks for zero alone and one is
never found. -/
theorem saved_values_found (f : Field) (v : Json) (hf : f.isSingle = true)
    (hlanguage : f.multilingual = false) (hv : v.isSimple = true) (hcheck : f.type.check v = none) :
    let kept := columnValue f v
    (∀ catalog links, accept catalog links f v =
      .ok (if f.required && lacksValue v then required f else .column f.column kept)) ∧
    (∀ (s : Session) caller (call : Call) entity values creating t r,
      call.saves? = some (entity, values, creating) → (call.program s caller).Runs t r →
      ∀ catalog e input, t.head? = some ⟨.catalog, catalog⟩ → catalog.entity entity = .ok e →
        inputMembers values = .ok input → f ∈ e.fields → Takes input creating f v →
        ∃ columns, (f.column, kept) ∈ columns ∧ Session.SetsFirst columns (Exchange.writes t)) ∧
    ∀ env inner frame key joined c, key ≠ Rule.constantKey →
      Compile.Asks frame key joined f c →
      let asked (op : RuleOp) (v : Json) :=
        (Compile.rule env inner frame ⟨key, op, v, joined⟩).result
      asked .equals v = .ok (some (.compareValue (.column c) .eq kept)) ∧
      ∀ vs, v ∈ vs →
        (f.type ≠ .boolean → ∃ items, .value kept ∈ items ∧ ∀ op ∈ Compile.keyOperators,
          asked op (.arr vs) = .ok (some (.oneOf (.column c) items op.isNegative))) ∧
        (f.type = .boolean →
          asked .in (.arr vs) = .ok (some (.oneOf (.column c) [.value (Json.ofInt 0)] false)) ∧
          asked .equals (.arr vs) = .ok (some (.compare (.column c) .eq (.value (Json.ofInt 0)))) ∧
          (kept = Json.ofInt 0 ↔ v.isNull = false ∧ v.isTruthy = false)) := by
  intro kept
  have hkept : Compile.stored f v = kept := stored_eq_columnValue hf hv hcheck
  refine ⟨fun catalog links => accept_of_isSingle hf hcheck, ?saved, ?asked⟩
  case saved =>
    intro s caller call entity values creating t r hcall h catalog e input hhead he hinput hmem htakes
    have hcatalog (c : Catalog) (hc : t.head? = some ⟨.catalog, c⟩) : c = catalog := by
      rw [hhead] at hc
      cases hc
      rfl
    exact Session.setsFirst_of_sets hcatalog he hinput hcall
      (sets_of_takes s hmem hf hlanguage htakes) h
  case asked =>
    intro env inner frame key joined c hkey hasks asked
    have hrule {op : RuleOp} (hop : op.isPlaceholder = false) (v : Json) :
        asked op v = Compile.scalarRule op (.column c) (Compile.stored f v) false :=
      Compile.rule_of_asks hf hlanguage hkey hasks hop v
    refine ⟨?_, fun vs hmem => ?_⟩
    · rw [hrule rfl, hkept]
      exact congrArg Except.ok
        (Compile.comparisonRule_simple (hkept ▸ Compile.isSimple_stored hv) (.column c))
    rcases Compile.stored_list f vs with ⟨htype, hlist⟩ | ⟨htype, hlist⟩
    · refine ⟨fun _ => ⟨(vs.map (Compile.keyOf f)).map .value, ?_, fun op hop => ?_⟩,
        fun h => absurd h htype⟩
      · rw [← hkept, ← Compile.keyOf_eq_stored htype hv]
        exact List.mem_map_of_mem (List.mem_map_of_mem hmem)
      · rw [hrule (Compile.isPlaceholder_of_mem hop), hlist, Compile.scalarRule_keys hop,
          Predicate.among, if_neg (by simp [List.ne_nil_of_mem hmem])]
    · -- A list is no flag that is set, whatever flags are in it.
      refine ⟨fun h => absurd htype h, fun _ => ⟨?_, ?_, columnValue_eq_zero htype⟩⟩
      all_goals
        rw [hrule rfl, hlist]
        rfl

/-- An invoice that is saved as open, by the label of the option, is found as open and among the open
and closed ones. -/
theorem saved_values_found_status :
    let status := Field.new "s" "status" (.list [⟨"o", "Open"⟩, ⟨"c", "Closed"⟩] false)
    let invoice := Entity.new "invoice" "Invoice" "INVOICE" [status]
    let catalog : Catalog := ⟨[invoice], [], []⟩
    let env : Compile.Env := ⟨{}, catalog, LinkMap.ofCatalog {} catalog, "en", []⟩
    let s : Session := ⟨{}, {}, .tenant⟩
    let system : Caller := ⟨none, "en", true⟩
    let input := [("status", Json.str "open"), ("uuid", .str "i1")]
    let call : Call := .create "invoice" (.obj input)
    let answer := Request.steady catalog (LinkMap.ofCatalog {} catalog) fun _ => [input]
    let t := ((call.program s system).transcript answer).1
    let column : Column := ⟨"INVOICE", "status"⟩
    let asked (op : RuleOp) (v : Json) := (Compile.rule env (Compile.within env 0)
      (Compile.Frame.base invoice) ⟨"status", op, v, none⟩).result
    (status.isSingle = true ∧ status.multilingual = false ∧
      (Json.str "open").isSimple = true ∧ status.type.check (.str "open") = none) ∧
    (call.program s system).Runs t (.ok ()) ∧
    (∃ columns, ("status", .str "o") ∈ columns ∧ Session.SetsFirst columns (Exchange.writes t)) ∧
    asked .equals (.str "open") = .ok (some (.compare (.column column) .eq (.value (.str "o")))) ∧
    ∃ items, .value (.str "o") ∈ items ∧
      asked .in (.arr [.str "CLOSED", .str "open"]) =
        .ok (some (.oneOf (.column column) items false)) := by
  intro status invoice catalog env s system input call answer t column asked
  have hcheck : status.type.check (.str "open") = none := by decide +kernel
  have hoption : (ListOption.idOf [⟨"o", "Open"⟩, ⟨"c", "Closed"⟩] "open").getD "open" = "o" := by
    decide +kernel
  have hkept : columnValue status (.str "open") = .str "o" := congrArg Json.str hoption
  obtain ⟨-, hsaved, hasked⟩ := saved_values_found status (.str "open") rfl rfl rfl hcheck
  have hrun : (call.program s system).Runs t (.ok ()) := by
    apply Program.Runs.of_transcript
    dsimp only [s, system, status, invoice, catalog, input, call, answer]
    rfl
  obtain ⟨columns, hmem, hsets⟩ := hsaved s system call "invoice" (.obj input) true t (.ok ()) rfl
    hrun catalog invoice input rfl rfl rfl List.mem_cons_self (.inl rfl)
  obtain ⟨hequals, hlist⟩ := hasked env (Compile.within env 0) (Compile.Frame.base invoice) "status"
    none column (by decide) (.field rfl)
  obtain ⟨items, hitems, hin⟩ := (hlist [.str "CLOSED", .str "open"] (by simp)).1 nofun
  rw [hkept] at hmem hitems hequals
  exact ⟨⟨rfl, rfl, rfl, hcheck⟩, hrun, ⟨columns, hmem, hsets⟩, hequals, items, hitems,
    hin .in (by decide)⟩

/-- An invoice that is saved as paid is not found among the paid ones: its flag is kept as one, and
the rule asks for zero. -/
theorem saved_flags_not_found :
    let paid := Field.new "p" "paid" .boolean
    let invoice := Entity.new "invoice" "Invoice" "INVOICE" [paid]
    let catalog : Catalog := ⟨[invoice], [], []⟩
    let env : Compile.Env := ⟨{}, catalog, LinkMap.ofCatalog {} catalog, "en", []⟩
    let sql (c : Condition) := (Compile.condition env (Compile.Frame.base invoice) c).result.toOption.map
      (Option.map fun p => p.sql.toText)
    paid.type.check (.bool true) = none ∧
      accept catalog ⟨"invoice", []⟩ paid (.bool true) = .ok (.column "paid" (Json.ofInt 1)) ∧
      sql (.ofRule "paid" .equals (.bool true)) = some (some "`INVOICE`.`paid` = 1") ∧
      sql (.ofRule "paid" .in (.arr [.bool true])) = some (some "`INVOICE`.`paid` IN (0)") ∧
      sql (.ofRule "paid" .equals (.arr [.bool true])) = some (some "`INVOICE`.`paid` = 0") := by
  intro paid invoice catalog env sql
  refine ⟨rfl, rfl, ?_, ?_, ?_⟩ <;> decide +kernel

end Write

end CatalogQuery
