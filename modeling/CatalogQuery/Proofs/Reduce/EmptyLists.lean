import CatalogQuery.Proofs.Compile.Connections
import CatalogQuery.Proofs.Session.ReadOnly
import CatalogQuery.Reduce.Tree

/-!
# Rules on empty lists

A rule that asks for one of no values is true of no row, and its negative of every row. Main
statement: they are compiled to predicates that say so, unless the key stands for a flag, or the
negative for a column of JSON arrays; a placeholder whose last read found nothing becomes such a
rule; and an "or" that holds a negative is true of every row, so that any tree says the same with
"true" in its place.
-/

namespace CatalogQuery

open Sql

/-- Whether two trees are the same but for one node, which is `old` in the first and `new` in the
second. -/
inductive Condition.Replaced (old new : Condition) : Condition → Condition → Prop
  | here : Replaced old new old new
  | inside {g : Glue} {c c' : Condition} (before after : List Condition) (h : Replaced old new c c') :
    Replaced old new (.group g (before ++ c :: after)) (.group g (before ++ c' :: after))

/-- Whether a field holds a flag, which is compared with one value only. -/
def Field.isFlag (f : Field) : Bool :=
  match f.type with
  | .boolean => true
  | _ => false

namespace Compile

/-! ## One node of a tree -/

/-- How true of a row what a condition compiles to is; none when it restricts nothing. -/
def truthOf (D : Dialect) (T : Tables) (scene : Scene) (x : Option Predicate) : Option Truth :=
  x.map (·.truth D T scene)

section

variable {rule : Rule → Traced (Option Predicate)} {D : Dialect} {T : Tables}

theorem trees_cons {c : Condition} {rest : List Condition} {parts : List Predicate} :
    (trees rule (c :: rest)).result = .ok parts ↔
      ∃ x ps, (tree rule c).result = .ok x ∧ (trees rule rest).result = .ok ps ∧
        parts = x.toList ++ ps := by
  rw [trees, Traced.result_bind_ok]
  simp only [Traced.result_bind_ok]
  constructor
  · rintro ⟨x, hx, ps, hps, hparts⟩
    exact ⟨x, ps, hx, hps, (Except.ok.inj hparts).symm⟩
  · rintro ⟨x, ps, hx, hps, rfl⟩
    exact ⟨x, hx, ps, hps, rfl⟩

/-- What a node is compiled to stands between what those before and after it are compiled to. -/
theorem trees_around {before after : List Condition} {c : Condition} {parts : List Predicate} :
    (trees rule (before ++ c :: after)).result = .ok parts ↔
      ∃ bs x as, (trees rule before).result = .ok bs ∧ (tree rule c).result = .ok x ∧
        (trees rule after).result = .ok as ∧ parts = bs ++ (x.toList ++ as) := by
  induction before generalizing parts with
  | nil =>
    rw [List.nil_append, trees_cons]
    constructor
    · rintro ⟨x, as, hx, has, rfl⟩
      exact ⟨[], x, as, rfl, hx, has, rfl⟩
    · rintro ⟨bs, x, as, hbs, hx, has, rfl⟩
      cases Except.ok.inj hbs
      exact ⟨x, as, hx, has, rfl⟩
  | cons b before ih =>
    rw [List.cons_append, trees_cons]
    simp only [trees_cons, ih]
    constructor
    · rintro ⟨y, _, hy, ⟨bs, x, as, hbs, hx, has, rfl⟩, rfl⟩
      exact ⟨_, x, as, ⟨y, bs, hy, hbs, rfl⟩, hx, has, (List.append_assoc ..).symm⟩
    · rintro ⟨_, x, as, ⟨y, bs, hy, hbs, rfl⟩, hx, has, rfl⟩
      exact ⟨y, _, hy, ⟨bs, x, as, hbs, hx, has, rfl⟩, List.append_assoc ..⟩

theorem truth_glue_around {g : Glue} {bs as : List Predicate} {x y : Option Predicate} {scene : Scene}
    (h : truthOf D T scene x = truthOf D T scene y) :
    truthOf D T scene (Predicate.glue g (bs ++ (x.toList ++ as))) =
      truthOf D T scene (Predicate.glue g (bs ++ (y.toList ++ as))) := by
  rw [truthOf, truthOf, truth_glue, truth_glue]
  cases x <;> cases y
  · rfl
  · cases h
  · cases h
  · have htruth := Option.some.inj h
    simp only [Option.toList_some, List.map_append, List.map_cons, htruth]
    simp

/-- A tree is as true as it is with another node in place of one that is as true. -/
theorem exists_tree_of_replaced {old new c c' : Condition} (h : Condition.Replaced old new c c')
    (hnew : ∀ x, (tree rule old).result = .ok x → ∃ x', (tree rule new).result = .ok x' ∧
      ∀ scene, truthOf D T scene x = truthOf D T scene x')
    {x : Option Predicate} (hx : (tree rule c).result = .ok x) :
    ∃ x', (tree rule c').result = .ok x' ∧ ∀ scene, truthOf D T scene x = truthOf D T scene x' := by
  induction h generalizing x with
  | here => exact hnew x hx
  | inside before after h ih =>
    rw [tree, Traced.result_bind_ok] at hx
    obtain ⟨parts, hparts, hglue⟩ := hx
    cases hglue
    obtain ⟨bs, y, as, hbs, hy, has, rfl⟩ := trees_around.1 hparts
    obtain ⟨y', hy', htruth⟩ := ih hy
    refine ⟨_, ?_, fun scene => truth_glue_around (htruth scene)⟩
    rw [tree, Traced.result_bind_ok]
    exact ⟨_, trees_around.2 ⟨bs, y', as, hbs, hy', has, rfl⟩, rfl⟩

/-- An "or" is true where one of its nodes is. -/
theorem truthOf_or {nodes : List Condition} {node : Condition} {p : Predicate} {scene : Scene}
    (hmem : node ∈ nodes) (hp : (tree rule node).result = .ok (some p))
    (htrue : p.truth D T scene = some true) {x : Option Predicate}
    (hx : (tree rule (.group .or nodes)).result = .ok x) : truthOf D T scene x = some (some true) := by
  obtain ⟨before, after, rfl⟩ := List.append_of_mem hmem
  rw [tree, Traced.result_bind_ok] at hx
  obtain ⟨parts, hparts, hglue⟩ := hx
  cases hglue
  obtain ⟨bs, y, as, -, hy, -, rfl⟩ := trees_around.1 hparts
  cases hp.symm.trans hy
  have hpart : p ∈ bs ++ ((some p).toList ++ as) := by simp
  rw [truthOf, truth_glue, List.isEmpty_eq_false_iff.2 (List.ne_nil_of_mem hpart), if_neg (by simp)]
  refine congrArg some (Truth.any_eq_true.2 ?_)
  exact htrue ▸ List.mem_map_of_mem hpart

end

/-! ## Membership in no values -/

/-- Whether a subject is a flag. -/
def Subject.isFlag : Subject → Bool
  | .column _ => false
  | .field _ _ f => f.isFlag

/-- Whether a subject is a column of JSON arrays. -/
def Subject.isArray : Subject → Bool
  | .column _ => false
  | .field _ _ f => f.isMultiValued

/-- Whether a subject can be compared: a connection has an object, and what is computed can be. -/
def Subject.Reached (env : Env) (inner : Inner) (frame : Frame) : Subject → Prop
  | .column _ => True
  | .field e table f =>
    (f.isConnection = true → ∃ l target, (link env e f.id).result = .ok l ∧
      env.catalog.entity l.target = .ok target) ∧
    (f.isVirtual = true → ∃ expr, (fieldExpr env inner frame e table f).result = .ok expr)

section

variable {env : Env} {inner : Inner} {frame : Frame} {key : String} {joined : Option String}
  {op : RuleOp} {s : Subject} {e : Entity} {table : String} {f : Field}

theorem connectionRule_nil (hop : op = .in ∨ op = .notIn) {l : Link} {target : Entity}
    (hl : (link env e f.id).result = .ok l) (htarget : env.catalog.entity l.target = .ok target) :
    ∃ p, (connectionRule env inner frame e table f ⟨key, op, .arr [], joined⟩).result = .ok (some p) ∧
      ∀ D T scene, p.truth D T scene = some op.isNegative := by
  have hkeys : op ∈ keyOperators := by rcases hop with rfl | rfl <;> decide
  cases hown : l.isOwn with
  | true =>
    obtain ⟨foreign, linked, hheld⟩ := Link.exists_of_isOwn hown
    exact ⟨_, connectionRule_of_own hl htarget hheld hkeys, fun D T scene => rfl⟩
  | false =>
    refine ⟨_, connectionRule_of_not_own hl htarget hown hkeys, fun D T scene => ?_⟩
    -- No linked row has one of no keys, so that none is found whichever rows are linked.
    have hfilter (q : Column) (inner : Scene) :
        filterHolds D T (some (.among (.column q) [] false)) inner = false := rfl
    have hnone : linkedKeys (.arr []) (l.keys.linkedColumn target) = [] := rfl
    rw [truth_related]
    simp only [hnone, List.map_nil, hfilter, Bool.and_false]
    rw [List.any_eq_false.2 (by simp), Bool.false_bne]

/-- A field that is a flag or holds arrays has a column for its values. -/
theorem isConnection_isVirtual (h : f.isFlag = true ∨ f.isMultiValued = true) :
    f.isConnection = false ∧ f.isVirtual = false := by
  rw [Field.isFlag, Field.isMultiValued] at h
  rw [Field.isConnection, Field.connection?, Field.isVirtual]
  cases hf : f.type <;> rw [hf] at h <;> simp at h ⊢

theorem isFlag_of_isMultiValued (h : f.isMultiValued = true) : f.isFlag = false := by
  rw [Field.isMultiValued] at h
  rw [Field.isFlag]
  cases hf : f.type with
  | list | user => rfl
  | _ => simp [hf] at h

theorem stored_nil (h : f.isFlag = false) : stored f (.arr []) = .arr [] := by
  rw [Field.isFlag] at h
  rw [stored]
  cases hf : f.type with
  | boolean =>
    rw [hf] at h
    cases h
  | _ => rfl

theorem stored_nil_of_isFlag (h : f.isFlag = true) : stored f (.arr []) = Json.ofInt 0 := by
  rw [Field.isFlag] at h
  rw [stored]
  cases hf : f.type with
  | boolean => rfl
  | _ =>
    rw [hf] at h
    cases h

theorem scalarRule_nil (hop : op = .in ∨ op = .notIn) (expr : Expr) (byDay : Bool) :
    scalarRule op expr (.arr []) byDay = .ok (some (.constant op.isNegative)) := by
  rcases hop with rfl | rfl <;> rfl

/-- A rule on a field that is no connection is one on its expression. -/
theorem rule_of_plain_field (hkey : key ≠ Rule.constantKey)
    (hs : subject frame key joined = .ok (.field e table f)) (hconnection : f.isConnection = false)
    (hreached : (Subject.field e table f).Reached env inner frame) (v : Json) :
    ∃ expr byDay, (byDay = true → f.type = .date) ∧ ∀ op : RuleOp, op.isPlaceholder = false →
      (rule env inner frame ⟨key, op, v, joined⟩).result =
        if f.isMultiValued then arrayRule op expr (stored f v)
        else scalarRule op expr (stored f v) byDay := by
  obtain ⟨expr, hexpr⟩ : ∃ expr, (fieldExpr env inner frame e table f).result = .ok expr := by
    cases hvirtual : f.isVirtual with
    | true => exact hreached.2 hvirtual
    | false =>
      obtain ⟨expr, hexpr⟩ := fieldExpr_of_not_isVirtual hvirtual env inner frame e table
      exact ⟨expr, by rw [hexpr]; rfl⟩
  refine ⟨expr, ?byDay, ?day, fun op hop => ?rule⟩
  case rule =>
    rw [rule_of_field hop hkey hs, if_neg (by simp [hconnection]), fieldRule]
    cases hfield : fieldExpr env inner frame e table f with
    | mk events result =>
      rw [hfield] at hexpr
      cases hexpr
      rfl
  case day => cases f.type <;> simp

theorem isPlaceholder_of_membership (hop : op = .in ∨ op = .notIn) : op.isPlaceholder = false := by
  rcases hop with rfl | rfl <;> rfl

/-- A rule on no values is decided, but for a flag and, if negative, for a column of JSON arrays. -/
theorem exists_rule_nil (hop : op = .in ∨ op = .notIn) (hkey : key ≠ Rule.constantKey)
    (hs : subject frame key joined = .ok s) (hreached : s.Reached env inner frame)
    (hflag : s.isFlag = false) (harray : s.isArray = true → op = .in) :
    ∃ p, (rule env inner frame ⟨key, op, .arr [], joined⟩).result = .ok (some p) ∧
      ∀ D T scene, p.truth D T scene = some op.isNegative := by
  have hplaceholder := isPlaceholder_of_membership hop
  cases s with
  | column c =>
    exact ⟨_, (rule_of_column hplaceholder hkey hs).trans (scalarRule_nil hop _ false),
      fun D T scene => rfl⟩
  | field e table f =>
    cases hconnection : f.isConnection with
    | true =>
      obtain ⟨l, target, hl, htarget⟩ := hreached.1 hconnection
      obtain ⟨p, hp, htruth⟩ := connectionRule_nil hop hl htarget
      exact ⟨p, (rule_of_field hplaceholder hkey hs).trans (by rw [if_pos hconnection, hp]), htruth⟩
    | false =>
      obtain ⟨expr, byDay, -, hrule⟩ := rule_of_plain_field hkey hs hconnection hreached (.arr [])
      rw [hrule op hplaceholder, stored_nil hflag]
      cases hmulti : f.isMultiValued with
      | false => exact ⟨_, scalarRule_nil hop expr byDay, fun D T scene => rfl⟩
      | true =>
        cases harray hmulti
        exact ⟨_, rfl, fun D T scene => rfl⟩

theorem reached_of_column (h : f.isConnection = false ∧ f.isVirtual = false) :
    (Subject.field e table f).Reached env inner frame :=
  ⟨fun hc => absurd (h.1.symm.trans hc) (by simp), fun hv => absurd (h.2.symm.trans hv) (by simp)⟩

/-- On a column of JSON arrays the negative rule restricts nothing. -/
theorem rule_nil_of_isArray (hkey : key ≠ Rule.constantKey)
    (hs : subject frame key joined = .ok s) (harray : s.isArray = true) :
    (rule env inner frame ⟨key, .notIn, .arr [], joined⟩).result = .ok none := by
  cases s with
  | column c => cases harray
  | field e table f =>
    have hmulti : f.isMultiValued = true := harray
    have hcolumn := isConnection_isVirtual (.inr hmulti)
    have hreached : (Subject.field e table f).Reached env inner frame := reached_of_column hcolumn
    obtain ⟨expr, byDay, -, hrule⟩ := rule_of_plain_field hkey hs hcolumn.1 hreached (.arr [])
    rw [hrule .notIn rfl, if_pos hmulti, stored_nil (isFlag_of_isMultiValued hmulti)]
    rfl

/-- A flag is compared with zero. -/
theorem rule_nil_of_isFlag (hkey : key ≠ Rule.constantKey)
    (hs : subject frame key joined = .ok s) (hflag : s.isFlag = true) :
    ∃ expr, ∀ op, op = .in ∨ op = .notIn →
      (rule env inner frame ⟨key, op, .arr [], joined⟩).result =
        .ok (some (.oneOf expr [.value (Json.ofInt 0)] op.isNegative)) := by
  cases s with
  | column c => cases hflag
  | field e table f =>
    have hf : f.isFlag = true := hflag
    have hmulti : f.isMultiValued = false := by
      cases hmulti : f.isMultiValued with
      | false => rfl
      | true => exact absurd (hf.symm.trans (isFlag_of_isMultiValued hmulti)) (by simp)
    have hcolumn := isConnection_isVirtual (.inl hf)
    have hreached : (Subject.field e table f).Reached env inner frame := reached_of_column hcolumn
    obtain ⟨expr, byDay, hbyDay, hrule⟩ := rule_of_plain_field hkey hs hcolumn.1 hreached (.arr [])
    have hday : byDay = false := by
      cases byDay with
      | false => rfl
      | true => simp [Field.isFlag, hbyDay rfl] at hf
    refine ⟨expr, fun op hop => ?_⟩
    rw [hrule op (isPlaceholder_of_membership hop), hmulti, if_neg (by simp), stored_nil_of_isFlag hf, hday]
    rcases hop with rfl | rfl <;> rfl

end

end Compile

/-! ## Reads that find nothing -/

/-- Whether the last request of a run was a read that was answered with those rows. -/
def Exchange.LastRead (t : List Exchange) (rows : List Row) : Prop :=
  ∃ channel select, t.getLast? = some ⟨.fetch channel select, .ok rows⟩

namespace Exchange.LastRead

variable {t u : List Exchange} {rows rows' : List Row}

theorem not_quiet (h : LastRead t rows) : ¬Exchange.Quiet t := by
  obtain ⟨channel, select, hlast⟩ := h
  exact fun hquiet => hquiet _ (List.mem_of_getLast? hlast)

theorem eq_of_append (h : LastRead u rows) (h' : LastRead (t ++ u) rows') : rows = rows' := by
  obtain ⟨channel, select, hlast⟩ := h
  obtain ⟨channel', select', hlast'⟩ := h'
  rw [List.getLast?_append, hlast, Option.some_or] at hlast'
  cases hlast'
  rfl

theorem of_fetch {channel : Channel} {select : Select} {retries : Nat}
    (h : (Program.fetch channel select retries).Runs t (.ok rows)) : LastRead t rows := by
  obtain ⟨answer, ⟨failures, -, -, rfl⟩, hresult⟩ := Program.Runs.fetch h
  cases answer with
  | error failure => cases hresult
  | ok found =>
    cases hresult
    exact ⟨channel, select, List.getLast?_concat⟩

theorem append (h : LastRead u rows) (t : List Exchange) : LastRead (t ++ u) rows := by
  obtain ⟨channel, select, hlast⟩ := h
  exact ⟨channel, select, by rw [List.getLast?_append, hlast, Option.some_or]⟩

end Exchange.LastRead

namespace Reduce

open Compile

variable {ctx : Context} {expand : Expand} {e : Entity} {r : Rule} {t : List Exchange}
  {rows : List Row} {node : Condition}

/-- The operator of a list of keys that takes the place of a placeholder. -/
def listOp (op : RuleOp) : RuleOp := if op.isNegative then .notIn else .in

/-- The keys that a chain comes to are those that it read last. -/
theorem lastRead_walk {s : Session} {env : Links → Env} {startKey username : String}
    {steps : List (Option Hop × Hop)} {keys keys' : List Json}
    (h : (walk s env startKey username steps keys).Runs t (.ok keys')) (hsteps : steps ≠ []) :
    ∃ rows, Exchange.LastRead t rows ∧ keys' = firstColumn rows := by
  induction steps generalizing t keys with
  | nil => exact absurd rfl hsteps
  | cons step rest ih =>
    rw [walk, Program.Runs.bind_ok] at h
    obtain ⟨t₁, t₂, select, rfl, -, h⟩ := h
    obtain ⟨t₃, t₄, rows, rfl, hfetch, h⟩ := Program.Runs.bind_ok.1 h
    have hread := Exchange.LastRead.of_fetch hfetch
    dsimp only at h
    split at h
    · obtain ⟨rfl, hkeys⟩ := h
      rw [List.append_nil]
      exact ⟨rows, hread.append t₁, Except.ok.inj hkeys⟩
    · cases rest with
      | nil =>
        obtain ⟨rfl, hkeys⟩ := h
        rw [List.append_nil]
        exact ⟨rows, hread.append t₁, Except.ok.inj hkeys⟩
      | cons next rest =>
        obtain ⟨rows', hlast, hkeys⟩ := ih h (by simp)
        exact ⟨rows', (hlast.append t₃).append t₁, hkeys⟩

/-- Whether a key is that of a rule, or what the link that it leads along is known by. -/
def KeyFor (e : Entity) (r : Rule) (key : String) : Prop :=
  key = r.key ∨ ∃ (links : Links) (m : LinkMap) (f : Field) (l : Link), links e.id = .ok m ∧
    e.field r.key = some f ∧ f.isConnection = true ∧ m.get f.id = some l ∧ key = l.keys.baseColumn

theorem keyFor_membershipSelect {env : Env} {stored : StoredSource} {reduced : Condition}
    {column : Option String} {select : Select} {key : String}
    (h : (membershipSelect env e r stored reduced column).result = .ok (select, key)) :
    KeyFor e r key := by
  rw [membershipSelect, Traced.result_bind_ok] at h
  obtain ⟨target, -, h⟩ := h
  obtain ⟨⟨source, filter⟩, -, h⟩ := Traced.result_bind_ok.1 h
  dsimp only at h
  split at h
  · cases h
    exact .inl rfl
  · cases h
    exact .inl rfl
  · obtain ⟨m, hm, h⟩ := Traced.result_bind_ok.1 h
    split at h
    · cases h
      exact .inl rfl
    · rename_i l hlink
      cases h
      refine .inr ⟨env.links, m, ?_⟩
      rw [linkTo] at hlink
      split at hlink
      · cases hlink
      · rename_i f hf
        split at hlink
        · rename_i hconnection
          obtain ⟨hget, -⟩ := Option.filter_eq_some_iff.1 hlink
          exact ⟨f, l, hm, hf, hconnection, hget, Link.baseKeys_base ..⟩
        · cases hlink

theorem exists_of_membership {stored : StoredSource} {column : Option String}
    (h : (membership ctx expand e r stored column).Runs t (.ok node)) :
    ∃ rows key, Exchange.LastRead t rows ∧ KeyFor e r key ∧
      node = .ofRule key (listOp r.op) (.arr (firstColumn rows)) r.joined := by
  rw [membership, Program.Runs.bind_ok] at h
  obtain ⟨t₁, _, reduced, rfl, -, h⟩ := h
  obtain ⟨t₂, _, ⟨select, key⟩, rfl, hselect, h⟩ := Program.Runs.bind_ok.1 h
  obtain ⟨t₃, _, rows, rfl, hfetch, rfl, hnode⟩ := Program.Runs.bind_ok.1 h
  obtain ⟨links, -, hresult⟩ := Program.Runs.withLinks_iff.1 hselect
  refine ⟨rows, key, ?_, keyFor_membershipSelect hresult.symm, Except.ok.inj hnode⟩
  rw [List.append_nil]
  exact ((Exchange.LastRead.of_fetch hfetch).append t₂).append t₁

theorem exists_of_sameAsCaller (hop : r.op = .sameAsUser ∨ r.op = .notSameAsUser)
    (h : (sameAsCaller ctx e r).Runs t (.ok node)) (hlast : Exchange.LastRead t rows) :
    node = .ofRule r.key (listOp r.op) (.arr (firstColumn rows)) r.joined := by
  rw [sameAsCaller, Program.Runs.bind_ok] at h
  obtain ⟨t₁, t₂, found, rfl, hfound, h⟩ := h
  have hquiet : Exchange.Quiet t₁ := Program.Silent.withLinks.quiet hfound
  cases found with
  | settled c =>
    obtain ⟨rfl, -⟩ := h
    rw [List.append_nil] at hlast
    exact absurd hquiet hlast.not_quiet
  | chain path startKey =>
    obtain ⟨t₃, _, keys, rfl, hwalk, rfl, hnode⟩ := Program.Runs.bind_ok.1 h
    rw [List.append_nil] at hlast
    by_cases hsteps : backwards path = []
    · rw [hsteps] at hwalk
      obtain ⟨rfl, -⟩ := hwalk
      rw [List.append_nil] at hlast
      exact absurd hquiet hlast.not_quiet
    · obtain ⟨rows', hread, rfl⟩ := lastRead_walk hwalk hsteps
      cases hread.eq_of_append hlast
      refine (Except.ok.inj hnode).trans ?_
      rcases hop with hop | hop <;> rw [hop] <;> rfl

/-- A placeholder whose last request was a read becomes a rule on the keys that were read. -/
theorem exists_of_placeholder (h : (placeholder ctx expand e r).Runs t (.ok node))
    (hlast : Exchange.LastRead t rows) :
    ∃ key, KeyFor e r key ∧ node = .ofRule key (listOp r.op) (.arr (firstColumn rows)) r.joined := by
  have hstored {α : Type} {f : Links → Traced α} (stored : α → StoredSource)
      (column : α → Option String)
      (h : (Program.withLinks f >>= fun a => membership ctx expand e r (stored a) (column a)).Runs t
        (.ok node)) :
      ∃ key, KeyFor e r key ∧ node = .ofRule key (listOp r.op) (.arr (firstColumn rows)) r.joined := by
    obtain ⟨t₁, t₂, a, rfl, -, h⟩ := Program.Runs.bind_ok.1 h
    obtain ⟨rows', key, hread, hkey, hnode⟩ := exists_of_membership h
    cases hread.eq_of_append hlast
    exact ⟨key, hkey, hnode⟩
  rw [placeholder] at h
  split at h
  · exact hstored id (fun _ => none) h
  · exact hstored id (fun _ => none) h
  · exact hstored Prod.fst (fun a => some a.2) h
  · exact hstored Prod.fst (fun a => some a.2) h
  · exact hstored id (fun _ => none) h
  · exact hstored id (fun _ => none) h
  · exact absurd (Program.Silent.withLinks.quiet h) hlast.not_quiet
  · exact absurd (Program.Silent.withLinks.quiet h) hlast.not_quiet
  · rename_i hop
    exact ⟨r.key, .inl rfl, exists_of_sameAsCaller (.inl hop) h hlast⟩
  · rename_i hop
    exact ⟨r.key, .inl rfl, exists_of_sameAsCaller (.inr hop) h hlast⟩
  · cases (Program.Runs.ofResult_iff.1 h).2

/-! ## Lists of nothing -/

/-- A rule that asks for one of no values compiles to a predicate that is false of every row, and
its negative to one that is true of every row, so that an "or" that holds it is and any tree says
the same with "true" in its place. There are two exceptions: the negative restricts nothing on a
column of JSON arrays, and on a flag the rules ask for zero. A placeholder whose last request was a
read becomes such a rule if nothing was found. -/
theorem membership_of_nothing (D : Dialect) (T : Tables) (env : Env) (frame : Frame) (levels : Nat) :
    let compile (c : Condition) := (within env (levels + 1) frame c).result
    (∀ (key : String) (joined : Option String) (s : Subject), key ≠ Rule.constantKey →
      subject frame key joined = .ok s → s.Reached env (within env levels) frame →
      let positive := Condition.ofRule key .in (.arr []) joined
      let negative := Condition.ofRule key .notIn (.arr []) joined
      (s.isFlag = false → ∃ p, compile positive = .ok (some p) ∧
        ∀ scene, p.truth D T scene = some false) ∧
      (s.isFlag = false → s.isArray = false →
        (∃ p, compile negative = .ok (some p) ∧ ∀ scene, p.truth D T scene = some true) ∧
        ∀ nodes, negative ∈ nodes →
          (∀ x, compile (.group .or nodes) = .ok x →
            ∃ p, x = some p ∧ ∀ scene, p.truth D T scene = some true) ∧
          ∀ c c', Condition.Replaced (.group .or nodes) (.constant true) c c' →
            ∀ x, compile c = .ok x → ∃ x', compile c' = .ok x' ∧
              ∀ scene, truthOf D T scene x = truthOf D T scene x') ∧
      (s.isArray = true → compile negative = .ok none) ∧
      (s.isFlag = true → ∃ expr,
        compile positive = .ok (some (.oneOf expr [.value (Json.ofInt 0)] false)) ∧
        compile negative = .ok (some (.oneOf expr [.value (Json.ofInt 0)] true)))) ∧
    ∀ ctx expand e r t rows node, (placeholder ctx expand e r).Runs t (.ok node) →
      Exchange.LastRead t rows → firstColumn rows = [] →
      ∃ key, KeyFor e r key ∧ node = .ofRule key (listOp r.op) (.arr []) r.joined := by
  intro compile
  refine ⟨fun key joined s hkey hs hreached => ?_, fun ctx expand e r t rows node hrun hlast hnone =>
    hnone ▸ exists_of_placeholder hrun hlast⟩
  have hrule (op : RuleOp) : compile (.ofRule key op (.arr []) joined) =
      (rule env (within env levels) frame ⟨key, op, .arr [], joined⟩).result := by
    show (tree _ (.rule _)).result = _
    rw [tree]
  intro positive negative
  refine ⟨fun hflag => ?_, fun hflag harray => ?_, fun harray => ?_, fun hflag => ?_⟩
  · obtain ⟨p, hp, htruth⟩ := exists_rule_nil (.inl rfl) hkey hs hreached hflag fun _ => rfl
    exact ⟨p, (hrule .in).trans hp, htruth D T⟩
  · obtain ⟨p, hp, htruth⟩ := exists_rule_nil (.inr rfl) hkey hs hreached hflag
      fun h => absurd (harray.symm.trans h) (by simp)
    have hnegative := (hrule .notIn).trans hp
    -- A group of "or" is true with one node that is, so it may be replaced by "true".
    refine ⟨⟨p, hnegative, htruth D T⟩, fun nodes hmem => ?_⟩
    have hor {x : Option Predicate} (hx : compile (.group .or nodes) = .ok x) (scene : Scene) :
        truthOf D T scene x = some (some true) :=
      truthOf_or hmem hnegative (htruth D T scene) hx
    refine ⟨fun x hx => ?_, fun c c' hc x hx => exists_tree_of_replaced hc (fun y hy => ?_) hx⟩
    · cases x with
      | none => cases hor hx Scene.empty
      | some q => exact ⟨q, rfl, fun scene => Option.some.inj (hor hx scene)⟩
    · exact ⟨some (.constant true), rfl, fun scene => hor hy scene⟩
  · exact (hrule .notIn).trans (rule_nil_of_isArray hkey hs harray)
  · obtain ⟨expr, hexpr⟩ := rule_nil_of_isFlag hkey hs hflag
    exact ⟨expr, (hrule .in).trans (hexpr .in (.inl rfl)), (hrule .notIn).trans (hexpr .notIn (.inr rfl))⟩

/-- The query finds no customers, so that every invoice is of none of them. -/
theorem membership_of_nothing_customer :
    let n := Field.new "n" "number" .text
    let c := Field.new "c" "customer" (.connection (.between "customer" .one .many))
    let invoice := Entity.new "invoice" "Invoice" "INVOICE" [n, c]
    let customer := Entity.new "customer" "Customer" "CUSTOMER" []
    let catalog : Catalog := ⟨[invoice, customer], [⟨"q", "All", "customer", .empty, []⟩], []⟩
    let links := LinkMap.ofCatalog {} catalog
    let ctx : Context := ⟨⟨{}, {}, .tenant⟩, catalog, ⟨none, "en", true⟩, .everything⟩
    let select := Select.plain true [.expr (.column ⟨"CUSTOMER", "uuid"⟩)] ⟨"CUSTOMER", none, []⟩ none
    let t : List Exchange := [⟨.links, links⟩, ⟨.links, links⟩, ⟨.consult "invoice", ()⟩,
      ⟨.fetch .tenant select, .ok []⟩]
    let negative : Condition := .ofRule "customer" .notIn (.arr [])
    let named : Condition := .ofRule "number" .equals (.str "x")
    let known : Condition := .ofRule "number" .isNotNull .null
    let compile (c : Condition) := (within (ctx.env links) 1 (Frame.base invoice) c).result
    (placeholder ctx (fun stored => pure stored.condition) invoice
      ⟨"customer", .notInQuery, .str "q", none⟩).Runs t (.ok negative) ∧
    (∃ key, KeyFor invoice ⟨"customer", .notInQuery, .str "q", none⟩ key ∧
      negative = .ofRule key .notIn (.arr [])) ∧
    ∃ x x', compile (.group .and [known, .group .or [named, negative]]) = .ok (some x) ∧
      compile (.group .and [known, .constant true]) = .ok x' ∧
      ∀ scene, truthOf .mute (Tables.ofCells []) scene (some x) =
        truthOf .mute (Tables.ofCells []) scene x' := by
  intro n c invoice customer catalog links ctx select t negative named known compile
  obtain ⟨hrules, hplaceholders⟩ :=
    membership_of_nothing .mute (Tables.ofCells []) (ctx.env links) (Frame.base invoice) 0
  have hrun : (placeholder ctx (fun stored => pure stored.condition) invoice
      ⟨"customer", .notInQuery, .str "q", none⟩).Runs t (.ok negative) := by
    dsimp only [t, n, c, invoice, customer, catalog, links, ctx, select, negative]
    exact ⟨_, _, rfl, _, _, rfl, _, _, rfl, _, _, rfl, rfl, rfl⟩
  have hlink : (link (ctx.env links) invoice "c").result = .ok ⟨"c", "customer",
      "customer__relation", .oneToMany, "customer", "CUSTOMER", false, .own "customer" "uuid"⟩ := by
    dsimp only [n, c, invoice, customer, catalog, links, ctx]
    rfl
  have hreached : (Subject.field invoice "INVOICE" c).Reached (ctx.env links)
      (within (ctx.env links) 0) (Frame.base invoice) :=
    ⟨fun _ => ⟨_, customer, hlink, rfl⟩, fun h => absurd h (by decide)⟩
  have hcompiled : ∃ x, compile (.group .and [known, .group .or [named, negative]]) = .ok (some x) := by
    dsimp only [compile, known, named, negative, n, c, invoice, customer, catalog, links, ctx]
    exact ⟨_, rfl⟩
  obtain ⟨x, hx⟩ := hcompiled
  have hnegative := (hrules "customer" none _ (by decide) rfl hreached).2.1 rfl rfl
  obtain ⟨x', hx', htruth⟩ := (hnegative.2 [named, negative] (by simp [negative])).2 _ _
    (.inside [known] [] .here) _ hx
  exact ⟨hrun, hplaceholders ctx _ _ _ _ _ _ hrun ⟨_, _, rfl⟩ rfl, x, x', hx, hx', htruth⟩

/-- Of no tags there is nothing to say, and no flag is one of no flags unless it is zero. -/
theorem membership_of_nothing_fails :
    let n := Field.new "n" "number" .text
    let tags := Field.new "g" "tags" (.list [] true)
    let paid := Field.new "p" "paid" .boolean
    let invoice := Entity.new "invoice" "Invoice" "INVOICE" [n, tags, paid]
    let env : Env := ⟨{}, ⟨[invoice], [], []⟩, LinkMap.ofCatalog {} ⟨[invoice], [], []⟩, "en", []⟩
    let row := [("uuid", "i1"), ("number", "y"), ("paid", "0")]
    let result (tree : Condition) := (condition env (Frame.base invoice) tree).result
    let outcome (tree : Condition) : Option Truth := (result tree).toOption.bind
      (truthOf .mute (Tables.ofCells []) (Scene.empty.add "INVOICE" (row.lookup ·)))
    let noneOf (key : String) : Condition := .ofRule key .notIn (.arr [])
    result (noneOf "tags") = .ok none ∧
      outcome (.group .or [noneOf "tags", .ofRule "number" .equals (.str "x")]) = some (some false) ∧
      outcome (.ofRule "paid" .in (.arr [])) = some (some true) ∧
      outcome (noneOf "paid") = some (some false) := by
  intro n tags paid invoice env row result outcome noneOf
  refine ⟨rfl, ?_, ?_, ?_⟩ <;> decide +kernel

end Reduce

end CatalogQuery
