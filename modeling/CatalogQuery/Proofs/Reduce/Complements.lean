import CatalogQuery.Proofs.Reduce.Membership
import Mathlib.Logic.Basic

/-!
# Rules and their negatives

A rule on a connection that names keys and the rule that says the opposite. Main statement: a row
passes exactly one of the two wherever the link is held, unless it is held by the row itself and
something is null; and which one it passes depends on the rows that it is linked to, unless it holds
the key of a row that does not exist.
-/

namespace CatalogQuery

open Sql

/-- Exactly one of a test and its negative is true if the outcome is not unknown. -/
theorem Sql.Truth.xor_negated {t : Truth} :
    Xor (Truth.negated false t = some true) (Truth.negated true t = some true) ↔ t ≠ none := by
  cases t with
  | none => simp [Truth.negated, Truth.not]
  | some b => cases b <;> simp [Truth.negated, Truth.not, xor_iff_iff_not]

namespace Link

variable {D : Dialect} {T : Tables} {l : Link} {target : Entity} {keys : List (Option String)}
  {r : Stored}

/-- What comes out where a row is asked for links to records with certain keys. -/
def keyTest (D : Dialect) (T : Tables) (l : Link) (target : Entity) (keys : List (Option String))
    (r : Stored) : Truth :=
  if l.isOwn then D.among (r l.keys.baseColumn) keys
  else some ((l.rows T r).any fun r' => D.among (r' (l.keys.linkedColumn target)) keys == some true)

/-- Whether a row holds the key of a linked row that does not exist. -/
def Dangles (l : Link) (T : Tables) (r : Stored) : Prop :=
  l.isOwn = true ∧ r l.keys.baseColumn ≠ none ∧ l.rows T r = []

theorem keyTest_ne_none : l.keyTest D T target keys r ≠ none ↔
    l.isOwn = false ∨ keys = [] ∨
      ∃ s, r l.keys.baseColumn = some s ∧ (some s ∈ keys ∨ none ∉ keys) := by
  rw [keyTest]
  cases l.isOwn with
  | false => simp
  | true => simp [Dialect.among_ne_none]

/-- The rows that a row leads to by a key of its own all have that key. -/
theorem exists_rows_of_own {foreign key : String} (hkeys : l.keys = .own foreign key)
    {φ : Option String → Prop} :
    (∃ r' ∈ l.rows T r, φ (r' key)) ↔ φ (r foreign) ∧ l.rows T r ≠ [] := by
  have hrow {r' : Stored} (h : r' ∈ l.rows T r) : r' key = r foreign := by
    rw [rows, hkeys] at h
    obtain ⟨s, hkey, hforeign⟩ := same_eq_true.1 (List.mem_filter.1 h).2
    rw [hkey, hforeign]
  constructor
  · rintro ⟨r', hr', hφ⟩
    exact ⟨hrow hr' ▸ hφ, List.ne_nil_of_mem hr'⟩
  · rintro ⟨hφ, hne⟩
    obtain ⟨r', hr'⟩ := List.exists_mem_of_ne_nil _ hne
    exact ⟨r', hr', (hrow hr').symm ▸ hφ⟩

/-- Unless the row holds the key of a row that does not exist, it passes if a row that it is linked to
has one of the keys. -/
theorem keyTest_eq_true (hdangles : ¬l.Dangles T r) : l.keyTest D T target keys r = some true ↔
    ∃ r' ∈ l.rows T r, ∃ s, r' (l.keys.linkedColumn target) = some s ∧ some s ∈ keys := by
  rw [keyTest]
  cases hown : l.isOwn with
  | false =>
    rw [if_neg (by simp), Option.some.injEq, List.any_eq_true]
    exact exists_congr fun r' => and_congr_right' (beq_iff_eq.trans Dialect.among_eq_true)
  | true =>
    rw [if_pos rfl, Dialect.among_eq_true]
    obtain ⟨foreign, key, hkeys⟩ := exists_of_isOwn hown
    rw [Dangles, hown, hkeys] at hdangles
    -- The own column and the linked one hold the same text, as far as there is a linked row.
    rw [hkeys, LinkKeys.linkedColumn, LinkKeys.baseColumn,
      exists_rows_of_own hkeys (φ := fun v => ∃ s, v = some s ∧ some s ∈ keys)]
    refine ⟨fun h => ⟨h, fun hnone => ?_⟩, And.left⟩
    obtain ⟨s, hs, -⟩ := h
    exact hdangles ⟨rfl, by simp [LinkKeys.baseColumn, hs], hnone⟩

end Link

namespace Compile

/-- The operators that name keys, each with its negative. -/
def complements : List (RuleOp × RuleOp) := [(.in, .notIn), (.equals, .notEqual)]

theorem complements_spec {ops : RuleOp × RuleOp} (h : ops ∈ complements) :
    (ops.1 ∈ keyOperators ∧ ops.1.isNegative = false) ∧
      ops.2 ∈ keyOperators ∧ ops.2.isNegative = true := by
  revert ops
  decide

end Compile

namespace Reduce

open Compile

section

variable {D : Dialect} {T : Tables} {env : Env} {e target : Entity} {key : String} {f : Field} {l : Link}

/-- A rule that names keys asks a row for links to records with these. Only where the link is held
elsewhere a subquery looks them up. -/
theorem exists_keyRule_of_apart (hconnects : Connects env e key f l target)
    (hbase : l.isOwn = false → (Frame.base e).Apart) {op : RuleOp} (hop : op ∈ keyOperators) (v : Json) :
    ∃ q, (condition env (Frame.base e) (.ofRule key op v)).result = .ok (some q) ∧
      ∀ scene : Scene, q.truth D T scene = Truth.negated op.isNegative (l.keyTest D T target
        ((linkedKeys v (l.keys.linkedColumn target)).map D.value) (scene e.table)) := by
  have hcompiled := hconnects.condition_ofRule (isPlaceholder_of_mem hop) v
  cases hown : l.isOwn with
  | false =>
    refine ⟨_, hcompiled.trans (connectionRule_of_not_own hconnects.link hconnects.target hown hop),
      fun scene => ?_⟩
    -- Inside the subquery the keys are asked of the linked row alone.
    have hfilter (inner : Scene) : filterHolds D T (some (.among
        (.column ⟨((Frame.base e).inner target "__r").table, l.keys.linkedColumn target⟩)
        ((linkedKeys v (l.keys.linkedColumn target)).map .value) false)) inner =
      (D.among (inner ((Frame.base e).inner target "__r").table (l.keys.linkedColumn target))
        ((linkedKeys v (l.keys.linkedColumn target)).map D.value) == some true) := by
      rw [filterHolds, truth_among, List.map_map]
      rfl
    rw [Link.keyTest, hown]
    obtain ⟨htable, hjunction⟩ := hbase hown "__r" (by decide)
    exact (Link.truth_related htable hjunction hfilter _ scene).trans (Truth.negated_some ..).symm
  | true =>
    obtain ⟨foreign, linked, hkeys⟩ := Link.exists_of_isOwn hown
    refine ⟨_, hcompiled.trans (connectionRule_of_own hconnects.link hconnects.target hkeys hop),
      fun scene => ?_⟩
    rw [truth_among, List.map_map, Link.keyTest, if_pos hown, hkeys]
    rfl

theorem exists_keyRule (hconnects : Connects env e key f l target) (hbase : (Frame.base e).Apart)
    {op : RuleOp} (hop : op ∈ keyOperators) (v : Json) :
    ∃ q, (condition env (Frame.base e) (.ofRule key op v)).result = .ok (some q) ∧
      ∀ scene : Scene, q.truth D T scene = Truth.negated op.isNegative (l.keyTest D T target
        ((linkedKeys v (l.keys.linkedColumn target)).map D.value) (scene e.table)) :=
  exists_keyRule_of_apart hconnects (fun _ => hbase) hop v

end

/-! ## Keys that were read -/

section

variable {D : Dialect} {column : String} {keys : List Json} {leads : Stored → Prop}

/-- There is no key if no row could hold one. -/
theorem eq_nil_iff_of_held
    (h : ∀ r : Stored, (∃ s, r column = some s ∧ s ∈ keys.map Json.plain) ↔ leads r) :
    keys = [] ↔ ∀ r, ¬leads r := by
  constructor
  · rintro rfl r hleads
    obtain ⟨s, -, hs⟩ := (h r).2 hleads
    cases hs
  · intro hnone
    cases keys with
    | nil => rfl
    | cons k rest => exact absurd ((h fun _ => some k.plain).1 ⟨_, rfl, List.mem_cons_self⟩) (hnone _)

/-- A row is denied a key that was read if it holds another, or if no row could hold one. -/
theorem among_eq_false_of_held (hkeys : ∀ k ∈ keys, IsLiteral k)
    (h : ∀ r : Stored, (∃ s, r column = some s ∧ s ∈ keys.map Json.plain) ↔ leads r) (r : Stored) :
    D.among (r column) (keys.map D.value) = some false ↔
      (∀ other, ¬leads other) ∨ r column ≠ none ∧ ¬leads r := by
  rw [Dialect.among_literals_false hkeys, eq_nil_iff_of_held h, ← h r]
  cases r column <;> simp

/-- Of membership in a stored query and its negative a row passes exactly one if it holds a key, or if
no row could hold one. -/
theorem xor_among_of_held {keys' : List Json} (hkeys : ∀ k ∈ keys, IsLiteral k)
    (h : ∀ r : Stored, (∃ s, r column = some s ∧ s ∈ keys.map Json.plain) ↔ leads r)
    (hkeys' : ∀ k ∈ keys', IsLiteral k)
    (h' : ∀ r : Stored, (∃ s, r column = some s ∧ s ∈ keys'.map Json.plain) ↔ leads r) (r : Stored) :
    Xor (D.among (r column) (keys.map D.value) = some true)
      (Truth.negated true (D.among (r column) (keys'.map D.value)) = some true) ↔
        r column ≠ none ∨ ∀ other, ¬leads other := by
  rw [Truth.negated_true_eq_true, among_eq_false_of_held hkeys' h', Dialect.among_literals hkeys, h,
    xor_iff_or_and_not_and]
  -- A row that leads to the query holds one of the keys, so that there is one.
  have hheld : leads r → r column ≠ none := by
    intro hleads
    obtain ⟨s, hs, -⟩ := (h r).2 hleads
    simp [hs]
  by_cases hleads : leads r
  · have hsome : ¬∀ other, ¬leads other := fun hnone => hnone r hleads
    simp [hleads, hsome, hheld hleads]
  · simp [hleads, or_comm]

end

/-! ## Complements -/

/-- Of a rule on a connection that names keys and its negative a row passes exactly one, unless the row
itself holds the link and something is null: the key that it holds, or one of those that it is compared
with. The one that it passes depends on the rows that it is linked to, unless it holds the key of a row
that does not exist. Of membership in a stored query and its negative a row passes exactly one, unless
the column that the link is known by is null and some rows could be linked to ones in the query. -/
theorem negatives_exclude (D : Dialect) (T : Tables) (ctx : Context)
    (filters : List (String × Condition)) (levels : Nat) (visiting : List String) {e target : Entity}
    {key : String} {f : Field} {l : Link} :
    let links := LinkMap.ofCatalog ctx.session.settings ctx.catalog
    let env := ctx.env links
    let compiles (tree : Condition) (p : Predicate) : Prop :=
      (condition (env.withFilters filters) (Frame.base e) tree).result = .ok (some p)
    let passes (p : Predicate) (scene : Scene) : Prop := p.truth D T scene = some true
    Connects env e key f l target → (Frame.base e).Apart →
    (∀ ops ∈ complements, ∀ v : Json,
      let column := l.keys.linkedColumn target
      let keys := (linkedKeys v column).map D.value
      ∃ positive negative, compiles (.ofRule key ops.1 v) positive ∧
        compiles (.ofRule key ops.2 v) negative ∧
        ∀ scene : Scene, let r := scene e.table
          (Xor (passes positive scene) (passes negative scene) ↔
            l.isOwn = false ∨ keys = [] ∨
              ∃ s, r l.keys.baseColumn = some s ∧ (some s ∈ keys ∨ none ∉ keys)) ∧
          (¬l.Dangles T r → (passes positive scene ↔
            ∃ r' ∈ l.rows T r, ∃ s, r' column = some s ∧ some s ∈ keys))) ∧
    ∀ (name : Json) (q : StoredQuery) (p : Option Predicate), Clear env e l target →
      Queried ctx l target name q p links → q.id ∉ visiting → NoCalls (l.heldKeys T) →
      let replaced (op : RuleOp) (t : List Exchange) (result : Result Condition) : Prop :=
        (placeholder ctx (expansion ctx (levels + 1) visiting) e ⟨key, op, name, none⟩).Runs t
          result ∧ ∀ x ∈ t, Answered D T links x
      let leads (r : Stored) : Prop := ∃ r' ∈ l.rows T r, rowPasses D T target.table p r' = true
      ∀ t t' result result', replaced .inQuery t result → replaced .notInQuery t' result' →
      ∃ node node' positive negative, result = .ok node ∧ result' = .ok node' ∧
        compiles node positive ∧ compiles node' negative ∧
        ∀ scene : Scene, let r := scene e.table
          (Xor (passes positive scene) (passes negative scene) ↔
            r l.keys.baseColumn ≠ none ∨ ∀ other, ¬leads other) ∧
          (passes positive scene ↔ leads r) := by
  intro links env compiles passes hconnects hbase
  refine ⟨fun ops hops v => ?_, fun name q p hclear hquery hvisiting hcalls => ?_⟩
  · -- Both rules are compiled to the test of one list of keys, asked for and denied.
    obtain ⟨⟨hpositive, hasked⟩, hnegative, hdenied⟩ := complements_spec hops
    have hknown := hconnects.withFilters filters
    obtain ⟨positive, hp, hptruth⟩ := exists_keyRule (D := D) (T := T) hknown hbase hpositive v
    obtain ⟨negative, hn, hntruth⟩ := exists_keyRule (D := D) (T := T) hknown hbase hnegative v
    refine ⟨positive, negative, hp, hn, fun scene => ?_⟩
    dsimp only [passes]
    rw [hptruth, hntruth, hasked, hdenied]
    exact ⟨Truth.xor_negated.trans Link.keyTest_ne_none, Link.keyTest_eq_true⟩
  · -- Both placeholders are replaced by such rules, for the keys that the query finds.
    intro replaced leads t t' result result' hin hout
    have htable := targetTable_of_link hconnects.link hconnects.target
    obtain ⟨keys, node, positive, hliterals, hkeys, hnode, hp, hptruth⟩ := exists_membership filters
      hconnects htable hclear hquery hvisiting hcalls (.inl rfl) hin.1 hin.2
    obtain ⟨keys', node', negative, hliterals', hkeys', hnode', hn, hntruth⟩ := exists_membership
      filters hconnects htable hclear hquery hvisiting hcalls (.inr rfl) hout.1 hout.2
    refine ⟨node, node', positive, negative, hnode, hnode', hp, hn, fun scene => ?_⟩
    dsimp only [passes]
    rw [hptruth, hntruth]
    exact ⟨xor_among_of_held hliterals hkeys hliterals' hkeys' _,
      (Dialect.among_literals hliterals _).trans (hkeys _)⟩

/-- An invoice of a customer passes exactly one of each two. -/
theorem negatives_exclude_customer :
    let c := Field.new "c" "customer" (.connection (.between "customer" .one .many))
    let invoice := Entity.new "invoice" "Invoice" "INVOICE" [c]
    let customer := Entity.new "customer" "Customer" "CUSTOMER" []
    let catalog : Catalog := ⟨[invoice, customer], [⟨"q", "All", "customer", .empty, []⟩], []⟩
    let links := LinkMap.ofCatalog {} catalog
    let ctx : Context := ⟨⟨{}, {}, .tenant⟩, catalog, ⟨none, "en", true⟩, .everything⟩
    let row := [("uuid", "i1"), ("customer", "c1")]
    let T := Tables.ofCells [("INVOICE", [row]), ("CUSTOMER", [[("uuid", "c1")], [("uuid", "c2")]])]
    let l : Link := ⟨"c", "customer", "customer__relation", .oneToMany, "customer", "CUSTOMER", false,
      .own "customer" "uuid"⟩
    let t : List Exchange := [⟨.links, links⟩, ⟨.links, links⟩, ⟨.consult "invoice", ()⟩,
      ⟨.fetch .tenant (keySelect l none), .ok [[("uuid", .str "c1")], [("uuid", .str "c2")]]⟩]
    let keys : Json := .arr [.str "c1", .str "c2"]
    let compiles (tree : Condition) (p : Predicate) : Prop :=
      (condition (ctx.env links) (Frame.base invoice) tree).result = .ok (some p)
    let passes (p : Predicate) : Prop :=
      p.truth .mute T (Scene.empty.add "INVOICE" (row.lookup ·)) = some true
    let replaced (op : RuleOp) (node : Condition) : Prop :=
      (placeholder ctx (expansion ctx 1 []) invoice ⟨"customer", op, .str "q", none⟩).Runs t (.ok node)
    (∃ positive negative, compiles (.ofRule "customer" .in (.arr [.str "c2"])) positive ∧
      compiles (.ofRule "customer" .notIn (.arr [.str "c2"])) negative ∧
      Xor (passes positive) (passes negative) ∧ ¬passes positive) ∧
    (replaced .inQuery (.ofRule "customer" .in keys) ∧
      replaced .notInQuery (.ofRule "customer" .notIn keys) ∧
      ∃ positive negative, compiles (.ofRule "customer" .in keys) positive ∧
        compiles (.ofRule "customer" .notIn keys) negative ∧
        Xor (passes positive) (passes negative) ∧ passes positive) := by
  intro c invoice customer catalog links ctx row T l t keys compiles passes replaced
  have hlink : (link (ctx.env links) invoice "c").result = .ok l := by
    dsimp only [c, invoice, customer, catalog, links, ctx, l]
    rfl
  have hconnects : Connects (ctx.env links) invoice "customer" c l customer :=
    ⟨List.mem_cons_self, by decide, rfl, rfl, hlink, rfl⟩
  have hbase : (Frame.base invoice).Apart := by
    unfold Frame.Apart
    decide
  have hcolumn : NamesColumn (ctx.env links) invoice "customer" :=
    ⟨by decide, .inr ⟨by decide, rfl, .inr ⟨rfl, l, customer, "uuid", hlink, rfl, rfl⟩⟩⟩
  have hclear : Clear (ctx.env links) invoice l customer :=
    ⟨hbase, by unfold Frame.Apart; decide, by decide, hcolumn⟩
  have hquery : Queried ctx l customer (.str "q") ⟨"q", "All", "customer", .empty, []⟩ none links :=
    ⟨rfl, rfl, rfl, rfl, rfl⟩
  have hcells : l.heldKeys T = [some "c1", some "c2"] := rfl
  have hcalls : NoCalls (l.heldKeys T) := by
    rw [hcells]
    intro s hs
    rcases List.mem_pair.1 hs with h | h <;> cases h <;> decide
  have hread : Dialect.mute.AnswersOne T (keySelect l none)
      [[("uuid", .str "c1")], [("uuid", .str "c2")]] := answersOne_keySelect ["c1", "c2"] "uuid" rfl
  have hanswered : ∀ x ∈ t, Answered Dialect.mute T links x := by
    simp only [t, List.forall_mem_cons]
    exact ⟨rfl, rfl, trivial, ⟨_, rfl, hread⟩, by simp⟩
  have hin : replaced .inQuery (.ofRule "customer" .in keys) := by
    dsimp only [replaced, t, c, invoice, customer, catalog, links, ctx, l, keys]
    exact ⟨_, _, rfl, _, _, rfl, _, _, rfl, _, _, rfl, rfl, rfl⟩
  have hout : replaced .notInQuery (.ofRule "customer" .notIn keys) := by
    dsimp only [replaced, t, c, invoice, customer, catalog, links, ctx, l, keys]
    exact ⟨_, _, rfl, _, _, rfl, _, _, rfl, _, _, rfl, rfl, rfl⟩
  have hscene : Scene.empty.add "INVOICE" (row.lookup ·) invoice.table = (row.lookup ·) :=
    Scene.add_self ..
  have hrows : l.rows T (row.lookup ·) = [fun column => [("uuid", "c1")].lookup column] := rfl
  obtain ⟨hkeys, hqueries⟩ := negatives_exclude .mute T ctx [] 0 [] hconnects hbase
  constructor
  · obtain ⟨positive, negative, hpositive, hnegative, h⟩ :=
      hkeys (.in, .notIn) (by decide) (.arr [.str "c2"])
    obtain ⟨hone, hwhich⟩ := h (Scene.empty.add "INVOICE" (row.lookup ·))
    rw [hscene] at hone hwhich
    refine ⟨positive, negative, hpositive, hnegative,
      hone.2 (.inr (.inr ⟨"c1", rfl, .inr (by decide)⟩)), fun hpasses => ?_⟩
    have hdangles : ¬l.Dangles T (row.lookup ·) := fun h => List.cons_ne_nil _ _ (hrows ▸ h.2.2)
    obtain ⟨r', hr', s, hs, hkey⟩ := (hwhich hdangles).1 hpasses
    rw [hrows, List.mem_singleton] at hr'
    subst hr'
    cases hs
    revert hkey
    decide
  · obtain ⟨_, _, positive, negative, hnode, hnode', hpositive, hnegative, h⟩ :=
      hqueries (.str "q") _ none hclear hquery (by simp) hcalls t t _ _ ⟨hin, hanswered⟩ ⟨hout, hanswered⟩
    cases hnode
    cases hnode'
    obtain ⟨hone, hwhich⟩ := h (Scene.empty.add "INVOICE" (row.lookup ·))
    rw [hscene] at hone hwhich
    have hlinked : ∃ r' ∈ l.rows T (row.lookup ·), rowPasses .mute T customer.table none r' = true :=
      ⟨_, hrows ▸ List.mem_cons_self, rfl⟩
    exact ⟨hin, hout, positive, negative, hpositive, hnegative, hone.2 (.inl (by decide)),
      hwhich.2 hlinked⟩

/-- An invoice without a customer passes neither. -/
theorem negatives_of_no_customer :
    let c := Field.new "c" "customer" (.connection (.between "customer" .one .many))
    let invoice := Entity.new "invoice" "Invoice" "INVOICE" [c]
    let customer := Entity.new "customer" "Customer" "CUSTOMER" []
    let catalog : Catalog := ⟨[invoice, customer], [], []⟩
    let env : Env := ⟨{}, catalog, LinkMap.ofCatalog {} catalog, "en", []⟩
    let row := [("uuid", "i2")]
    let T := Tables.ofCells [("INVOICE", [row]), ("CUSTOMER", [[("uuid", "c1")]])]
    let outcome (op : RuleOp) : Option Truth :=
      (condition env (Frame.base invoice)
        (.ofRule "customer" op (.arr [.str "c1"]))).result.toOption.join.map fun p =>
          p.truth .mute T (Scene.empty.add "INVOICE" (row.lookup ·))
    outcome .in = some none ∧ outcome .notIn = some none :=
  ⟨rfl, rfl⟩

end Reduce

end CatalogQuery
