import CatalogQuery.Proofs.Compile.Hidden
import CatalogQuery.Proofs.Link.Accounting

/-!
# Connections that lead nowhere

A connection field that is left out of the links of its object cannot restrict anything: there are no
linked records to speak of. Main statement: no condition with a rule on such a field is compiled,
whatever the operator and however deep the rule stands, and where nothing before the rule is in error
the authors of the metadata are told of the field.
-/

namespace CatalogQuery

/-- Whether a field of an object is a connection without a link that no other field can be taken
for. -/
structure Unlinked (catalog : Catalog) (e : Entity) (f : Field) : Prop where
  ids : (e.fields.map Field.id).Nodup
  columns : ∀ g ∈ e.connections, ∀ h ∈ e.fields, h.id ≠ g.id → g.column ≠ h.id
  omission : (f.omission? catalog e).isSome

namespace Unlinked

variable {settings : Settings} {catalog : Catalog} {e : Entity} {f : Field}

theorem isConnection (h : Unlinked catalog e f) : f.isConnection = true := by
  obtain ⟨n, hn⟩ := Option.isSome_iff_exists.1 h.omission
  obtain ⟨c, hc, -⟩ := Option.bind_eq_some_iff.1 hn
  rw [Field.isConnection, hc]
  rfl

/-- A field without a link is not found by its id, nor is another one in its place. -/
theorem get_eq_none (h : Unlinked catalog e f) (hf : f ∈ e.fields) :
    (LinkMap.resolve settings catalog e).1.get f.id = none := by
  -- A link describes a field that is not left out, so that its id is another.
  have hother : ∀ l ∈ (LinkMap.resolve settings catalog e).1.links,
      ∃ g ∈ e.connections, g.id ≠ f.id ∧ l.field = g.id ∧ l.column = g.column := by
    intro l hl
    obtain ⟨g, hg, c, target, hdescribes⟩ :=
      exists_of_forall₂ (LinkMap.forall₂_links_resolve settings catalog e).flip hl
    obtain ⟨hconnection, hlinked⟩ := List.mem_filter.1 hg
    refine ⟨g, hconnection, fun hid => ?_, hdescribes.field, hdescribes.column⟩
    cases List.inj_on_of_nodup_map h.ids (List.mem_filter.1 hconnection).1 hf hid
    have homission := h.omission
    rw [Option.isNone_iff_eq_none.1 hlinked] at homission
    cases homission
  have hid : (LinkMap.resolve settings catalog e).1.links.find? (·.field == f.id) = none := by
    refine List.find?_eq_none.2 fun l hl => ?_
    obtain ⟨g, -, hne, hfield, -⟩ := hother l hl
    simpa [hfield] using hne
  have hcolumn : (LinkMap.resolve settings catalog e).1.links.find? (·.column == f.id) = none := by
    refine List.find?_eq_none.2 fun l hl => ?_
    obtain ⟨g, hg, hne, -, hcolumn⟩ := hother l hl
    simpa [hcolumn] using h.columns g hg f hf hne.symm
  rw [LinkMap.get, hid, hcolumn]

end Unlinked

namespace Compile

open Sql

/-! ## The first node in error -/

section

variable {rule : Rule → Traced (Option Predicate)} {err : QueryError} {before after : List Condition}
  {leaf : Condition}

theorem exists_ok_of_leaves {c : Condition}
    (h : ∀ b ∈ c.leaves, ∃ p, (tree rule b).result = .ok p) :
    ∃ events part, tree rule c = ⟨events, .ok part⟩ := by
  generalize ht : tree rule c = compiled
  obtain ⟨events, result⟩ := compiled
  cases result with
  | ok part => exact ⟨events, part, rfl⟩
  | error e =>
    obtain ⟨b, hb, e', he⟩ := exists_tree_eq_error.1 ⟨e, by rw [ht]⟩
    obtain ⟨p, hp⟩ := h b hb
    cases hp.symm.trans he

mutual
/-- Compiling ends with the first leaf in error and whatever led to that. -/
theorem tree_eq_of_first : (c : Condition) → {before after : List Condition} →
    c.leaves = before ++ leaf :: after → (∀ b ∈ before, ∃ p, (tree rule b).result = .ok p) →
    (tree rule leaf).result = .error err →
    ∃ earlier, tree rule c = ⟨earlier ++ (tree rule leaf).events, .error err⟩
  | .group g nodes, _, _, hleaves, hbefore, hleaf => by
    obtain ⟨earlier, hnodes⟩ := trees_eq_of_first nodes hleaves hbefore hleaf
    exact ⟨earlier, by rw [tree, hnodes]; rfl⟩
  -- A node that is no group is its only leaf, so that nothing stands before it.
  | .rule r, before, _, hleaves, _, hleaf => by
    cases before with
    | nil =>
      cases hleaves
      exact ⟨[], by rw [← hleaf]; rfl⟩
    | cons b before => cases before <;> cases hleaves
  | .malformed node, before, _, hleaves, _, hleaf => by
    cases before with
    | nil =>
      cases hleaves
      exact ⟨[], by rw [← hleaf]; rfl⟩
    | cons b before => cases before <;> cases hleaves
theorem trees_eq_of_first : (cs : List Condition) → {before after : List Condition} →
    Condition.leavesOf cs = before ++ leaf :: after →
    (∀ b ∈ before, ∃ p, (tree rule b).result = .ok p) → (tree rule leaf).result = .error err →
    ∃ earlier, trees rule cs = ⟨earlier ++ (tree rule leaf).events, .error err⟩
  | [], _, _, hleaves, _, _ => by simp [Condition.leavesOf] at hleaves
  | c :: rest, before, after, hleaves, hbefore, hleaf => by
    rw [Condition.leavesOf] at hleaves
    -- A node that is compiled leaves the rest to decide.
    have hlater (between : List Condition) (hc : ∀ b ∈ c.leaves, ∃ p, (tree rule b).result = .ok p)
        (hrest : Condition.leavesOf rest = between ++ leaf :: after)
        (hbetween : ∀ b ∈ between, ∃ p, (tree rule b).result = .ok p) :
        ∃ earlier, trees rule (c :: rest) = ⟨earlier ++ (tree rule leaf).events, .error err⟩ := by
      obtain ⟨events, part, hpart⟩ := exists_ok_of_leaves hc
      obtain ⟨earlier, hparts⟩ := trees_eq_of_first rest hrest hbetween hleaf
      exact ⟨events ++ earlier, by rw [trees, hpart, hparts, List.append_assoc]; rfl⟩
    rcases List.append_eq_append_iff.1 hleaves with ⟨between, rfl, hrest⟩ | ⟨tail, hc, htail⟩
    · obtain ⟨hc, hbetween⟩ := List.forall_mem_append.1 hbefore
      exact hlater between hc hrest hbetween
    rcases List.cons_eq_append_iff.1 htail with ⟨rfl, hrest⟩ | ⟨tail, rfl, -⟩
    · rw [List.append_nil] at hc
      exact hlater [] (hc ▸ hbefore) hrest (List.forall_mem_nil _)
    · obtain ⟨earlier, hpart⟩ := tree_eq_of_first c hc hbefore hleaf
      exact ⟨earlier, by rw [trees, hpart]; rfl⟩
end

end

/-! ## Rules on connections that lead nowhere -/

section

variable {env : Env} {e : Entity} {f : Field} {frame : Frame} {r : Rule} {table : String}

/-- Asking for the link of such a field is the notice and the error of a connection that leads
nowhere. -/
theorem link_of_unlinked (h : Unlinked env.catalog e f) (hf : f ∈ e.fields)
    (hlinks : env.links e.id = .ok (LinkMap.resolve env.settings env.catalog e).1) :
    link env e f.id = ⟨[.consulted e.id, .noticed (.unresolvedConnection e.id e.name f.id)],
      .error (.configuration (.unresolvedConnection f.id e.name))⟩ := by
  rw [link, show Traced.consult env.links e.id = ⟨[.consulted e.id], env.links e.id⟩ from rfl, hlinks]
  show Traced.bind _ _ = _
  rw [Traced.bind_ok, h.get_eq_none hf]
  rfl

/-- Whether a rule is about a field. -/
def IsAbout (frame : Frame) (r : Rule) (e : Entity) (table : String) (f : Field) : Prop :=
  r.key ≠ Rule.constantKey ∧ subject frame r.key r.joined = .ok (.field e table f)

theorem rule_of_unlinked (inner : Inner) (h : Unlinked env.catalog e f)
    (hlinks : env.links e.id = .ok (LinkMap.resolve env.settings env.catalog e).1)
    (hr : IsAbout frame r e table f) (hop : r.op.isPlaceholder = false) :
    rule env inner frame r = ⟨[.consulted e.id, .noticed (.unresolvedConnection e.id e.name f.id)],
      .error (.configuration (.unresolvedConnection f.id e.name))⟩ := by
  obtain ⟨hkey, hs⟩ := hr
  have hf := Entity.mem_of_field (field_of_subject hs).2
  rw [rule, hop, if_neg (by simp), if_neg hkey, hs]
  show Traced.bind ⟨[], .ok (Subject.field e table f)⟩ _ = _
  rw [Traced.bind_ok]
  dsimp only
  rw [if_pos h.isConnection, connectionRule, link_of_unlinked h hf hlinks]
  rfl

theorem exists_rule_error_of_unlinked (inner : Inner) (h : Unlinked env.catalog e f)
    (hlinks : env.links e.id = .ok (LinkMap.resolve env.settings env.catalog e).1)
    (hr : IsAbout frame r e table f) : ∃ err, (rule env inner frame r).result = .error err := by
  cases hop : r.op.isPlaceholder with
  | true => exact ⟨_, by rw [rule, hop]; rfl⟩
  | false => exact ⟨_, by rw [rule_of_unlinked inner h hlinks hr hop]⟩

/-- A condition with a rule on a connection that leads nowhere is not compiled, wherever the rule stands
and whatever it asks. -/
theorem exists_within_error_of_unlinked (h : Unlinked env.catalog e f)
    (hlinks : env.links e.id = .ok (LinkMap.resolve env.settings env.catalog e).1) {c : Condition}
    (hr : r ∈ c.rules) (habout : IsAbout frame r e table f) (levels : Nat) :
    ∃ err, (within env levels frame c).result = .error err := by
  cases levels with
  | zero => exact ⟨_, rfl⟩
  | succ levels =>
    exact exists_tree_eq_error.2 ⟨.rule r, (Condition.rule_mem_leaves c).2 hr,
      exists_rule_error_of_unlinked (within env levels) h hlinks habout⟩

/-- Where all that stands before the rule is compiled, the field is what the error and the last notice
are about. -/
theorem within_of_unlinked_first (h : Unlinked env.catalog e f)
    (hlinks : env.links e.id = .ok (LinkMap.resolve env.settings env.catalog e).1) {c : Condition}
    (levels : Nat) {before after : List Condition} (hleaves : c.leaves = before ++ .rule r :: after)
    (hbefore : ∀ b ∈ before, ∃ p, (within env (levels + 1) frame b).result = .ok p)
    (habout : IsAbout frame r e table f) (hop : r.op.isPlaceholder = false) :
    ∃ earlier, within env (levels + 1) frame c =
      ⟨earlier ++ [.consulted e.id, .noticed (.unresolvedConnection e.id e.name f.id)],
        .error (.configuration (.unresolvedConnection f.id e.name))⟩ := by
  have hrule := rule_of_unlinked (within env levels) h hlinks habout hop
  obtain ⟨earlier, hc⟩ := tree_eq_of_first c hleaves hbefore
    (show (tree (rule env (within env levels) frame) (.rule r)).result = _ by rw [tree, hrule])
  refine ⟨earlier, hc.trans ?_⟩
  rw [tree, hrule]

end

end Compile

end CatalogQuery
