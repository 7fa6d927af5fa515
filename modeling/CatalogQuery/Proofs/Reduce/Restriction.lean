import CatalogQuery.Proofs.Compile.Groups
import CatalogQuery.Proofs.Condition.Retain
import CatalogQuery.Proofs.Reduce.Scopes

/-!
# What restricting a scope's filter leaves

Main statement: of the rules of a scope's filter that need no alias, those are enforced whose keys the
compiler knows on the object, less those on time columns that no field describes; and a filter that
has something to enforce does not grant every record. A filter of nothing but such time columns does.
-/

namespace CatalogQuery

open Condition Sql

namespace Compile

mutual
/-- What is left of a tree is compiled like the tree with no restriction in place of the other
rules. -/
theorem tree_retain (rule : Rule → Traced (Option Predicate)) (keep : Rule → Bool) :
    (c : Condition) → tree rule (c.retain keep) =
      tree (fun r => if keep r then rule r else pure none) c
  | .group g nodes => by
    rw [retain, tree, tree, trees_retainIn rule keep nodes]
  | .rule r => by
    rw [retain, tree]
    split <;> rfl
  | .malformed _ => rfl
theorem trees_retainIn (rule : Rule → Traced (Option Predicate)) (keep : Rule → Bool) :
    (cs : List Condition) → trees rule (retainIn keep cs) =
      trees (fun r => if keep r then rule r else pure none) cs
  | [] => rfl
  | c :: rest => by
    rw [retainIn, trees, ← tree_retain rule keep c, ← trees_retainIn rule keep rest]
    split
    · -- A node without leaves is compiled to nothing, dropped or not.
      rename_i hempty
      rw [tree_of_isEmpty _ hempty, pure_bind]
      exact (bind_pure _).symm
    · rw [trees]
end

mutual
theorem tree_congr {rule rule' : Rule → Traced (Option Predicate)} :
    (c : Condition) → (∀ r ∈ c.rules, rule r = rule' r) → tree rule c = tree rule' c
  | .group g nodes, h => by
    rw [tree, tree, trees_congr nodes h]
  | .rule r, h => h r (by simp [rules])
  | .malformed _, _ => rfl
theorem trees_congr {rule rule' : Rule → Traced (Option Predicate)} :
    (cs : List Condition) → (∀ r ∈ rulesOf cs, rule r = rule' r) → trees rule cs = trees rule' cs
  | [], _ => rfl
  | c :: rest, h => by
    rw [rulesOf, List.forall_mem_append] at h
    rw [trees, trees, tree_congr c h.1, trees_congr rest h.2]
end

/-- Whether it is known in a frame what the key of a rule stands for. -/
def Frame.Resolves (frame : Frame) (r : Rule) : Prop :=
  r.key = Rule.constantKey ∨ ∃ s, subject frame r.key r.joined = .ok s

theorem exists_subjectOf {e : Entity} {table key : String} :
    (∃ s, subjectOf e table key = .ok s) ↔
      (key = Rule.selfKey ∨ key = e.keyColumn) ∨ (e.field key).isSome = true ∨
        timeColumns.contains key = true := by
  rw [subjectOf]
  split
  · rename_i hkey
    exact ⟨fun _ => .inl hkey, fun _ => ⟨_, rfl⟩⟩
  · rename_i hkey
    cases hfield : e.field key with
    | some f => exact ⟨fun _ => .inr (.inl rfl), fun _ => ⟨_, rfl⟩⟩
    | none =>
      have hkeys := not_or.1 hkey
      cases htime : timeColumns.contains key <;> simp [hkeys]

end Compile

/-! ## The rules that are left -/

/-- Whether a key is a time column of the table that no field of the object describes. -/
def Entity.isBareTime (e : Entity) (key : String) : Bool :=
  Compile.timeColumns.contains key && (e.field key).isNone

theorem Entity.isBareTime_of_fixed {e : Entity} {key : String}
    (h : key = Rule.constantKey ∨ key = Rule.selfKey ∨ key = e.keyColumn) :
    e.isBareTime key = false := by
  have htime : Compile.timeColumns.contains key = false := by
    rcases h with rfl | rfl | rfl
    · rfl
    · rfl
    · rw [keyColumn]
      cases e.key <;> rfl
  rw [isBareTime, htime, Bool.false_and]

/-- A rule without alias stays where its key is known, unless it is on a bare time column. -/
theorem ownsKey_iff {frame : Compile.Frame} {r : Rule} (halias : r.joined = none) :
    ownsKey frame.entity r = true ↔ frame.Resolves r ∧ frame.entity.isBareTime r.key = false := by
  have hsubject : Compile.subject frame r.key r.joined =
      Compile.subjectOf frame.entity frame.table r.key := by
    rw [halias]
    rfl
  rw [Compile.Frame.Resolves, hsubject, Compile.exists_subjectOf]
  simp only [ownsKey, Bool.or_eq_true, beq_iff_eq]
  constructor
  · rintro (((hkey | hkey) | hkey) | hfield)
    · exact ⟨.inl hkey, Entity.isBareTime_of_fixed (.inl hkey)⟩
    · exact ⟨.inr (.inl (.inl hkey)), Entity.isBareTime_of_fixed (.inr (.inl hkey))⟩
    · exact ⟨.inr (.inl (.inr hkey)), Entity.isBareTime_of_fixed (.inr (.inr hkey))⟩
    · refine ⟨.inr (.inr (.inl hfield)), ?_⟩
      rw [Entity.isBareTime, Option.isNone_eq_false_iff.2 hfield, Bool.and_false]
  · rintro ⟨hkey | (hkey | hkey) | hfield | htime, hbare⟩
    · exact .inl (.inl (.inl hkey))
    · exact .inl (.inl (.inr hkey))
    · exact .inl (.inr hkey)
    · exact .inr hfield
    · -- A time column that is not bare is a field of the object.
      rw [Entity.isBareTime, htime, Bool.true_and, Option.isNone_eq_false_iff] at hbare
      exact .inr hbare

/-- Whether a rule of a scope's filter is enforced on the object of a frame. -/
def Compile.Frame.Enforces (frame : Compile.Frame) (r : Rule) : Prop :=
  r.joined = none ∧ frame.Resolves r ∧ frame.entity.isBareTime r.key = false

namespace Reduce

/-! ## What a scope grants -/

section

variable {frame : Compile.Frame} {c : Condition}

theorem within_retain (env : Compile.Env) (levels : Nat) (keep : Rule → Bool) :
    Compile.within env (levels + 1) frame (c.retain keep) =
      Compile.tree (fun r => if keep r then
        Compile.rule env (Compile.within env levels) frame r else pure none) c :=
  Compile.tree_retain _ keep c

theorem within_retain_of_enforces (h : ∀ r ∈ c.rules, frame.Enforces r) (env : Compile.Env)
    (levels : Nat) :
    Compile.within env levels frame (c.retain (ownsKey frame.entity)) =
      Compile.within env levels frame c := by
  cases levels with
  | zero => rfl
  | succ levels =>
    rw [within_retain]
    exact Compile.tree_congr c fun r hr => if_pos ((ownsKey_iff (h r hr).1).2 (h r hr).2)

theorem isEmpty_retain_of_enforces (h : ∀ r ∈ c.rules, frame.Enforces r) :
    (c.retain (ownsKey frame.entity)).isEmpty = true ↔ c.leaves = [] := by
  rw [isEmpty_retain, List.eq_nil_iff_forall_not_mem]
  refine forall₂_congr fun leaf hleaf => iff_of_false ?_ id
  cases leaf with
  | group g nodes => simp [stays]
  | malformed node => simp [stays]
  | rule r =>
    have hr := h r ((rule_mem_leaves c).1 hleaf)
    rw [stays, (ownsKey_iff hr.1).2 hr.2]
    simp

theorem narrow_of_bareTime {scopes : List Scope} {s : Scope} (hs : s ∈ scopes)
    (hcovers : s.covers frame.entity.id = true)
    (h : ∀ leaf ∈ s.filter.leaves, ∃ r, leaf = .rule r ∧ r.joined = none ∧
      frame.entity.isBareTime r.key = true) :
    (Sight.covered scopes).narrow frame.entity c = c := by
  refine narrow_of_granted hs hcovers (isEmpty_retain.2 fun leaf hleaf => ?_) c
  obtain ⟨r, rfl, halias, hbare⟩ := h leaf hleaf
  rw [stays, ← Bool.not_eq_true, ownsKey_iff halias, hbare]
  simp

end

/-- Of the rules of a covering scope's filter that need no alias, those stay whose keys are known on
the object, less those on bare time columns, and malformed nodes stay; what is left is compiled like
the filter with no restriction in place of the other rules. A filter of which all is enforced is
compiled as it stands and, if there is anything in it, grants no more than it says: when every
covering scope has such a filter, the caller's condition is joined to them. A filter of nothing but
rules on bare time columns grants every record. -/
theorem narrow_enforces_known (frame : Compile.Frame) (scopes : List Scope) (c : Condition) :
    (∀ s ∈ scopes, s.covers frame.entity.id = true →
      let kept := s.filter.retain (ownsKey frame.entity)
      kept ∈ scopeFilters frame.entity scopes ∧
      (∀ r ∈ s.filter.rules, r.joined = none →
        (r ∈ kept.rules ↔ frame.Resolves r ∧ frame.entity.isBareTime r.key = false)) ∧
      (∀ node, .malformed node ∈ s.filter.leaves → .malformed node ∈ kept.leaves) ∧
      (∀ env levels, Compile.within env (levels + 1) frame kept =
        Compile.tree (fun r => if ownsKey frame.entity r then
          Compile.rule env (Compile.within env levels) frame r else pure none) s.filter) ∧
      ((∀ r ∈ s.filter.rules, frame.Enforces r) →
        (kept.isEmpty = true ↔ s.filter.leaves = []) ∧
        ∀ env levels, Compile.within env levels frame kept =
          Compile.within env levels frame s.filter) ∧
      ((∀ leaf ∈ s.filter.leaves, ∃ r, leaf = .rule r ∧ r.joined = none ∧
        frame.entity.isBareTime r.key = true) →
        (Sight.covered scopes).narrow frame.entity c = c)) ∧
    ((∃ s ∈ scopes, s.covers frame.entity.id = true) →
      (∀ s ∈ scopes, s.covers frame.entity.id = true →
        s.filter.leaves ≠ [] ∧ ∀ r ∈ s.filter.rules, frame.Enforces r) →
      (Sight.covered scopes).narrow frame.entity c =
        (anyOf (scopeFilters frame.entity scopes)).and c) := by
  constructor
  · intro s hs hcovers kept
    refine ⟨mem_scopeFilters.2 ⟨s, hs, hcovers, rfl⟩, fun r hr halias => ?_, fun node hnode => ?_,
      fun env levels => within_retain env levels _, fun h => ?_,
      narrow_of_bareTime hs hcovers⟩
    · rw [mem_rules_retain, ownsKey_iff halias]
      exact and_iff_right hr
    · rw [leaves_retain]
      exact List.mem_filter.2 ⟨hnode, rfl⟩
    · exact ⟨isEmpty_retain_of_enforces h, within_retain_of_enforces h⟩
  · rintro ⟨s, hs, hcovers⟩ h
    refine narrow_of_filtered (List.ne_nil_of_mem (mem_scopeFilters.2 ⟨s, hs, hcovers, rfl⟩)) ?_ c
    intro d hd
    obtain ⟨t, ht, htcovers, rfl⟩ := mem_scopeFilters.1 hd
    obtain ⟨hleaves, henforces⟩ := h t ht htcovers
    rw [← Bool.not_eq_true, isEmpty_retain_of_enforces henforces]
    exact hleaves

/-- A scope whose filter is a rule on a field, and one whose filter is a rule on a bare time
column. -/
theorem narrow_enforces_known_status :
    let invoice := Entity.new "invoice" "Invoice" "INVOICE" [.new "f" "status" .text]
    let frame := Compile.Frame.base invoice
    let status : Rule := ⟨"status", .equals, .str "open", none⟩
    let recent : Rule := ⟨"created_at", .greater, .str "2024-01-01", none⟩
    let scope (r : Rule) : Scope := ⟨"s", "S", true, [], .rule r⟩
    let c := Condition.eq "status" (.str "paid")
    (frame.Enforces status ∧
      (Sight.covered [scope status]).narrow invoice c = .group .and [.rule status, c]) ∧
    frame.Resolves recent ∧ (Sight.covered [scope recent]).narrow invoice c = c := by
  intro invoice frame status recent scope c
  have hstatus : frame.Enforces status := ⟨rfl, .inr ⟨_, rfl⟩, rfl⟩
  have hall (r : Rule) := narrow_enforces_known frame [scope r] c
  refine ⟨⟨hstatus, ?_⟩, .inr ⟨_, rfl⟩, ?_⟩
  · refine (hall status).2 ⟨scope status, List.mem_cons_self, rfl⟩ fun s hs _ => ?_
    rw [List.mem_singleton.1 hs]
    refine ⟨List.cons_ne_nil _ _, fun r hr => ?_⟩
    rw [List.mem_singleton.1 hr]
    exact hstatus
  · have hrecent := (hall recent).1 (scope recent) List.mem_cons_self rfl
    refine hrecent.2.2.2.2.2 fun leaf hleaf => ?_
    exact ⟨recent, List.mem_singleton.1 hleaf, rfl, rfl⟩

/-- A rule whose key the compiler knows is dropped, and its scope grants every record. -/
theorem narrow_drops_known :
    let invoice := Entity.new "invoice" "Invoice" "INVOICE" [.new "f" "status" .text]
    let recent : Rule := ⟨"created_at", .greater, .str "2024-01-01", none⟩
    let scope : Scope := ⟨"s", "S", true, [], .rule recent⟩
    let c := Condition.eq "status" (.str "paid")
    scope.covers invoice.id = true ∧
    (∀ env inner, ∃ test,
      (Compile.rule env inner (Compile.Frame.base invoice) recent).result = .ok (some test)) ∧
    recent ∉ (scope.filter.retain (ownsKey invoice)).rules ∧
    (Sight.covered [scope]).narrow invoice c = c := by
  intro invoice recent scope c
  refine ⟨rfl, fun _ _ => ⟨_, rfl⟩, ?_, rfl⟩
  rw [mem_rules_retain]
  exact fun h => Bool.false_ne_true h.2

end Reduce

end CatalogQuery
