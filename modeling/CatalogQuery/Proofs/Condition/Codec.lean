import CatalogQuery.Proofs.Decode.Structures
import CatalogQuery.Proofs.Session.Outcomes
import CatalogQuery.Reduce.User

/-!
# Conditions read and written

What a value says as a group and as a rule is described by the members it has, in either form.
Main statement: every value reads as a group if it is one, else as a rule if it is one, else as
itself, and what is written of a condition that was read is read as the same condition again. A
written rule is never taken for a group, and a node kept as it is has no other reading, so the
order in which the readings are tried does no harm.
-/

namespace CatalogQuery

namespace RuleOp

/-- A value that names the operator, by its name or by a synonym. -/
def Spelled (op : RuleOp) (v : Json) : Prop := ∃ s, v.Spells s ∧ (s = op.name ∨ synonym s = some op)

theorem ofName_name (op : RuleOp) : ofName op.name = some op := by
  cases op <;> decide

theorem ofName_of_synonym {s : String} {op : RuleOp} (h : synonym s = some op) :
    ofName s = some op := by
  unfold synonym at h
  split at h <;> first | (cases h; decide) | cases h

theorem ofName_eq_some_iff {s : String} {op : RuleOp} :
    ofName s = some op ↔ s = op.name ∨ synonym s = some op := by
  constructor
  · intro h
    unfold ofName at h
    split at h
    · next found hfound =>
      cases h
      exact .inl (eq_comm.mp (by simpa using List.find?_some hfound))
    · exact .inr h
  · rintro (rfl | h)
    · exact ofName_name op
    · exact ofName_of_synonym h

theorem ofJson_eq_some_iff {v : Json} {op : RuleOp} : ofJson v = some op ↔ op.Spelled v := by
  simp [ofJson, Decode.word_eq_some_iff, Spelled, ofName_eq_some_iff]

end RuleOp

namespace Glue

def Spelled (glue : Glue) (v : Json) : Prop := v.Spells glue.name

theorem ofName_eq_some_iff {s : String} {glue : Glue} : ofName s = some glue ↔ s = glue.name := by
  unfold ofName
  split <;> cases glue <;> simp_all [name]

theorem ofJson_eq_some_iff {v : Json} {glue : Glue} : ofJson v = some glue ↔ glue.Spelled v := by
  simp [ofJson, Decode.word_eq_some_iff, Spelled, ofName_eq_some_iff]

end Glue

/-- The members of the rule in either form: the value is null when it is missing, and there is no
alias when it is missing or null. -/
def Rule.Spelled (r : Rule) (v : Json) : Prop :=
  ∃ op value joined,
    v.slots ["key", "rule", "value", "alias"] = some [some (.str r.key), some op, value, joined] ∧
    r.op.Spelled op ∧ r.value = value.getD .null ∧
    (joined = r.joined.map .str ∨ joined = some .null ∧ r.joined = none)

theorem Rule.run_reader_eq_some_iff {source rest : MemberSource} {r : Rule} :
    Rule.reader.run source = some (r, rest) ↔
      source.member "key" = some (.str r.key) ∧
      (∃ op, source.rest.member "rule" = some op ∧ r.op.Spelled op) ∧
      r.value = (source.rest.rest.member "value").getD .null ∧
      Decode.optionally Decode.string (source.rest.rest.rest.member "alias") = some r.joined ∧
      rest = source.rest.rest.rest.rest := by
  obtain ⟨key, op, value, joined⟩ := r
  have hvalue (v : Option Json) : v.elim (some Json.null) some = some (v.getD .null) := by
    cases v <;> rfl
  simp only [reader, StateT.run_bind, StateT.run_pure, Decode.run_required, Decode.run_defaulted,
    Decode.run_optional, Option.bind_eq_bind, Option.bind_eq_some_iff, Option.map_eq_some_iff,
    Decode.string_eq_some_iff, RuleOp.ofJson_eq_some_iff, hvalue]
  constructor
  · rintro ⟨_, ⟨_, ⟨_, hkey, rfl⟩, rfl⟩, _, ⟨_, ⟨w, hw, hop⟩, rfl⟩, _, ⟨_, hvalue, rfl⟩, _,
      ⟨_, hjoined, rfl⟩, heq⟩
    cases heq
    cases hvalue
    exact ⟨hkey, ⟨w, hw, hop⟩, rfl, hjoined, rfl⟩
  · rintro ⟨hkey, ⟨w, hw, hop⟩, rfl, hjoined, rfl⟩
    exact ⟨_, ⟨_, ⟨_, hkey, rfl⟩, rfl⟩, _, ⟨_, ⟨w, hw, hop⟩, rfl⟩, _, ⟨_, rfl, rfl⟩, _,
      ⟨_, hjoined, rfl⟩, rfl⟩

theorem Rule.ofJson_eq_some_iff {v : Json} {r : Rule} : Rule.ofJson v = some r ↔ r.Spelled v := by
  have hsource (source : MemberSource) :
      Decode.fromSource Rule.reader source = some r ↔ ∃ op value joined,
        source.slots ["key", "rule", "value", "alias"] =
          some [some (.str r.key), some op, value, joined] ∧
        r.op.Spelled op ∧ r.value = value.getD .null ∧
        (joined = r.joined.map .str ∨ joined = some .null ∧ r.joined = none) := by
    simp only [Decode.fromSource_eq_some_iff, Rule.run_reader_eq_some_iff, MemberSource.slots,
      Decode.optionally_string_eq_some_iff]
    constructor
    · rintro ⟨_, ⟨hkey, ⟨op, hop, hspelled⟩, hvalue, hjoined, rfl⟩, hdone⟩
      exact ⟨op, _, _, by simp [hdone, hkey, hop], hspelled, hvalue, hjoined⟩
    · rintro ⟨op, value, joined, hslots, hspelled, hvalue, hjoined⟩
      simp only [Option.map_if, Option.ite_none_right_eq_some, Option.some.injEq, List.cons.injEq,
        and_true] at hslots
      obtain ⟨hdone, hkey, hop, rfl, rfl⟩ := hslots
      exact ⟨_, ⟨hkey, ⟨op, hop, hspelled⟩, hvalue, hjoined, rfl⟩, hdone⟩
  unfold Spelled
  cases v with
  | obj members => exact hsource (.named members)
  | arr items => exact hsource (.ordered items)
  | _ => simp [ofJson, Decode.structured, Json.slots]

namespace Condition

/-- The members of a group in either form; the glue is "and" when it is missing. -/
def Opens (glue : Glue) (items : List Json) (v : Json) : Prop :=
  ∃ word, v.slots ["glue", "rules"] = some [word, some (.arr items)] ∧
    word.elim (glue = .and) glue.Spelled

theorem opens_obj {glue : Glue} {items : List Json} {members : Json.Members} :
    Opens glue items (.obj members) ↔
      Json.find "rules" members = some (.arr items) ∧ memberGlue members = some glue := by
  simp only [Opens, Json.slots, MemberSource.slots, MemberSource.member_named,
    MemberSource.rest_named, MemberSource.isDone_named, memberGlue]
  cases Json.find "glue" members with
  | none => simp [and_assoc, eq_comm (a := Glue.and)]
  | some w => simp [Glue.ofJson_eq_some_iff, and_assoc]

theorem opens_arr {glue : Glue} {items nodes : List Json} :
    Opens glue nodes (.arr items) ↔ ∃ w, items = [w, .arr nodes] ∧ glue.Spelled w := by
  simp only [Opens, Json.slots]
  match items with
  | [] => simp [MemberSource.slots]
  | [w] => simp [MemberSource.slots]
  | [w, v] =>
    simp [MemberSource.slots, and_assoc]
  | w :: v :: u :: rest =>
    simp [MemberSource.slots]

theorem Opens.sizeOf_lt {glue : Glue} {items : List Json} {v : Json} (h : Opens glue items v) :
    ∀ w ∈ items, sizeOf w < sizeOf v := by
  intro w hw
  have hitem := List.sizeOf_lt_of_mem hw
  cases v with
  | obj members =>
    have hfind := Json.sizeOf_find_lt (opens_obj.mp h).1
    simp only [Json.arr.sizeOf_spec] at hfind
    simp only [Json.obj.sizeOf_spec]
    omega
  | arr all =>
    obtain ⟨g, rfl, -⟩ := opens_arr.mp h
    simp only [Json.arr.sizeOf_spec, List.cons.sizeOf_spec]
    omega
  | _ => simp [Opens, Json.slots] at h

/-- What holds of a value whenever it holds of the nodes of the group that the value is, if it is
one, holds of all values. -/
theorem induction_nodes {P : Json → Prop}
    (h : ∀ v, (∀ glue items, Opens glue items v → ∀ w ∈ items, P w) → P v) (v : Json) : P v :=
  h v fun _ _ hopens w hw =>
    have := hopens.sizeOf_lt w hw
    induction_nodes h w
termination_by v

theorem nodesOf_eq_map (items : List Json) : nodesOf items = items.map ofJson := by
  induction items with
  | nil => rfl
  | cons v rest ih => simp [nodesOf, ih]

theorem memberNodes_eq (members : Json.Members) :
    memberNodes members =
      (Json.find "rules" members).bind fun v => v.items?.map fun items => items.map ofJson := by
  induction members with
  | nil => rfl
  | cons m rest ih =>
    obtain ⟨k, v⟩ := m
    rw [memberNodes.eq_def, Json.find]
    by_cases hk : k = "rules"
    · cases v <;> simp [hk, Json.items?, nodesOf_eq_map]
    · simp [hk, ih]

theorem ofJson_of_opens {glue : Glue} {items : List Json} {v : Json} (h : Opens glue items v) :
    ofJson v = group glue (items.map ofJson) := by
  cases v with
  | obj members =>
    obtain ⟨hrules, hglue⟩ := opens_obj.mp h
    rw [ofJson, hglue, memberNodes_eq, hrules]
    rfl
  | arr all =>
    obtain ⟨w, rfl, hw⟩ := opens_arr.mp h
    rw [ofJson, Glue.ofJson_eq_some_iff.mpr hw, nodesOf_eq_map]
  | _ => simp [Opens, Json.slots] at h

theorem ofJson_of_not_opens {v : Json} (h : ¬ ∃ glue items, Opens glue items v) :
    ofJson v = ungrouped v := by
  rw [ofJson.eq_def]
  split
  · next members =>
    split
    · next glue nodes hglue hnodes =>
      rw [memberNodes_eq, Option.bind_eq_some_iff] at hnodes
      obtain ⟨rules, hrules, hitems⟩ := hnodes
      cases rules <;> simp [Json.items?] at hitems
      exact (h ⟨glue, _, opens_obj.mpr ⟨hrules, hglue⟩⟩).elim
    · rfl
  · next g items =>
    split
    · next glue hglue =>
      exact (h ⟨glue, items, opens_arr.mpr ⟨g, rfl, Glue.ofJson_eq_some_iff.mp hglue⟩⟩).elim
    · rfl
  · rfl

theorem ofJson_of_spelled {v : Json} {r : Rule} (h : ¬ ∃ glue items, Opens glue items v)
    (hr : r.Spelled v) : ofJson v = rule r := by
  rw [ofJson_of_not_opens h, ungrouped, Rule.ofJson_eq_some_iff.mpr hr]

theorem ofJson_of_not_spelled {v : Json} (h : ¬ ∃ glue items, Opens glue items v)
    (hr : ¬ ∃ r : Rule, r.Spelled v) : ofJson v = malformed v := by
  rw [ofJson_of_not_opens h, ungrouped]
  split
  · next r hread => exact (hr ⟨r, Rule.ofJson_eq_some_iff.mp hread⟩).elim
  · rfl

/-! ## Reading what was written -/

theorem nodesToJson_eq_map (nodes : List Condition) : nodesToJson nodes = nodes.map toJson := by
  induction nodes with
  | nil => rfl
  | cons c rest ih => simp [nodesToJson, ih]

theorem toJson_group (glue : Glue) (nodes : List Condition) :
    (group glue nodes).toJson =
      .obj [("glue", .str glue.name), ("rules", .arr (nodes.map toJson))] := by
  have horder : ¬ "rules" < "glue" := by decide
  simp only [toJson, nodesToJson_eq_map, Json.object, Json.sorted, List.foldl_cons, List.foldl_nil,
    Json.insert, String.reduceEq, if_false, if_neg horder]

theorem toJson_rule (r : Rule) :
    (rule r).toJson =
      .obj (Json.optional "alias" (r.joined.map .str) ++
        [("key", .str r.key), ("rule", .str r.op.name), ("value", r.value)]) := by
  obtain ⟨key, op, value, joined⟩ := r
  have hrule : ¬ "rule" < "key" := by decide
  have hvalue : ¬ "value" < "key" ∧ ¬ "value" < "rule" := by decide
  have halias : "alias" < "key" := by decide
  cases joined <;>
    simp only [toJson, Rule.members, Json.object, Json.sorted, Json.insert, Json.optional,
      Option.map_none, Option.map_some, List.cons_append, List.nil_append, List.append_nil,
      List.foldl_cons, List.foldl_nil, String.reduceEq, if_false, if_neg hrule, if_neg hvalue.1,
      if_neg hvalue.2, if_pos halias]

theorem opens_toJson_group (glue : Glue) (nodes : List Condition) :
    Opens glue (nodes.map toJson) (group glue nodes).toJson := by
  rw [toJson_group, opens_obj]
  exact ⟨rfl, Glue.ofJson_eq_some_iff.mpr (.inl rfl)⟩

/-- No rule reads as a group: it has no member of nodes. -/
theorem not_opens_toJson_rule (r : Rule) : ¬ ∃ glue items, Opens glue items (rule r).toJson := by
  rintro ⟨glue, items, h⟩
  rw [toJson_rule, opens_obj] at h
  simp [Json.find_append, Json.find] at h

theorem spelled_toJson_rule (r : Rule) : r.Spelled (rule r).toJson := by
  refine ⟨.str r.op.name, some r.value, r.joined.map .str, ?_, ⟨_, .inl rfl, .inl rfl⟩, rfl,
    .inl rfl⟩
  simp [toJson_rule, Json.slots, MemberSource.slots, Json.find_append, Json.find]

mutual
/-- A tree whose malformed nodes read as nothing else. -/
def Faithful : Condition → Prop
  | group _ nodes => AllFaithful nodes
  | rule _ => True
  | malformed v => (¬ ∃ glue items, Opens glue items v) ∧ ¬ ∃ r : Rule, r.Spelled v
def AllFaithful : List Condition → Prop
  | [] => True
  | c :: rest => c.Faithful ∧ AllFaithful rest
end

theorem allFaithful_iff {nodes : List Condition} : AllFaithful nodes ↔ ∀ c ∈ nodes, c.Faithful := by
  induction nodes with
  | nil => simp [AllFaithful]
  | cons c rest ih => simp [AllFaithful, ih]

mutual
/-- A tree is read back from what is written of it. -/
theorem ofJson_toJson : (c : Condition) → c.Faithful → ofJson c.toJson = c
  | group glue nodes, h => by
    rw [ofJson_of_opens (opens_toJson_group glue nodes), map_ofJson_toJson nodes h]
  | rule r, _ => ofJson_of_spelled (not_opens_toJson_rule r) (spelled_toJson_rule r)
  | malformed v, h => by
    rw [toJson]
    exact ofJson_of_not_spelled h.1 h.2
theorem map_ofJson_toJson : (nodes : List Condition) → AllFaithful nodes →
    (nodes.map toJson).map ofJson = nodes
  | [], _ => rfl
  | c :: rest, h => by
    rw [List.map_cons, List.map_cons, ofJson_toJson c h.1, map_ofJson_toJson rest h.2]
end

theorem faithful_ofJson (v : Json) : (ofJson v).Faithful := by
  induction v using induction_nodes with
  | h v ih =>
    by_cases hopens : ∃ glue items, Opens glue items v
    · obtain ⟨glue, items, hopens⟩ := hopens
      rw [ofJson_of_opens hopens, Faithful, allFaithful_iff]
      intro c hc
      obtain ⟨w, hw, rfl⟩ := List.mem_map.mp hc
      exact ih glue items hopens w hw
    · by_cases hrule : ∃ r : Rule, r.Spelled v
      · obtain ⟨r, hr⟩ := hrule
        rw [ofJson_of_spelled hopens hr]
        trivial
      · rw [ofJson_of_not_spelled hopens hrule]
        exact ⟨hopens, hrule⟩

end Condition

open Condition

namespace Compile

/-- The filter of a rule on a connection is read back from what was written of it. -/
theorem relationFilter_toJson {c : Condition} (h : c.Faithful) (hnode : ∀ v, c ≠ malformed v) :
    relationFilter c.toJson = some c := by
  have hread := ofJson_toJson c h
  cases c with
  | group glue nodes =>
    rw [toJson_group] at hread ⊢
    simp [relationFilter, Json.has, Json.find, hread]
  | rule r =>
    rw [toJson_rule] at hread ⊢
    simp [relationFilter, Json.has, Json.find_append, Json.find, hread]
  | malformed v => exact (hnode v rfl).elim

end Compile

namespace Reduce

theorem relationFilter_userMatch {e : Entity} {username : String} {negated : Bool} {c : Condition}
    (h : userMatch e username negated = some c) : Compile.relationFilter c.toJson = some c := by
  rw [userMatch] at h
  split at h
  · cases h
  · cases h
    refine Compile.relationFilter_toJson ?_ fun v hv => by cases hv
    rw [Faithful, allFaithful_iff]
    intro c hc
    obtain ⟨f, -, rfl⟩ := List.mem_map.mp hc
    exact trivial

/-- What a rule about the caller leaves on a connection is read as the condition on the linked
records that it was made from. -/
theorem ensures_relationFilter (env : Compile.Env) (username : Option String) (e : Entity)
    (r : Rule) :
    (containsCaller env username e r).Ensures fun c => ∀ s, c = .rule s →
      (s.op = .haveRelation ∨ s.op = .haveNoRelation) →
      ∃ name f l target inner, username = some name ∧ e.field r.key = some f ∧
        (Compile.link env e f.id).result = .ok l ∧
        (Compile.entity env l.target).result = .ok target ∧
        userMatch target name false = some inner ∧ s.value = inner.toJson ∧
        Compile.relationFilter s.value = some inner := by
  -- Constants and rules about users are no rules about relations.
  have hconstant (truth : Bool) {s : Rule} (heq : constant truth = .rule s) :
      ¬ (s.op = .haveRelation ∨ s.op = .haveNoRelation) := by
    cases heq
    simp
  have huser (f : Field) (name : String) (negated : Bool) {s : Rule}
      (heq : userRule f name negated = .rule s) :
      ¬ (s.op = .haveRelation ∨ s.op = .haveNoRelation) := by
    cases heq
    cases f.isMultiValued <;> cases negated <;> simp
  have hfield : (fieldOf e r.key).Ensures fun f => e.field r.key = some f := by
    rw [fieldOf]
    split
    · next f hf => exact .pure hf
    · exact .fail
  rw [containsCaller.eq_def]
  dsimp only
  split
  · exact .pure fun s heq hop => (hconstant _ heq hop).elim
  · next name =>
    refine hfield.bind fun f hf => ?_
    split
    · exact .pure fun s heq hop => (huser f name _ heq hop).elim
    · refine Traced.Ensures.bind (fun l hl => hl) fun l hl => ?_
      refine Traced.Ensures.bind (fun target ht => ht) fun target ht => ?_
      split
      · exact .pure fun s heq hop => (hconstant _ heq hop).elim
      · next inner hinner =>
        refine .pure fun s heq hop => ?_
        cases heq
        exact ⟨name, f, l, target, inner, rfl, hf, hl, ht, hinner, rfl,
          relationFilter_userMatch hinner⟩

end Reduce

namespace Condition

/-- Every value reads as one condition: a group, else a rule, else the value itself, and so do the
nodes of a group. What is written of a condition that was read is read as the same condition
again, also where a rule about the caller has written one into the value of another rule. -/
theorem ofJson_toJson_ofJson :
    (∀ v : Json,
      (∀ glue items, Opens glue items v → ofJson v = group glue (items.map ofJson)) ∧
      ((¬ ∃ glue items, Opens glue items v) → ∀ r : Rule, r.Spelled v → ofJson v = rule r) ∧
      ((¬ ∃ glue items, Opens glue items v) → (¬ ∃ r : Rule, r.Spelled v) →
        ofJson v = malformed v) ∧
      ofJson (ofJson v).toJson = ofJson v) ∧
    (∀ glue nodes, (group glue nodes).toJson =
      .obj [("glue", .str glue.name), ("rules", .arr (nodes.map toJson))]) ∧
    (∀ r : Rule, (rule r).toJson = .obj (Json.optional "alias" (r.joined.map .str) ++
      [("key", .str r.key), ("rule", .str r.op.name), ("value", r.value)])) ∧
    (∀ v, (malformed v).toJson = v) ∧
    ∀ (env : Compile.Env) (username : Option String) (e : Entity) (r s : Rule),
      (Reduce.containsCaller env username e r).result = .ok (.rule s) →
      (s.op = .haveRelation ∨ s.op = .haveNoRelation) →
      ∃ name f l target inner, username = some name ∧ e.field r.key = some f ∧
        (Compile.link env e f.id).result = .ok l ∧
        (Compile.entity env l.target).result = .ok target ∧
        Reduce.userMatch target name false = some inner ∧ s.value = inner.toJson ∧
        Compile.relationFilter s.value = some inner := by
  refine ⟨fun v => ⟨fun glue items h => ofJson_of_opens h, fun h r hr => ofJson_of_spelled h hr,
    fun h hr => ofJson_of_not_spelled h hr, ofJson_toJson _ (faithful_ofJson v)⟩,
    toJson_group, toJson_rule, fun v => by rw [toJson], ?_⟩
  intro env username e r s hs hop
  exact Reduce.ensures_relationFilter env username e r _ hs s rfl hop

-- A group may have the members of a rule, and an array with a third item is no group.
example :
    ofJson (.arr [.str "or", .arr
      [.arr [.str "a", .str "is"],
        .obj [("key", .str "b"), ("rules", .arr [.null]), ("value", .null)],
        .arr [.str "or", .arr [], .null]]]) =
      group .or
        [rule ⟨"a", .equals, .null, none⟩, group .and [malformed .null],
          malformed (.arr [.str "or", .arr [], .null])] := by
  rfl

end Condition

end CatalogQuery
