import CatalogQuery.Proofs.Condition.Graft
import CatalogQuery.Proofs.Session.Exchanges
import CatalogQuery.Reduce.Tree
import Mathlib.Data.List.Nodup
import Mathlib.Tactic.ByContra

/-!
# Reducing is substitution

Reducing resolves the placeholders of a tree one after another and grafts what each one stands for
in its place. Main statement: that, pass by pass, is what reducing does, nothing else in the tree
changes and no placeholder is left.
-/

namespace CatalogQuery

mutual
theorem Json.same_refl : (v : Json) → v.same v = true
  | .null => rfl
  | .bool b => by simp [Json.same]
  | .num (.int n) => by simp [Json.same, Number.same]
  | .num (.float x) => by simp [Json.same, Number.same]
  | .str s => by simp [Json.same]
  | .arr items => by
    rw [Json.same]
    exact Json.sameItems_refl items
  | .obj members => by
    rw [Json.same]
    exact Json.sameMembers_refl members
theorem Json.sameItems_refl : (vs : List Json) → Json.sameItems vs vs = true
  | [] => rfl
  | v :: rest => by rw [Json.sameItems, Json.same_refl v, Json.sameItems_refl rest]; rfl
theorem Json.sameMembers_refl : (ms : List (String × Json)) → Json.sameMembers ms ms = true
  | [] => rfl
  | (k, v) :: rest => by
    rw [Json.sameMembers, Json.same_refl v, Json.sameMembers_refl rest]
    simp
end

theorem Rule.same_refl (r : Rule) : r.same r = true := by
  simp [Rule.same, Json.same_refl]

theorem Rule.op_of_same {r s : Rule} (h : r.same s = true) : r.op = s.op := by
  simp only [Rule.same, Bool.and_eq_true, beq_iff_eq] at h
  exact h.1.1.2

/-- Whether no rule of a tree is a placeholder. -/
def Condition.Resolved (c : Condition) : Prop := ∀ r ∈ c.rules, r.op.isPlaceholder = false

namespace Reduce

open Condition

/-! ## What placeholders stand for -/

theorem resolved_constant (truth : Bool) : (constant truth).Resolved := by
  simp [Resolved, constant, eq, ofRule, rules, RuleOp.isPlaceholder]

theorem condition_constant (env : Compile.Env) (frame : Compile.Frame) (truth : Bool) :
    Compile.condition env frame (constant truth) = Traced.pure (some (.constant truth)) := by
  cases truth <;> rfl

theorem resolved_userRule (f : Field) (username : String) (negated : Bool) :
    (userRule f username negated).Resolved := by
  rw [userRule, Resolved, ofRule, rules]
  cases f.isMultiValued <;> cases negated <;> simp [RuleOp.isPlaceholder]

theorem mem_rulesOf {cs : List Condition} {r : Rule} :
    r ∈ rulesOf cs ↔ ∃ c ∈ cs, r ∈ c.rules := by
  induction cs with
  | nil => simp [rulesOf]
  | cons c rest ih => simp [rulesOf, ih]

theorem resolved_userMatch {e : Entity} {username : String} {negated : Bool} {c : Condition}
    (h : userMatch e username negated = some c) : c.Resolved := by
  rw [userMatch] at h
  split at h
  · cases h
  · cases h
    intro r hr
    rw [rules, mem_rulesOf] at hr
    obtain ⟨d, hd, hr⟩ := hr
    obtain ⟨f, -, rfl⟩ := List.mem_map.1 hd
    exact resolved_userRule f username negated r hr

theorem resolved_membership (key : String) (negative : Bool) (keys : List Json)
    (joined : Option String) :
    (ofRule key (if negative then .notIn else .in) (.arr keys) joined).Resolved := by
  cases negative <;> simp [Resolved, ofRule, rules, RuleOp.isPlaceholder]

theorem ensures_containsCaller (env : Compile.Env) (username : Option String) (e : Entity)
    (r : Rule) : (containsCaller env username e r).Ensures Resolved := by
  rw [containsCaller.eq_def]
  dsimp only
  split
  · exact .pure (resolved_constant _)
  refine Traced.Ensures.trivial.bind fun f _ => ?_
  split
  · exact .pure (resolved_userRule _ _ _)
  refine Traced.Ensures.trivial.bind fun l _ => Traced.Ensures.trivial.bind fun target _ => ?_
  split
  · exact .pure (resolved_constant _)
  · refine .pure ?_
    cases r.op == RuleOp.notContainCurrentUser <;>
      simp [Resolved, ofRule, rules, RuleOp.isPlaceholder]

theorem field_of_fieldOf {e : Entity} {key : String} {f : Field}
    (h : (fieldOf e key).result = .ok f) : e.field key = some f := by
  rw [fieldOf] at h
  split at h
  · cases h
    assumption
  · cases h

/-- Whether a rule about the caller's own records needs no keys or comes to no placeholder. -/
def CallerRule.Resolved : CallerRule → Prop
  | .settled c => c.Resolved
  | .chain _ _ => True

theorem ensures_callerRule (env : Compile.Env) (username : Option String) (e : Entity) (r : Rule) :
    (callerRule env username e r).Ensures CallerRule.Resolved := by
  have hpath (start : Entity) (startKey username : String) (negated : Bool) (path : List Hop) :
      Traced.Ensures
        (if path.length = 1 ∧ r.key = Rule.selfKey then
          pure (CallerRule.settled
            ((userMatch start username negated).getD (Condition.constant negated)))
        else pure (.chain path startKey)) CallerRule.Resolved := by
    split
    · refine .pure ?_
      cases h : userMatch start username negated with
      | none => exact resolved_constant negated
      | some c => exact resolved_userMatch h
    · exact .pure trivial
  rw [callerRule.eq_def]
  dsimp only
  split
  · exact .pure (resolved_constant _)
  split
  · refine Traced.Ensures.trivial.bind fun path _ => ?_
    cases path with
    | none => exact .pure (resolved_constant _)
    | some path => exact hpath _ _ _ _ path
  refine Traced.Ensures.trivial.bind fun f _ => ?_
  split
  · exact .pure (resolved_userRule _ _ _)
  -- A connection is followed from the object that it leads to.
  refine Traced.Ensures.trivial.bind fun l _ => Traced.Ensures.trivial.bind fun target _ => ?_
  refine Traced.Ensures.trivial.bind fun path _ => ?_
  cases path with
  | none => exact .pure (resolved_constant _)
  | some path => exact hpath _ _ _ _ path

/-- What takes the place of a placeholder holds none. -/
theorem yields_placeholder (ctx : Context) (expand : Expand) (e : Entity) (r : Rule) :
    (placeholder ctx expand e r).Yields Resolved := by
  have hmembership (stored : StoredSource) (column : Option String) :
      (membership ctx expand e r stored column).Yields Resolved := by
    rw [membership]
    exact .next fun reduced => .next fun found => .next fun rows =>
      .pure (resolved_membership _ _ _ _)
  have hcaller : (sameAsCaller ctx e r).Yields Resolved := by
    rw [sameAsCaller]
    refine (Program.Yields.withLinks fun links => ensures_callerRule (ctx.env links) _ e r).bind
      fun found hf => ?_
    cases found with
    | settled c => exact .pure hf
    | chain path startKey => exact .next fun keys => .pure (resolved_membership _ _ _ _)
  -- The last case is that of all operators that are no placeholders.
  rw [placeholder.eq_def]
  split
  case h_1 | h_2 | h_3 | h_4 | h_5 | h_6 => exact .next fun found => hmembership _ _
  case h_7 | h_8 => exact .withLinks fun links => ensures_containsCaller (ctx.env links) _ e r
  case h_9 | h_10 => exact hcaller
  case h_11 => exact .ofResult fun _ h => by cases h

/-! ## One pass -/

/-- The node that is held for a place. -/
def filling (held : List (Nat × Condition)) (i : Nat) : Option Condition :=
  (held.find? (·.1 == i)).map (·.2)

theorem filling_append (held more : List (Nat × Condition)) (i : Nat) :
    filling (held ++ more) i = (filling held i).or (filling more i) := by
  rw [filling, List.find?_append, filling, filling]
  cases held.find? (·.1 == i) <;> rfl

theorem filling_concat {held : List (Nat × Condition)} {i : Nat} (h : filling held i = none)
    (node : Condition) : filling (held ++ [(i, node)]) = put (filling held) i node := by
  funext j
  rw [filling_append, put]
  by_cases hj : j = i
  · rw [hj, h]
    simp [filling]
  · have hne : ¬ i = j := fun hij => hj hij.symm
    simp [filling, hj, hne]

theorem mem_of_filling {held : List (Nat × Condition)} {i : Nat} {node : Condition}
    (h : filling held i = some node) : (i, node) ∈ held := by
  rw [filling, Option.map_eq_some_iff] at h
  obtain ⟨d, hd, rfl⟩ := h
  have hi : d.1 = i := by simpa using List.find?_some hd
  rw [← hi]
  exact List.mem_of_find?_eq_some hd

/-- The places of rules of a kind. -/
def places (p : Rule → Bool) (rules : List (Rule × Nat)) : List (Rule × Nat) :=
  rules.filter fun o => p o.1

theorem zipIdx_index_injective {rules : List Rule} {o o' : Rule × Nat} (h : o ∈ rules.zipIdx)
    (h' : o' ∈ rules.zipIdx) (hi : o.2 = o'.2) : o = o' := by
  rw [List.mem_zipIdx_iff_getElem?] at h h'
  rw [hi, h'] at h
  exact Prod.ext (Option.some.inj h).symm hi

theorem pairwise_zipIdx (rules : List Rule) (k : Nat) :
    (rules.zipIdx k).Pairwise fun a b => a.2 < b.2 := by
  induction rules generalizing k with
  | nil => simp
  | cons r rest ih =>
    rw [List.zipIdx_cons, List.pairwise_cons]
    refine ⟨fun o ho => ?_, ih (k + 1)⟩
    have hle := List.le_snd_of_mem_zipIdx ho
    exact hle

/-- What the turns of a pass come to: the rules of its kind are resolved from left to right and the
nodes that come of it are grafted in their places. The induction is on the rules that were not
looked at yet; those before them hold none of the kind any more. -/
theorem replaceEach_graft {p : Rule → Bool} (hp : ∀ r s : Rule, r.same s = true → p r = p s)
    {f : Rule → Program Condition} (hf : ∀ r, (f r).Yields fun n => ∀ s ∈ n.rules, p s = false)
    {c : Condition} (rest before : List (Rule × Nat)) (held : List (Nat × Condition)) (turns : Nat)
    (hc : c.rules.zipIdx = before ++ rest)
    (hbefore : ∀ o ∈ before, ∀ s ∈ (leaf (filling held) o).rules, p s = false)
    (hheld : ∀ o ∈ rest, p o.1 = true → filling held o.2 = none)
    (hother : ∀ o ∈ rest, p o.1 = false → ∀ s ∈ (leaf (filling held) o).rules, p s = false)
    (hturns : (places p rest).length ≤ turns) :
    replaceEach p f turns (graft (filling held) 0 c) = (do
      let nodes ← (places p rest).mapM fun o => f o.1
      pure (graft (filling (held ++ ((places p rest).map (·.2)).zip nodes)) 0 c)) := by
  induction rest generalizing before held turns with
  | nil =>
    have hnone : (graft (filling held) 0 c).find? p = none := by
      rw [find?_eq_none, rules_graft, hc, List.append_nil]
      intro s hs
      obtain ⟨o, ho, hs⟩ := List.mem_flatMap.1 hs
      exact hbefore o ho s hs
    have hresult : replaceEach p f turns (graft (filling held) 0 c) =
        pure (graft (filling held) 0 c) := by
      cases turns with
      | zero => rfl
      | succ turns => rw [replaceEach, hnone]
    rw [hresult]
    simp [places]
  | cons o rest ih =>
    obtain ⟨r, i⟩ := o
    have hc' : c.rules.zipIdx = (before ++ [(r, i)]) ++ rest := by simp [hc]
    rw [List.forall_mem_cons] at hheld hother
    -- A rule of another kind is passed over; one of this kind is replaced in this turn.
    cases hr : p r with
    | false =>
      have hplaces : places p ((r, i) :: rest) = places p rest := by simp [places, hr]
      rw [hplaces] at hturns ⊢
      refine ih (before ++ [(r, i)]) held turns hc' ?_ hheld.2 hother.2 hturns
      rw [List.forall_mem_append]
      exact ⟨hbefore, List.forall_mem_singleton.2 (hother.1 hr)⟩
    | true =>
      have hi := hheld.1 hr
      have hplaces : places p ((r, i) :: rest) = (r, i) :: places p rest := by simp [places, hr]
      rw [hplaces] at hturns ⊢
      obtain ⟨turns, rfl⟩ : ∃ n, turns = n + 1 := ⟨turns - 1, by simp at hturns; omega⟩
      have hsorted := pairwise_zipIdx c.rules 0
      rw [hc, List.pairwise_append, List.pairwise_cons] at hsorted
      obtain ⟨-, ⟨hafter, -⟩, hlt⟩ := hsorted
      have hfront : ∀ o ∈ before, o.2 ≠ i := fun o ho =>
        Nat.ne_of_lt (hlt o ho (r, i) (by simp))
      have hback : ∀ o ∈ rest, o.2 ≠ i := fun o ho => Nat.ne_of_gt (hafter o ho)
      -- Whatever is in front of the place holds none of the kind, so the loop finds this rule.
      have hbelow : ∀ o ∈ c.rules.zipIdx, o.2 < i →
          ∀ s ∈ (leaf (filling held) o).rules, p s = false := by
        intro o ho hoi
        rw [hc, List.mem_append, List.mem_cons] at ho
        rcases ho with ho | rfl | ho
        · exact hbefore o ho
        · omega
        · have hio : i < o.2 := hafter o ho
          omega
      have hmem : (r, i) ∈ c.rules.zipIdx := by simp [hc]
      have hsame : ∀ s : Rule, s.same r = true → p s = p r := fun s hs => hp s r hs
      have hfind := find?_graft hc hbefore hr hi
      rw [replaceEach, hfind]
      dsimp only
      rw [List.mapM_cons, bind_assoc]
      apply (hf r).bind_congr
      intro node hnode
      rw [replaceFirst_same hsame r.same_refl node hfind,
        replaceFirst_graft node hr hi 0 c hmem hbelow, ← filling_concat hi]
      dsimp only
      have hleaf : ∀ o : Rule × Nat, o.2 ≠ i →
          leaf (filling (held ++ [(i, node)])) o = leaf (filling held) o := by
        intro o ho
        rw [filling_concat hi]
        exact leaf_put_of_ne _ node ho
      rw [ih (before ++ [(r, i)]) (held ++ [(i, node)]) turns hc']
      · simp
      · rw [List.forall_mem_append]
        refine ⟨fun o ho => ?_, List.forall_mem_singleton.2 ?_⟩
        · rw [hleaf o (hfront o ho)]
          exact hbefore o ho
        · rw [filling_concat hi, leaf_put_self _ node (r, i)]
          exact hnode
      · intro o ho hpo
        rw [filling_concat hi, put, if_neg (hback o ho)]
        exact hheld.2 o ho hpo
      · intro o ho hpo
        rw [hleaf o (hback o ho)]
        exact hother.2 o ho hpo
      · simpa using hturns

/-! ## All passes -/

/-- The rules that a pass is about, with their places. -/
def passPlaces (c : Condition) (ops : List RuleOp) : List (Rule × Nat) :=
  places (fun r => ops.contains r.op) c.rules.zipIdx

/-- The placeholders of a tree with their places, in the order in which they are resolved. -/
def occurrences (c : Condition) : List (Rule × Nat) := passes.flatMap (passPlaces c)

/-- A pass has at least as many turns as there are rules left that it is about. -/
theorem length_places_le (p : Rule → Bool) (σ : Nat → Option Condition) (rules : List (Rule × Nat))
    (h : ∀ o ∈ rules, p o.1 = true → σ o.2 = none) :
    (places p rules).length ≤ ((rules.flatMap fun o => (leaf σ o).rules).filter p).length := by
  induction rules with
  | nil => simp [places]
  | cons o rest ih =>
    rw [List.forall_mem_cons] at h
    have hrest := ih h.2
    rw [List.flatMap_cons, List.filter_append, List.length_append]
    -- A rule of the kind still stands in its place and counts there.
    cases ho : p o.1 with
    | false =>
      have hplaces : places p (o :: rest) = places p rest := by simp [places, ho]
      rw [hplaces]
      omega
    | true =>
      have hplaces : places p (o :: rest) = o :: places p rest := by simp [places, ho]
      have hleaf : ((leaf σ o).rules.filter p).length = 1 := by
        simp [leaf, h.1 ho, Condition.rules, ho]
      rw [hplaces, List.length_cons, hleaf]
      omega

theorem not_contains_of_placeholders {ops : List RuleOp}
    (h : ∀ op ∈ ops, op.isPlaceholder = true) {r : Rule} (hr : r.op.isPlaceholder = false) :
    ops.contains r.op = false := by
  by_contra hops
  have hmem : r.op ∈ ops := by simpa using hops
  rw [h r.op hmem] at hr
  cases hr

/-- One pass over a tree in which earlier passes have put resolved nodes in other places. -/
theorem replaceEach_pass (ctx : Context) (expand : Expand) (e : Entity) (c : Condition)
    {ops : List RuleOp} (hplaceholder : ∀ op ∈ ops, op.isPlaceholder = true)
    {held : List (Nat × Condition)} (hresolved : ∀ d ∈ held, d.2.Resolved)
    (hfree : ∀ o ∈ passPlaces c ops, filling held o.2 = none) :
    replaceEach (fun r => ops.contains r.op) (placeholder ctx expand e)
        ((graft (filling held) 0 c).count fun r => ops.contains r.op)
        (graft (filling held) 0 c) = (do
      let nodes ← (passPlaces c ops).mapM fun o => placeholder ctx expand e o.1
      pure (graft (filling (held ++ ((passPlaces c ops).map (·.2)).zip nodes)) 0 c)) := by
  have hout : ∀ n : Condition, n.Resolved → ∀ s ∈ n.rules, ops.contains s.op = false :=
    fun n hn s hs => not_contains_of_placeholders hplaceholder (hn s hs)
  have hsame : ∀ r s : Rule, r.same s = true → ops.contains r.op = ops.contains s.op :=
    fun r s hrs => by rw [Rule.op_of_same hrs]
  have hyields (r : Rule) : (placeholder ctx expand e r).Yields fun n =>
      ∀ s ∈ n.rules, ops.contains s.op = false := (yields_placeholder ctx expand e r).mono hout
  have hheld : ∀ o ∈ c.rules.zipIdx, ops.contains o.1.op = true → filling held o.2 = none :=
    fun o ho hpo => hfree o (List.mem_filter.2 ⟨ho, hpo⟩)
  have hother : ∀ o ∈ c.rules.zipIdx, ops.contains o.1.op = false →
      ∀ s ∈ (leaf (filling held) o).rules, ops.contains s.op = false := by
    intro o ho hpo s hs
    rw [leaf] at hs
    cases hf : filling held o.2 with
    | none =>
      rw [hf] at hs
      simp only [Option.getD_none, Condition.rules, List.mem_singleton] at hs
      rw [hs]
      exact hpo
    | some node =>
      rw [hf] at hs
      exact hout node (hresolved _ (mem_of_filling hf)) s hs
  refine replaceEach_graft hsame hyields c.rules.zipIdx [] held _ rfl (by simp) hheld hother ?_
  rw [count_eq, rules_graft]
  exact length_places_le _ (filling held) _ hheld

/-- What one pass puts in its places leaves those of a later one free. -/
theorem filling_pass (c : Condition) {ops ops' : List RuleOp} (h : ∀ op ∈ ops, op ∉ ops')
    {held : List (Nat × Condition)} {o : Rule × Nat} (ho : o ∈ passPlaces c ops')
    (hfree : filling held o.2 = none) (nodes : List Condition) :
    filling (held ++ ((passPlaces c ops).map (·.2)).zip nodes) o.2 = none := by
  rw [filling_append, hfree, Option.none_or]
  -- A place of both passes would be one rule with an operator of both.
  by_contra hsome
  obtain ⟨node, hnode⟩ := Option.ne_none_iff_exists'.1 hsome
  obtain ⟨o', ho', hi⟩ := List.mem_map.1 (List.of_mem_zip (mem_of_filling hnode)).1
  obtain ⟨hmem', hops⟩ := List.mem_filter.1 ho'
  obtain ⟨hmem, hops'⟩ := List.mem_filter.1 ho
  rw [zipIdx_index_injective hmem' hmem hi] at hops
  have hin : o.1.op ∈ ops := by simpa using hops
  have hin' : o.1.op ∈ ops' := by simpa using hops'
  exact h o.1.op hin hin'

/-- What the passes come to: all their rules are resolved, pass by pass and from left to right, and
the nodes that come of it are grafted in their places. -/
theorem replaceAll_graft (ctx : Context) (expand : Expand) (e : Entity) (c : Condition)
    (ps : List (List RuleOp)) (hdisjoint : ps.Pairwise fun a b => ∀ op ∈ a, op ∉ b)
    (hplaceholder : ∀ ops ∈ ps, ∀ op ∈ ops, op.isPlaceholder = true)
    (held : List (Nat × Condition)) (hresolved : ∀ d ∈ held, d.2.Resolved)
    (hfree : ∀ ops ∈ ps, ∀ o ∈ passPlaces c ops, filling held o.2 = none) :
    replaceAll ctx expand e ps (graft (filling held) 0 c) = (do
      let nodes ← (ps.flatMap (passPlaces c)).mapM fun o => placeholder ctx expand e o.1
      pure (graft (filling (held ++ ((ps.flatMap (passPlaces c)).map (·.2)).zip nodes)) 0 c)) := by
  induction ps generalizing held with
  | nil => simp [replaceAll]
  | cons ops rest ih =>
    rw [List.pairwise_cons] at hdisjoint
    rw [List.forall_mem_cons] at hplaceholder hfree
    have hmapM : ((passPlaces c ops).mapM fun o => placeholder ctx expand e o.1).Yields fun nodes =>
        nodes.length = (passPlaces c ops).length ∧ ∀ n ∈ nodes, n.Resolved :=
      .mapM fun o _ => yields_placeholder ctx expand e o.1
    rw [replaceAll, List.flatMap_cons, List.mapM_append, bind_assoc,
      replaceEach_pass ctx expand e c hplaceholder.1 hresolved hfree.1, bind_assoc]
    apply hmapM.bind_congr
    intro nodes hnodes
    rw [pure_bind, bind_assoc]
    -- What this pass puts in its places is resolved, so later passes leave it alone.
    have hheld : ∀ d ∈ held ++ ((passPlaces c ops).map (·.2)).zip nodes, d.2.Resolved := by
      rw [List.forall_mem_append]
      exact ⟨hresolved, fun d hd => hnodes.2 d.2 (List.of_mem_zip hd).2⟩
    rw [ih hdisjoint.2 hplaceholder.2 _ hheld fun ops' hops' o ho =>
      filling_pass c (hdisjoint.1 ops' hops') ho (hfree.2 ops' hops' o ho) nodes]
    congr 1
    funext nodes'
    rw [pure_bind, List.map_append, List.zip_append (by simp [hnodes.1]), List.append_assoc]

/-! ## Reducing -/

theorem mem_occurrences {c : Condition} {o : Rule × Nat} :
    o ∈ occurrences c ↔ o ∈ c.rules.zipIdx ∧ o.1.op.isPlaceholder = true := by
  have hops : ∀ op : RuleOp, op.isPlaceholder = true ↔ ∃ ops ∈ passes, ops.contains op = true := by
    intro op
    cases op <;> decide
  simp only [occurrences, List.mem_flatMap, passPlaces, places, List.mem_filter, hops]
  constructor
  · rintro ⟨ops, hmem, ho, hop⟩
    exact ⟨ho, ops, hmem, hop⟩
  · rintro ⟨ho, ops, hmem, hop⟩
    exact ⟨ops, hmem, ho, hop⟩

theorem disjoint_passes : passes.Pairwise fun a b => ∀ op ∈ a, op ∉ b := by decide

theorem isPlaceholder_passes : ∀ ops ∈ passes, ∀ op ∈ ops, op.isPlaceholder = true := by decide

/-- Every placeholder occurs once. -/
theorem nodup_occurrences (c : Condition) : (occurrences c).Nodup := by
  have hnodup : c.rules.zipIdx.Nodup :=
    (pairwise_zipIdx c.rules 0).imp fun h hab => by
      rw [hab] at h
      exact Nat.lt_irrefl _ h
  rw [occurrences, List.nodup_flatMap]
  refine ⟨fun ops _ => hnodup.filter _, disjoint_passes.imp fun h o ho ho' => ?_⟩
  have hin := (List.mem_filter.1 ho).2
  have hin' := (List.mem_filter.1 ho').2
  exact h o.1.op (by simpa using hin) (by simpa using hin')

/-- What the placeholders of a tree were resolved to, by their places. -/
def resolutions (c : Condition) (nodes : List Condition) : Nat → Option Condition :=
  filling (((occurrences c).map (·.2)).zip nodes)

/-- The tree with what its placeholders were resolved to in their places. -/
def substituted (c : Condition) (nodes : List Condition) : Condition :=
  c.graft (resolutions c nodes) 0

theorem resolutions_of_not_placeholder {c : Condition} (nodes : List Condition) {o : Rule × Nat}
    (ho : o ∈ c.rules.zipIdx) (hop : o.1.op.isPlaceholder = false) :
    resolutions c nodes o.2 = none := by
  by_contra hsome
  obtain ⟨node, hnode⟩ := Option.ne_none_iff_exists'.1 hsome
  obtain ⟨o', ho', hi⟩ := List.mem_map.1 (List.of_mem_zip (mem_of_filling hnode)).1
  rw [mem_occurrences] at ho'
  rw [zipIdx_index_injective ho'.1 ho hi, hop] at ho'
  exact absurd ho'.2 (by simp)

/-- Each place holds the node that its own placeholder was resolved to. -/
theorem filling_zip {os : List (Rule × Nat)} (hnodup : (os.map (·.2)).Nodup)
    {nodes : List Condition} {o : Rule × Nat} {node : Condition} (h : (o, node) ∈ os.zip nodes) :
    filling ((os.map (·.2)).zip nodes) o.2 = some node := by
  induction os generalizing nodes with
  | nil => simp at h
  | cons a os ih =>
    cases nodes with
    | nil => simp at h
    | cons n nodes =>
      rw [List.map_cons, List.nodup_cons] at hnodup
      rw [List.zip_cons_cons, List.mem_cons] at h
      rcases h with h | h
      · cases h
        simp [filling]
      · have hne : a.2 ≠ o.2 := fun hao =>
          hnodup.1 (hao ▸ List.mem_map_of_mem (List.of_mem_zip h).1)
        have hrest := ih hnodup.2 h
        rw [filling] at hrest
        simp [filling, hne, hrest]

theorem nodup_occurrences_index (c : Condition) : ((occurrences c).map (·.2)).Nodup := by
  refine (nodup_occurrences c).map_on fun o ho o' ho' hi => ?_
  exact zipIdx_index_injective (mem_occurrences.1 ho).1 (mem_occurrences.1 ho').1 hi

theorem resolutions_of_mem_zip {c : Condition} {nodes : List Condition} {o : Rule × Nat}
    {node : Condition} (h : (o, node) ∈ (occurrences c).zip nodes) :
    resolutions c nodes o.2 = some node := filling_zip (nodup_occurrences_index c) h

theorem resolved_substituted {c : Condition} {nodes : List Condition}
    (hlength : nodes.length = (occurrences c).length) (hnodes : ∀ n ∈ nodes, n.Resolved) :
    (substituted c nodes).Resolved := by
  intro s hs
  rw [substituted, rules_graft, List.mem_flatMap] at hs
  obtain ⟨o, ho, hs⟩ := hs
  rw [leaf] at hs
  -- Other rules stay what they are, and every placeholder gives way to a resolved node.
  cases hop : o.1.op.isPlaceholder with
  | false =>
    rw [resolutions_of_not_placeholder nodes ho hop] at hs
    simp only [Option.getD_none, Condition.rules, List.mem_singleton] at hs
    rw [hs]
    exact hop
  | true =>
    obtain ⟨k, hk, hok⟩ := List.getElem_of_mem (mem_occurrences.2 ⟨ho, hop⟩)
    have hmem : (o, nodes[k]) ∈ (occurrences c).zip nodes := by
      rw [← hok]
      exact List.mem_iff_getElem.2 ⟨k, by simp [hlength, hk], by simp⟩
    rw [resolutions_of_mem_zip hmem] at hs
    exact hnodes _ (List.getElem_mem _) s hs

/-- Nothing is substituted in a tree without placeholders. -/
theorem substituted_of_resolved {c : Condition} (h : c.Resolved) :
    occurrences c = [] ∧ ∀ nodes, substituted c nodes = c := by
  have hnone : occurrences c = [] := by
    rw [List.eq_nil_iff_forall_not_mem]
    intro o ho
    rw [mem_occurrences] at ho
    rw [h o.1 (List.fst_mem_of_mem_zipIdx ho.1)] at ho
    exact absurd ho.2 (by simp)
  refine ⟨hnone, fun nodes => ?_⟩
  rw [substituted, resolutions, hnone]
  exact graft_none 0 c

/-- How stored filters are reduced inside the stored filters `visiting`. -/
def expansion (ctx : Context) : (levels : Nat) → (visiting : List String) → Expand
  | 0, visiting, stored => cyclic (visiting ++ [stored.id])
  | levels + 1, visiting, stored =>
    if visiting.contains stored.id then cyclic (visiting ++ [stored.id])
    else reduceTree ctx levels (visiting ++ [stored.id]) stored.entity stored.condition

theorem reduceTree_eq (ctx : Context) (levels : Nat) (visiting : List String) (entity : String)
    (c : Condition) :
    reduceTree ctx levels visiting entity c =
      reduceWith ctx (expansion ctx levels visiting) entity c := by
  cases levels <;> rfl

/-- Reducing a tree substitutes what its placeholders stand for. -/
theorem reduceWith_eq (ctx : Context) (expand : Expand) (entity : String) (c : Condition) :
    reduceWith ctx expand entity c = (do
      let e ← Program.ofResult (ctx.catalog.entity entity)
      let merged := ctx.sight.narrow e c
      let nodes ← (occurrences merged).mapM fun o => placeholder ctx expand e o.1
      pure (substituted merged nodes)) := by
  rw [reduceWith]
  congr 1
  funext e
  have hall := replaceAll_graft ctx expand e (ctx.sight.narrow e c) passes disjoint_passes
    isPlaceholder_passes [] (by simp) (by simp [filling])
  rw [show filling [] = fun _ => none from rfl, graft_none] at hall
  exact hall

theorem yields_reduceWith (ctx : Context) (expand : Expand) (entity : String) (c : Condition) :
    (reduceWith ctx expand entity c).Yields Resolved := by
  rw [reduceWith_eq]
  refine .next fun e => ?_
  refine Program.Yields.bind (.mapM fun o _ => yields_placeholder ctx expand e o.1)
    fun nodes h => ?_
  exact .pure (resolved_substituted h.1 h.2)

/-- A tree without placeholders that is narrowed no further is reduced already. -/
theorem reduceWith_of_resolved {ctx : Context} (hs : ctx.sight = .everything) (expand : Expand)
    (entity : String) {c : Condition} (hc : c.Resolved) :
    reduceWith ctx expand entity c = (do
      let _ ← Program.ofResult (ctx.catalog.entity entity)
      pure c) := by
  have hsub := substituted_of_resolved hc
  rw [reduceWith_eq, hs]
  congr 1
  funext e
  show (occurrences c).mapM (fun o => placeholder ctx expand e o.1) >>=
    (fun nodes => pure (substituted c nodes)) = pure c
  rw [hsub.1, List.mapM_nil, pure_bind, hsub.2]

theorem reduce_of_system {caller : Caller} (h : caller.isSystem = true) (s : Session)
    (entity : String) {c : Condition} (hc : c.Resolved) :
    reduce s entity c caller = (do
      let catalog ← Program.catalog
      let _ ← Program.ofResult (catalog.entity entity)
      pure c) := by
  rw [reduce]
  congr 1
  funext catalog
  rw [Session.sight, if_pos h, pure_bind]
  cases he : catalog.entity entity with
  | error e => rfl
  | ok e =>
    show reduceTree ⟨s, catalog, caller, .everything⟩ _ _ entity c = pure c
    rw [reduceTree_eq, reduceWith_of_resolved rfl _ entity hc, he]
    rfl

/-- A run that reduces a tree asks what the caller sees and resolves the placeholders of what the tree
is narrowed to. -/
theorem runs_reduce {s : Session} {entity : String} {c c' : Condition} {caller : Caller}
    {t : List Exchange} :
    (reduce s entity c caller).Runs t (.ok c') ↔
      ∃ (catalog : Catalog) (e : Entity) (sight : Sight) (nodes : List Condition)
        (seeing resolving : List Exchange),
        t = ⟨.catalog, catalog⟩ :: (seeing ++ resolving) ∧ catalog.entity entity = .ok e ∧
        (s.sight caller).Runs seeing (.ok sight) ∧
        ((occurrences (sight.narrow e c)).mapM fun o => placeholder ⟨s, catalog, caller, sight⟩
          (expansion ⟨s, catalog, caller, sight⟩ catalog.storedFilters []) e o.1).Runs
          resolving (.ok nodes) ∧
        c' = substituted (sight.narrow e c) nodes := by
  constructor
  · intro h
    obtain ⟨catalog, t₁, rfl, h₁⟩ := Program.Runs.catalog_bind_iff.1 h
    obtain ⟨e, he, h₂⟩ := Program.Runs.ofResult_bind_ok.1 h₁
    obtain ⟨seeing, t₂, sight, rfl, hsight, h₃⟩ := Program.Runs.bind_ok.1 h₂
    rw [reduceTree_eq, reduceWith_eq] at h₃
    obtain ⟨_, he', h₄⟩ := Program.Runs.ofResult_bind_ok.1 h₃
    cases he.symm.trans he'
    obtain ⟨resolving, _, nodes, rfl, hnodes, rfl, hc⟩ := Program.Runs.bind_ok.1 h₄
    cases hc
    exact ⟨catalog, e, sight, nodes, seeing, resolving, by simp, he, hsight, hnodes, rfl⟩
  · rintro ⟨catalog, e, sight, nodes, seeing, resolving, rfl, he, hsight, hnodes, rfl⟩
    refine Program.Runs.catalog_bind_iff.2 ⟨catalog, _, rfl, ?_⟩
    refine Program.Runs.ofResult_bind_ok.2 ⟨e, he, ?_⟩
    refine Program.Runs.bind_ok.2 ⟨seeing, resolving, sight, rfl, hsight, ?_⟩
    rw [reduceTree_eq, reduceWith_eq]
    refine Program.Runs.ofResult_bind_ok.2 ⟨e, he, ?_⟩
    exact Program.Runs.bind_ok.2
      ⟨resolving, [], nodes, (List.append_nil resolving).symm, hnodes, rfl, rfl⟩

/-- A reduced condition has no placeholders. -/
theorem yields_reduce (s : Session) (entity : String) (c : Condition) (caller : Caller) :
    (reduce s entity c caller).Yields Condition.Resolved := by
  rw [reduce]
  refine .next fun catalog => .next fun e => .next fun sight => ?_
  rw [reduceTree_eq]
  exact yields_reduceWith _ _ entity c

/-- Reducing is pointwise: the tree that is narrowed to what the caller sees keeps its groups,
malformed nodes and other rules, and in the place of each placeholder stands the node that this one
was resolved to. Each is resolved once, pass by pass and from left to right. No placeholder is left,
so that for the system reducing once more changes and reads nothing. -/
theorem reduce_pointwise (s : Session) (entity : String) (c : Condition) (caller : Caller) :
    reduce s entity c caller = (do
      let catalog ← Program.catalog
      let e ← Program.ofResult (catalog.entity entity)
      let sight ← s.sight caller
      let ctx : Context := ⟨s, catalog, caller, sight⟩
      let merged := sight.narrow e c
      let nodes ← (occurrences merged).mapM fun o =>
        placeholder ctx (expansion ctx catalog.storedFilters []) e o.1
      pure (merged.graft (resolutions merged nodes) 0)) ∧
    (∀ (merged : Condition) (nodes : List Condition),
      (occurrences merged).Nodup ∧
      (∀ o, o ∈ occurrences merged ↔
        o ∈ merged.rules.zipIdx ∧ o.1.op.isPlaceholder = true) ∧
      (∀ o node, (o, node) ∈ (occurrences merged).zip nodes →
        resolutions merged nodes o.2 = some node) ∧
      ∀ o ∈ merged.rules.zipIdx, o.1.op.isPlaceholder = false →
        resolutions merged nodes o.2 = none) ∧
    (reduce s entity c caller).Yields fun c' =>
      c'.placeholders = 0 ∧
      (caller.isSystem = true → ∀ s' : Session,
        reduce s' entity c' caller = (do
          let catalog ← Program.catalog
          let _ ← Program.ofResult (catalog.entity entity)
          pure c')) := by
  refine ⟨?_, fun merged nodes => ⟨nodup_occurrences merged, fun o => mem_occurrences,
    fun o node h => resolutions_of_mem_zip h,
    fun o ho hop => resolutions_of_not_placeholder nodes ho hop⟩, ?_⟩
  · rw [reduce]
    congr 1
    funext catalog
    cases he : catalog.entity entity with
    | error e => rfl
    | ok e =>
      -- The two differ in what is done once it is known what the caller sees.
      show s.sight caller >>= _ = s.sight caller >>= _
      congr 1
      funext sight
      rw [reduceTree_eq, reduceWith_eq, he]
      rfl
  · refine (yields_reduce s entity c caller).mono fun c' hc' => ?_
    exact ⟨placeholders_eq_zero.2 hc', fun h s' => reduce_of_system h s' entity hc'⟩

end Reduce

end CatalogQuery
