import CatalogQuery.Proofs.Compile.Renaming
import Mathlib.Algebra.Order.BigOperators.Group.List
import Mathlib.Algebra.Order.Group.Nat
import Mathlib.Algebra.Order.Ring.Nat
import Mathlib.Data.Nat.Find

/-!
# Levels of subqueries

Compiling stops where more subqueries lie within each other than a bound allows. Main statement: the
bound that is set beforehand is high enough for whatever can be compiled at any bound. A filter that a
rule carries is less deeply nested than the rule, and in a chain of subqueries that ends no formula
field comes twice.
-/

namespace CatalogQuery

/-! ## Nesting of values -/

namespace Decode

/-- How deeply the values that are left to read are nested. -/
def sourceDepth : MemberSource → Nat
  | .named members => Json.depthMembers members
  | .ordered items => Json.depthItems items

theorem bind_eq_some {α β : Type} {m : MemberReader α} {f : α → MemberReader β}
    {source rest : MemberSource} {b : β} (h : (m >>= f) source = some (b, rest)) :
    ∃ a mid, m source = some (a, mid) ∧ f a mid = some (b, rest) := by
  obtain ⟨⟨a, mid⟩, ha, hb⟩ := Option.bind_eq_some_iff.1 h
  exact ⟨a, mid, ha, hb⟩

theorem depth_find {name : String} {members : Json.Members} {v : Json}
    (h : Json.find name members = some v) : v.depth ≤ Json.depthMembers members := by
  induction members with
  | nil => cases h
  | cons member members ih =>
    rw [Json.depthMembers]
    rw [Json.find] at h
    split at h
    · cases h
      exact Nat.le_max_left _ _
    · exact (ih h).trans (Nat.le_max_right _ _)

theorem depth_next {names : List String} {source rest : MemberSource} {found : Option Json}
    (h : next names source = some (found, rest)) :
    sourceDepth rest ≤ sourceDepth source ∧ ∀ v ∈ found, v.depth ≤ sourceDepth source := by
  rw [next.eq_def] at h
  split at h
  · rename_i members
    split at h
    · cases h
      exact ⟨le_rfl, by simp⟩
    · rename_i v hv
      cases h
      refine ⟨le_rfl, fun w hw => ?_⟩
      cases hw
      have hmem : v ∈ names.filterMap fun name => Json.find name members := by simp [hv]
      obtain ⟨name, -, hfind⟩ := List.mem_filterMap.1 hmem
      exact depth_find hfind
    · cases h
  · cases h
    exact ⟨le_rfl, by simp⟩
  · cases h
    refine ⟨Nat.le_max_right _ _, fun w hw => ?_⟩
    cases hw
    exact Nat.le_max_left _ _

theorem depth_required {α : Type} {name : String} {decode : Json → Option α}
    {source rest : MemberSource} {a : α} (h : required name decode source = some (a, rest)) :
    sourceDepth rest ≤ sourceDepth source := by
  obtain ⟨found, mid, hnext, h⟩ := bind_eq_some h
  obtain ⟨a', -, h⟩ := Option.bind_eq_some_iff.1 h
  cases h
  exact (depth_next hnext).1

end Decode

open Decode

/-- The value of a rule lies in what the rule is read from. -/
theorem Rule.depth_reader {source rest : MemberSource} {r : Rule}
    (h : Rule.reader source = some (r, rest)) : r.value.depth ≤ sourceDepth source := by
  obtain ⟨key, source₁, hkey, h⟩ := bind_eq_some h
  obtain ⟨op, source₂, hop, h⟩ := bind_eq_some h
  obtain ⟨value, source₃, hvalue, h⟩ := bind_eq_some h
  obtain ⟨joined, source₄, -, h⟩ := bind_eq_some h
  cases h
  obtain ⟨found, source₅, hnext, hvalue⟩ := bind_eq_some hvalue
  have hdepth : value.depth ≤ sourceDepth source₂ := by
    cases found with
    | none =>
      cases hvalue
      exact Nat.zero_le _
    | some v =>
      cases hvalue
      exact (depth_next hnext).2 _ rfl
  exact hdepth.trans ((depth_required hop).trans (depth_required hkey))

theorem Rule.depth_ofJson {v : Json} {r : Rule} (h : Rule.ofJson v = some r) :
    r.value.depth ≤ v.depth - 1 := by
  have hsource {source : MemberSource} (h : fromSource Rule.reader source = some r) :
      r.value.depth ≤ sourceDepth source := by
    rw [fromSource] at h
    split at h <;> cases h
    case h_1 | h_2 => exact Rule.depth_reader ‹_›
  rw [Rule.ofJson, structured.eq_def] at h
  split at h
  · exact hsource h
  · exact hsource h
  · cases h

namespace Condition

theorem valueDepth_ungrouped (v : Json) : (ungrouped v).valueDepth ≤ v.depth - 1 := by
  rw [ungrouped]
  split
  · rw [valueDepth]
    exact Rule.depth_ofJson ‹_›
  · exact Nat.zero_le _

mutual
/-- The values in a condition lie in what the condition is read from. -/
theorem valueDepth_ofJson : (v : Json) → (ofJson v).valueDepth ≤ v.depth - 1
  | .obj members => by
    rw [ofJson]
    split
    · rename_i nodes _ hnodes
      rw [valueDepth]
      exact valueDepth_memberNodes members hnodes
    · exact valueDepth_ungrouped _
  | .arr [g, .arr items] => by
    have hnodes := valueDepth_nodesOf items
    rw [ofJson]
    split
    · rw [valueDepth]
      simp only [Json.depth, Json.depthItems]
      omega
    · exact valueDepth_ungrouped _
  | .arr (_ :: v :: _ :: _) => by
    rw [ofJson.eq_def]
    cases v <;> exact valueDepth_ungrouped _
  | .null | .bool _ | .num _ | .str _ | .arr [] | .arr [_] | .arr [_, .null] | .arr [_, .bool _]
  | .arr [_, .num _] | .arr [_, .str _] | .arr [_, .obj _] => by
    rw [ofJson.eq_def]
    exact valueDepth_ungrouped _
theorem valueDepth_memberNodes : (members : List (String × Json)) → {nodes : List Condition} →
    memberNodes members = some nodes → valueDepthIn nodes ≤ Json.depthMembers members
  | [], _, h => by cases h
  | (k, .arr items) :: rest, nodes, h => by
    rw [memberNodes] at h
    rw [Json.depthMembers]
    split at h
    · cases h
      have hitems := valueDepth_nodesOf items
      rw [Json.depth]
      omega
    · exact (valueDepth_memberNodes rest h).trans (Nat.le_max_right _ _)
  | (k, .null) :: rest, nodes, h | (k, .bool _) :: rest, nodes, h | (k, .num _) :: rest, nodes, h
  | (k, .str _) :: rest, nodes, h | (k, .obj _) :: rest, nodes, h => by
    rw [memberNodes.eq_def] at h
    rw [Json.depthMembers]
    dsimp only at h
    split at h
    · cases h
    · exact (valueDepth_memberNodes rest h).trans (Nat.le_max_right _ _)
theorem valueDepth_nodesOf : (items : List Json) → valueDepthIn (nodesOf items) ≤ Json.depthItems items
  | [] => by
    rw [nodesOf]
    exact Nat.zero_le _
  | v :: rest => by
    have hv := valueDepth_ofJson v
    have hrest := valueDepth_nodesOf rest
    rw [nodesOf, valueDepthIn, Json.depthItems]
    omega
end

mutual
theorem depth_le_valueDepth {r : Rule} : (c : Condition) → r ∈ c.rules →
    r.value.depth ≤ c.valueDepth
  | .group _ nodes, h => by
    rw [rules] at h
    rw [valueDepth]
    exact depth_le_valueDepthIn nodes h
  | .rule s, h => by
    rw [rules, List.mem_singleton] at h
    rw [valueDepth, h]
  | .malformed _, h => by
    rw [rules] at h
    cases h
theorem depth_le_valueDepthIn {r : Rule} : (cs : List Condition) → r ∈ rulesOf cs →
    r.value.depth ≤ valueDepthIn cs
  | [], h => by
    rw [rulesOf] at h
    cases h
  | c :: rest, h => by
    rw [rulesOf, List.mem_append] at h
    rw [valueDepthIn]
    rcases h with h | h
    · exact (depth_le_valueDepth c h).trans (Nat.le_max_left _ _)
    · exact (depth_le_valueDepthIn rest h).trans (Nat.le_max_right _ _)
end

end Condition

namespace Compile

open Sql

/-- A filter that a rule carries is less deeply nested than the value that it is read from. -/
theorem valueDepth_relationFilter {v : Json} {d : Condition} (h : relationFilter v = some d) :
    d.valueDepth + 1 ≤ v.depth := by
  rw [relationFilter.eq_def] at h
  split at h
  · rename_i members
    split at h
    · cases h
      have hdepth := Condition.valueDepth_ofJson (.obj members)
      rw [Json.depth] at hdepth ⊢
      omega
    · cases h
  · cases h

/-! ## Whether a condition can be compiled -/

variable {env : Env}

/-- Whether a condition on an object can be compiled with so many levels of subqueries. -/
def Compiles (env : Env) (levels : Nat) (frame : Frame) (c : Condition) : Prop :=
  ∃ p, (within env levels frame c).result = .ok p

/-- The filters that are in force stand in for themselves. -/
theorem standIn_self (env : Env) : env.StandIn env.filters := fun _ _ _ _ _ _ _ => rfl

/-- What a condition is compiled to says the same at any two bounds at which it is compiled. -/
theorem sameTruth_of_within {D : Dialect} {T : Tables} {levels levels' : Nat} {frame frame' : Frame}
    (hlike : frame.Like frame') (hentity : frame.entity ∈ env.catalog.entities) {c : Condition}
    {p p' : Option Predicate} (h : (within env levels frame c).result = .ok p)
    (h' : (within env levels' frame' c).result = .ok p') :
    SameTruth D T frame.table frame'.table p p' := by
  have hself := standIn_self env
  -- Both are what the condition comes to at the higher of the two bounds.
  obtain ⟨q, hq, hpq⟩ := refines_within hself (Nat.le_max_left levels levels') hlike hentity c p h
  have hentity' : frame'.entity ∈ env.catalog.entities := hlike.entity ▸ hentity
  obtain ⟨q', hq', hpq'⟩ :=
    refines_within hself (Nat.le_max_right levels levels') hlike.right hentity' c p' h'
  have heq : q = q' := Except.ok.inj (hq.symm.trans hq')
  subst heq
  intro scene scene' hrow
  exact (hpq scene scene' hrow).trans (hpq' scene' scene' rfl).symm

section

variable {levels levels' : Nat} {frame frame' : Frame} {c : Condition}

theorem Compiles.mono (h : Compiles env levels frame c) (hlevels : levels ≤ levels')
    (hlike : frame.Like frame') (hentity : frame.entity ∈ env.catalog.entities) :
    Compiles env levels' frame' c := by
  obtain ⟨p, hp⟩ := h
  obtain ⟨p', hp', -⟩ := refines_within (D := .mute) (T := fun _ => []) (standIn_self env) hlevels
    hlike hentity c p hp
  exact ⟨p', hp'⟩

theorem mem_entities_of_linked {owner target : Entity} {field : String}
    (h : Linked env owner field target) : target ∈ env.catalog.entities := by
  obtain ⟨l, -, htarget⟩ := h
  exact Catalog.mem_of_entity htarget

/-- A condition can be compiled at other bounds if what it leads to can. -/
theorem Compiles.succ (h : Compiles env (levels + 1) frame c) (hlike : frame.Like frame)
    (hinner : ∀ inside d, Enters env frame c inside d → Compiles env levels inside d →
      Compiles env levels' inside d) : Compiles env (levels' + 1) frame c := by
  have hrefines {target owner : Entity} {field head : String} (hhead : head ∈ heads)
      (hlinked : Linked env owner field target) {d : Condition}
      (hd : Enters env frame c (frame.inner target head) d) :
      (within env levels (frame.inner target head) d).Refines
        (SameTruth .mute (fun _ => []) (frame.inner target head).table (frame.inner target head).table)
        (within env levels' (frame.inner target head) d) := by
    intro p hp
    obtain ⟨p', hp'⟩ := hinner _ d hd ⟨p, hp⟩
    exact ⟨p', hp', sameTruth_of_within (.inner frame frame target hhead)
      (mem_entities_of_linked hlinked) hp hp'⟩
  have hleads : LeadsAlike .mute (fun _ => []) env env.filters (within env levels)
      (within env levels') frame frame c := by
    constructor
    · intro target d hd
      obtain ⟨-, -, -, -, -, owner, -, f, -, -, hlinked⟩ := id hd
      exact hrefines (by decide) hlinked (.carried hd)
    · intro owner f formula target hd
      obtain ⟨-, -, -, -, -, -, hlinked⟩ := id hd
      show (narrowed _ (env.filterOf f formula)).Refines _ (narrowed _ (env.filterOf f formula))
      cases hfilter : env.filterOf f formula with
      | none => exact .pure fun _ _ _ => rfl
      | some d => exact hrefines (by decide) hlinked (.formula hd hfilter)
  obtain ⟨p, hp⟩ := h
  rw [within] at hp
  obtain ⟨p', hp', -⟩ := refines_tree c (fun r hr => refines_rule hlike hleads hr) p hp
  exact ⟨p', hp'⟩

end

/-! ## The bound -/

/-- The fields of a catalog, each with its object. -/
def ownedFields (env : Env) : List (Entity × Field) :=
  env.catalog.entities.flatMap fun e => e.fields.map (Prod.mk e)

theorem formulaLevels_eq (env : Env) :
    formulaLevels env = ((ownedFields env).map fun o => fieldLevels env o.2).sum := by
  rw [formulaLevels, total, ← List.sum_eq_foldl_nat, ownedFields, List.map_flatMap]
  simp only [List.map_map, Function.comp_def]

/-- Whether a formula field leads to a filter that can be compiled at a bound below `n`. -/
def Settled (env : Env) (n : Nat) (o : Entity × Field) : Prop :=
  ∃ formula target d, o.2.type = .formula formula ∧ Linked env o.1 formula.field target ∧
    env.filterOf o.2 formula = some d ∧
    ∃ k < n, Compiles env k ((Frame.base o.1).inner target "__f") d

theorem Settled.mono {n m : Nat} {o : Entity × Field} (h : Settled env n o) (hle : n ≤ m) :
    Settled env m o := by
  obtain ⟨formula, target, d, htype, hlinked, hfilter, k, hk, hd⟩ := h
  exact ⟨formula, target, d, htype, hlinked, hfilter, k, hk.trans_le hle, hd⟩

open Classical in
/-- How many subqueries a formula field can add that is settled below `n`. -/
noncomputable def settledLevels (env : Env) (n : Nat) (o : Entity × Field) : Nat :=
  if Settled env n o then fieldLevels env o.2 else 0

theorem settledLevels_mono {n m : Nat} (hle : n ≤ m) (o : Entity × Field) :
    settledLevels env n o ≤ settledLevels env m o := by
  unfold settledLevels
  split_ifs with h h'
  · exact le_rfl
  · exact absurd (h.mono hle) h'
  · exact Nat.zero_le _
  · exact le_rfl

/-- How many subqueries the formula fields can add that are settled below `n`. -/
noncomputable def room (env : Env) (n : Nat) : Nat :=
  ((ownedFields env).map (settledLevels env n)).sum

theorem room_mono (env : Env) {n m : Nat} (hle : n ≤ m) : room env n ≤ room env m := by
  unfold room
  exact List.sum_le_sum fun o _ => settledLevels_mono hle o

theorem room_le_formulaLevels (env : Env) (n : Nat) : room env n ≤ formulaLevels env := by
  rw [formulaLevels_eq]
  refine List.sum_le_sum fun o _ => ?_
  unfold settledLevels
  split_ifs
  · exact le_rfl
  · exact Nat.zero_le _

theorem sum_map_add_le {α : Type} {f g : α → Nat} {a : α} {n : Nat} {as : List α}
    (hle : ∀ b, f b ≤ g b) (hmem : a ∈ as) (ha : f a + n ≤ g a) :
    (as.map f).sum + n ≤ (as.map g).sum := by
  induction as with
  | nil => cases hmem
  | cons b rest ih =>
    simp only [List.map_cons, List.sum_cons]
    rcases List.mem_cons.1 hmem with rfl | hmem
    · have hrest : (rest.map f).sum ≤ (rest.map g).sum := List.sum_le_sum fun b _ => hle b
      omega
    · have hb := hle b
      have hrest := ih hmem
      omega

/-- A field that comes to be settled makes room for what it adds. -/
theorem room_add_le {n m : Nat} (hle : n ≤ m) {o : Entity × Field} (hmem : o ∈ ownedFields env)
    (hbefore : ¬ Settled env n o) (hafter : Settled env m o) :
    room env n + fieldLevels env o.2 ≤ room env m := by
  refine sum_map_add_le (settledLevels_mono hle) hmem ?_
  rw [settledLevels, settledLevels, if_neg hbefore, if_pos hafter, Nat.zero_add]

/-- What leads to the filter of a formula field is settled by the filter alone. -/
theorem not_settled {o : Entity × Field} {formula : Formula} {target : Entity} {d : Condition}
    {n : Nat} (htype : o.2.type = .formula formula) (hlinked : Linked env o.1 formula.field target)
    (hfilter : env.filterOf o.2 formula = some d)
    (hd : ∀ k < n, ¬ Compiles env k ((Frame.base o.1).inner target "__f") d) :
    ¬ Settled env n o := by
  rintro ⟨formula', target', d', htype', hlinked', hfilter', k, hk, hd'⟩
  have hformula : formula' = formula := FieldType.formula.inj (htype'.symm.trans htype)
  subst hformula
  obtain ⟨l, hl, htarget⟩ := hlinked
  obtain ⟨l', hl', htarget'⟩ := hlinked'
  have hlink : l' = l := Except.ok.inj (hl'.symm.trans hl)
  subst hlink
  have hsame : target' = target := Except.ok.inj (htarget'.symm.trans htarget)
  subst hsame
  rw [hfilter] at hfilter'
  cases hfilter'
  exact hd k hk hd'

/-- What can be compiled at some bound can be compiled at one that leaves room for the formula fields
settled below it. -/
theorem Compiles.room {n : Nat} {frame : Frame} {c : Condition} (h : Compiles env n frame c)
    (hlike : frame.Like frame) (hentity : frame.entity ∈ env.catalog.entities) :
    Compiles env (room env n + c.valueDepth + 1) frame c := by
  induction n using Nat.strong_induction_on generalizing frame c with
  | _ n ih =>
  cases n with
  | zero =>
    obtain ⟨p, hp⟩ := h
    cases hp
  | succ n =>
    refine h.succ hlike fun inside d henters hd => ?_
    cases henters with
    | carried hcarried =>
      rename_i target
      obtain ⟨r, hr, -, -, hfilter, owner, -, f, -, -, hlinked⟩ := hcarried
      have hinside : (frame.inner target "__r").Like (frame.inner target "__r") :=
        .inner frame frame target (by decide)
      have hmem := mem_entities_of_linked hlinked
      refine (ih n (Nat.lt_succ_self n) hd hinside hmem).mono ?_ hinside hmem
      -- A carried filter is less deeply nested than the rule that carries it.
      have hvalue := valueDepth_relationFilter hfilter
      have hrule := Condition.depth_le_valueDepth c hr
      have hroom := room_mono env (Nat.le_add_right n 1)
      omega
    | formula hnames hfilter =>
      rename_i owner target f formula
      obtain ⟨r, -, -, table, hs, htype, hlinked⟩ := hnames
      have hinside : (frame.inner target "__f").Like ((Frame.base owner).inner target "__f") :=
        .inner frame (.base owner) target (by decide)
      have hmem := mem_entities_of_linked hlinked
      have hfield : (owner, f) ∈ ownedFields env := by
        obtain ⟨howner, hf⟩ := field_of_subject hs
        rw [(owner_of_bare hlike.aliases howner).1] at hf ⊢
        exact List.mem_flatMap.2 ⟨_, hentity, List.mem_map_of_mem (Entity.mem_of_field hf)⟩
      -- At the least bound for the filter the field is not settled, and so it does not come again.
      classical
      have hexists : ∃ k, Compiles env k ((Frame.base owner).inner target "__f") d :=
        ⟨n, hd.mono le_rfl hinside hmem⟩
      have hleast : Nat.find hexists ≤ n := Nat.find_min' hexists (hd.mono le_rfl hinside hmem)
      have hbefore : ¬ Settled env (Nat.find hexists) (owner, f) :=
        not_settled htype hlinked hfilter fun k hk => Nat.find_min hexists hk
      have hafter : Settled env (n + 1) (owner, f) :=
        ⟨formula, target, d, htype, hlinked, hfilter, Nat.find hexists, Nat.lt_succ_of_le hleast,
          Nat.find_spec hexists⟩
      have hroom := room_add_le (hleast.trans (Nat.le_add_right n 1)) hfield hbefore hafter
      have hlevels : fieldLevels env f = 1 + d.valueDepth := by
        rw [fieldLevels, htype]
        dsimp only
        rw [hfilter]
        rfl
      have hcompiles := ih _ (Nat.lt_succ_of_le hleast) (Nat.find_spec hexists) hinside.right hmem
      refine hcompiles.mono ?_ hinside.symm hmem
      rw [hlevels] at hroom
      omega

/-- A condition that can be compiled at any bound can be compiled at the one that is set for it. -/
theorem Compiles.condition {n : Nat} {frame : Frame} {c : Condition} (h : Compiles env n frame c)
    (hlike : frame.Like frame) (hentity : frame.entity ∈ env.catalog.entities) :
    ∃ p, (condition env frame c).result = .ok p := by
  have hroom := room_le_formulaLevels env n
  refine (h.room hlike hentity).mono ?_ hlike hentity
  omega

/-- What can be compiled in one frame can be compiled in another of the object, at any bound that is high
enough, with filters that stand in for others; and it says the same. -/
theorem exists_within_of_condition {D : Dialect} {T : Tables} {filters : List (String × Condition)}
    (hfilters : env.StandIn filters) {frame frame' : Frame} (hlike : frame.Like frame')
    (hentity : frame.entity ∈ env.catalog.entities) {c : Condition} {p : Option Predicate}
    (h : (Compile.condition env frame c).result = .ok p) {levels : Nat}
    (hlevels : formulaLevels (env.withFilters filters) + c.valueDepth + 1 ≤ levels) :
    ∃ p', (within (env.withFilters filters) levels frame' c).result = .ok p' ∧
      SameTruth D T frame.table frame'.table p p' := by
  have hentity' : frame'.entity ∈ (env.withFilters filters).catalog.entities :=
    hlike.entity ▸ hentity
  obtain ⟨q, hq, hpq⟩ := refines_within (D := D) (T := T) hfilters le_rfl hlike hentity c p h
  obtain ⟨p', hp'⟩ : Compiles (env.withFilters filters) levels frame' c :=
    Compiles.mono (Compiles.condition ⟨q, hq⟩ hlike.right hentity') hlevels hlike.right hentity'
  refine ⟨p', hp', fun scene scene' hrow => (hpq scene scene' hrow).trans ?_⟩
  exact sameTruth_of_within hlike.right hentity' hq hp' scene' scene' rfl

end Compile

end CatalogQuery
