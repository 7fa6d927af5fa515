import CatalogQuery.Proofs.Reduce.Substitution
import Mathlib.Data.List.Perm.Subperm

/-!
# How stored filters nest

Reducing as it goes on with one stack of the stored filters that are being expanded, which every call
pushes to and pops from, and without any bound but that of the calls within each other. Main
statement: the stack never holds an id twice and holds ids of stored filters only, every call leaves
it as it was, and one call more than there are stored filters is never needed within each other, so
that this comes to what reducing comes to.
-/

namespace CatalogQuery

/-- A program that comes to its failure as a result. -/
def Program.attempt {α : Type} : Program α → Program (Result α)
  | done a => done (.ok a)
  | failed e => done (.error e)
  | ask r next => ask r fun answer => (next answer).attempt

namespace Program

variable {α β : Type}

theorem attempt_bind (p : Program α) (f : α → Program β) :
    (p >>= f).attempt = p.attempt >>= fun
      | .ok a => (f a).attempt
      | .error e => pure (.error e) := by
  induction p with
  | done a => rfl
  | failed e => rfl
  | ask r next ih =>
    show ask r (fun answer => (next answer >>= f).attempt) = ask r _
    congr 1
    funext answer
    exact ih answer

theorem Yields.attempt {post : α → Prop} {p : Program α} (hp : p.Yields post) :
    p.attempt.Yields fun r => ∀ a, r = .ok a → post a := by
  induction p with
  | done a =>
    intro b hb
    cases hb
    exact hp
  | failed e => exact fun a ha => by cases ha
  | ask r next ih => exact ⟨trivial, fun answer _ => ih answer (hp.2 answer trivial)⟩

end Program

/-! ## Programs with a stack -/

/-- A program that works with a stack of ids and comes to a result; to none when it is given up. -/
abbrev Stacked (α : Type) := List String → Program (Option (Result α) × List String)

namespace Stacked

variable {α β : Type}

/-- A program that leaves the stack alone. -/
def lift (p : Program α) : Stacked α := fun stack => (fun r => (some r, stack)) <$> p.attempt

def giveUp : Stacked α := fun stack => pure (none, stack)

def bind (m : Stacked α) (f : α → Stacked β) : Stacked β := fun stack => do
  match ← m stack with
  | (some (.ok a), stack) => f a stack
  | (some (.error e), stack) => pure (some (.error e), stack)
  | (none, stack) => pure (none, stack)

/-- Pushes an id, and pops it again whatever the rest comes to. -/
def inside (id : String) (m : Stacked α) : Stacked α := fun stack => do
  let (r, stack) ← m (stack ++ [id])
  pure (r, stack.dropLast)

/-- Whether, from a stack, a program with a stack comes to what a program comes to, and leaves the stack
as it was. -/
def Follows (m : Stacked α) (stack : List String) (p : Program α) : Prop := m stack = lift p stack

theorem Follows.lift {p : Program α} {stack : List String} : (lift p).Follows stack p := rfl

theorem lift_bind (p : Program α) (f : α → Program β) (stack : List String) :
    lift (p >>= f) stack = bind (lift p) (fun a => lift (f a)) stack := by
  simp only [lift, bind, Program.attempt_bind, map_bind, bind_map_left]
  congr 1
  funext r
  cases r <;> rfl

/-- What comes second has to follow only for what the first can come to. -/
theorem Follows.bind {m : Stacked α} {f : α → Stacked β} {stack : List String} {p : Program α}
    {g : α → Program β} {post : α → Prop} (hm : m.Follows stack p) (hp : p.Yields post)
    (hf : ∀ a, post a → (f a).Follows stack (g a)) :
    (Stacked.bind m f).Follows stack (p >>= g) := by
  rw [Follows, lift_bind]
  simp only [Stacked.bind]
  rw [hm]
  simp only [Stacked.lift, bind_map_left]
  refine hp.attempt.bind_congr fun r hr => ?_
  cases r with
  | error e => rfl
  | ok a => exact hf a (hr a rfl)

theorem Follows.inside {m : Stacked α} {stack : List String} {p : Program α} {id : String}
    (h : m.Follows (stack ++ [id]) p) : (inside id m).Follows stack p := by
  rw [Follows, Stacked.inside, h]
  simp only [Stacked.lift, bind_pure_comp, Functor.map_map, List.dropLast_concat]

end Stacked

namespace Reduce

open Condition

/-! ## Stored filters that placeholders name -/

/-- The ids of the stored filters of a catalog. -/
def storedIds (catalog : Catalog) : List String :=
  catalog.queries.map (·.id) ++ catalog.collections.map (·.id)

theorem length_storedIds (catalog : Catalog) :
    (storedIds catalog).length = catalog.storedFilters := by
  simp [storedIds, Catalog.storedFilters]

/-- The stored filter that a placeholder names, with the column that its rows are asked for; none for
rules about the caller. -/
def sourceOf (catalog : Catalog) (r : Rule) : Option (Program (StoredSource × Option String)) :=
  match r.op with
  | .inQuery | .notInQuery => some do
    let stored ← Program.withLinks fun _ => queryNamed catalog r.value.plain
    pure (stored, none)
  | .inQueryField | .notInQueryField => some do
    let (stored, column) ← Program.withLinks fun _ => queryField catalog r
    pure (stored, some column)
  | .inDataCollection | .notInDataCollection => some do
    let stored ← Program.withLinks fun _ => collectionNamed catalog r.value.plain
    pure (stored, none)
  | _ => none

theorem placeholder_of_source {ctx : Context} {r : Rule}
    {source : Program (StoredSource × Option String)} (h : sourceOf ctx.catalog r = some source)
    (expand : Expand) (e : Entity) :
    placeholder ctx expand e r = source >>= fun found =>
      membership ctx expand e r found.1 found.2 := by
  rw [sourceOf.eq_def] at h
  rw [placeholder.eq_def]
  cases hop : r.op <;> rw [hop] at h <;> cases h <;> simp only [bind_assoc, pure_bind]

theorem placeholder_of_no_source {ctx : Context} {r : Rule} (h : sourceOf ctx.catalog r = none)
    (expand expand' : Expand) (e : Entity) :
    placeholder ctx expand e r = placeholder ctx expand' e r := by
  rw [sourceOf.eq_def] at h
  rw [placeholder.eq_def, placeholder.eq_def]
  cases hop : r.op <;> rw [hop] at h <;> first | rfl | cases h

theorem ensures_queryNamed (catalog : Catalog) (id : String) :
    (queryNamed catalog id).Ensures fun stored => stored.id ∈ storedIds catalog := by
  rw [queryNamed]
  split
  · rename_i q hq
    have hmem : q ∈ catalog.queries := List.mem_of_find?_eq_some hq
    exact .pure (List.mem_append_left _ (List.mem_map_of_mem hmem))
  · exact Traced.Ensures.trivial.bind fun _ _ => .fail

theorem ensures_collectionNamed (catalog : Catalog) (id : String) :
    (collectionNamed catalog id).Ensures fun stored => stored.id ∈ storedIds catalog := by
  rw [collectionNamed]
  split
  · rename_i d hd
    have hmem : d ∈ catalog.collections := List.mem_of_find?_eq_some hd
    have hid : d.id ∈ storedIds catalog := List.mem_append_right _ (List.mem_map_of_mem hmem)
    split
    · exact .pure hid
    · exact Traced.Ensures.trivial.bind fun _ _ => .pure hid
  · exact Traced.Ensures.trivial.bind fun _ _ => .fail

theorem ensures_queryField (catalog : Catalog) (r : Rule) :
    (queryField catalog r).Ensures fun found => found.1.id ∈ storedIds catalog := by
  rw [queryField]
  dsimp only
  split
  · exact .fail
  · refine (ensures_queryNamed catalog _).bind fun stored hstored => ?_
    refine Traced.Ensures.trivial.bind fun target _ => ?_
    split
    · exact .pure hstored
    · exact .fail

/-- What a placeholder names is a stored filter of the catalog. -/
theorem yields_sourceOf {catalog : Catalog} {r : Rule}
    {source : Program (StoredSource × Option String)} (h : sourceOf catalog r = some source) :
    source.Yields fun found => found.1.id ∈ storedIds catalog := by
  rw [sourceOf.eq_def] at h
  split at h
  case h_1 | h_2 =>
    cases h
    exact (Program.Yields.withLinks fun _ => ensures_queryNamed catalog _).bind
      fun stored hstored => .pure hstored
  case h_3 | h_4 =>
    cases h
    exact (Program.Yields.withLinks fun _ => ensures_queryField catalog r).bind
      fun found hfound => .pure hfound
  case h_5 | h_6 =>
    cases h
    exact (Program.Yields.withLinks fun _ => ensures_collectionNamed catalog _).bind
      fun stored hstored => .pure hstored
  case h_7 => cases h

/-! ## A turn -/

/-- A turn replaces one placeholder: the rule that was found is found again, and what takes its place
holds none. -/
theorem exists_replaced {ops : List RuleOp} (hops : ops ∈ passes) {c : Condition} {r : Rule}
    (hfind : c.find? (fun s => ops.contains s.op) = some r) {node : Condition}
    (hnode : node.Resolved) : ∃ c', replaceFirst (·.same r) node c = some c' ∧
      c'.placeholders + 1 = c.placeholders ∧
      c'.count (fun s => ops.contains s.op) + 1 = c.count (fun s => ops.contains s.op) := by
  have hplaceholder := isPlaceholder_passes ops hops
  have hsame : ∀ s : Rule, s.same r = true → ops.contains s.op = ops.contains r.op :=
    fun s hs => by rw [Rule.op_of_same hs]
  have hcontains : ops.contains r.op = true := holds_of_find? hfind
  rw [replaceFirst_same hsame r.same_refl node hfind]
  obtain ⟨spot, rfl, hbefore⟩ := exists_spot hfind
  refine ⟨spot.fill node, Spot.replaceFirst_fill hcontains node hbefore, ?_⟩
  -- Of both kinds the rule that goes is one, and the node holds none.
  have hcount (p : Rule → Bool) (hp : p r = true) (hnone : ∀ q ∈ node.rules, p q = false) :
      (spot.fill node).count p + 1 = (spot.fill (.rule r)).count p := by
    have hone : (Condition.rule r).count p = 1 := by rw [count, if_pos hp]
    rw [Spot.count_fill, Spot.count_fill, count_eq_zero.2 hnone, hone]
    omega
  exact ⟨hcount _ (hplaceholder r.op (by simpa using hcontains)) hnode,
    hcount _ hcontains fun q hq => not_contains_of_placeholders hplaceholder (hnode q hq)⟩

/-! ## Reducing on a stack -/

/-- Reduces a stored filter, unless it is on the stack already. -/
def expandOn (tree : String → Condition → Stacked Condition) (stored : StoredSource) :
    Stacked Condition := fun stack =>
  if stack.contains stored.id then Stacked.lift (cyclic (stack ++ [stored.id])) stack
  else Stacked.inside stored.id (tree stored.entity stored.condition) stack

def placeholderOn (ctx : Context) (tree : String → Condition → Stacked Condition) (e : Entity)
    (r : Rule) : Stacked Condition :=
  match sourceOf ctx.catalog r with
  | some source =>
    Stacked.bind (Stacked.lift source) fun found =>
    Stacked.bind (expandOn tree found.1) fun reduced =>
    Stacked.lift (membership ctx (fun _ => pure reduced) e r found.1 found.2)
  | none => Stacked.lift (placeholder ctx (fun _ => pure Condition.empty) e r)

/-- Replaces the first rule of a kind until there is none; given up where there are more turns, or where
the rule that was found is not found again. -/
def replaceEachOn (p : Rule → Bool) (f : Rule → Stacked Condition) :
    (turns : Nat) → Condition → Stacked Condition
  | 0, c => if (c.find? p).isNone then Stacked.lift (pure c) else Stacked.giveUp
  | turns + 1, c =>
    match c.find? p with
    | none => Stacked.lift (pure c)
    | some r =>
      Stacked.bind (f r) fun node =>
        match replaceFirst (·.same r) node c with
        | some c => replaceEachOn p f turns c
        | none => Stacked.giveUp

def replaceAllOn (f : Rule → Stacked Condition) : List (List RuleOp) → Condition → Stacked Condition
  | [], c => Stacked.lift (pure c)
  | ops :: rest, c =>
    let inPass (r : Rule) : Bool := ops.contains r.op
    Stacked.bind (replaceEachOn inPass f (c.count inPass) c) (replaceAllOn f rest)

/-- Reduces a condition with at most `calls` calls within each other; given up where there are more, or
where the stack holds an id twice or one of no stored filter. -/
def treeOn (ctx : Context) : (calls : Nat) → String → Condition → Stacked Condition
  | 0, _, _ => Stacked.giveUp
  | calls + 1, entity, c => fun stack =>
    if stack.Nodup ∧ ∀ id ∈ stack, id ∈ storedIds ctx.catalog then
      Stacked.bind (Stacked.lift (Program.ofResult (ctx.catalog.entity entity)))
        (fun e => replaceAllOn (placeholderOn ctx (treeOn ctx calls) e) passes
          (ctx.sight.narrow e c)) stack
    else Stacked.giveUp stack

/-! ## Nothing is given up -/

theorem follows_replaceEachOn {ops : List RuleOp} (hops : ops ∈ passes)
    {f : Rule → Stacked Condition} {g : Rule → Program Condition} {stack : List String}
    (hf : ∀ r, (f r).Follows stack (g r)) (hg : ∀ r, (g r).Yields Resolved) {turns : Nat}
    {c : Condition} (hturns : c.count (fun s => ops.contains s.op) ≤ turns) :
    (replaceEachOn (fun s => ops.contains s.op) f turns c).Follows stack
      (replaceEach (fun s => ops.contains s.op) g turns c) := by
  induction turns generalizing c with
  | zero =>
    have hnone : c.find? (fun s => ops.contains s.op) = none :=
      find?_eq_none.2 (count_eq_zero.1 (Nat.le_zero.1 hturns))
    rw [replaceEachOn, hnone, replaceEach]
    exact .lift
  | succ turns ih =>
    rw [replaceEachOn, replaceEach]
    cases hfind : c.find? (fun s => ops.contains s.op) with
    | none => exact .lift
    | some r =>
      refine (hf r).bind (hg r) fun node hnode => ?_
      obtain ⟨c', hc', -, hcount⟩ := exists_replaced hops hfind hnode
      rw [hc']
      exact ih (by omega)

theorem follows_replaceAllOn {ctx : Context} {expand : Expand} {e : Entity}
    {f : Rule → Stacked Condition} {stack : List String}
    (hf : ∀ r, (f r).Follows stack (placeholder ctx expand e r)) {ps : List (List RuleOp)}
    (hps : ∀ ops ∈ ps, ops ∈ passes) (c : Condition) :
    (replaceAllOn f ps c).Follows stack (replaceAll ctx expand e ps c) := by
  induction ps generalizing c with
  | nil => exact .lift
  | cons ops rest ih =>
    rw [List.forall_mem_cons] at hps
    rw [replaceAllOn, replaceAll]
    exact (follows_replaceEachOn hps.1 hf (yields_placeholder ctx expand e)
      (Nat.le_refl _)).bind .any
      fun c _ => ih hps.2 c

theorem follows_placeholderOn {ctx : Context} {expand : Expand} {e : Entity}
    {tree : String → Condition → Stacked Condition} {stack : List String}
    (h : ∀ stored : StoredSource, stored.id ∈ storedIds ctx.catalog →
      (expandOn tree stored).Follows stack (expand stored)) (r : Rule) :
    (placeholderOn ctx tree e r).Follows stack (placeholder ctx expand e r) := by
  rw [placeholderOn]
  cases hsource : sourceOf ctx.catalog r with
  | none =>
    rw [placeholder_of_no_source hsource expand (fun _ => pure Condition.empty)]
    exact .lift
  | some source =>
    rw [placeholder_of_source hsource expand e]
    refine Stacked.Follows.lift.bind (yields_sourceOf hsource) fun found hfound => ?_
    exact (h found.1 hfound).bind .any fun reduced _ => .lift

/-- A stack that holds as many ids as there are stored filters holds them all. -/
theorem mem_of_length_eq {catalog : Catalog} {stack : List String} (hnodup : stack.Nodup)
    (hstored : ∀ id ∈ stack, id ∈ storedIds catalog)
    (hlength : stack.length = catalog.storedFilters) {id : String} (h : id ∈ storedIds catalog) :
    id ∈ stack := by
  have hperm := (List.subperm_of_subset hnodup hstored).perm_of_length_le
    (Nat.le_of_eq (by rw [length_storedIds, hlength]))
  exact hperm.mem_iff.2 h

theorem follows_treeOn_succ {ctx : Context} {calls : Nat} {stack : List String} {expand : Expand}
    (hnodup : stack.Nodup) (hstored : ∀ id ∈ stack, id ∈ storedIds ctx.catalog)
    (h : ∀ stored : StoredSource, stored.id ∈ storedIds ctx.catalog →
      (expandOn (treeOn ctx calls) stored).Follows stack (expand stored))
    (entity : String) (c : Condition) :
    (treeOn ctx (calls + 1) entity c).Follows stack (reduceWith ctx expand entity c) := by
  rw [Stacked.Follows, treeOn]
  dsimp only
  rw [if_pos ⟨hnodup, hstored⟩]
  exact Stacked.Follows.lift.bind .any fun e _ =>
    follows_replaceAllOn (follows_placeholderOn h) (fun _ hops => hops) _

/-- Calls as deep as stored filters are left are enough. The induction is on those; when none is left,
each that a placeholder can name is on the stack. -/
theorem follows_treeOn (ctx : Context) {levels : Nat} {stack : List String} (hnodup : stack.Nodup)
    (hstored : ∀ id ∈ stack, id ∈ storedIds ctx.catalog)
    (hlength : stack.length + levels = ctx.catalog.storedFilters) (entity : String)
    (c : Condition) :
    (treeOn ctx (levels + 1) entity c).Follows stack (reduceTree ctx levels stack entity c) := by
  induction levels generalizing stack entity c with
  | zero =>
    rw [reduceTree_eq]
    refine follows_treeOn_succ hnodup hstored (fun stored hmem => ?_) entity c
    have hin : stack.contains stored.id = true := by
      simpa using mem_of_length_eq hnodup hstored hlength hmem
    rw [Stacked.Follows, expandOn, if_pos hin]
    rfl
  | succ levels ih =>
    rw [reduceTree_eq]
    refine follows_treeOn_succ hnodup hstored (fun stored hmem => ?_) entity c
    rw [Stacked.Follows, expandOn, expansion]
    split
    · rfl
    · rename_i hout
      refine Stacked.Follows.inside (ih ?_ ?_ ?_ stored.entity stored.condition)
      · rw [List.nodup_append_comm]
        exact List.nodup_cons.2 ⟨by simpa using hout, hnodup⟩
      · rw [List.forall_mem_append]
        exact ⟨hstored, List.forall_mem_singleton.2 hmem⟩
      · rw [List.length_append, List.length_singleton]
        omega

/-- Reduces a condition for a caller with a stack that is empty at first. -/
def reduceOn (s : Session) (entity : String) (c : Condition) (caller : Caller) :
    Stacked Condition :=
  Stacked.bind (Stacked.lift Program.catalog) fun catalog =>
  Stacked.bind (Stacked.lift (Program.ofResult (catalog.entity entity))) fun _ =>
  Stacked.bind (Stacked.lift (s.sight caller)) fun sight =>
  treeOn ⟨s, catalog, caller, sight⟩ (catalog.storedFilters + 1) entity c

theorem follows_reduceOn (s : Session) (entity : String) (c : Condition) (caller : Caller) :
    (reduceOn s entity c caller).Follows [] (reduce s entity c caller) := by
  refine Stacked.Follows.lift.bind .any fun catalog _ => ?_
  refine Stacked.Follows.lift.bind .any fun e _ => ?_
  refine Stacked.Follows.lift.bind .any fun sight _ => ?_
  exact follows_treeOn _ List.nodup_nil (by simp) (by simp) entity c

end Reduce

end CatalogQuery
