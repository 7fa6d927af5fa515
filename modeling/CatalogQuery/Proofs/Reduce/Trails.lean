import CatalogQuery.Proofs.Compile.Composed
import CatalogQuery.Proofs.Link.Mirror
import CatalogQuery.Proofs.Session.Outcomes
import CatalogQuery.Reduce.User
import Mathlib.Data.List.Perm.Subperm
import Mathlib.Tactic.ByContra

/-!
# The nearest object with a user field

Connections lead from object to object, also in circles and from an object to itself, and the search
for a user field goes along them breadth first. Main statement: the search comes to an end; the chain
that it finds leads from the start to an object with a user field, passes no object twice and is as
short as any such chain; and it finds none only where no chain leads to a user field.
-/

namespace CatalogQuery.Reduce

open Compile

/-- Whether a resolved connection leads from one object to another. -/
def Leads (env : Env) (e : Entity) (l : Link) (next : Entity) : Prop :=
  ∃ m, env.links e.id = .ok m ∧ l ∈ m.links ∧ env.catalog.entity l.target = .ok next

/-- The hops by which connections lead from one object to another. -/
inductive Trail (env : Env) : Entity → List Hop → Entity → Prop
  | nil {e : Entity} : Trail env e [] e
  | cons {e next last : Entity} {l : Link} {hops : List Hop} (hl : Leads env e l next)
      (h : Trail env next hops last) : Trail env e (⟨e.id, some l.field⟩ :: hops) last

/-- A chain of connections to an object with a user field that none is shorter than. -/
structure Nearest (env : Env) (start : Entity) (hops : List Hop) (last : Entity) : Prop where
  trail : Trail env start hops last
  owns : last.userFields ≠ []
  /-- The objects before the last one have no user field. -/
  without : ∀ hop ∈ hops, ∀ e, env.catalog.entity hop.entity = .ok e → e.userFields = []
  /-- No object comes twice. -/
  apart : (hops.map Hop.entity ++ [last.id]).Nodup
  shortest : ∀ other owner, Trail env start other owner → owner.userFields ≠ [] →
    hops.length ≤ other.length

section

variable {env : Env} {start e next last : Entity} {l : Link} {hops : List Hop}

theorem Trail.concat (h : Trail env start hops e) (hl : Leads env e l next) :
    Trail env start (hops ++ [⟨e.id, some l.field⟩]) next := by
  induction h with
  | nil => exact .cons hl .nil
  | cons hfirst _ ih => exact .cons hfirst (ih hl)

/-- A chain from an object of the catalog leads to one. -/
theorem Trail.entity (h : Trail env start hops last)
    (hstart : env.catalog.entity start.id = .ok start) : env.catalog.entity last.id = .ok last := by
  induction h with
  | nil => exact hstart
  | cons hl _ ih =>
    obtain ⟨-, -, -, hnext⟩ := hl
    exact ih (Catalog.id_of_entity hnext ▸ hnext)

/-- The connections with new targets are some of those given, each with a target of its own; then all
targets are seen. -/
theorem newTargets_spec (seen : List String) (links : List Link) :
    (∀ l ∈ (newTargets seen links).1, l ∈ links ∧ l.target ∉ seen) ∧
    ((newTargets seen links).1.map Link.target).Nodup ∧
    (∀ id, id ∈ (newTargets seen links).2 ↔
      id ∈ seen ∨ id ∈ (newTargets seen links).1.map Link.target) ∧
    ∀ l ∈ links, l.target ∈ (newTargets seen links).2 := by
  induction links generalizing seen with
  | nil => simp [newTargets]
  | cons l rest ih =>
    by_cases hl : l.target ∈ seen
    · obtain ⟨hnew, hdistinct, hseen, hall⟩ := ih seen
      have heq : newTargets seen (l :: rest) = newTargets seen rest := by
        rw [newTargets, if_pos (List.contains_iff_mem.2 hl)]
      rw [heq]
      refine ⟨fun k hk => ?_, hdistinct, hseen, List.forall_mem_cons.2 ⟨?_, hall⟩⟩
      · exact ⟨List.mem_cons_of_mem _ (hnew k hk).1, (hnew k hk).2⟩
      · exact (hseen _).2 (.inl hl)
    · obtain ⟨hnew, hdistinct, hseen, hall⟩ := ih (l.target :: seen)
      have heq : newTargets seen (l :: rest) = (l :: (newTargets (l.target :: seen) rest).1,
          (newTargets (l.target :: seen) rest).2) := by
        rw [newTargets, if_neg (by simpa using hl)]
      rw [heq]
      refine ⟨List.forall_mem_cons.2 ⟨⟨List.mem_cons_self, hl⟩, fun k hk => ?_⟩, ?_, fun id => ?_,
        List.forall_mem_cons.2 ⟨(hseen _).2 (.inl List.mem_cons_self), hall⟩⟩
      · exact ⟨List.mem_cons_of_mem _ (hnew k hk).1,
          fun h => (hnew k hk).2 (List.mem_cons_of_mem _ h)⟩
      · refine List.nodup_cons.2 ⟨fun h => ?_, hdistinct⟩
        obtain ⟨k, hk, htarget⟩ := List.mem_map.1 h
        exact (hnew k hk).2 (htarget ▸ List.mem_cons_self)
      · rw [hseen, List.map_cons, List.mem_cons, List.mem_cons, ← or_assoc,
          or_comm (a := id = l.target)]

/-! ## What the search knows on its way -/

/-- Which objects a search came to: `done` are those that left the queue, in the order in which they
left, each with the hops that lead to it. -/
structure Reached (env : Env) (start : Entity) (done queue : List (String × List Hop))
    (seen : List String) : Prop where
  seen : ∀ id, id ∈ seen ↔ id ∈ (done ++ queue).map (·.1)
  distinct : ((done ++ queue).map (·.1)).Nodup
  trail : ∀ v ∈ done ++ queue, ∃ e, env.catalog.entity v.1 = .ok e ∧ Trail env start v.2 e
  root : (start.id, []) ∈ done ++ queue
  /-- All hops go through objects that left the queue. -/
  passed : ∀ v ∈ done ++ queue, ∀ hop ∈ v.2, hop.entity ∈ done.map (·.1)
  apart : ∀ v ∈ done ++ queue, (v.2.map Hop.entity ++ [v.1]).Nodup

/-- Whether a search came to nearer objects first. -/
structure Layered (done queue : List (String × List Hop)) : Prop where
  sorted : (done ++ queue).Pairwise fun v w => v.2.length ≤ w.2.length
  /-- Two distances meet in the queue at most. -/
  spread : ∀ v ∈ queue, ∀ w ∈ queue, w.2.length ≤ v.2.length + 1

/-- How far a search for a user field got. -/
structure Explored (env : Env) (start : Entity) (done queue : List (String × List Hop))
    (seen : List String) : Prop where
  reached : Reached env start done queue seen
  layered : Layered done queue
  without : ∀ v ∈ done, ∀ e, env.catalog.entity v.1 = .ok e → e.userFields = []
  /-- Where an object that left the queue leads to was come to, and is at most one hop further. -/
  closed : ∀ v ∈ done, ∀ e l next, env.catalog.entity v.1 = .ok e → Leads env e l next →
    ∃ w ∈ done ++ queue, w.1 = next.id ∧ w.2.length ≤ v.2.length + 1

variable {done queue : List (String × List Hop)} {seen : List String} {v : String × List Hop}

theorem explored_start (hstart : env.catalog.entity start.id = .ok start) :
    Explored env start [] [(start.id, [])] [start.id] where
  reached :=
    { seen := by simp
      distinct := by simp
      trail := by simpa using ⟨start, hstart, .nil⟩
      root := List.mem_cons_self
      passed := by simp
      apart := by simp }
  layered := ⟨List.pairwise_singleton .., by simp⟩
  without := by simp
  closed := by simp

/-- Objects of the catalog are come to, each once. -/
theorem Reached.length_le (h : Reached env start done queue seen) :
    done.length ≤ env.catalog.entities.length := by
  have hsubset : (done ++ queue).map (·.1) ⊆ env.catalog.entities.map Entity.id := by
    intro id hid
    obtain ⟨v, hv, rfl⟩ := List.mem_map.1 hid
    obtain ⟨e, he, -⟩ := h.trail v hv
    exact List.mem_map.2 ⟨e, Catalog.mem_of_entity he, Catalog.id_of_entity he⟩
  have hlength := (List.subperm_of_subset h.distinct hsubset).length_le
  simp only [List.length_map, List.length_append] at hlength
  omega

/-- A chain to a user field goes through the queue, and from there it is no shorter than the way that
is left. The induction is on the chain: it enters the queue where it leaves the objects that left it. -/
theorem Explored.exists_queued (h : Explored env start done queue seen)
    (htrail : Trail env e hops last) (howns : last.userFields ≠ []) :
    ∀ v ∈ done ++ queue, env.catalog.entity v.1 = .ok e →
      ∃ w ∈ queue, w.2.length ≤ v.2.length + hops.length := by
  induction htrail with
  | nil =>
    intro v hv he
    rcases List.mem_append.1 hv with hdone | hqueue
    · exact absurd (h.without v hdone _ he) howns
    · exact ⟨v, hqueue, Nat.le_add_right ..⟩
  | cons hl _ ih =>
    intro v hv he
    rcases List.mem_append.1 hv with hdone | hqueue
    · obtain ⟨w, hw, hid, hle⟩ := h.closed v hdone _ _ _ he hl
      obtain ⟨m, -, -, hnext⟩ := hl
      have hentity := hnext
      rw [← Catalog.id_of_entity hnext, ← hid] at hentity
      obtain ⟨u, hu, hfar⟩ := ih howns w hw hentity
      refine ⟨u, hu, ?_⟩
      rw [List.length_cons]
      omega
    · exact ⟨v, hqueue, Nat.le_add_right ..⟩

/-- The first of the queue is nearest where it has a user field. -/
theorem Explored.nearest (h : Explored env start done (v :: queue) seen)
    (hstart : env.catalog.entity start.id = .ok start)
    (he : env.catalog.entity v.1 = .ok e) (howns : e.userFields ≠ []) : Nearest env start v.2 e := by
  have hv : v ∈ done ++ v :: queue := by simp
  obtain ⟨found, hfound, htrail⟩ := h.reached.trail v hv
  cases he.symm.trans hfound
  refine ⟨htrail, howns, fun hop hhop e' he' => ?_, ?_, fun other owner hother howner => ?_⟩
  · obtain ⟨w, hw, hid⟩ := List.mem_map.1 (h.reached.passed v hv hop hhop)
    exact h.without w hw e' (hid ▸ he')
  · exact Catalog.id_of_entity he ▸ h.reached.apart v hv
  · obtain ⟨w, hw, hle⟩ := h.exists_queued hother howner _ h.reached.root hstart
    have hfirst : v.2.length ≤ w.2.length := by
      rcases List.mem_cons.1 hw with rfl | hw
      · exact le_rfl
      · exact List.rel_of_pairwise_cons (List.pairwise_append.1 h.layered.sorted).2.1 hw
    exact hfirst.trans (by simpa using hle)

/-! ## A step of the search -/

/-- What enters the queue where an object leaves it. -/
def entering (v : String × List Hop) (links : List Link) : List (String × List Hop) :=
  links.map fun l => (l.target, v.2 ++ [⟨v.1, some l.field⟩])

variable {links : List Link}

theorem mem_entering {w : String × List Hop} :
    w ∈ entering v links ↔ ∃ l ∈ links, (l.target, v.2 ++ [⟨v.1, some l.field⟩]) = w := List.mem_map

theorem ids_entering : (entering v links).map (·.1) = links.map Link.target := by
  rw [entering, List.map_map]
  rfl

theorem length_entering {w : String × List Hop} (hw : w ∈ entering v links) :
    w.2.length = v.2.length + 1 := by
  obtain ⟨l, -, rfl⟩ := mem_entering.1 hw
  simp

theorem step_lists : done ++ [v] ++ (queue ++ entering v links) =
    (done ++ v :: queue) ++ entering v links := by simp

theorem Layered.step (h : Layered done (v :: queue)) :
    Layered (done ++ [v]) (queue ++ entering v links) := by
  obtain ⟨-, hrest, hbefore⟩ := List.pairwise_append.1 h.sorted
  have hlow {w : String × List Hop} (hw : w ∈ queue ++ entering v links) :
      v.2.length ≤ w.2.length := by
    rcases List.mem_append.1 hw with hw | hw
    · exact List.rel_of_pairwise_cons hrest hw
    · rw [length_entering hw]
      exact Nat.le_succ _
  have hhigh {w : String × List Hop} (hw : w ∈ (done ++ v :: queue) ++ entering v links) :
      w.2.length ≤ v.2.length + 1 := by
    rcases List.mem_append.1 hw with hw | hw
    · rcases List.mem_append.1 hw with hw | hw
      · exact (hbefore w hw v List.mem_cons_self).trans (Nat.le_succ _)
      · exact h.spread v List.mem_cons_self w hw
    · exact (length_entering hw).le
  constructor
  case sorted =>
    rw [step_lists]
    refine List.pairwise_append.2 ⟨h.sorted, ?_, fun w hw u hu => ?_⟩
    · exact List.pairwise_of_forall_mem_list fun w hw u hu =>
        (length_entering hw).trans (length_entering hu).symm |>.le
    · exact (hhigh (List.mem_append_left _ hw)).trans (length_entering hu).ge
  case spread =>
    intro w hw u hu
    have hu' : u ∈ (done ++ v :: queue) ++ entering v links := by
      rw [← step_lists]
      exact List.mem_append_right _ hu
    exact (hhigh hu').trans (Nat.succ_le_succ (hlow hw))

theorem Reached.step (h : Reached env start done (v :: queue) seen) {m : LinkMap}
    (he : env.catalog.entity v.1 = .ok e) (hm : env.links e.id = .ok m)
    (htargets : ∀ l ∈ m.links, ∃ next, env.catalog.entity l.target = .ok next) :
    Reached env start (done ++ [v]) (queue ++ entering v (newTargets seen m.links).1)
      (newTargets seen m.links).2 := by
  obtain ⟨hnew, hdistinct, hseen, -⟩ := newTargets_spec seen m.links
  have hv : v ∈ done ++ v :: queue := by simp
  constructor <;> rw [step_lists]
  case seen =>
    intro id
    rw [hseen, List.map_append, List.mem_append, ids_entering, ← h.seen]
  case distinct =>
    rw [List.map_append, ids_entering]
    refine List.nodup_append.2 ⟨h.distinct, hdistinct, fun a ha b hb hab => ?_⟩
    obtain ⟨l, hl, rfl⟩ := List.mem_map.1 hb
    exact (hnew l hl).2 ((h.seen _).2 (hab ▸ ha))
  case trail =>
    refine List.forall_mem_append.2 ⟨h.trail, fun w hw => ?_⟩
    obtain ⟨l, hl, rfl⟩ := mem_entering.1 hw
    obtain ⟨next, hnext⟩ := htargets l (hnew l hl).1
    obtain ⟨found, hfound, htrail⟩ := h.trail v hv
    cases he.symm.trans hfound
    exact ⟨next, hnext,
      Catalog.id_of_entity he ▸ htrail.concat ⟨m, hm, (hnew l hl).1, hnext⟩⟩
  case root => exact List.mem_append_left _ h.root
  case passed =>
    have hbefore {w : String × List Hop} (hw : w ∈ done ++ v :: queue) {hop : Hop}
        (hhop : hop ∈ w.2) : hop.entity ∈ (done ++ [v]).map (·.1) := by
      rw [List.map_append]
      exact List.mem_append_left _ (h.passed w hw hop hhop)
    refine List.forall_mem_append.2 ⟨fun w hw hop => hbefore hw, fun w hw hop hhop => ?_⟩
    obtain ⟨l, -, rfl⟩ := mem_entering.1 hw
    rcases List.mem_append.1 hhop with hhop | hhop
    · exact hbefore hv hhop
    · cases List.mem_singleton.1 hhop
      simp
  case apart =>
    refine List.forall_mem_append.2 ⟨h.apart, fun w hw => ?_⟩
    obtain ⟨l, hl, rfl⟩ := mem_entering.1 hw
    rw [List.map_append]
    refine List.nodup_append.2 ⟨h.apart v hv, by simp, fun a ha b hb hab => ?_⟩
    obtain rfl : a = l.target := hab.trans (List.mem_singleton.1 hb)
    refine (hnew l hl).2 ((h.seen _).2 ?_)
    -- An object on the way left the queue before or leaves it now.
    rcases List.mem_append.1 ha with ha | ha
    · obtain ⟨hop, hhop, hid⟩ := List.mem_map.1 ha
      rw [← hid, List.map_append]
      exact List.mem_append_left _ (h.passed v hv hop hhop)
    · rw [List.mem_singleton.1 ha]
      exact List.mem_map_of_mem hv

/-- What is known goes on to hold where an object without user fields leaves the queue and its new
targets enter it. -/
theorem Explored.step (h : Explored env start done (v :: queue) seen) {m : LinkMap}
    (he : env.catalog.entity v.1 = .ok e) (hnone : e.userFields = []) (hm : env.links e.id = .ok m)
    (htargets : ∀ l ∈ m.links, ∃ next, env.catalog.entity l.target = .ok next) :
    Explored env start (done ++ [v]) (queue ++ entering v (newTargets seen m.links).1)
      (newTargets seen m.links).2 := by
  have hreached := h.reached.step he hm htargets
  refine ⟨hreached, h.layered.step, ?_, ?_⟩
  · refine List.forall_mem_append.2 ⟨h.without, List.forall_mem_singleton.2 fun e' he' => ?_⟩
    cases he.symm.trans he'
    exact hnone
  · rw [step_lists]
    refine List.forall_mem_append.2 ⟨fun w hw e' l next he' hl => ?_,
      List.forall_mem_singleton.2 fun e' l next he' hl => ?_⟩
    · obtain ⟨u, hu, hnear⟩ := h.closed w hw e' l next he' hl
      exact ⟨u, List.mem_append_left _ hu, hnear⟩
    cases he.symm.trans he'
    obtain ⟨m', hm', hl, hnext⟩ := hl
    cases hm.symm.trans hm'
    -- A target of the object that leaves is as far as what enters, or in a layer that is nearer.
    have hid := (hreached.seen _).1 ((newTargets_spec seen m.links).2.2.2 l hl)
    rw [step_lists] at hid
    obtain ⟨u, hu, hu'⟩ := List.mem_map.1 hid
    refine ⟨u, hu, hu'.trans (Catalog.id_of_entity hnext).symm, ?_⟩
    rcases List.mem_append.1 hu with hu | hu
    · rcases List.mem_append.1 hu with hu | hu
      · exact ((List.pairwise_append.1 h.layered.sorted).2.2 u hu v List.mem_cons_self).trans
          (Nat.le_succ _)
      · exact h.layered.spread v List.mem_cons_self u hu
    · exact (length_entering hu).le

/-! ## What it finds -/

/-- What a search may find. -/
def Finds (env : Env) (start : Entity) : Option (List Hop) → Prop
  | some path => ∃ hops last, path = hops ++ [⟨last.id, none⟩] ∧ Nearest env start hops last
  | none => ∀ hops last, Trail env start hops last → last.userFields = []

/-- A search with a step left for each object that has not left the queue finds what there is. -/
theorem finds_search (hstart : env.catalog.entity start.id = .ok start)
    (hlinks : ∀ e ∈ env.catalog.entities, ∃ m, env.links e.id = .ok m ∧
      ∀ l ∈ m.links, ∃ next, env.catalog.entity l.target = .ok next) {steps : Nat}
    (hsteps : env.catalog.entities.length < steps + done.length)
    (h : Explored env start done queue seen) :
    ∃ found, (search env steps queue seen).result = .ok found ∧ Finds env start found := by
  induction steps generalizing done queue seen with
  | zero =>
    have hle := h.reached.length_le
    omega
  | succ steps ih =>
    cases queue with
    | nil =>
      refine ⟨none, rfl, fun hops last htrail => ?_⟩
      by_contra howns
      obtain ⟨w, hw, -⟩ := h.exists_queued htrail howns _ h.reached.root hstart
      cases hw
    | cons v queue =>
      obtain ⟨e, he, -⟩ := h.reached.trail v (by simp)
      obtain ⟨m, hm, htargets⟩ := hlinks e (Catalog.mem_of_entity he)
      rw [search]
      simp only [Traced.result_bind_ok]
      cases howns : e.userFields with
      | cons f rest =>
        have hid := Catalog.id_of_entity he
        refine ⟨some (v.2 ++ [⟨v.1, none⟩]), ⟨e, he, ?_⟩,
          ⟨v.2, e, by rw [hid], h.nearest hstart he (by simp [howns])⟩⟩
        rw [howns]
        rfl
      | nil =>
        have hsteps' : env.catalog.entities.length < steps + (done ++ [v]).length := by
          simp only [List.length_append, List.length_singleton]
          omega
        obtain ⟨found, hfound, hfinds⟩ := ih hsteps' (h.step he howns hm htargets)
        refine ⟨found, ⟨e, he, ?_⟩, hfinds⟩
        rw [howns]
        exact Traced.result_bind_ok.2 ⟨m, hm, hfound⟩

end

/-- Every link of an object of a catalog leads to one of its objects. -/
theorem exists_ofCatalog {settings : Settings} {catalog : Catalog} {e : Entity}
    (he : e ∈ catalog.entities) :
    ∃ m, LinkMap.ofCatalog settings catalog e.id = .ok m ∧
      ∀ l ∈ m.links, ∃ next, catalog.entity l.target = .ok next := by
  obtain ⟨owner, howner⟩ : ∃ owner, catalog.entity e.id = .ok owner := by
    obtain ⟨owner, howner⟩ := Option.isSome_iff_exists.1
      (List.find?_isSome (p := (·.id == e.id)).2 ⟨e, he, beq_self_eq_true e.id⟩)
    exact ⟨owner, Catalog.entity_eq_ok.2 howner⟩
  refine ⟨(LinkMap.resolve settings catalog owner).1, by rw [LinkMap.ofCatalog, howner]; rfl, ?_⟩
  intro l hl
  obtain ⟨f, -, c, -, hlink⟩ := LinkMap.mem_resolve.1 hl
  obtain ⟨target, htarget, hid, -, -, -⟩ := Link.exists_of_ofField hlink
  have hnamed : target.id = c.target := by simpa using List.find?_some htarget
  exact ⟨target, by rw [hid, hnamed]; exact Catalog.entity_eq_ok.2 htarget⟩

/-- The search for a user field among the objects of a catalog finds what there is. -/
theorem finds_userPath {settings : Settings} {catalog : Catalog} {language : String}
    {filters : List (String × Condition)} {start : Entity}
    (hstart : catalog.entity start.id = .ok start) :
    let env : Env := ⟨settings, catalog, LinkMap.ofCatalog settings catalog, language, filters⟩
    ∃ found, (userPath env start).result = .ok found ∧ Finds env start found :=
  finds_search hstart (fun _ he => exists_ofCatalog he) (Nat.lt_succ_self _) (explored_start hstart)

/-- The search for a user field ends. A chain that it finds goes from the start along connections, one
to the next hop's object, to an object with a user field; the objects before have none, no object comes
twice, and no chain to an object with a user field is shorter. It finds none exactly where no chain leads
to one. -/
theorem userPath_nearest (settings : Settings) (catalog : Catalog) (language : String)
    (filters : List (String × Condition)) {start : Entity}
    (hstart : catalog.entity start.id = .ok start) :
    let env : Env := ⟨settings, catalog, LinkMap.ofCatalog settings catalog, language, filters⟩
    ∃ found, (userPath env start).result = .ok found ∧
      (∀ path, found = some path →
        ∃ hops last, path = hops ++ [⟨last.id, none⟩] ∧ Nearest env start hops last) ∧
      (found = none ↔ ∀ hops last, Trail env start hops last → last.userFields = []) := by
  intro env
  obtain ⟨found, hfound, hfinds⟩ : ∃ found, (userPath env start).result = .ok found ∧
    Finds env start found := finds_userPath hstart
  refine ⟨found, hfound, fun path hpath => ?_, fun hnone => ?_, fun hnone => ?_⟩
  · rw [hpath] at hfinds
    exact hfinds
  · rw [hnone] at hfinds
    exact hfinds
  · cases found with
    | none => rfl
    | some path =>
      obtain ⟨hops, last, -, hnearest⟩ := hfinds
      exact absurd (hnone hops last hnearest.trail) hnearest.owns

/-- Lines and invoices lead to each other and to themselves, and invoices to customers. -/
theorem userPath_nearest_line :
    let one (id target : String) := Field.new id id (.connection (.between target .one .many))
    let line := Entity.new "line" "Line" "LINE" [one "split" "line", one "invoice" "invoice"]
    let invoice := Entity.new "invoice" "Invoice" "INVOICE"
      [one "first" "line", one "credits" "invoice", one "customer" "customer"]
    let customer := Entity.new "customer" "Customer" "CUSTOMER" [Field.new "m" "manager" (.user false)]
    let catalog : Catalog := ⟨[line, invoice, customer], [], []⟩
    let env : Env := ⟨{}, catalog, LinkMap.ofCatalog {} catalog, "en", []⟩
    catalog.entity line.id = .ok line ∧
      (userPath env line).result =
        .ok (some [⟨"line", some "invoice"⟩, ⟨"invoice", some "customer"⟩, ⟨"customer", none⟩]) ∧
      ∃ hops last, hops.length = 2 ∧ Nearest env line hops last := by
  intro one line invoice customer catalog env
  have hpath : (userPath env line).result =
      .ok (some [⟨"line", some "invoice"⟩, ⟨"invoice", some "customer"⟩, ⟨"customer", none⟩]) := by
    dsimp only [one, line, invoice, customer, catalog, env]
    rfl
  have hline : catalog.entity line.id = .ok line := rfl
  obtain ⟨found, hfound, hsome, -⟩ := userPath_nearest {} catalog "en" [] hline
  cases hpath.symm.trans hfound
  obtain ⟨hops, last, hhops, hnearest⟩ := hsome _ rfl
  have hlength := congrArg List.length hhops
  rw [List.length_append] at hlength
  exact ⟨rfl, hpath, hops, last, by simpa using hlength.symm, hnearest⟩

end CatalogQuery.Reduce
