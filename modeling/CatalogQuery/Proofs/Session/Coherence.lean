import CatalogQuery.Session.Tenant

/-!
# Known links while the catalog changes

Callers ask for links, replace the catalog and drop links at the same time, and the steps of what
they do follow each other in any order. What is done under one lock is one step. Main statement:
whenever no replacement is between its two steps, the known links of every object are those that its
catalog gives, and links whose resolving an invalidation has overtaken are not kept.

Generations are counted without end. A counter that starts again would have to come round during one
call to be mistaken for the old one.
-/

namespace CatalogQuery.Tenant

/-! ## Tasks and their steps -/

/-- How far a caller has come. -/
inductive Task where
  /-- Wants the links of an object. -/
  | wants (entity : String)
  /-- Has not found them among the known ones. -/
  | misses (entity : String)
  /-- Has noted the generation in which it starts to resolve them. -/
  | starts (entity : String) (generation : Nat)
  /-- Has resolved them. -/
  | resolves (entity : String) (generation : Nat) (m : LinkMap)
  /-- Has the links, or knows that there is no such object. -/
  | answered (links : Result LinkMap)
  /-- Replaces the catalog. -/
  | replaces (c : Catalog)
  /-- Has put its catalog and still has to drop the links that are known. -/
  | drops
  /-- Drops the links of an object and those that lead to it. -/
  | forgets (entity : String)
  | forgetsAll
  | finished

namespace Task

/-- Whether the task has not done anything yet. -/
def IsNew : Task → Prop
  | wants _ | replaces _ | forgets _ | forgetsAll => True
  | _ => False

/-- Whether the next step of the task is an invalidation. -/
def invalidates : Task → Bool
  | drops | forgets _ | forgetsAll => true
  | _ => false

end Task

/-- The next step of a task. -/
def advance (t : Tenant) : Task → Tenant × Task
  | .wants entity =>
    match t.known? entity with
    | some m => (t, .answered (.ok m))
    | none => (t, .misses entity)
  -- The generation is read before the catalog, so that no replacement in between goes unnoticed.
  | .misses entity => (t, .starts entity t.generation)
  | .starts entity generation =>
    match LinkMap.ofCatalog t.settings t.catalog entity with
    | .ok m => (t, .resolves entity generation m)
    | .error e => (t, .answered (.error e))
  | .resolves entity generation m => (t.keep entity m generation, .answered (.ok m))
  | .replaces c => (t.setCatalog c, .drops)
  | .drops => (t.forgetAll, .finished)
  | .forgets entity => (t.forget entity, .finished)
  | .forgetsAll => (t.forgetAll, .finished)
  | .answered links => (t, .answered links)
  | .finished => (t, .finished)

/-- A tenant with the tasks of those who use it at the same time. -/
structure Shared where
  tenant : Tenant
  tasks : List Task

namespace Shared

/-- A new tenant with those who are going to use it. -/
def start (settings : Settings) (catalog : Catalog) (tasks : List Task) : Shared :=
  ⟨.new settings catalog, tasks⟩

/-- One of the tasks takes its next step. -/
def step (s : Shared) (i : Nat) : Shared :=
  match s.tasks[i]? with
  | none => s
  | some task =>
    let (tenant, task) := s.tenant.advance task
    ⟨tenant, s.tasks.set i task⟩

/-- The tasks take steps in a given order. -/
def run (s : Shared) (order : List Nat) : Shared := order.foldl step s

/-- How many invalidations there are among the steps. -/
def invalidations (s : Shared) : List Nat → Nat
  | [] => 0
  | i :: rest => (s.tasks[i]?.any Task.invalidates).toNat + (s.step i).invalidations rest

theorem run_append (s : Shared) (order more : List Nat) :
    s.run (order ++ more) = (s.run order).run more := List.foldl_append

theorem step_eq {s : Shared} {i : Nat} {task : Task} (h : s.tasks[i]? = some task) :
    s.step i = ⟨(s.tenant.advance task).1, s.tasks.set i (s.tenant.advance task).2⟩ := by
  rw [step, h]

theorem step_of_none {s : Shared} {i : Nat} (h : s.tasks[i]? = none) : s.step i = s := by
  rw [step, h]

end Shared

/-! ## Tasks that nobody disturbs -/

/-- The links of an object as resolving gives them, without notices. -/
theorem ofCatalog_eq (t : Tenant) (entity : String) :
    LinkMap.ofCatalog t.settings t.catalog entity =
      match t.resolved entity with
      | some (m, _) => .ok m
      | none => .error (.objectNotFound entity) := by
  rw [LinkMap.ofCatalog, resolved, Catalog.entity]
  cases t.catalog.entity? entity <;> rfl

/-- A caller who wants links makes them known as if nobody else used the tenant. -/
theorem run_wants (t : Tenant) (entity : String) :
    ((⟨t, [.wants entity]⟩ : Shared).run [0, 0, 0, 0]).tenant = (t.consult entity).1 := by
  rw [consult]
  cases hknown : t.known? entity with
  | some m => simp [Shared.run, Shared.step, advance, hknown]
  | none =>
    have hlinks := ofCatalog_eq t entity
    cases hresolved : t.resolved entity with
    | none =>
      rw [hresolved] at hlinks
      simp [Shared.run, Shared.step, advance, hknown, hlinks]
    | some found =>
      rw [hresolved] at hlinks
      simp [Shared.run, Shared.step, advance, hknown, hlinks]

theorem run_replaces (t : Tenant) (c : Catalog) :
    ((⟨t, [.replaces c]⟩ : Shared).run [0, 0]).tenant = t.replaceCatalog c := rfl

/-! ## What every step keeps -/

/-- Whether links are those that the catalog gives as it is now. -/
def Fresh (t : Tenant) (entity : String) (m : LinkMap) : Prop :=
  LinkMap.ofCatalog t.settings t.catalog entity = .ok m

/-- What is true of the generation and the links that a task remembers. -/
def Task.Sound (t : Tenant) (dropping : Prop) : Task → Prop
  | .starts _ generation => generation ≤ t.generation
  | .resolves entity generation m =>
    generation ≤ t.generation ∧ (generation = t.generation → t.Fresh entity m ∨ dropping)
  | _ => True

/-- What is true at every moment: links that are known, or resolved and still of this generation,
are those that the catalog gives, unless a replacement is between its two steps. -/
structure Shared.Sound (s : Shared) : Prop where
  known : ∀ x ∈ s.tenant.known, s.tenant.Fresh x.1 x.2 ∨ .drops ∈ s.tasks
  tasks : ∀ task ∈ s.tasks, task.Sound s.tenant (.drops ∈ s.tasks)

namespace Task.Sound

variable {t t' : Tenant} {dropping dropping' : Prop} {task : Task}

theorem of_isNew (h : task.IsNew) : task.Sound t dropping := by
  cases task with
  | wants | replaces | forgets | forgetsAll => trivial
  | misses | starts | resolves | answered | drops | finished => cases h

/-- In a later generation nothing is asked of what a task remembers. -/
theorem of_lt (h : task.Sound t dropping) (hlt : t.generation < t'.generation) :
    task.Sound t' dropping' := by
  cases task with
  | starts entity generation => exact Nat.le_of_lt (Nat.lt_of_le_of_lt h hlt)
  | resolves entity generation m =>
    have hold := Nat.lt_of_le_of_lt h.1 hlt
    exact ⟨Nat.le_of_lt hold, fun hsame => absurd hsame (Nat.ne_of_lt hold)⟩
  | wants | misses | answered | replaces | drops | forgets | forgetsAll | finished => trivial

/-- While a replacement is between its steps, only the generation counts. -/
theorem of_dropping (h : task.Sound t dropping) (hgeneration : t'.generation = t.generation)
    (hdropping : dropping') : task.Sound t' dropping' := by
  cases task with
  | starts entity generation => exact Nat.le_trans h (Nat.le_of_eq hgeneration.symm)
  | resolves entity generation m =>
    exact ⟨Nat.le_trans h.1 (Nat.le_of_eq hgeneration.symm), fun _ => .inr hdropping⟩
  | wants | misses | answered | replaces | drops | forgets | forgetsAll | finished => trivial

theorem mono (h : task.Sound t dropping) (hdropping : dropping → dropping') :
    task.Sound t dropping' := by
  cases task with
  | starts entity generation => exact h
  | resolves entity generation m => exact ⟨h.1, fun hsame => (h.2 hsame).imp_right hdropping⟩
  | wants | misses | answered | replaces | drops | forgets | forgetsAll | finished => trivial

end Task.Sound

namespace Shared.Sound

variable {s : Shared} {i : Nat} {task : Task}

theorem mem_set_of_ne {tasks : List Task} {task' : Task} (h : tasks[i]? = some task)
    (hne : task ≠ .drops) (hmem : .drops ∈ tasks) : .drops ∈ tasks.set i task' := by
  obtain ⟨j, hj⟩ := List.mem_iff_getElem?.1 hmem
  refine List.mem_iff_getElem?.2 ⟨j, ?_⟩
  have hij : i ≠ j := fun hij => hne (Option.some.inj (h.symm.trans (hij ▸ hj)))
  rw [List.getElem?_set_ne hij, hj]

/-- A step that leaves the tenant alone. -/
theorem of_same (h : s.Sound) (hi : s.tasks[i]? = some task) (hne : task ≠ .drops) {task' : Task}
    (htask' : task'.Sound s.tenant (.drops ∈ s.tasks)) :
    Shared.Sound ⟨s.tenant, s.tasks.set i task'⟩ where
  known x hx := (h.known x hx).imp_right (mem_set_of_ne hi hne)
  tasks other hother := by
    refine Task.Sound.mono ?_ (mem_set_of_ne hi hne)
    rcases List.mem_or_eq_of_mem_set hother with hother | rfl
    · exact h.tasks other hother
    · exact htask'

/-- A step that starts a new generation and adds no links. -/
theorem of_next (h : s.Sound) (t' : Tenant) (hlt : s.tenant.generation < t'.generation)
    (hknown : ∀ x ∈ t'.known, t'.Fresh x.1 x.2 ∨ .drops ∈ s.tasks.set i .finished) :
    Shared.Sound ⟨t', s.tasks.set i .finished⟩ where
  known := hknown
  tasks other hother := by
    rcases List.mem_or_eq_of_mem_set hother with hother | rfl
    · exact (h.tasks other hother).of_lt hlt
    · trivial

theorem step (h : s.Sound) (i : Nat) : (s.step i).Sound := by
  cases hi : s.tasks[i]? with
  | none => rwa [step_of_none hi]
  | some task =>
    have htask := h.tasks task (List.mem_of_getElem? hi)
    rw [step_eq hi]
    cases task with
    | wants entity =>
      rw [advance]
      split
      · exact h.of_same hi (by simp) trivial
      · exact h.of_same hi (by simp) trivial
    | misses entity => exact h.of_same hi (by simp) (Nat.le_refl s.tenant.generation)
    | starts entity generation =>
      rw [advance]
      split
      · rename_i m hm
        exact h.of_same hi (by simp) ⟨htask, fun _ => .inl hm⟩
      · exact h.of_same hi (by simp) trivial
    | resolves entity generation m =>
      rw [advance, keep]
      dsimp only
      split
      · rename_i hsame
        have hsound : Shared.Sound ⟨s.tenant, s.tasks.set i (.answered (.ok m))⟩ :=
          h.of_same hi (by simp) trivial
        refine ⟨fun x hx => ?_, hsound.tasks⟩
        -- Either the new entry, which is of this generation, or one that was known before.
        rcases List.mem_cons.1 hx with rfl | hx
        · exact (htask.2 hsame.symm).imp_right (mem_set_of_ne hi (by simp))
        · exact hsound.known x (List.mem_filter.1 hx).1
      · exact h.of_same hi (by simp) trivial
    | answered links => exact h.of_same hi (by simp) trivial
    | finished => exact h.of_same hi (by simp) trivial
    | replaces c =>
      have hdrops : .drops ∈ s.tasks.set i .drops :=
        List.mem_set (List.getElem?_eq_some_iff.1 hi).1 _
      refine ⟨fun _ _ => .inr hdrops, fun other hother => ?_⟩
      rcases List.mem_or_eq_of_mem_set hother with hother | rfl
      · exact (h.tasks other hother).of_dropping rfl hdrops
      · trivial
    | drops => exact h.of_next s.tenant.forgetAll (Nat.lt_succ_self _) (by simp [forgetAll])
    | forgetsAll =>
      exact h.of_next s.tenant.forgetAll (Nat.lt_succ_self _) (by simp [forgetAll])
    | forgets entity =>
      refine h.of_next (s.tenant.forget entity) (Nat.lt_succ_self _) fun x hx => ?_
      exact (h.known x (List.mem_filter.1 hx).1).imp_right (mem_set_of_ne hi (by simp))

theorem run (h : s.Sound) (order : List Nat) : (s.run order).Sound := by
  induction order generalizing s with
  | nil => exact h
  | cons i rest ih => exact ih (h.step i)

theorem of_isNew {tasks : List Task} (h : ∀ task ∈ tasks, task.IsNew) (settings : Settings)
    (catalog : Catalog) : (start settings catalog tasks).Sound where
  known x hx := by cases hx
  tasks task htask := .of_isNew (h task htask)

/-- Between replacements a tenant answers with the links that its catalog gives. -/
theorem links_eq (h : s.Sound) (hdrops : .drops ∉ s.tasks) :
    s.tenant.links = LinkMap.ofCatalog s.tenant.settings s.tenant.catalog := by
  funext entity
  rw [links]
  split
  · rename_i m hm
    rw [known?, Option.map_eq_some_iff] at hm
    obtain ⟨x, hx, rfl⟩ := hm
    have hentity : x.1 = entity := by simpa using List.find?_some hx
    exact hentity ▸ ((h.known x (List.mem_of_find?_eq_some hx)).resolve_right hdrops).symm
  · rfl

end Shared.Sound

/-! ## Invalidations during a call -/

/-- Whether a task has gone on from noting a generation. -/
def Task.Since (entity : String) (generation : Nat) : Task → Prop
  | .starts e g => e = entity ∧ g = generation
  | .resolves e g _ => e = entity ∧ g = generation
  | .answered _ => True
  | _ => False

namespace Shared

theorem generation_advance (t : Tenant) (task : Task) :
    (t.advance task).1.generation = t.generation + task.invalidates.toNat := by
  cases task with
  | wants entity =>
    rw [advance]
    split <;> rfl
  | starts entity generation =>
    rw [advance]
    split <;> rfl
  | resolves entity generation m =>
    rw [advance, keep]
    dsimp only
    split <;> rfl
  | misses | answered | replaces | drops | forgets | forgetsAll | finished => rfl

/-- The generation counts the invalidations. -/
theorem generation_run (s : Shared) (order : List Nat) :
    (s.run order).tenant.generation = s.tenant.generation + s.invalidations order := by
  induction order generalizing s with
  | nil => rfl
  | cons i rest ih =>
    have hstep : (s.step i).tenant.generation =
        s.tenant.generation + (s.tasks[i]?.any Task.invalidates).toNat := by
      cases hi : s.tasks[i]? with
      | none => rw [step_of_none hi]; rfl
      | some task => rw [step_eq hi, generation_advance]; rfl
    show ((s.step i).run rest).tenant.generation = _
    rw [ih, hstep, invalidations, Nat.add_assoc]

theorem since_advance {t : Tenant} {entity : String} {generation : Nat} {task : Task}
    (h : Task.Since entity generation task) : Task.Since entity generation (t.advance task).2 := by
  cases task with
  | starts e g =>
    rw [advance]
    split
    · exact h
    · trivial
  | resolves | answered => trivial
  | wants | misses | replaces | drops | forgets | forgetsAll | finished => cases h

/-- A call remembers the generation that it has noted, whatever others do. -/
theorem since_run {s : Shared} {i : Nat} {entity : String} {generation : Nat}
    (h : ∃ task, s.tasks[i]? = some task ∧ Task.Since entity generation task) (order : List Nat) :
    ∃ task, (s.run order).tasks[i]? = some task ∧ Task.Since entity generation task := by
  induction order generalizing s with
  | nil => exact h
  | cons j rest ih =>
    refine ih ?_
    obtain ⟨task, hi, hsince⟩ := h
    cases hj : s.tasks[j]? with
    | none => exact ⟨task, by rw [step_of_none hj, hi], hsince⟩
    | some other =>
      rw [step_eq hj]
      by_cases hij : j = i
      · subst hij
        cases hj.symm.trans hi
        exact ⟨_, List.getElem?_set_self (List.getElem?_eq_some_iff.1 hi).1, since_advance hsince⟩
      · exact ⟨task, (List.getElem?_set_ne hij).trans hi, hsince⟩

end Shared

/-- Callers who use a new tenant at the same time take their steps in any order. Whenever no
replacement of the catalog is between its two steps, all links that are known are those that the
catalog gives, and links that were resolved become known exactly if there was no invalidation since
their caller noted the generation. -/
theorem known_coherent (settings : Settings) (catalog : Catalog) {tasks : List Task}
    (htasks : ∀ task ∈ tasks, task.IsNew) :
    let start := Shared.start settings catalog tasks
    (∀ order, .drops ∉ (start.run order).tasks → ∀ x ∈ (start.run order).tenant.known,
      LinkMap.ofCatalog (start.run order).tenant.settings (start.run order).tenant.catalog x.1 =
        .ok x.2) ∧
    ∀ before i after, ∀ entity, (start.run before).tasks[i]? = some (.misses entity) →
      let s := start.run (before ++ i :: after)
      ∀ e generation m, s.tasks[i]? = some (.resolves e generation m) →
        e = entity ∧ (s.step i).tenant =
          if ((start.run before).step i).invalidations after = 0 then
            { s.tenant with known := (entity, m) :: s.tenant.known.filter (·.1 ≠ entity) }
          else s.tenant := by
  intro start
  have hsound (order : List Nat) : (start.run order).Sound :=
    (Shared.Sound.of_isNew htasks settings catalog).run order
  refine ⟨fun order hdrops x hx => ((hsound order).known x hx).resolve_right hdrops, ?_⟩
  intro before i after entity hbefore s e generation m hi
  have hs : s = ((start.run before).step i).run after := start.run_append before (i :: after)
  -- What the caller noted is the generation before the steps that follow.
  have hnoted : ((start.run before).step i).tasks[i]? =
      some (.starts entity (start.run before).tenant.generation) := by
    rw [Shared.step_eq hbefore]
    exact List.getElem?_set_self (List.getElem?_eq_some_iff.1 hbefore).1
  have hsame : ((start.run before).step i).tenant.generation =
      (start.run before).tenant.generation := by rw [Shared.step_eq hbefore]; rfl
  obtain ⟨task, htask, hsince⟩ := Shared.since_run ⟨_, hnoted, rfl, rfl⟩ after
  rw [← hs, hi] at htask
  cases htask
  obtain ⟨rfl, rfl⟩ := hsince
  refine ⟨rfl, ?_⟩
  have hgeneration := Shared.generation_run ((start.run before).step i) after
  rw [← hs, hsame] at hgeneration
  rw [Shared.step_eq hi]
  show s.tenant.keep e m _ = _
  have hkept : s.tenant.generation = (start.run before).tenant.generation ↔
      ((start.run before).step i).invalidations after = 0 := by rw [hgeneration, Nat.add_eq_left]
  simp only [keep, hkept]

/-- While a caller resolves the links of notes, a catalog takes over in which they have tags. What
was resolved is not kept, and the next caller makes the new links known. -/
theorem known_coherent_replaced :
    let f := Field.new "f" "tags" (.connection (.between "tag" .many .many))
    let old : Catalog := ⟨[.new "note" "Note" "NOTE" []], [], []⟩
    let new : Catalog := ⟨[.new "note" "Note" "NOTE" [f], .new "tag" "Tag" "TAG" []], [], []⟩
    let l : Link := ⟨"f", "tags", "tags__relation", .manyToMany, "tag", "TAG", true,
      .junction "JOINMN_NOTE_TAG_tags" "NOTE" "TAG" "uuid" "uuid"⟩
    let tasks : List Task := [.wants "note", .replaces new, .wants "note"]
    let s := (Shared.start {} old tasks).run [0, 0, 0, 1, 1]
    let order := [0, 0, 0, 1, 1, 0, 2, 2, 2, 2]
    let done := ((Shared.start {} old tasks).run order).tenant
    (∀ task ∈ tasks, task.IsNew) ∧ s.tasks[0]? = some (.resolves "note" 0 ⟨"note", []⟩) ∧
      (s.step 0).tenant = s.tenant ∧ done.known = [("note", ⟨"note", [l]⟩)] ∧
      LinkMap.ofCatalog done.settings done.catalog "note" = .ok ⟨"note", [l]⟩ := by
  intro f old new l tasks s order done
  have htasks : ∀ task ∈ tasks, task.IsNew := by
    simp [tasks, Task.IsNew]
  have hmisses : ((Shared.start {} old tasks).run [0]).tasks[0]? = some (.misses "note") := rfl
  have hresolves : s.tasks[0]? = some (.resolves "note" 0 ⟨"note", []⟩) := rfl
  have hinvalidations :
      (((Shared.start {} old tasks).run [0]).step 0).invalidations [0, 1, 1] = 1 := rfl
  have htasksDone : ((Shared.start {} old tasks).run order).tasks =
      [.answered (.ok ⟨"note", []⟩), .finished, .answered (.ok ⟨"note", [l]⟩)] := by
    dsimp only [order, tasks, new, old, l, f]
    rfl
  have hknown :
      ((Shared.start {} old tasks).run order).tenant.known = [("note", ⟨"note", [l]⟩)] := by
    dsimp only [order, tasks, new, old, l, f]
    rfl
  obtain ⟨hfresh, hkept⟩ := known_coherent {} old htasks
  refine ⟨htasks, hresolves, ?_, hknown, ?_⟩
  · have h := (hkept [0] 0 [0, 1, 1] "note" hmisses _ _ _ hresolves).2
    rwa [hinvalidations, if_neg (by decide)] at h
  · refine hfresh order ?_ ("note", ⟨"note", [l]⟩) ?_
    · rw [htasksDone]
      simp
    · rw [hknown]
      exact List.mem_singleton_self _

end CatalogQuery.Tenant
