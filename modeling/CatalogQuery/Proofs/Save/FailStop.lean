import CatalogQuery.Proofs.Save.Statements
import CatalogQuery.Proofs.Save.Updating

/-!
# Writing until something fails

A change reads first and then knows what it is going to write. Main statement: it writes the statements
of its plan in their order, each once, until one of them fails; that failure ends it, and only reads are
ever sent again.
-/

namespace CatalogQuery

open Write

/-! ## Plans -/

/-- What a change is going to write, and how it goes on after that. -/
inductive Plan (α : Type) where
  /-- Statements that are all known. -/
  | listed (statements : List Sql.Write) (last : Program α)
  /-- A row, and the statements that are written with its number. -/
  | numbered (row : Sql.Write) (others : Nat → List Sql.Write) (last : Nat → Program α)

namespace Plan

variable {α β : Type}

/-- The statements in their order, when the database gives `number` to the first row. -/
def statements : Plan α → (number : Nat) → List Sql.Write
  | listed statements _, _ => statements
  | numbered row others _, number => row :: others number

def map (f : α → β) : Plan α → Plan β
  | listed statements last => listed statements (f <$> last)
  | numbered row others last => numbered row others fun number => f <$> last number

/-- Whether nothing is written after the statements. -/
def EndsReading (s : Session) : Plan α → Prop
  | listed _ last => s.OnlyReads last
  | numbered _ _ last => ∀ number, s.OnlyReads (last number)

theorem EndsReading.map {s : Session} {plan : Plan α} (h : plan.EndsReading s) (f : α → β) :
    (plan.map f).EndsReading s := by
  cases plan with
  | listed statements last => exact Session.OnlyReads.map h
  | numbered row others last => exact fun number => (h number).map

end Plan

namespace Session

variable {α β : Type}

/-- Writes what a plan says. -/
def carryOut (s : Session) : Plan α → Program α
  | .listed statements last => do
    s.executeAll statements
    last
  | .numbered row others last => do
    let number ← s.execute row
    s.executeAll (others number)
    last number

theorem carryOut_map (s : Session) (plan : Plan α) (f : α → β) :
    s.carryOut (plan.map f) = f <$> s.carryOut plan := by
  cases plan <;> simp only [carryOut, Plan.map, map_bind]

/-- The columns that a new row has besides those that are given. -/
def ownColumns (e : Entity) (input : Json.Members) : Program (List (String × Json)) :=
  match e.key with
  | .uuid => do
    let key ← keyFor e input
    pure [(e.keyColumn, key)]
  | .id => pure []

/-- A new row as links are written for it, when the database gives `number` to it. -/
def newBase (e : Entity) (columns : List (String × Json)) (number : Nat) : Base :=
  let row := rowOf columns
  let key := match e.key with
    | .uuid => (Json.find e.keyColumn row).getD .null
    | .id => Json.ofNat number
  ⟨e, Json.insert e.keyColumn key row, key⟩

def createPlan (s : Session) (entity : String) (values : Json) (caller : Caller) :
    Program (Plan SaveOutcome) := do
  let catalog ← Program.catalog
  let e ← Program.ofResult (catalog.entity entity)
  let links ← Program.linksOf entity
  let input ← Program.ofResult (inputMembers values)
  let p ← Program.ofResult (prepare s.settings catalog e links input true)
  if !p.errors.isEmpty then pure (.listed [] (pure (.invalid p.errors)))
  else
    let own ← ownColumns e input
    let columns := own ++ p.columns
    pure (.numbered (.insert e.table (assignments columns ++ newTimes s.settings))
      (fun number => p.links.flatMap fun v =>
        v.keys.flatMap (Write.relate (newBase e columns number) v.link v.keyColumn))
      fun number => s.saved e (newBase e columns number).key caller)

def updatePlan (s : Session) (entity : String) (key values : Json) (caller : Caller) :
    Program (Plan SaveOutcome) := do
  let catalog ← Program.catalog
  let e ← Program.ofResult (catalog.entity entity)
  let links ← Program.linksOf entity
  let input ← Program.ofResult (inputMembers values)
  let p ← Program.ofResult (prepare s.settings catalog e links input false)
  if !p.errors.isEmpty then pure (.listed [] (pure (.invalid p.errors)))
  else
    let base ← s.lockedRow e key caller entity
    let stored ← p.links.mapM (s.currentKeys base)
    let u : Update := ⟨catalog, links, e, input, p, base, stored⟩
    pure (.listed (u.rowWrites s.settings ++ u.relinks u.pairs) (s.saved e base.key caller))

def deletePlan (s : Session) (entity : String) (key : Json) (caller : Caller) :
    Program (Plan Unit) := do
  let catalog ← Program.catalog
  let e ← Program.ofResult (catalog.entity entity)
  let links ← Program.linksOf entity
  let base ← s.lockedRow e key caller entity
  pure (.listed (leaveJunctions base links ++ [.delete e.table [base.isRow]]) (pure ()))

def changeLinksPlan (s : Session) (entity : String) (key : Json) (field : String) (linked : Json)
    (caller : Caller) (add : Bool) : Program (Plan Unit) := do
  let catalog ← Program.catalog
  let e ← Program.ofResult (catalog.entity entity)
  let links ← Program.linksOf entity
  match links.get field with
  | none => Program.ofResult (.error (.invalidInput (.notConnection field e.name)))
  | some l => do
    let target ← Program.ofResult (catalog.entity l.target)
    let keyColumn := l.keys.linkedColumn target
    let base ← s.lockedRow e key caller entity
    let keys := Json.distinct [] (Compile.linkedKeys linked keyColumn)
    let statements := if add then Write.relate base l keyColumn else Write.unrelate base l keyColumn
    pure (.listed (keys.flatMap statements) (pure ()))

/-! ## A change carries out its plan -/

theorem executeAll_append (s : Session) (ws us : List Sql.Write) :
    s.executeAll (ws ++ us) = (do s.executeAll ws; s.executeAll us) := by
  induction ws with
  | nil => rfl
  | cons w ws ih => simp only [List.cons_append, executeAll, ih, bind_assoc]

theorem insertRow_eq (s : Session) (e : Entity) (input : Json.Members) (p : Prepared) :
    s.insertRow e input p = (do
      let own ← ownColumns e input
      let columns := own ++ p.columns
      let number ← s.execute (.insert e.table (assignments columns ++ newTimes s.settings))
      pure (newBase e columns number)) := by
  unfold insertRow ownColumns newBase
  cases e.key with
  | uuid => simp only [bind_assoc, pure_bind]
  | id => rfl

theorem create_eq (s : Session) (entity : String) (values : Json) (caller : Caller) :
    s.create entity values caller = s.createPlan entity values caller >>= s.carryOut := by
  simp only [create, createPlan, bind_assoc]
  refine bind_congr fun catalog => bind_congr fun e => bind_congr fun links => ?_
  refine bind_congr fun input => bind_congr fun p => ?_
  by_cases herrors : p.errors.isEmpty
  · simp only [herrors, Bool.not_true, Bool.false_eq_true, if_false, insertRow_eq, bind_assoc,
      pure_bind]
    rfl
  · simp only [herrors, Bool.not_false, if_true]
    rfl

theorem update_eq (s : Session) (entity : String) (key values : Json) (caller : Caller) :
    s.update entity key values caller =
      s.updatePlan entity key values caller >>= s.carryOut := by
  simp only [update, updatePlan, bind_assoc]
  refine bind_congr fun catalog => bind_congr fun e => bind_congr fun links => ?_
  refine bind_congr fun input => bind_congr fun p => ?_
  by_cases herrors : p.errors.isEmpty
  · simp only [herrors, Bool.not_true, Bool.false_eq_true, if_false, bind_assoc]
    refine bind_congr fun base => bind_congr fun stored => ?_
    show _ = (do s.executeAll _; s.saved e base.key caller)
    rw [executeAll_append]
    unfold Update.rowWrites
    dsimp only
    generalize (assignments p.columns ++
      if s.settings.updatedAt then [⟨"updated_at", .now⟩] else []) = row
    cases row with
    | nil => rfl
    | cons a row =>
      show (do let _ ← s.execute _; _) = _
      simp only [executeAll, List.isEmpty_cons, Bool.false_eq_true, if_false, bind_assoc, pure_bind]
      rfl
  · simp only [herrors, Bool.not_false, if_true]
    rfl

theorem delete_eq (s : Session) (entity : String) (key : Json) (caller : Caller) :
    s.delete entity key caller = s.deletePlan entity key caller >>= s.carryOut := by
  simp only [delete, deletePlan, bind_assoc]
  refine bind_congr fun catalog => bind_congr fun e => bind_congr fun links => ?_
  exact bind_congr fun base => (bind_pure _).symm

theorem changeLinks_eq (s : Session) (entity : String) (key : Json) (field : String)
    (linked : Json) (caller : Caller) (add : Bool) :
    s.changeLinks entity key field linked caller add =
      s.changeLinksPlan entity key field linked caller add >>= s.carryOut := by
  simp only [changeLinks, changeLinksPlan, bind_assoc]
  refine bind_congr fun catalog => bind_congr fun e => bind_congr fun links => ?_
  cases links.get field with
  | none => rfl
  | some l =>
    simp only [bind_assoc]
    exact bind_congr fun target => bind_congr fun base => (bind_pure _).symm

/-! ## Planning writes nothing -/

theorem onlyReads_keyFor (s : Session) (e : Entity) (input : Json.Members) :
    s.OnlyReads (keyFor e input) := by
  have hnew : s.OnlyReads (Json.str <$> Program.newKey) :=
    OnlyReads.map (.silent ⟨trivial, fun _ _ => trivial⟩)
  unfold keyFor
  split
  · split
    · exact hnew
    · exact .pure _
  · exact hnew

theorem onlyReads_ownColumns (s : Session) (e : Entity) (input : Json.Members) :
    s.OnlyReads (ownColumns e input) := by
  unfold ownColumns
  split
  · exact (s.onlyReads_keyFor e input).bind fun key => .pure _
  · exact .pure _

theorem onlyReads_createPlan (s : Session) (entity : String) (values : Json) (caller : Caller) :
    s.OnlyReads (s.createPlan entity values caller) := by
  unfold createPlan
  refine .bind .catalog fun catalog => .bind .ofResult fun e => .bind (.linksOf _) fun links => ?_
  refine .bind .ofResult fun input => .bind .ofResult fun p => ?_
  split
  · exact .pure _
  · exact (s.onlyReads_ownColumns e input).bind fun own => .pure _

theorem onlyReads_updatePlan (s : Session) (entity : String) (key values : Json)
    (caller : Caller) : s.OnlyReads (s.updatePlan entity key values caller) := by
  unfold updatePlan
  refine .bind .catalog fun catalog => .bind .ofResult fun e => .bind (.linksOf _) fun links => ?_
  refine .bind .ofResult fun input => .bind .ofResult fun p => ?_
  split
  · exact .pure _
  · refine (s.onlyReads_lockedRow e key caller entity).bind fun base => ?_
    exact (OnlyReads.mapM (s.onlyReads_currentKeys base) _).bind fun stored => .pure _

theorem onlyReads_deletePlan (s : Session) (entity : String) (key : Json) (caller : Caller) :
    s.OnlyReads (s.deletePlan entity key caller) :=
  .bind .catalog fun _ => .bind .ofResult fun e => .bind (.linksOf _) fun _ =>
    (s.onlyReads_lockedRow e key caller entity).bind fun _ => .pure _

theorem onlyReads_changeLinksPlan (s : Session) (entity : String) (key : Json) (field : String)
    (linked : Json) (caller : Caller) (add : Bool) :
    s.OnlyReads (s.changeLinksPlan entity key field linked caller add) := by
  unfold changeLinksPlan
  refine .bind .catalog fun catalog => .bind .ofResult fun e => .bind (.linksOf _) fun links => ?_
  split
  · exact .ofResult
  · exact .bind .ofResult fun target =>
      (s.onlyReads_lockedRow e key caller entity).bind fun base => .pure _

theorem yields_createPlan (s : Session) (entity : String) (values : Json) (caller : Caller) :
    (s.createPlan entity values caller).Yields (Plan.EndsReading s) := by
  unfold createPlan
  refine .next fun catalog => .next fun e => .next fun links => .next fun input => .next fun p => ?_
  split
  · exact .pure (OnlyReads.pure _)
  · exact .next fun own => .pure fun number => s.onlyReads_saved ..

theorem yields_updatePlan (s : Session) (entity : String) (key values : Json) (caller : Caller) :
    (s.updatePlan entity key values caller).Yields (Plan.EndsReading s) := by
  unfold updatePlan
  refine .next fun catalog => .next fun e => .next fun links => .next fun input => .next fun p => ?_
  split
  · exact .pure (OnlyReads.pure _)
  · exact .next fun base => .next fun stored => .pure (s.onlyReads_saved ..)

theorem yields_deletePlan (s : Session) (entity : String) (key : Json) (caller : Caller) :
    (s.deletePlan entity key caller).Yields (Plan.EndsReading s) :=
  .next fun _ => .next fun _ => .next fun _ => .next fun _ => .pure (OnlyReads.pure _)

theorem yields_changeLinksPlan (s : Session) (entity : String) (key : Json) (field : String)
    (linked : Json) (caller : Caller) (add : Bool) :
    (s.changeLinksPlan entity key field linked caller add).Yields (Plan.EndsReading s) := by
  unfold changeLinksPlan
  refine .next fun catalog => .next fun e => .next fun links => ?_
  split
  · exact .ofResult fun _ h => by cases h
  · exact .next fun target => .next fun base => .pure (OnlyReads.pure _)

end Session

/-- How a call that writes finds out what it is going to write. -/
def Call.plan? (s : Session) (caller : Caller) : Call → Option (Program (Plan Unit))
  | create entity values => some (Plan.map (fun _ => ()) <$> s.createPlan entity values caller)
  | update entity key values =>
    some (Plan.map (fun _ => ()) <$> s.updatePlan entity key values caller)
  | delete entity key => some (s.deletePlan entity key caller)
  | relate entity key field linked => some (s.changeLinksPlan entity key field linked caller true)
  | unrelate entity key field linked =>
    some (s.changeLinksPlan entity key field linked caller false)
  | _ => none

/-- A call plans, writing nothing, and carries out what it has planned. -/
theorem Call.program_eq_of_plan {s : Session} {caller : Caller} {call : Call}
    {planning : Program (Plan Unit)} (h : call.plan? s caller = some planning) :
    call.program s caller = planning >>= s.carryOut ∧ s.OnlyReads planning ∧
      planning.Yields (Plan.EndsReading s) := by
  have hmap {p : Program SaveOutcome} {plan : Program (Plan SaveOutcome)}
      (hp : p = plan >>= s.carryOut) (hplan : plan.Yields (Plan.EndsReading s)) :
      (fun _ => ()) <$> p = (Plan.map (fun _ => ()) <$> plan) >>= s.carryOut ∧
        (Plan.map (fun _ : SaveOutcome => ()) <$> plan).Yields (Plan.EndsReading s) := by
    constructor
    · rw [hp, map_bind, bind_map_left]
      exact bind_congr fun plan => (s.carryOut_map plan _).symm
    · rw [map_eq_pure_bind]
      exact hplan.bind fun plan hends => .pure (hends.map _)
  cases call with
  | create entity values =>
    cases h
    obtain ⟨hprogram, hends⟩ :=
      hmap (s.create_eq entity values caller) (s.yields_createPlan entity values caller)
    exact ⟨hprogram, (s.onlyReads_createPlan ..).map, hends⟩
  | update entity key values =>
    cases h
    obtain ⟨hprogram, hends⟩ :=
      hmap (s.update_eq entity key values caller) (s.yields_updatePlan entity key values caller)
    exact ⟨hprogram, (s.onlyReads_updatePlan ..).map, hends⟩
  | delete entity key =>
    cases h
    exact ⟨s.delete_eq .., s.onlyReads_deletePlan .., s.yields_deletePlan ..⟩
  | relate entity key field linked | unrelate entity key field linked =>
    cases h
    exact ⟨s.changeLinks_eq .., s.onlyReads_changeLinksPlan .., s.yields_changeLinksPlan ..⟩
  | find | count | user | roles | scopes | scopesOf | displayNames => cases h

/-! ## Runs that stop at a failure -/

namespace Session

variable {s : Session} {α β : Type}

/-- How a run goes that goes on only as long as nothing fails. A read is sent again after failures that
may pass, a write never is. -/
inductive Proceeds (s : Session) {α : Type} : List Exchange → Result α → Prop
  | ended (r : Result α) : Proceeds s [] r
  | unsent {x : Exchange} {t : List Exchange} {r : Result α} (hx : x.request.statement? = none)
    (h : Proceeds s t r) : Proceeds s (x :: t) r
  | read {statement : Sql.Select} {retries : Nat} {t u : List Exchange} {rows : List Row}
    {r : Result α} (hretries : s.Rereads statement retries)
    (hread : Program.IsRead s.channel statement retries t (.ok rows)) (h : Proceeds s u r) :
    Proceeds s (t ++ u) r
  | readFailed {statement : Sql.Select} {retries : Nat} {t : List Exchange}
    {failure : DatabaseFailure} (hretries : s.Rereads statement retries)
    (hread : Program.IsRead s.channel statement retries t (.error failure)) :
    Proceeds s t (.error (.sql statement.sql.toText failure))
  | written {w : Sql.Write} {number : Nat} {t : List Exchange} {r : Result α}
    (h : Proceeds s t r) : Proceeds s (⟨.execute s.channel w, .ok number⟩ :: t) r
  | writeFailed (w : Sql.Write) (failure : DatabaseFailure) :
    Proceeds s [⟨.execute s.channel w, .error failure⟩] (.error (.sql w.sql.toText failure))

namespace Proceeds

theorem of_quiet {t : List Exchange} (h : Exchange.Quiet t) (r : Result α) : s.Proceeds t r := by
  induction t with
  | nil => exact .ended r
  | cons x t ih =>
    obtain ⟨hx, ht⟩ := List.forall_mem_cons.1 h
    apply Proceeds.unsent ?_ (ih ht)
    obtain ⟨request, answer⟩ := x
    cases request with
    | fetch | execute | lock => exact hx.elim
    | catalog | links | consult | notice | newKey => rfl

/-- What follows a part that has not failed. -/
theorem append {t u : List Exchange} {a : α} {r : Result β}
    (ht : s.Proceeds t (.ok a : Result α)) (hu : s.Proceeds u r) : s.Proceeds (t ++ u) r := by
  generalize ha : (Except.ok a : Result α) = first at ht
  induction ht with
  | ended => exact hu
  | unsent hx _ ih => exact .unsent hx (ih ha)
  | read hretries hread _ ih =>
    rw [List.append_assoc]
    exact .read hretries hread (ih ha)
  | readFailed => cases ha
  | written _ ih => exact .written (ih ha)
  | writeFailed => cases ha

/-- A failure stays the same whatever the run was to come to. -/
theorem failed {t : List Exchange} {e : QueryError} (h : s.Proceeds t (.error e : Result α)) :
    s.Proceeds t (.error e : Result β) := by
  generalize he : (Except.error e : Result α) = r at h
  induction h with
  | ended => exact .ended _
  | unsent hx _ ih => exact .unsent hx (ih he)
  | read hretries hread _ ih => exact .read hretries hread (ih he)
  | readFailed hretries hread =>
    cases he
    exact .readFailed hretries hread
  | written _ ih => exact .written (ih he)
  | writeFailed w failure =>
    cases he
    exact .writeFailed w failure

theorem of_bind {p : Program α} {f : α → Program β} {t : List Exchange} {r : Result β}
    (hp : ∀ t r, p.Runs t r → s.Proceeds t r) (hf : ∀ a t r, (f a).Runs t r → s.Proceeds t r)
    (h : (p >>= f).Runs t r) : s.Proceeds t r := by
  rcases Program.Runs.bind_iff.1 h with ⟨e, hfirst, rfl⟩ | ⟨t₁, t₂, a, rfl, hfirst, hrest⟩
  · exact (hp _ _ hfirst).failed
  · exact (hp _ _ hfirst).append (hf a _ _ hrest)

/-- After a write that has failed nothing is sent, and its failure is what comes of the run. -/
theorem of_failed_write {t before after : List Exchange} {r : Result α} {channel : Channel}
    {w : Sql.Write} {failure : DatabaseFailure} (h : s.Proceeds t r)
    (ht : t = before ++ ⟨.execute channel w, .error failure⟩ :: after) :
    after = [] ∧ r = .error (.sql w.sql.toText failure) := by
  -- No part of a read is a write, so the write stands behind it.
  have hread {statement : Sql.Select} {retries : Nat} {t : List Exchange}
      {answer : Except DatabaseFailure (List Row)}
      (hread : Program.IsRead s.channel statement retries t answer) :
      ⟨.execute channel w, .error failure⟩ ∉ t := by
    obtain ⟨failures, -, -, rfl⟩ := hread
    intro hmem
    rcases List.mem_append.1 hmem with hmem | hmem
    · obtain ⟨f, -, hx⟩ := List.mem_map.1 hmem
      cases hx
    · cases List.mem_singleton.1 hmem
  induction h generalizing before with
  | ended => simp at ht
  | unsent hx _ ih =>
    cases before with
    | nil =>
      cases ht
      cases hx
    | cons y before => exact ih (List.cons.inj ht).2
  | read hretries hparts _ ih =>
    rcases List.append_eq_append_iff.1 ht with ⟨middle, -, hrest⟩ | ⟨middle, hmiddle, hrest⟩
    · exact ih hrest
    · cases middle with
      | nil =>
        rw [← List.nil_append (_ :: after)] at hrest
        exact ih hrest.symm
      | cons y middle =>
        obtain ⟨rfl, -⟩ := List.cons.inj hrest
        exact absurd (by simp [hmiddle]) (hread hparts)
  | readFailed hretries hparts => exact absurd (by simp [ht]) (hread hparts)
  | written _ ih =>
    cases before with
    | nil => cases ht
    | cons y before => exact ih (List.cons.inj ht).2
  | writeFailed w' failure' =>
    cases before with
    | nil =>
      cases ht
      exact ⟨rfl, rfl⟩
    | cons y before => simp at ht

end Proceeds

theorem OnlyReads.proceeds {p : Program α} (h : s.OnlyReads p) {t : List Exchange} {r : Result α}
    (hrun : p.Runs t r) : s.Proceeds t r := by
  induction h generalizing t with
  | silent h => exact .of_quiet (h.quiet hrun) r
  | lock entity key =>
    obtain ⟨answer, u, rfl, rfl, rfl⟩ := hrun
    exact .unsent rfl (.ended _)
  | read hretries =>
    obtain ⟨answer, hread, rfl⟩ := Program.Runs.fetch hrun
    cases answer with
    | error failure => exact .readFailed hretries hread
    | ok rows =>
      rw [← List.append_nil t]
      exact .read hretries hread (.ended _)
  | bind _ _ ihp ihf => exact .of_bind (fun _ _ => ihp) (fun a _ _ => ihf a) hrun

theorem runs_execute {w : Sql.Write} {t : List Exchange} {r : Result Nat}
    (h : (s.execute w).Runs t r) :
    (∃ number, t = [⟨.execute s.channel w, .ok number⟩] ∧ r = .ok number) ∨
      ∃ failure, t = [⟨.execute s.channel w, .error failure⟩] ∧
        r = .error (.sql w.sql.toText failure) := by
  obtain ⟨answer, u, rfl, h⟩ := h
  cases answer with
  | ok number =>
    obtain ⟨rfl, rfl⟩ := h
    exact .inl ⟨number, rfl, rfl⟩
  | error failure =>
    obtain ⟨rfl, rfl⟩ := h
    exact .inr ⟨failure, rfl, rfl⟩

theorem proceeds_execute {w : Sql.Write} {t : List Exchange} {r : Result Nat}
    (h : (s.execute w).Runs t r) : s.Proceeds t r := by
  rcases runs_execute h with ⟨number, rfl, rfl⟩ | ⟨failure, rfl, rfl⟩
  · exact .written (.ended _)
  · exact .writeFailed w failure

theorem proceeds_executeAll {ws : List Sql.Write} {t : List Exchange} {r : Result Unit}
    (h : (s.executeAll ws).Runs t r) : s.Proceeds t r := by
  induction ws generalizing t r with
  | nil =>
    obtain ⟨rfl, -⟩ := h
    exact .ended r
  | cons w ws ih => exact .of_bind (fun _ _ => proceeds_execute) (fun _ _ _ => ih) h

theorem proceeds_carryOut {plan : Plan α} (hplan : plan.EndsReading s) {t : List Exchange}
    {r : Result α} (h : (s.carryOut plan).Runs t r) : s.Proceeds t r := by
  cases plan with
  | listed ws last =>
    exact .of_bind (fun _ _ => proceeds_executeAll) (fun _ _ _ => hplan.proceeds) h
  | numbered row others last =>
    refine .of_bind (fun _ _ => proceeds_execute) (fun number _ _ => ?_) h
    exact .of_bind (fun _ _ => proceeds_executeAll) (fun _ _ _ => (hplan number).proceeds)

/-! ## What is written of a plan -/

/-- What is written of a list comes first in it. -/
theorem writes_prefix_of_executeAll {ws : List Sql.Write} {t : List Exchange} {r : Result Unit}
    (h : (s.executeAll ws).Runs t r) : Exchange.writes t <+: ws := by
  induction ws generalizing t r with
  | nil =>
    obtain ⟨rfl, -⟩ := h
    exact List.nil_prefix
  | cons w ws ih =>
    rcases Program.Runs.bind_iff.1 h with ⟨e, hw, -⟩ | ⟨t₁, t₂, number, rfl, hw, hrest⟩
    · rcases runs_execute hw with ⟨number, rfl, hr⟩ | ⟨failure, rfl, -⟩
      · cases hr
      · exact (List.prefix_cons_inj w).2 List.nil_prefix
    · rw [Exchange.writes_append, Program.Runs.execute_ok hw]
      exact (List.prefix_cons_inj w).2 (ih hrest)

/-- A list is written to its end where nothing fails. -/
theorem writes_of_executeAll_bind {ws : List Sql.Write} {last : Program α}
    (hlast : s.OnlyReads last) {t : List Exchange} {r : Result α}
    (h : (do s.executeAll ws; last : Program α).Runs t r) :
    Exchange.writes t <+: ws ∧ ∀ a, r = .ok a → Exchange.writes t = ws := by
  rcases Program.Runs.bind_iff.1 h with ⟨e, hall, rfl⟩ | ⟨t₁, t₂, _, rfl, hall, hrest⟩
  · exact ⟨writes_prefix_of_executeAll hall, fun a ha => by cases ha⟩
  · have hwrites : Exchange.writes (t₁ ++ t₂) = ws := by
      rw [Exchange.writes_append, writes_of_executeAll hall, hlast.writes_eq_nil hrest,
        List.append_nil]
    exact ⟨hwrites ▸ List.prefix_rfl, fun _ _ => hwrites⟩

end Session

/-- The number that the database gave to the first row that was written. -/
def Exchange.firstNumber (t : List Exchange) : Nat :=
  (t.findSome? fun
    | ⟨.execute _ _, .ok number⟩ => some number
    | _ => none).getD 0

namespace Session

variable {s : Session} {α : Type}

theorem writes_of_carryOut {plan : Plan α} (hplan : plan.EndsReading s) {t : List Exchange}
    {r : Result α} (h : (s.carryOut plan).Runs t r) :
    Exchange.writes t <+: plan.statements (Exchange.firstNumber t) ∧
      ∀ a, r = .ok a → Exchange.writes t = plan.statements (Exchange.firstNumber t) := by
  cases plan with
  | listed ws last => exact writes_of_executeAll_bind hplan h
  | numbered row others last =>
    rcases Program.Runs.bind_iff.1 h with ⟨e, hrow, rfl⟩ | ⟨t₁, t₂, number, rfl, hrow, hrest⟩
    · rcases runs_execute hrow with ⟨number, rfl, hr⟩ | ⟨failure, rfl, -⟩
      · cases hr
      · exact ⟨(List.prefix_cons_inj row).2 List.nil_prefix, fun a ha => by cases ha⟩
    · obtain rfl := Program.Runs.execute_ok hrow
      obtain ⟨hstart, hall⟩ := writes_of_executeAll_bind (hplan number) hrest
      exact ⟨(List.prefix_cons_inj row).2 hstart, fun a ha => congrArg (row :: ·) (hall a ha)⟩

end Session

/-- Whether a run plans its statements before it writes any and then writes them in their order, each
once at most, and all of them if it succeeds. -/
def WritesAsPlanned (planning : Program (Plan Unit)) (t : List Exchange) (r : Result Unit) : Prop :=
  (∃ e, planning.Runs t (.error e) ∧ r = .error e ∧ Exchange.writes t = []) ∨
    ∃ plan before rest, t = before ++ rest ∧ planning.Runs before (.ok plan) ∧
      Exchange.writes before = [] ∧
      Exchange.writes rest <+: plan.statements (Exchange.firstNumber rest) ∧
      (r = .ok () → Exchange.writes rest = plan.statements (Exchange.firstNumber rest))

/-- Whatever a call writes was planned before, and it goes on only as long as nothing fails. -/
theorem Session.writesAsPlanned_of_runs {s : Session} {caller : Caller} {call : Call}
    {planning : Program (Plan Unit)} (hplanning : call.plan? s caller = some planning)
    {t : List Exchange} {r : Result Unit} (h : (call.program s caller).Runs t r) :
    WritesAsPlanned planning t r ∧ s.Proceeds t r := by
  obtain ⟨hprogram, hreads, hends⟩ := Call.program_eq_of_plan hplanning
  rw [hprogram] at h
  rcases Program.Runs.bind_iff.1 h with ⟨e, hplan, rfl⟩ | ⟨t₁, t₂, plan, rfl, hplan, hrest⟩
  · exact ⟨.inl ⟨e, hplan, rfl, hreads.writes_eq_nil hplan⟩, (hreads.proceeds hplan).failed⟩
  · have hend := hends.of_runs hplan
    obtain ⟨hstart, hall⟩ := writes_of_carryOut hend hrest
    exact ⟨.inr ⟨plan, t₁, t₂, rfl, hplan, hreads.writes_eq_nil hplan, hstart, hall ()⟩,
      (hreads.proceeds hplan).append (proceeds_carryOut hend hrest)⟩

/-- A call that writes goes on only as long as nothing fails. It writes what it has planned. After a
statement that fails it sends nothing more, and that failure is what comes of it. A read is sent again
only after a failure that may pass, and only as often as the session allows. -/
theorem Session.writes_until_failure {s : Session} {caller : Caller} {call : Call}
    {planning : Program (Plan Unit)} (hplanning : call.plan? s caller = some planning)
    {t : List Exchange} {r : Result Unit} (h : (call.program s caller).Runs t r) :
    WritesAsPlanned planning t r ∧ s.Proceeds t r ∧
      ∀ before channel w failure after,
        t = before ++ ⟨.execute channel w, .error failure⟩ :: after →
        after = [] ∧ r = .error (.sql w.sql.toText failure) := by
  obtain ⟨hplanned, hproceeds⟩ := Session.writesAsPlanned_of_runs hplanning h
  exact ⟨hplanned, hproceeds, fun _ _ _ _ _ ht => hproceeds.of_failed_write ht⟩

/-- Of three tags that a note is given the second one is refused, so the third one is not tried. -/
theorem Session.writes_until_failure_tags :
    let s : Session := ⟨{}, {}, .tenant⟩
    let system : Caller := ⟨none, "en", true⟩
    let f := Field.new "f" "tags" (.connection (.between "tag" .many .many))
    let catalog : Catalog :=
      ⟨[.new "note" "Note" "NOTE" [f], .new "tag" "Tag" "TAG" []], [], []⟩
    let linked : Json := .arr [.str "t1", .str "t2", .str "t3"]
    let call : Call := .relate "note" (.str "n1") "tags" linked
    let planning := s.changeLinksPlan "note" (.str "n1") "tags" linked system true
    let pair (tag : String) : Sql.Write :=
      .insertPair "JOINMN_NOTE_TAG_tags" (setTo "NOTE" (.str "n1")) (setTo "TAG" (.str tag))
    let answer : (r : Request) → r.Answer := fun
      | .execute _ (.insertPair _ _ ⟨_, .value (.str "t2")⟩) => .error .poolClosed
      | r => Request.steady catalog (LinkMap.ofCatalog {} catalog)
        (fun _ => [[("uuid", .str "n1")]]) r
    let t := ((call.program s system).transcript answer).1
    let r : Result Unit := .error (.sql (pair "t2").sql.toText .poolClosed)
    call.plan? s system = some planning ∧ (call.program s system).Runs t r ∧
      Exchange.writes t = [pair "t1", pair "t2"] ∧ WritesAsPlanned planning t r ∧
      s.Proceeds t r := by
  intro s system f catalog linked call planning pair answer t r
  have hplanning : call.plan? s system = some planning := rfl
  have hrun : (call.program s system).Runs t r := by
    apply Program.Runs.of_transcript
    dsimp only [s, system, f, catalog, linked, call, pair, answer, r]
    rfl
  have hwrites : Exchange.writes t = [pair "t1", pair "t2"] := by
    dsimp only [s, system, f, catalog, linked, call, pair, answer, t]
    rfl
  obtain ⟨hplanned, hproceeds, -⟩ := Session.writes_until_failure hplanning hrun
  exact ⟨hplanning, hrun, hwrites, hplanned, hproceeds⟩

end CatalogQuery
