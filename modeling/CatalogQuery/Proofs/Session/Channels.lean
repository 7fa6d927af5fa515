import CatalogQuery.Proofs.Session.Finding
import CatalogQuery.Proofs.Session.ReadOnly
import CatalogQuery.Save
import CatalogQuery.Session.Run

/-!
# The channel of a request

A session hands its channel on to whatever reads or writes for a request: scopes, keys that
placeholders stand for, filters of formulas, linked records, names of users, links and rows. Main
statement: in a transaction a request sends what it would send to the tenant, in the same order and
with the same outcome, and sends all of it in the transaction.
-/

namespace CatalogQuery

/-- Where a request hands a statement to, if it does. -/
def Request.channel? : Request → Option Channel
  | .fetch channel _ | .execute channel _ => some channel
  | _ => none

/-- The same exchange on another channel. -/
def Exchange.on (channel : Channel) : Exchange → Exchange
  | ⟨.fetch _ statement, answer⟩ => ⟨.fetch channel statement, answer⟩
  | ⟨.execute _ statement, answer⟩ => ⟨.execute channel statement, answer⟩
  | x => x

namespace Program

variable {α β : Type} {channel : Channel}

/-- The same program with every statement on one channel. -/
def on (channel : Channel) : Program α → Program α
  | done a => done a
  | failed e => failed e
  | ask (.fetch _ statement) next =>
    ask (.fetch channel statement) fun answer => (next answer).on channel
  | ask (.execute _ statement) next =>
    ask (.execute channel statement) fun answer => (next answer).on channel
  | ask r next => ask r fun answer => (next answer).on channel

@[simp]
theorem on_pure (a : α) : (Pure.pure a : Program α).on channel = Pure.pure a := rfl

@[simp]
theorem on_bind (p : Program α) (f : α → Program β) :
    (p >>= f).on channel = p.on channel >>= fun a => (f a).on channel := by
  induction p with
  | done a | failed e => rfl
  | ask r next ih =>
    have hnext : (fun answer => (Program.bind (next answer) f).on channel) =
        fun answer => Program.bind ((next answer).on channel) fun a => (f a).on channel :=
      funext ih
    cases r <;> exact congrArg (ask _) hnext

@[simp]
theorem on_map (p : Program α) (f : α → β) : (f <$> p).on channel = f <$> p.on channel := by
  simp only [map_eq_pure_bind, on_bind, on_pure]

/-- Nothing changes where no statement is sent. -/
theorem Silent.on {p : Program α} (h : p.Silent) : p.on channel = p := by
  induction p with
  | done a | failed e => rfl
  | ask r next ih =>
    have hnext : (fun answer => (next answer).on channel) = next :=
      funext fun answer => ih answer (h.2 answer trivial)
    cases r with
    | fetch | execute | lock => exact h.1.elim
    | catalog | links | consult | notice | newKey => exact congrArg (ask _) hnext

@[simp]
theorem on_catalog : Program.catalog.on channel = Program.catalog := rfl

@[simp]
theorem on_newKey : Program.newKey.on channel = Program.newKey := rfl

@[simp]
theorem on_lock (entity key : String) :
    (Program.lock entity key).on channel = Program.lock entity key := rfl

@[simp]
theorem on_notice (n : Notice) : (Program.notice n).on channel = Program.notice n := rfl

@[simp]
theorem on_ofResult (r : Result α) : (ofResult r).on channel = ofResult r := Silent.ofResult.on

@[simp]
theorem on_withLinks (f : Links → Traced α) : (withLinks f).on channel = withLinks f :=
  Silent.withLinks.on

@[simp]
theorem on_linksOf (entity : String) : (linksOf entity).on channel = linksOf entity :=
  (Silent.linksOf entity).on

@[simp]
theorem on_fetch (c : Channel) (statement : Sql.Select) (retries : Nat) :
    (Program.fetch c statement retries).on channel = Program.fetch channel statement retries := by
  induction retries with
  | zero =>
    refine congrArg (ask (.fetch channel statement)) (funext fun answer => ?_)
    cases answer <;> rfl
  | succ retries ih =>
    refine congrArg (ask (.fetch channel statement)) (funext fun answer => ?_)
    cases answer with
    | ok rows => rfl
    | error failure =>
      dsimp only
      split
      · exact ih
      · rfl

@[simp]
theorem on_execute (c : Channel) (statement : Sql.Write) :
    (Program.execute c statement).on channel = Program.execute channel statement := by
  refine congrArg (ask (.execute channel statement)) (funext fun answer => ?_)
  cases answer <;> rfl

@[simp]
theorem on_mapM (f : α → Program β) (as : List α) :
    (as.mapM f).on channel = as.mapM fun a => (f a).on channel := by
  induction as with
  | nil => rfl
  | cons a as ih => simp only [List.mapM_cons, on_bind, on_pure, ih]

/-! ## Runs on another channel -/

/-- A program that is put on a channel makes the same requests and sends its statements there. -/
theorem runs_on_iff {p : Program α} {t : List Exchange} {r : Result α} :
    (p.on channel).Runs t r ↔
      ∃ u : List Exchange, t = u.map (Exchange.on channel) ∧ p.Runs u r := by
  induction p generalizing t with
  | done a | failed e =>
    constructor
    · rintro ⟨rfl, rfl⟩
      exact ⟨[], rfl, rfl, rfl⟩
    · rintro ⟨u, rfl, rfl, rfl⟩
      exact ⟨rfl, rfl⟩
  | ask request next ih =>
    cases request <;>
    · constructor
      · rintro ⟨answer, u, rfl, hnext⟩
        obtain ⟨v, rfl, hrun⟩ := (ih answer).1 hnext
        refine ⟨_ :: v, ?_, answer, v, rfl, hrun⟩
        rfl
      · rintro ⟨_, rfl, answer, v, rfl, hrun⟩
        exact ⟨answer, _, rfl, (ih answer).2 ⟨v, rfl, hrun⟩⟩

theorem channel_of_on (x : Exchange) {c : Channel}
    (h : (x.on channel).request.channel? = some c) : c = channel := by
  obtain ⟨request, answer⟩ := x
  cases request with
  | fetch | execute => exact (Option.some.inj h).symm
  | catalog | links | consult | notice | lock | newKey => cases h

end Program

/-- The same session on another channel. -/
def Session.on (s : Session) (channel : Channel) : Session := { s with channel }

namespace Directory

variable (d : Directory) (c channel : Channel)

@[simp]
theorem on_user (username : String) : (d.user c username).on channel = d.user channel username := by
  simp [user]

@[simp]
theorem on_roles (username : String) :
    (d.roles c username).on channel = d.roles channel username := by
  simp [roles]

@[simp]
theorem on_scopes (held : List Role) : (d.scopes c held).on channel = d.scopes channel held := by
  rw [scopes, scopes]
  split <;> simp

@[simp]
theorem on_displayNames (usernames : List String) :
    (d.displayNames c usernames).on channel = d.displayNames channel usernames := by
  rw [displayNames, displayNames]
  split <;> simp

@[simp]
theorem on_scopesOf (username : String) :
    (d.scopesOf c username).on channel = d.scopesOf channel username := by
  simp only [scopesOf, Program.on_bind, on_user]
  refine bind_congr fun found => ?_
  cases found with
  | none => simp
  | some u =>
    dsimp only
    split <;> simp

end Directory

namespace Session

variable (s : Session) (channel : Channel)

@[simp]
theorem on_fetch (statement : Sql.Select) :
    (s.fetch statement).on channel = (s.on channel).fetch statement := Program.on_fetch ..

@[simp]
theorem on_execute (statement : Sql.Write) :
    (s.execute statement).on channel = (s.on channel).execute statement := Program.on_execute ..

@[simp]
theorem on_sight (caller : Caller) :
    (s.sight caller).on channel = (s.on channel).sight caller := by
  rw [sight, sight]
  split
  · rfl
  split
  · rfl
  · simp [Session.on]

end Session

/-! ## Reducing -/

namespace Reduce

variable (channel : Channel)

@[simp]
theorem on_walk (s : Session) (env : Links → Compile.Env) (startKey username : String)
    (hops : List (Option Hop × Hop)) (keys : List Json) :
    (walk s env startKey username hops keys).on channel =
      walk (s.on channel) env startKey username hops keys := by
  induction hops generalizing keys with
  | nil => rfl
  | cons hop rest ih =>
    obtain ⟨before, hop⟩ := hop
    simp only [walk, Program.on_bind, Program.on_withLinks, Session.on_fetch]
    refine bind_congr fun select => bind_congr fun rows => ?_
    split
    · rfl
    · exact ih _

/-- The same context with the session on another channel. -/
def Context.on (ctx : Context) (channel : Channel) : Context :=
  { ctx with session := ctx.session.on channel }

variable (ctx : Context)

theorem on_membership {expand expand' : Expand}
    (hexpand : ∀ stored, (expand stored).on channel = expand' stored) (e : Entity) (r : Rule)
    (stored : StoredSource) (column : Option String) :
    (membership ctx expand e r stored column).on channel =
      membership (ctx.on channel) expand' e r stored column := by
  simp only [membership, Program.on_bind, hexpand, Program.on_withLinks, Session.on_fetch,
    Program.on_pure]
  rfl

theorem on_sameAsCaller (e : Entity) (r : Rule) :
    (sameAsCaller ctx e r).on channel = sameAsCaller (ctx.on channel) e r := by
  simp only [sameAsCaller, Program.on_bind, Program.on_withLinks]
  refine bind_congr fun found => ?_
  cases found with
  | settled c => rfl
  | chain path startKey =>
    simp only [Program.on_bind, on_walk, Program.on_pure]
    rfl

theorem on_placeholder {expand expand' : Expand}
    (hexpand : ∀ stored, (expand stored).on channel = expand' stored) (e : Entity) (r : Rule) :
    (placeholder ctx expand e r).on channel = placeholder (ctx.on channel) expand' e r := by
  rw [placeholder.eq_def, placeholder.eq_def]
  split
  case h_1 | h_2 | h_3 | h_4 | h_5 | h_6 =>
    simp only [Program.on_bind, Program.on_withLinks, on_membership channel ctx hexpand]
    rfl
  case h_7 | h_8 => exact Program.on_withLinks _
  case h_9 | h_10 => exact on_sameAsCaller channel ctx e r
  case h_11 => exact Program.on_ofResult _

theorem on_replaceEach {f f' : Rule → Program Condition} (hf : ∀ r, (f r).on channel = f' r)
    (p : Rule → Bool) (turns : Nat) (c : Condition) :
    (replaceEach p f turns c).on channel = replaceEach p f' turns c := by
  induction turns generalizing c with
  | zero => rfl
  | succ turns ih =>
    rw [replaceEach, replaceEach]
    split
    · rfl
    · simp only [Program.on_bind, hf]
      refine bind_congr fun node => ?_
      split
      · exact ih _
      · rfl

theorem on_reduceWith {expand expand' : Expand}
    (hexpand : ∀ stored, (expand stored).on channel = expand' stored) (entity : String)
    (c : Condition) :
    (reduceWith ctx expand entity c).on channel = reduceWith (ctx.on channel) expand' entity c := by
  have hall (e : Entity) (passes : List (List RuleOp)) (c : Condition) :
      (replaceAll ctx expand e passes c).on channel =
        replaceAll (ctx.on channel) expand' e passes c := by
    induction passes generalizing c with
    | nil => rfl
    | cons ops rest ih =>
      simp only [replaceAll, Program.on_bind, ih,
        on_replaceEach channel (on_placeholder channel ctx hexpand e)]
  simp only [reduceWith, Program.on_bind, Program.on_ofResult, hall]
  rfl

@[simp]
theorem on_cyclic (chain : List String) : (cyclic chain).on channel = cyclic chain := by
  simp [cyclic]

@[simp]
theorem on_reduceTree (levels : Nat) (visiting : List String) (entity : String) (c : Condition) :
    (reduceTree ctx levels visiting entity c).on channel =
      reduceTree (ctx.on channel) levels visiting entity c := by
  induction levels generalizing visiting entity c with
  | zero => exact on_reduceWith channel ctx (fun stored => on_cyclic channel _) entity c
  | succ levels ih =>
    refine on_reduceWith channel ctx (fun stored => ?_) entity c
    split
    · exact on_cyclic channel _
    · exact ih _ _ _

@[simp]
theorem on_fieldFilters (links : LinkMap) (fields : List Field)
    (filters : List (String × Condition)) : (fieldFilters ctx links fields filters).on channel =
      fieldFilters (ctx.on channel) links fields filters := by
  induction fields generalizing filters with
  | nil => rfl
  | cons f rest ih =>
    rw [fieldFilters, fieldFilters]
    split
    · split
      · exact ih _
      · exact ih _
      · simp only [Program.on_bind, on_reduceTree, ih]
        rfl
    · exact ih _

@[simp]
theorem on_formulaFilters (s : Session) (entities : List Entity) (caller : Caller) :
    (formulaFilters s entities caller).on channel =
      formulaFilters (s.on channel) entities caller := by
  have hall (ctx : Context) (filters : List (String × Condition)) :
      (entityFilters ctx entities filters).on channel =
        entityFilters (ctx.on channel) entities filters := by
    induction entities generalizing filters with
    | nil => rfl
    | cons e rest ih =>
      simp only [entityFilters, Program.on_bind, Program.on_linksOf, on_fieldFilters, ih]
  simp only [formulaFilters, Program.on_bind, Program.on_catalog, hall]
  rfl

@[simp]
theorem on_reduce (s : Session) (entity : String) (c : Condition) (caller : Caller) :
    (reduce s entity c caller).on channel = reduce (s.on channel) entity c caller := by
  simp only [reduce, Program.on_bind, Program.on_catalog, Program.on_ofResult, Session.on_sight,
    on_reduceTree]
  rfl

end Reduce

/-! ## Finding -/

namespace Linked

variable (s : Session) (channel : Channel)

theorem on_mergeNames (target : Entity) (found : List (String × Row)) :
    (mergeNames s target found).on channel = mergeNames (s.on channel) target found := by
  rw [mergeNames, mergeNames]
  dsimp only
  split
  · rfl
  split
  · rfl
  · simp [Session.on]

theorem on_read (target : Entity) (l : Link) (keys : List Json) (minimal : Bool) :
    (read s target l keys minimal).on channel = read (s.on channel) target l keys minimal := by
  rw [read, read]
  split
  · rfl
  · simp only [Program.on_bind, Session.on_fetch, on_mergeNames]
    rfl

theorem on_readAll (catalog : Catalog) (rows : List Row) (minimal : Bool) (links : List Link) :
    (readAll s catalog rows minimal links).on channel =
      readAll (s.on channel) catalog rows minimal links := by
  induction links with
  | nil => rfl
  | cons l rest ih =>
    rw [readAll, readAll]
    split
    · simp only [Program.on_bind, on_read, ih, Program.on_pure]
    · simp only [Program.on_bind, ih, Program.on_pure]

@[simp]
theorem on_populate (e : Entity) (rows : List Row) (p : Populate) (minimal : Bool) :
    (populate s e rows p minimal).on channel = populate (s.on channel) e rows p minimal := by
  rw [populate, populate]
  split
  · rfl
  · simp only [Program.on_bind, Program.on_catalog, Program.on_linksOf, on_readAll,
      Program.on_pure]

end Linked

namespace Session

variable (s : Session) (channel : Channel)

@[simp]
theorem on_formulaFilters (catalog : Catalog) (e : Entity) (o : FindOptions) (caller : Caller) :
    (s.formulaFilters catalog e o caller).on channel =
      (s.on channel).formulaFilters catalog e o caller := by
  rw [formulaFilters, formulaFilters]
  split <;> simp

theorem on_find (entity : String) (o : FindOptions) (caller : Caller) :
    (s.find entity o caller).on channel = (s.on channel).find entity o caller := by
  simp only [find, Program.on_bind, Program.on_catalog, Program.on_ofResult, Reduce.on_reduce,
    on_formulaFilters, Program.on_withLinks, on_fetch, Linked.on_populate]
  rfl

theorem on_count (entity : String) (o : FindOptions) (caller : Caller) :
    (s.count entity o caller).on channel = (s.on channel).count entity o caller := by
  simp only [count, Program.on_bind, Program.on_catalog, Program.on_ofResult, Reduce.on_reduce,
    on_formulaFilters, Program.on_withLinks, on_fetch, Program.on_pure]
  rfl

@[simp]
theorem on_findOne (entity : String) (key : Json) (p : Populate) (caller : Caller) :
    (s.findOne entity key p caller).on channel = (s.on channel).findOne entity key p caller := by
  simp only [findOne, Program.on_bind, on_find, Program.on_pure]

@[simp]
theorem on_readRow (e : Entity) (key : Json) (caller : Caller) :
    (s.readRow e key caller).on channel = (s.on channel).readRow e key caller := by
  simp only [readRow, Program.on_bind, Program.on_catalog, on_formulaFilters,
    Program.on_withLinks, on_fetch, Program.on_pure]
  rfl

/-! ## Changing -/

@[simp]
theorem on_executeAll (ws : List Sql.Write) :
    (s.executeAll ws).on channel = (s.on channel).executeAll ws := by
  induction ws with
  | nil => rfl
  | cons w rest ih => simp only [executeAll, Program.on_bind, on_execute, ih]

@[simp]
theorem on_orNotFound {α : Type} (e : Entity) (key : Json) (found : Option α) :
    (orNotFound e key found).on channel = orNotFound e key found := by
  cases found <;> rfl

@[simp]
theorem on_saved (e : Entity) (key : Json) (caller : Caller) :
    (s.saved e key caller).on channel = (s.on channel).saved e key caller := by
  simp [saved]

@[simp]
theorem on_keyFor (e : Entity) (input : Json.Members) :
    (keyFor e input).on channel = keyFor e input := by
  rw [keyFor]
  split
  · split <;> simp
  · simp

@[simp]
theorem on_insertRow (e : Entity) (input : Json.Members) (p : Write.Prepared) :
    (s.insertRow e input p).on channel = (s.on channel).insertRow e input p := by
  rw [insertRow, insertRow]
  split <;>
  · simp only [Program.on_bind, on_keyFor, on_execute, Program.on_pure]
    rfl

@[simp]
theorem on_lockedRow (e : Entity) (key : Json) (caller : Caller) (entity : String) :
    (s.lockedRow e key caller entity).on channel =
      (s.on channel).lockedRow e key caller entity := by
  simp [lockedRow]

@[simp]
theorem on_currentKeys (b : Write.Base) (v : Write.LinkValues) :
    (s.currentKeys b v).on channel = (s.on channel).currentKeys b v := by
  rw [currentKeys, currentKeys]
  split <;> simp

theorem on_create (entity : String) (values : Json) (caller : Caller) :
    (s.create entity values caller).on channel = (s.on channel).create entity values caller := by
  simp only [create, Program.on_bind, Program.on_catalog, Program.on_ofResult, Program.on_linksOf]
  refine bind_congr fun catalog => bind_congr fun e => bind_congr fun links => ?_
  refine bind_congr fun input => bind_congr fun p => ?_
  split <;> simp

theorem on_update (entity : String) (key values : Json) (caller : Caller) :
    (s.update entity key values caller).on channel =
      (s.on channel).update entity key values caller := by
  simp only [update, Program.on_bind, Program.on_catalog, Program.on_ofResult, Program.on_linksOf]
  refine bind_congr fun catalog => bind_congr fun e => bind_congr fun links => ?_
  refine bind_congr fun input => bind_congr fun p => ?_
  split
  · rfl
  · simp only [Program.on_bind, on_lockedRow, Program.on_mapM, on_currentKeys]
    refine bind_congr fun base => bind_congr fun stored => ?_
    rw [show (s.on channel).settings = s.settings from rfl]
    generalize (assignments p.columns ++
      if s.settings.updatedAt then [⟨"updated_at", .now⟩] else []) = row
    split <;> simp

theorem on_delete (entity : String) (key : Json) (caller : Caller) :
    (s.delete entity key caller).on channel = (s.on channel).delete entity key caller := by
  simp [delete]

theorem on_changeLinks (entity : String) (key : Json) (field : String) (linked : Json)
    (caller : Caller) (add : Bool) : (s.changeLinks entity key field linked caller add).on channel =
      (s.on channel).changeLinks entity key field linked caller add := by
  simp only [changeLinks, Program.on_bind, Program.on_catalog, Program.on_ofResult,
    Program.on_linksOf]
  refine bind_congr fun catalog => bind_congr fun e => bind_congr fun links => ?_
  split <;> simp

end Session

/-! ## Whatever a caller asks for -/

/-- What a caller asks of a session, by the type of what comes of it. -/
inductive Verb : Type → Type where
  | find (entity : String) (o : FindOptions) : Verb (List Row)
  | findOne (entity : String) (key : Json) (p : Populate) : Verb (Option Row)
  | count (entity : String) (o : FindOptions) : Verb Int
  | create (entity : String) (values : Json) : Verb SaveOutcome
  | update (entity : String) (key values : Json) : Verb SaveOutcome
  | delete (entity : String) (key : Json) : Verb Unit
  | relate (entity : String) (key : Json) (field : String) (linked : Json) : Verb Unit
  | unrelate (entity : String) (key : Json) (field : String) (linked : Json) : Verb Unit

namespace Verb

variable {α : Type}

def program (s : Session) (caller : Caller) : Verb α → Program α
  | find entity o => s.find entity o caller
  | findOne entity key p => s.findOne entity key p caller
  | count entity o => s.count entity o caller
  | create entity values => s.create entity values caller
  | update entity key values => s.update entity key values caller
  | delete entity key => s.delete entity key caller
  | relate entity key field linked => s.relate entity key field linked caller
  | unrelate entity key field linked => s.unrelate entity key field linked caller

/-- A session on a channel does what it does on any other, and all of it on the channel. -/
theorem program_on (v : Verb α) (s : Session) (channel : Channel) (caller : Caller) :
    v.program (s.on channel) caller = (v.program s caller).on channel := by
  cases v with
  | find entity o => exact (s.on_find ..).symm
  | findOne entity key p => exact (s.on_findOne ..).symm
  | count entity o => exact (s.on_count ..).symm
  | create entity values => exact (s.on_create ..).symm
  | update entity key values => exact (s.on_update ..).symm
  | delete entity key => exact (s.on_delete ..).symm
  | relate entity key field linked | unrelate entity key field linked =>
    exact (s.on_changeLinks ..).symm

end Verb

/-- Whether a backend answers on a channel what another one answers on a channel of its own. Both
take notices and give keys in the same way. -/
structure Backend.StandsIn {σ : Type} (b' : Backend σ) (channel' : Channel) (b : Backend σ)
    (channel : Channel) : Prop where
  fetch : b'.fetch channel' = b.fetch channel
  execute : b'.execute channel' = b.execute channel
  notice : b'.notice = b.notice
  newKey : b'.newKey = b.newKey

/-- Where the same is answered on two channels, a program does the same on either. -/
theorem Program.runHolding_on {σ α : Type} {b b' : Backend σ} {channel channel' : Channel}
    (h : b'.StandsIn channel' b channel) (p : Program α) (taken : List RecordMutex)
    (site : Site σ) :
    (p.on channel').runHolding b' taken site = (p.on channel).runHolding b taken site := by
  induction p generalizing taken site with
  | done a | failed e => rfl
  | ask r next ih =>
    cases r with
    | catalog | links => exact ih _ _ _
    | consult entity =>
      have hconsult : site.consult b' entity = site.consult b entity := by
        rw [Site.consult, Site.consult, h.notice]
      simp only [on, runHolding, hconsult]
      exact ih _ _ _
    | notice n =>
      simp only [on, runHolding, h.notice]
      exact ih _ _ _
    | fetch c statement =>
      simp only [on, runHolding, h.fetch]
      exact ih _ _ _
    | execute c statement =>
      simp only [on, runHolding, h.execute]
      exact ih _ _ _
    | newKey =>
      simp only [on, runHolding, h.newKey]
      exact ih _ _ _
    | lock entity key =>
      simp only [on, runHolding]
      split
      · exact ih _ _ _
      · rfl

end CatalogQuery
